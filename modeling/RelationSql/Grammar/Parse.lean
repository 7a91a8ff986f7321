import RelationSql.Grammar.Step
import RelationSql.Source.Lexer

/-!
# Parsing a source

`runTokens` moves the machine over the tokens of a source up to the last one, and `parse` adds to a
fault the text that was not consumed. A tree is returned only for a source that is right to its end.
-/

namespace RelationSql.Grammar

open RelationSql.Source (Span Token TokenKind)

/-- The end of the source. Every parenthesis must be closed; all other open nodes are closed now. -/
def Machine.finish (m : Machine) (last : Token) : Except Fault Tree :=
  if m.expects.acceptsEnd || (m.expects == .relation && m.frames.isEmpty && m.root.isEmpty) then
    match m.paren? with
    | some frame => .error ⟨.unmatched, frame.opened⟩
    | none => do
      let m ← orNear last.span (m.closeWhile? fun _ => true)
      return .node .query m.root.reverse
  else .error (.near last.span)

/-- Moves the machine over all tokens. -/
def runTokens (m : Machine) : List Token → Except Fault Tree
  | [] => .error (.near ⟨0, 0⟩)
  | token :: rest =>
    match token.kind with
    | .invalid reason => .error ⟨.invalid reason, token.span⟩
    | .finish => m.finish token
    | _ =>
      match m.step token rest with
      | .error fault => .error fault
      | .ok (m, false) => runTokens m rest
      | .ok (m, true) =>
        match rest with
        | [] => runTokens m []
        | _ :: rest => runTokens m rest

/-- The tree of a list of tokens. -/
def parseTokens (tokens : List Token) : Except Fault Tree :=
  runTokens .start tokens

/-- A fault of a source with the text from its place on. -/
structure SyntaxError where
  cause : SyntaxCause
  span : Span
  remainder : String
  deriving DecidableEq, Repr, Inhabited

namespace SyntaxError

/-- The fault as it is told to the user. -/
def message (fault : SyntaxError) : String :=
  let place := " near '" ++ fault.remainder ++ "'."
  match fault.cause with
  | .unexpected => "Syntax error" ++ place
  | .invalid reason => reason.message ++ place
  | .unmatched => "Syntax error: unmatched parenthesis" ++ place

/-- A fault in a source. -/
def ofFault (source : String) (fault : Fault) : SyntaxError :=
  ⟨fault.cause, fault.span, fault.span.remainder source⟩

end SyntaxError

/-- The tree of a source. -/
def parse (source : String) : Except SyntaxError Tree :=
  match parseTokens (Source.lex source) with
  | .ok tree => .ok tree
  | .error fault => .error (.ofFault source fault)

end RelationSql.Grammar

import RelationSql.Grammar.Precedence

/-!
# The stack of open nodes

Tokens are read from left to right. A leaf joins the innermost open node. An operator or a clause
word first closes every open node that binds at least as tightly, then takes the newest tree of the
node that is now innermost as its own first child, and is open in turn. An open parenthesis is closed
by nothing but its closing parenthesis.

This module holds the state of that machine and the moves it is built from.
-/

namespace RelationSql.Grammar

open RelationSql.Source (Span)

/-! ## Faults -/

/-- What is wrong at a place of the source. -/
inductive SyntaxCause where
  /-- The token does not fit. -/
  | unexpected
  /-- The text is no token. -/
  | invalid (reason : Source.LexicalError)
  /-- The parenthesis is never closed. -/
  | unmatched
  deriving DecidableEq, Repr, Inhabited

/-- A fault and its place. -/
structure Fault where
  cause : SyntaxCause
  span : Span
  deriving DecidableEq, Repr, Inhabited

/-- The fault of a token that does not fit. -/
def Fault.near (span : Span) : Fault := ⟨.unexpected, span⟩

/-- A result that is missing because the token at this place does not fit. -/
def orNear {α : Type} (span : Span) : Option α → Except Fault α
  | some value => .ok value
  | none => .error (.near span)

/-! ## State -/

/-- What the machine expects next. -/
inductive Expect where
  | relation
  | afterRelation
  | operand
  | afterOperand
  | limitValue
  | afterLimit
  | offsetValue
  | pageName
  | orderItem
  | afterOrderItem
  | orderSeparator
  | groupItem
  | afterGroupItem
  | clauseEnd
  deriving DecidableEq, Repr, Inhabited

/-- May the source end here? -/
def Expect.acceptsEnd : Expect → Bool
  | afterRelation | afterOperand | afterLimit | afterOrderItem | orderSeparator | afterGroupItem
  | clauseEnd => true
  | relation | operand | limitValue | offsetValue | pageName | orderItem | groupItem => false

/-- An open node. -/
structure Frame where
  tag : Tag
  /-- The token that opened the node. -/
  opened : Span
  /-- The children so far, the newest first. -/
  done : List Tree
  deriving DecidableEq, Repr, Inhabited

namespace Frame

/-- The node as it is when it is closed. -/
def tree (frame : Frame) : Tree :=
  .node frame.tag frame.done.reverse

/-- May the node be closed? Only `between` insists on its number of children. -/
def isComplete (frame : Frame) : Bool :=
  frame.tag != .op .between || frame.done.length == 3

end Frame

/-- The state of the machine. -/
structure Machine where
  expects : Expect
  /-- The open nodes, the innermost first. -/
  frames : List Frame
  /-- The trees outside all open nodes, the newest first. -/
  root : List Tree
  deriving DecidableEq, Repr, Inhabited

namespace Machine

/-- The machine before the first token. -/
def start : Machine := ⟨.relation, [], []⟩

/-! ## Moves -/

/-- The same machine, expecting something else. -/
def expecting (next : Expect) (m : Machine) : Machine :=
  { m with expects := next }

/-- Adds a tree to the innermost open node. -/
def append (tree : Tree) (m : Machine) : Machine :=
  match m.frames with
  | [] => { m with root := tree :: m.root }
  | frame :: frames => { m with frames := { frame with done := tree :: frame.done } :: frames }

/-- Opens a node. -/
def push (frame : Frame) (m : Machine) : Machine :=
  { m with frames := frame :: m.frames }

/-- The newest tree of the innermost open node. -/
def last? (m : Machine) : Option Tree :=
  match m.frames with
  | [] => m.root.head?
  | frame :: _ => frame.done.head?

/-- Takes the newest tree off the innermost open node. -/
def takeLast? (m : Machine) : Option (Tree × Machine) :=
  match m.frames with
  | [] =>
    match m.root with
    | [] => none
    | tree :: root => some (tree, { m with root := root })
  | frame :: frames =>
    match frame.done with
    | [] => none
    | tree :: done => some (tree, { m with frames := { frame with done := done } :: frames })

/-- Closes the innermost open nodes as long as their tags satisfy `p`. Each closed node becomes the
newest child of the next one; `new` are the trees that the innermost node still has to receive. -/
def closeFrames (p : Tag → Bool) (new : List Tree) :
    List Frame → List Tree → Option (List Frame × List Tree)
  | [], root => some ([], new ++ root)
  | frame :: frames, root =>
    let frame := { frame with done := new ++ frame.done }
    if p frame.tag then
      if frame.isComplete then closeFrames p [frame.tree] frames root else none
    else some (frame :: frames, root)

/-- Closes the innermost open nodes as long as their tags satisfy `p`; nothing if one of them is a
`between` without its three children. -/
def closeWhile? (p : Tag → Bool) (m : Machine) : Option Machine :=
  (closeFrames p [] m.frames m.root).map fun (frames, root) =>
    { m with frames := frames, root := root }

/-- Closes every open node that binds at least as tightly as `least`. -/
def closeTier (least : Int) (span : Span) (m : Machine) : Except Fault Machine :=
  orNear span (m.closeWhile? fun tag => decide (least ≤ tier tag))

/-- Opens a node over the newest tree, after closing what binds at least as tightly. -/
def openOver (tag : Tag) (next : Expect) (span : Span) (m : Machine) : Except Fault Machine := do
  let m ← m.closeTier (tier tag) span
  let (tree, m) ← orNear span m.takeLast?
  return (m.push ⟨tag, span, [tree]⟩).expecting next

/-- Wraps the newest tree and `more` in a finished node, after closing what binds at least as
tightly. -/
def wrapLast (tag : Tag) (more : List Tree) (span : Span) (m : Machine) : Except Fault Machine := do
  let m ← m.closeTier (tier tag) span
  let (tree, m) ← orNear span m.takeLast?
  return m.append (.node tag (tree :: more))

/-! ## Questions -/

/-- The innermost open parenthesis. -/
def paren? (m : Machine) : Option Frame :=
  m.frames.find? fun frame => frame.tag.isParen

/-- Is the innermost open parenthesis one of an expression? -/
def insideExpression (m : Machine) : Bool :=
  m.paren?.any fun frame => frame.tag == .par

/-- Does a reachable `between` still wait for its `and`? `above` tells whether a node is open inside
the frames looked at. -/
def waitsForAnd (above : Bool) : List Frame → Bool
  | [] => false
  | frame :: frames =>
    if frame.tag = .op .between then frame.done.length + (if above then 1 else 0) == 2
    else if tier frame.tag ≤ operatorTier .between then false
    else waitsForAnd true frames

/-- Does the next `and` belong to an open `between`? -/
def pendingBetween (m : Machine) : Bool :=
  waitsForAnd false m.frames

/-- Is the newest tree a number? -/
def lastIsNumber (m : Machine) : Bool :=
  m.last?.any fun tree => tree.tag? == some .integer || tree.tag? == some .real

/-- Does the innermost open node hold a limit with its first value only? -/
def hasFirstLimit (m : Machine) : Bool :=
  m.frames.head?.any fun frame => frame.tag == .limit && frame.done.length == 2

end Machine

end RelationSql.Grammar

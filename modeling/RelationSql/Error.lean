import RelationSql.Grammar.Parse

/-!
# Errors of a compile

Each way in which a source can fail to compile, and the text that tells it to the user.
-/

namespace RelationSql

/-- Why a source does not compile or a statement cannot be written. -/
inductive CompileError where
  /-- The source is malformed. -/
  | malformed (fault : Grammar.SyntaxError)
  /-- No hook of the domain knows the relation. -/
  | unknownRelation (relation : String)
  /-- The field is neither one of the domain nor a selected key. -/
  | unknownField (field : String)
  /-- The domain does not know the scope. -/
  | invalidScope (scope : String)
  /-- A node of the tree cannot be rendered. -/
  | unsupportedOperator (name : String)
  /-- The domain refuses the method call. -/
  | functionNotAllowed (method : String)
  /-- A clause needs a limit that is not there. -/
  | pagination (reason : String)
  /-- A branch of an alternative lacks a table that another branch uses. -/
  | merge (table : String)
  /-- A custom query document is malformed. -/
  | configuration (reason : String)
  /-- The catalog has no domain of this name. -/
  | unknownDomain (domain : String)
  /-- The translator refuses an expression. -/
  | expression (source reason : String)
  /-- A bind has no value. -/
  | unboundValue (expression : String)
  /-- A hook of a domain failed with its own reason. -/
  | resolver (reason : String)
  /-- A hook of a domain failed while this source was compiled. -/
  | failed (source reason : String)
  deriving DecidableEq, Repr, Inhabited

/-- The error as it is told to the user. -/
def CompileError.message : CompileError → String
  | malformed fault => fault.message
  | unknownRelation relation => "Unknown relation '" ++ relation ++ "'."
  | unknownField field => "Unknown field '" ++ field ++ "'."
  | invalidScope scope => "Invalid scope '" ++ scope ++ "'."
  | unsupportedOperator name => "Unsupported operator '" ++ name ++ "'."
  | functionNotAllowed method => "SQL function '" ++ method ++ "' not allowed."
  | pagination reason => reason
  | merge table =>
    "Cannot merge OR branches: table '" ++ table ++ "' is missing in one branch."
  | configuration reason => "Configuration error: " ++ reason
  | unknownDomain domain => "Unknown domain '" ++ domain ++ "'."
  | expression source reason => "Invalid expression '" ++ source ++ "': " ++ reason
  | unboundValue bind => "No value bound for '" ++ bind ++ "'."
  | resolver reason => reason
  | failed source reason => "Failed to compile '" ++ source ++ "': " ++ reason

end RelationSql

import RelationSql.Tree.Basic

/-!
# Actions of a scripted domain

A domain can be described as data: for each hook a list of actions. An action takes part in the walk,
sets a variable, branches, or ends the hook. The texts of an action are templates over the variables.
-/

namespace RelationSql.Script

/-- A test on the walk. -/
inductive Condition where
  /-- The relation is the outermost of its chain. -/
  | first
  /-- The relation is the innermost of its chain. -/
  | last
  /-- A scope was asked for. -/
  | scoped
  /-- An alias for fields is set. -/
  | aliased
  | not (condition : Condition)
  | eq (left right : String)
  deriving DecidableEq, Repr, Inhabited

/-- A side of an equality. -/
inductive Side where
  | left
  | right
  deriving DecidableEq, Repr, Inhabited

/-- The kinds of error that a script can raise. -/
inductive Failure where
  | unknownRelation | unknownField | invalidScope | pagination | merge | configuration | resolver
  deriving DecidableEq, Repr, Inhabited

/-- One action. -/
inductive Action where
  | addTable (table : String)
  | addTableAs (use table : String)
  /-- Adds a table to the query without regard to scopes. -/
  | queryTable (use table : String) (avoidAlias : Bool)
  | filter (text : String)
  | set (target text : String)
  | tableAt (target table : String) (index : Int)
  | field (target name : String)
  | fieldAt (target name table : String) (index : Int)
  | resolve (target name : String)
  | attr (target name : String)
  | default (target key : String)
  | useDefaultScope
  | applyScope (scope : String)
  | applyDefaultScope
  | changeDomain (domain : String)
  | join (target table1 kind table2 clause : String) (name : Option String)
  | keyValue (target use table key tie : String)
  | select (field name : String)
  | setAlias (name : Option String)
  /-- Runs actions in a scope. -/
  | withScope (scope : String) (actions : List Action)
  /-- Sets a variable to a description of the walk. -/
  | info (target : String)
  /-- Renders a side of the equality that is being asked for. -/
  | process (target : String) (side : Side)
  /-- Renders a tree. -/
  | eval (target : String) (tree : Tree)
  | branch (condition : Condition) (then_ else_ : List Action)
  /-- Runs actions and sets a variable to how they ended. -/
  | attempt (target : String) (actions : List Action)
  /-- Ends the hook with a text. -/
  | emit (text : String)
  /-- Ends the hook, which declines. -/
  | decline
  | fail (failure : Failure) (reason : String)
  deriving Inhabited

/-- An action on a query that lacks a table. Its texts have slots for the table and its alias. -/
inductive Repair where
  | filter (text : String)
  | queryTable (use table : String) (avoidAlias : Bool)
  | fail (failure : Failure) (reason : String)
  deriving DecidableEq, Repr, Inhabited

end RelationSql.Script

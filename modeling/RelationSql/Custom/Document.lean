import RelationSql.Custom.Store
import RelationSql.Error
import RelationSql.Json.Printer
import RelationSql.Json.Reader

/-!
# Documents of custom queries

A document is a JSON object. It names its groups in exactly one of the members `group` (a string) and
`groups` (a list of strings); every other member is a domain with the definitions of its relations.
Domains are visited in ascending order of their names. A failure leaves the definitions of the domains
before it in the set.
-/

namespace RelationSql

/-- What is wrong with a document. -/
inductive DocumentError where
  | notJson
  | notObject
  | bothGroups
  | noGroups
  /-- An item of the list of groups is no string. -/
  | badGroup (item : Json)
  | badGroups
  | unknownDomain (domain : String)
  | badDefinitions (domain : String)
  deriving Repr, Inhabited

/-- The fault as it is told to the user, but for what the JSON reader says in its own words: it stands in the
place of `<json>`, and behind the domain whose definitions are bad, after a colon. Both texts are left out. -/
def DocumentError.message : DocumentError → String
  | notJson => "<json>"
  | notObject => "custom queries must be a mapping"
  | bothGroups => "use either 'group' or 'groups', not both"
  | noGroups => "missing 'group' or 'groups' key"
  | badGroup item => "invalid group " ++ item.text
  | badGroups => "invalid 'group' or 'groups' value"
  | unknownDomain domain => "unknown domain '" ++ domain ++ "' in custom queries"
  | badDefinitions domain => "invalid definitions for '" ++ domain ++ "'"

/-! ## Definitions -/

namespace CustomQuery

/-- The names of the parts, in the order in which a list gives them. -/
def partNames : List String :=
  ["select", "tables", "join_tables", "where", "order", "group", "having", "types", "main_class",
   "main_table"]

/-- Reads the parts, each by its name. -/
def ofParts? (part : String → Json) : Option CustomQuery := do
  return {
    select := ← (part "select").optional? Json.strings?
    tables := ← (part "tables").optional? Json.strings?
    joinTables := ← (part "join_tables").optional? (Json.dictionary? Json.strings?)
    filters := ← (part "where").optional? Json.strings?
    order := ← (part "order").optional? Json.string?
    group := ← (part "group").optional? Json.string?
    having := ← (part "having").optional? Json.string?
    types := ← (part "types").optional? (Json.dictionary? Json.string?)
    mainClass := ← (part "main_class").optional? Json.string?
    mainTable := ← (part "main_table").optional? Json.string? }

/-- The value of a part in a list of named parts. -/
def partIn (parts : List (String × Json)) (name : String) : Json :=
  (Dictionary.findIn name parts).getD .null

/-- Reads a definition: an object of parts, or a list of them in their order. An unknown part or an
item too many is refused; a part that is absent or `null` replaces nothing. -/
def ofJson? : Json → Option CustomQuery
  | .object members =>
    if members.all fun member => partNames.contains member.1 then ofParts? (partIn members)
    else none
  | .array items =>
    if items.length ≤ partNames.length then ofParts? (partIn (partNames.zip items)) else none
  | _ => none

end CustomQuery

namespace CustomQueries

/-! ## Groups -/

/-- The groups that a document names. -/
def documentGroups (members : List (String × Json)) : Except DocumentError (List String) :=
  match Dictionary.findIn "group" members, Dictionary.findIn "groups" members with
  | some (.string group), none => .ok [group]
  | none, some (.array (item :: items)) =>
    (item :: items).mapM fun item =>
      match item with
      | .string group => .ok group
      | other => .error (.badGroup other)
  | some _, some _ => .error .bothGroups
  | none, none => .error .noGroups
  | _, _ => .error .badGroups

/-! ## Loading -/

/-- Sets the definitions of a domain in one group. -/
def insertAll (group domain : String) (relations : Dictionary CustomQuery) (set : CustomQueries) :
    CustomQueries :=
  relations.entries.foldl (fun set entry => set.insert group domain entry.1 entry.2) set

/-- Sets the definitions of a domain in every group. -/
def insertGroups (groups : List String) (domain : String) (relations : Dictionary CustomQuery)
    (set : CustomQueries) : CustomQueries :=
  groups.foldl (fun set group => set.insertAll group domain relations) set

/-- Loads the domains of a document in order, up to the first that fails. -/
def loadDomains (groups : List String) (known : String → Bool) :
    List (String × Json) → CustomQueries → Except DocumentError Unit × CustomQueries
  | [], set => (.ok (), set)
  | (domain, definitions) :: domains, set =>
    if known domain then
      match definitions.dictionary? CustomQuery.ofJson? with
      | some relations => loadDomains groups known domains (set.insertGroups groups domain relations)
      | none => (.error (.badDefinitions domain), set)
    else (.error (.unknownDomain domain), set)

/-- The members of a document that are domains. -/
def documentDomains (members : List (String × Json)) : List (String × Json) :=
  members.filter fun member => member.1 != "group" && member.1 != "groups"

/-- Loads a document that was read. -/
def loadJson (document : Json) (known : String → Bool) (set : CustomQueries) :
    Except DocumentError Unit × CustomQueries :=
  match document with
  | .object members =>
    match documentGroups members with
    | .ok groups => loadDomains groups known (documentDomains members) set
    | .error fault => (.error fault, set)
  | _ => (.error .notObject, set)

/-- Loads the text of a document; yields the set as the load leaves it. -/
def load (document : String) (known : String → Bool) (set : CustomQueries) :
    Except CompileError Unit × CustomQueries :=
  let (outcome, set) :=
    match Json.parse? document with
    | some document => set.loadJson document known
    | none => (.error .notJson, set)
  (outcome.mapError fun fault => .configuration fault.message, set)

end CustomQueries

end RelationSql

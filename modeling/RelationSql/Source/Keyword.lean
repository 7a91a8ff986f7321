import RelationSql.Text.Scan

/-!
# Reserved words

The closed set of words that are never names. A word is recognised in any mix of ASCII capitals and
small letters.
-/

namespace RelationSql.Source

/-- A reserved word. -/
inductive Keyword where
  | where_ | from_ | in_ | limit | offset | paginate | order | group | having | by_
  | asc | desc
  | and | or | xor | not
  | like | regexp | is | between | null
  | div | mod | lt | le | eq | ne | ge | gt
  deriving DecidableEq, Repr, Inhabited

namespace Keyword

/-- The word as it is written in small letters. -/
def spelling : Keyword → String
  | where_ => "where"
  | from_ => "from"
  | in_ => "in"
  | limit => "limit"
  | offset => "offset"
  | paginate => "paginate"
  | order => "order"
  | group => "group"
  | having => "having"
  | by_ => "by"
  | asc => "asc"
  | desc => "desc"
  | and => "and"
  | or => "or"
  | xor => "xor"
  | not => "not"
  | like => "like"
  | regexp => "regexp"
  | is => "is"
  | between => "between"
  | null => "null"
  | div => "div"
  | mod => "mod"
  | lt => "lt"
  | le => "le"
  | eq => "eq"
  | ne => "ne"
  | ge => "ge"
  | gt => "gt"

/-- Every reserved word. -/
def all : List Keyword :=
  [where_, from_, in_, limit, offset, paginate, order, group, having, by_, asc, desc, and, or, xor,
   not, like, regexp, is, between, null, div, mod, lt, le, eq, ne, ge, gt]

/-- The reserved word with this spelling in any mix of ASCII cases. -/
def ofSpelling? (text : String) : Option Keyword :=
  all.find? fun keyword => keyword.spelling == Text.lower text

/-- **The list of reserved words is complete.** -/
theorem mem_all (keyword : Keyword) : keyword ∈ all := by
  cases keyword <;> decide

/-- **A reserved word is recognised by its own spelling.** -/
theorem ofSpelling?_spelling (keyword : Keyword) :
    ofSpelling? keyword.spelling = some keyword := by
  cases keyword <;> decide

end Keyword

end RelationSql.Source

import RelationSql.Walk.Host

/-!
# Scripted connections and translators

A connection and a translator described as data: both put fixed texts around what they are given. A
translator may also refuse the sources that contain a text.
-/

namespace RelationSql.Script

/-- Texts to be put before and after another one. -/
structure Affix where
  before : String
  after : String
  deriving DecidableEq, Repr, Inhabited

/-- The text between the two. -/
def Affix.around (affix : Affix) (text : String) : String :=
  affix.before ++ text ++ affix.after

/-- The connection that puts texts around the literals of values. -/
def Affix.quoting (affix : Affix) : Quoting := fun value =>
  affix.around value.inline

/-- A translator described as data. -/
structure Translation where
  affix : Affix
  /-- Sources that contain this text are refused. -/
  reject : Option String := none
  reason : String := ""
  deriving DecidableEq, Repr, Inhabited

/-- Does the translator refuse the source? -/
def Translation.refuses (translation : Translation) (source : String) : Bool :=
  translation.reject.any fun part => (Text.splitOnce? part.toList source.toList).isSome

/-- The translator that is described. -/
def Translation.translator (translation : Translation) : Translator := fun source =>
  if translation.refuses source then .error translation.reason
  else .ok (translation.affix.around source)

/-- The bindings of a list of values, the last of which counts for each expression, and a value for
all other expressions. -/
def bindingsOf (values : List (String × Value)) (fallback : Option Value) : Bindings :=
  fun expression => (Dictionary.ofList values).find? expression <|> fallback

end RelationSql.Script

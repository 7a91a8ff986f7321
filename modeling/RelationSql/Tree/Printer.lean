import RelationSql.Tree.Basic
import RelationSql.Text.Quoted
import RelationSql.Text.Visible

/-!
# The tree notation

A node is written in brackets: a colon, the name of its tag, and its children, each after a comma
and a space. Atoms are written quoted. The characters of a tree are given for any choice of the
characters shown as they are; the text of a tree shows those of `Text.isVisible`.
-/

namespace RelationSql.Tree

open RelationSql.Text

mutual

/-- The characters of a tree in the tree notation, where `visible` characters are shown as they
are. -/
def chars (visible : Char → Bool) : Tree → List Char
  | .atom text => quoteAtom visible text.toList
  | .node tag children =>
    '[' :: ':' :: tag.name.toList ++ charsAll visible children ++ [']']

/-- The characters of the children of a node, each after its comma. -/
def charsAll (visible : Char → Bool) : List Tree → List Char
  | [] => []
  | tree :: trees => ',' :: ' ' :: chars visible tree ++ charsAll visible trees

end

/-- The text of a tree in the tree notation. -/
def text (tree : Tree) : String :=
  String.ofList (tree.chars isVisible)

end RelationSql.Tree

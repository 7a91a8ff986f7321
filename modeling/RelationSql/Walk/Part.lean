import RelationSql.Walk.Host

/-!
# Trees with their renderings

A part is a tree together with the step that renders it, and the parts of its children. What a node
renders to is a function of its parts, so the walk over a whole tree is a fold (`Part.ofTree`).
-/

namespace RelationSql

/-- A tree, the step that renders it, and its children. -/
inductive Part where
  | mk (tree : Tree) (render : WalkM String) (parts : List Part)

namespace Part

/-- The tree of a part. -/
def tree : Part → Tree
  | mk tree _ _ => tree

/-- The step that renders a part. -/
def render : Part → WalkM String
  | mk _ render _ => render

/-- The parts of the children. -/
def parts : Part → List Part
  | mk _ _ parts => parts

mutual

/-- A tree whose nodes are rendered by `node`; an atom renders as its text. -/
def ofTree (node : Tag → List Part → WalkM String) : Tree → Part
  | .atom text => mk (.atom text) (pure text) []
  | .node tag children =>
    let parts := ofTrees node children
    mk (.node tag children) (node tag parts) parts

/-- The parts of a list of trees. -/
def ofTrees (node : Tag → List Part → WalkM String) : List Tree → List Part
  | [] => []
  | tree :: trees => ofTree node tree :: ofTrees node trees

end

/-- The parts of a list of trees are the parts of the trees. -/
theorem ofTrees_eq_map (node : Tag → List Part → WalkM String) (trees : List Tree) :
    ofTrees node trees = trees.map (ofTree node) := by
  induction trees with
  | nil => rfl
  | cons tree trees ih => rw [ofTrees, ih, List.map_cons]

/-- **The tree of the part of a tree is that tree.** -/
theorem tree_ofTree (node : Tag → List Part → WalkM String) (tree : Tree) :
    (ofTree node tree).tree = tree := by
  cases tree <;> rfl

/-- Renders parts in order. -/
def renderAll : List Part → WalkM (List String)
  | [] => return []
  | part :: parts => do
    let text ← part.render
    return text :: (← renderAll parts)

/-! ## Children of a node -/

/-- The child at an index; a node without it cannot be rendered. -/
def child (tag : Tag) (parts : List Part) (index : Nat) : WalkM Part :=
  match parts[index]? with
  | some part => return part
  | none => throw (.unsupportedOperator tag.name)

/-- Renders the child at an index. -/
def renderChild (tag : Tag) (parts : List Part) (index : Nat) : WalkM String := do
  (← child tag parts index).render

/-- The atom at an index; a node without it cannot be rendered. -/
def atomChild (tag : Tag) (parts : List Part) (index : Nat) : WalkM String := do
  match (← child tag parts index).tree.atom? with
  | some text => return text
  | none => throw (.unsupportedOperator tag.name)

end Part

end RelationSql

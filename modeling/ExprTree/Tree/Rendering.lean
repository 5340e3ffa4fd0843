import ExprTree.Tree
/-!
# Rendering

The written form of a tree: bare symbols by name, applications as a
parenthesised list of head and arguments. Types are not part of it;
`Tree.annotations` lists them.
-/

namespace ExprTree.Tree

def spineText : Tree → String
  | leaf s => s.name
  | node func (leaf s) => func.spineText ++ " " ++ s.name
  | node func arg => func.spineText ++ " (" ++ arg.spineText ++ ")"

def render : Tree → String
  | leaf s => s.name
  | t => "(" ++ t.spineText ++ ")"

/-- The types carried by symbols, in the order in which the symbols are written. -/
def annotations : Tree → List String
  | leaf s => s.annotation?.toList
  | node func arg => func.annotations ++ arg.annotations

end ExprTree.Tree

import ExprTree.Folding
import ExprTree.Hoisting
/-!
# Passes in order

Constant folding, then code motion, each with a record of what it did. Folding
comes first, so that repeated parts that have a value become literals before
they are considered for sharing.
-/

namespace ExprTree

inductive Pass where
  | folding
  | hoisting
deriving DecidableEq

def Pass.name : Pass → String
  | folding => "optimize"
  | hoisting => "code motion"

structure PassChoice where
  folding : Bool
  hoisting : Bool
deriving DecidableEq

namespace PassChoice

def both : PassChoice := ⟨true, true⟩

def onlyFolding : PassChoice := ⟨true, false⟩

def onlyHoisting : PassChoice := ⟨false, true⟩

def neither : PassChoice := ⟨false, false⟩

end PassChoice

/-- What a pass did: folds and branches dropped, or bindings introduced. -/
structure PassSummary where
  pass : Pass
  sizeBefore : Nat
  sizeAfter : Nat
  changes : Nat
deriving DecidableEq

structure PassRules where
  binders : Binders
  folder : Folder
  policy : SharePolicy
  fuel : Nat

namespace PassRules

def standard (fuel : Nat) : PassRules :=
  ⟨.standard, .literal, .standard, fuel⟩

def folding (rules : PassRules) : FoldRules :=
  ⟨rules.binders, rules.folder, rules.fuel⟩

def hoisting (rules : PassRules) : HoistRules :=
  ⟨rules.binders, rules.policy⟩

end PassRules

def Tree.foldIf (rules : PassRules) (choice : PassChoice) (t : Tree) :
    Except Fault (Tree × List PassSummary) := do
  if choice.folding then
    let folded ← t.fold rules.folding
    return (folded.tree, [⟨.folding, t.size, folded.tree.size, folded.changes⟩])
  else
    return (t, [])

def Tree.hoistIf (rules : PassRules) (choice : PassChoice) (t : Tree) :
    Except Fault (Tree × List PassSummary) := do
  if choice.hoisting then
    let hoisted ← t.hoist rules.hoisting
    return (hoisted.tree, [⟨.hoisting, t.size, hoisted.tree.size, hoisted.lets⟩])
  else
    return (t, [])

def Tree.transform (rules : PassRules) (choice : PassChoice) (t : Tree) :
    Except Fault (Tree × List PassSummary) := do
  let (t, folding) ← t.foldIf rules choice
  let (t, hoisting) ← t.hoistIf rules choice
  return (t, folding ++ hoisting)

end ExprTree

import ExprTree.Evaluation
import ExprTree.Tree.Alpha
/-!
# Constant folding

A bottom-up pass that replaces what can be computed in advance. Each result
comes with the variables that it still depends on: where there are none, the
expression is evaluated and its value put in its place. An evaluation that fails
leaves the expression as it is.

Conditions have rules of their own. A decided test leaves one branch, and equal
branches need no test. Functions are kept; calls of them are not.
-/

namespace ExprTree

/-- What to put for an expression of known value; `none` keeps the expression. -/
abbrev Folder := Tree → Value → Option Tree

namespace Folder

def literal : Folder :=
  fun _ v => v.literal?.map .leaf

def keep : Folder :=
  fun _ _ => none

def apply (folder : Folder) (t : Tree) (v : Value) : Tree :=
  (folder t v).getD t

end Folder

structure FoldRules where
  binders : Binders
  folder : Folder
  fuel : Nat

abbrev FoldM := StateT Nat (Except Fault)

def FoldM.record : FoldM Unit :=
  modify (· + 1)

namespace FoldRules

variable (rules : FoldRules)

/-- The value of an expression without variables, if its evaluation succeeds. -/
def value? (t : Tree) : Except Fault (Option Value) :=
  match evalClosed rules.fuel t with
  | none => .error .outOfFuel
  | some (.ok v) => .ok (some v)
  | some (.error _) => .ok none

/-- Put `head` over folded arguments that depend on `vars`, and fold the result
if it depends on nothing. Only a change of an application counts. -/
def finish (head : Symbol) (args : List Tree) (vars : VarSet) : FoldM (Tree × VarSet) := do
  let rebuilt ← Tree.reassemble head args
  if vars.isEmpty then
    match ← rules.value? rebuilt with
    | none => return (rebuilt, vars)
    | some v =>
        match rules.folder rebuilt v with
        | none => return (rebuilt, vars)
        | some folded =>
            if !rebuilt.isLeaf then
              FoldM.record
            return (folded, vars)
  else
    return (rebuilt, vars)

/-- The branch that a folded test on `vars` decides for, if it decides. -/
def decided? (test : Tree) (vars : VarSet) : Except Fault (Option Bool) := do
  if vars.isEmpty then
    match ← rules.value? test with
    | some (.bool b) => return some b
    | _ => return none
  else
    return none

mutual

/-- Fold a tree. The result comes with the variables it depends on. -/
def fold : Tree → FoldM (Tree × VarSet)
  | .leaf (.var id ty) => return (.leaf (.var id ty), .singleton id)
  | .leaf s => rules.finish s [] .empty
  | .node (.leaf (.lambda id arg result)) body => do
      let (body, vars) ← fold body
      let t ← Tree.reassemble (.lambda id arg result) [body]
      return (t, vars.erase id)
  | .node (.node (.node (.leaf (.cond ty)) test) thenBranch) elseBranch => do
      let (test, testVars) ← fold test
      match ← rules.decided? test testVars with
      | some taken =>
          FoldM.record
          if taken then fold thenBranch else fold elseBranch
      | none =>
          if Tree.alphaEq rules.binders thenBranch elseBranch then
            FoldM.record
            fold thenBranch
          else
            let (thenBranch, thenVars) ← fold thenBranch
            let (elseBranch, elseVars) ← fold elseBranch
            let branchVars := thenVars ∪ elseVars
            -- Branches may become equal by folding.
            if Tree.alphaEq rules.binders thenBranch elseBranch then
              FoldM.record
              return (thenBranch, branchVars)
            else
              rules.finish (.cond ty) [test, thenBranch, elseBranch] (testVars ∪ branchVars)
  | .node func arg => do
      let (args, vars) ← foldArgs func
      let (arg, argVars) ← fold arg
      rules.finish func.head (args ++ [arg]) (vars ∪ argVars)

def foldArgs : Tree → FoldM (List Tree × VarSet)
  | .leaf _ => return ([], .empty)
  | .node func arg => do
      let (args, vars) ← foldArgs func
      let (arg, argVars) ← fold arg
      return (args ++ [arg], vars ∪ argVars)

end

end FoldRules

structure Folded where
  tree : Tree
  /-- The variables that the tree depends on. -/
  vars : VarSet
  /-- Number of changes made. -/
  changes : Nat

def Tree.fold (rules : FoldRules) (t : Tree) : Except Fault Folded := do
  let ((tree, vars), changes) ← (rules.fold t).run 0
  return ⟨tree, vars, changes⟩

end ExprTree

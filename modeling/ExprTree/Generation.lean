import ExprTree.Draws
import ExprTree.Tree.Build
import ExprTree.Tree.Variables
import ExprTree.Value
/-!
# Generation of trees

Random well-typed trees of bounded depth. Functions appear only where they are
bound or called at once. A divisor may be any generated integer, so evaluation
can fail, but nothing that may fail is put into the test of a condition. Integer
trees generated earlier are used again from time to time, so that the result has
repeated parts.
-/

namespace ExprTree

/-- An integer tree that may be used again: the number of variables in scope
where it was made, and whether its evaluation may fail. -/
structure Reusable where
  depth : Nat
  mayFail : Bool
  tree : Tree

structure Growth (σ : Type) where
  draws : σ
  supply : Supply
  /-- Variables in scope, outermost first. -/
  scope : List VarId
  /-- Trees that may be used again, oldest first. -/
  pool : List Reusable

abbrev GrowthM (σ : Type) := StateT (Growth σ) (Except Fault)

namespace Growth

variable {σ : Type} (src : Source σ)

def coin (chance : Chance) : GrowthM σ Bool := do
  let g ← get
  let (answer, draws) := src.coin chance g.draws
  set { g with draws }
  return answer

def kind (n : Nat) (hn : 0 < n) : GrowthM σ (Fin n) := do
  let g ← get
  let (i, draws) := src.position n hn g.draws
  set { g with draws }
  return i

def pick {α : Type} (xs : List α) (hxs : xs ≠ []) : GrowthM σ α := do
  let i ← kind src xs.length (List.length_pos_iff.2 hxs)
  return xs.get i

def literal (low : Int) (n : Nat) (hn : 0 < n) : GrowthM σ Tree := do
  let g ← get
  let (i, draws) := src.distance n hn g.draws
  set { g with draws }
  return Build.int (Int64.ofInt (low + i.val))

def enter : GrowthM σ VarId := do
  let g ← get
  let (id, supply) ← g.supply.fresh
  set { g with supply, scope := g.scope ++ [id] }
  return id

/-- Leave the scope of the innermost variable, and forget what was made inside it. -/
def leave : GrowthM σ Unit :=
  modify fun g =>
    let scope := g.scope.dropLast
    { g with scope, pool := g.pool.filter (·.depth ≤ scope.length) }

def keep (mayFail : Bool) (tree : Tree) : GrowthM σ Unit :=
  modify fun g => { g with pool := g.pool ++ [⟨g.scope.length, mayFail, tree⟩] }

/-- The trees that may be used again here: where nothing may fail, only those
that cannot. -/
def reusable (mayFail : Bool) (g : Growth σ) : List Tree :=
  (g.pool.filter fun r => mayFail || !r.mayFail).map Reusable.tree

/-- A tree to use again, if there is one and the coin says so. -/
def reuse? (mayFail : Bool) : GrowthM σ (Option Tree) := do
  let trees := reusable mayFail (← get)
  if htrees : trees ≠ [] then
    if ← coin src .threeTenths then
      return some (← pick src trees htrees)
    else
      return none
  else
    return none

def intLiteral : GrowthM σ Tree :=
  literal src (-3) 13 (by decide)

def positiveLiteral : GrowthM σ Tree :=
  literal src 1 4 (by decide)

def intLeaf : GrowthM σ Tree := do
  let scope := (← get).scope
  if hscope : scope ≠ [] then
    if ← coin src .even then
      return Build.var (← pick src scope hscope) .int
    else
      intLiteral src
  else
    intLiteral src

section

variable (int bool : (mayFail : Bool) → GrowthM σ Tree) (mayFail : Bool)

/-- A divisor: any integer tree where failure is allowed, else a positive literal. -/
def divisor : GrowthM σ Tree := do
  if mayFail then
    if ← coin src .even then int mayFail else positiveLiteral src
  else
    positiveLiteral src

def arith (op : ArithOp) : GrowthM σ Tree := do
  let a ← int mayFail
  let b ← int mayFail
  Build.arith op a b

def compare (op : CompareOp) : GrowthM σ Tree := do
  let a ← int mayFail
  let b ← int mayFail
  Build.compare op a b

def quotient : GrowthM σ Tree := do
  let a ← int mayFail
  let b ← divisor src int mayFail
  Build.arith .div a b

/-- Choice between two trees of `branch`; nothing in the test may fail. -/
def choice (branch : (mayFail : Bool) → GrowthM σ Tree) : GrowthM σ Tree := do
  let test ← bool false
  let a ← branch mayFail
  let b ← branch mayFail
  Build.cond test a b

def binding : GrowthM σ Tree := do
  let bound ← int mayFail
  let id ← enter
  let body ← int mayFail
  leave
  Build.letIn id bound body

def immediateCall : GrowthM σ Tree := do
  let id ← enter
  let body ← int mayFail
  leave
  let arg ← int mayFail
  let func ← Build.lambda id .int body
  Build.call func arg

def compoundInt : GrowthM σ Tree := do
  let k ← kind src 10 (by decide)
  match k.val with
  | 0 | 1 => arith int mayFail .add
  | 2 => arith int mayFail .sub
  | 3 | 4 => arith int mayFail .mul
  | 5 => quotient src int mayFail
  | 6 => choice bool mayFail int
  | 7 => binding int mayFail
  | 8 => immediateCall int mayFail
  | _ => intLeaf src

def compoundBool : GrowthM σ Tree := do
  let k ← kind src 6 (by decide)
  match k.val with
  | 0 => compare int mayFail .eq
  | 1 | 2 => compare int mayFail .lt
  | 3 => do
      let a ← bool mayFail
      Build.negation a
  | 4 => do
      let a ← bool mayFail
      let b ← bool mayFail
      Build.conjunction a b
  | _ => choice bool mayFail bool

end

mutual

def int (depth : Nat) (mayFail : Bool) : GrowthM σ Tree :=
  match depth with
  | 0 => intLeaf src
  | depth + 1 => do
      match ← reuse? src mayFail with
      | some tree => return tree
      | none =>
          let tree ← compoundInt src (int depth) (bool depth) mayFail
          keep mayFail tree
          return tree

def bool (depth : Nat) (mayFail : Bool) : GrowthM σ Tree :=
  match depth with
  | 0 => do
      let b ← coin src .even
      return Build.bool b
  | depth + 1 => compoundBool src (int depth) (bool depth) mayFail

end

end Growth

/-- A generator of trees over a number of free integer variables. Variables bound
in its trees are new, across all trees of the generator. -/
structure Generator (σ : Type) where
  draws : σ
  supply : Supply
  freeVars : Nat

namespace Generator

variable {σ : Type}

def new (draws : σ) (freeVars : Nat) : Generator σ :=
  ⟨draws, ⟨freeVars⟩, freeVars⟩

def free (g : Generator σ) : List VarId :=
  List.range g.freeVars

/-- The environment in which each free variable is one more than its number. -/
def env (g : Generator σ) : Env :=
  Env.empty.bindAll (g.free.map fun id => (id, .ready (.int (Int64.ofNat (id + 1)))))

def grow (step : GrowthM σ Tree) (g : Generator σ) : Except Fault (Tree × Generator σ) := do
  let (tree, after) ← step.run ⟨g.draws, g.supply, g.free, []⟩
  return (tree, { g with draws := after.draws, supply := after.supply })

def intTree (src : Source σ) (depth : Nat) : Generator σ → Except Fault (Tree × Generator σ) :=
  grow (Growth.int src depth true)

def boolTree (src : Source σ) (depth : Nat) : Generator σ → Except Fault (Tree × Generator σ) :=
  grow (Growth.bool src depth true)

end Generator

end ExprTree

import ExprTree.Tree.Alpha
/-!
# Code motion

A pass that computes shared parts once. In each tree it looks for a part worth
a name: one that occurs more than once, or one that stands inside a function
without need of its parameter. Every occurrence is replaced by a new variable,
which a binding around the tree computes. Where no such part is found, or the
policy refuses the one found, the pass goes on with the arguments.
-/

namespace ExprTree

/-- The types of a binding: of what is bound, and of the tree around which it is put. -/
structure LetTypes where
  bound : Ty
  body : Ty
deriving DecidableEq

namespace LetTypes

def reference (types : LetTypes) (id : VarId) : Tree :=
  .leaf (.var id types.bound)

def letIn (types : LetTypes) (id : VarId) (bound body : Tree) : Except Fault Tree := do
  let func ← Tree.reassemble (.lambda id types.bound types.body) [body]
  Tree.reassemble (.letIn types.bound types.body) [bound, func]

end LetTypes

/-- Whether to bind the first tree around the second, and with which types. -/
abbrev SharePolicy := (bound body : Tree) → Option LetTypes

namespace SharePolicy

/-- Bind full trees in full trees, but no functions: they stay where they are used. -/
def standard : SharePolicy := fun bound body =>
  if bound.isFull && body.isFull && !bound.resultType.isFn then
    some ⟨bound.resultType, body.resultType⟩
  else
    none

def always : SharePolicy :=
  fun bound body => some ⟨bound.resultType, body.resultType⟩

end SharePolicy

namespace Tree

variable (b : Binders)

/-- Whether `t`, found inside `whole` under the binders of `crossed`, is worth a
name: it needs none of these binders, and it is inside one or occurs again. -/
def worthSharing (whole : Tree) (crossed : VarSet) (t : Tree) : Bool :=
  t.isFull && !t.isLeaf && !t.refersTo b crossed
    && (!crossed.isEmpty || decide (1 < count b t whole))

/-- The first part worth a name among the arguments of the spine and inside
them; a tree comes before its parts. -/
def shareableBelow? (whole : Tree) : (crossed : VarSet) → Tree → Option Tree
  | _, leaf _ => none
  | crossed, node func arg =>
      match func.binder? b with
      | some id =>
          let crossed := crossed.insert id
          if worthSharing b whole crossed arg then some arg
          else shareableBelow? whole crossed arg
      | none =>
          match shareableBelow? whole crossed func with
          | some t => some t
          | none =>
              if worthSharing b whole crossed arg then some arg
              else shareableBelow? whole crossed arg

def shareable? (t : Tree) : Option Tree :=
  if worthSharing b t .empty t then some t else shareableBelow? b t .empty t

end Tree

structure HoistRules where
  binders : Binders
  policy : SharePolicy

/-- The rewrites reported so far, by all runs that share the tally. -/
structure Tally where
  total : Nat
deriving DecidableEq

def Tally.update (tally : Tally) (rewrites : Nat) : Except Fault Tally := do
  let total ← word (tally.total + rewrites)
  return ⟨total⟩

structure HoistState where
  supply : Supply
  lets : Nat
  progress : Tally

abbrev HoistM := StateT HoistState (Except Fault)

namespace HoistM

def fresh : HoistM VarId := do
  let st ← get
  let (id, supply) ← st.supply.fresh
  set { st with supply }
  return id

def record : HoistM Unit :=
  modify fun st => { st with lets := st.lets + 1 }

def report (rewrites : Nat) : HoistM Unit := do
  let st ← get
  let progress ← st.progress.update rewrites
  set { st with progress }

def onArgs (step : Tree → HoistM Tree) : Tree → HoistM Tree
  | .leaf s => return .leaf s
  | .node func arg => do
      let func ← onArgs step func
      let arg ← step arg
      Tree.reapply func arg

end HoistM

/-- Move code in a tree. Each step works on smaller trees than the one before,
so the size of the tree is fuel enough. -/
def HoistRules.hoist (rules : HoistRules) : (fuel : Nat) → Tree → HoistM Tree
  | 0, _ => throw .outOfFuel
  | fuel + 1, t =>
      match t.shareable? rules.binders with
      | none => HoistM.onArgs (hoist rules fuel) t
      | some part =>
          match rules.policy part t with
          | none => HoistM.onArgs (hoist rules fuel) t
          | some types => do
              let bound ← hoist rules fuel part
              let id ← HoistM.fresh
              let body ← Tree.replace rules.binders part (types.reference id) t
              let body ← hoist rules fuel body
              HoistM.record
              HoistM.report 1
              types.letIn id bound body

structure Hoisted where
  tree : Tree
  /-- Number of bindings introduced. -/
  lets : Nat
  progress : Tally

/-- Move code in a tree, with new variables from `start` on. What the pass
reports is added to `progress`. -/
def Tree.hoistFrom (rules : HoistRules) (start : VarId) (t : Tree) (progress : Tally := ⟨0⟩) :
    Except Fault Hoisted := do
  let (tree, st) ← (rules.hoist t.size t).run ⟨⟨start⟩, 0, progress⟩
  return ⟨tree, st.lets, st.progress⟩

def Tree.hoist (rules : HoistRules) (t : Tree) : Except Fault Hoisted := do
  let start ← t.firstUnused rules.binders
  t.hoistFrom rules start

end ExprTree

import ExprTree.Proofs.Observed
/-!
# Failures inside tests

`eval` tells why an evaluation fails, not where. `evalMarked` is evaluation with
an observer that marks every failure that leaves the test of a condition. Nothing
catches a failure, so the mark tells whether the failure was raised while the
test of some condition was being evaluated.
-/

namespace ExprTree

/-- Why an evaluation fails, and whether it was inside the test of a condition. -/
structure Failure where
  error : EvalError
  inTest : Bool
deriving DecidableEq

def Failure.plain (e : EvalError) : Failure := ⟨e, false⟩

def markTest {α : Type} (r : Except Failure α) : Except Failure α :=
  r.mapError fun f => ⟨f.error, true⟩

/-- Results that are both values in relation `R`, or the same failure. -/
inductive Related {α β : Type} (R : α → β → Prop) : Except Failure α → Except Failure β → Prop where
  | ok {x : α} {y : β} : R x y → Related R (.ok x) (.ok y)
  | error (f : Failure) : Related R (.error f) (.error f)

theorem Related.mono {α β : Type} {R R' : α → β → Prop} {r : Except Failure α}
    {r' : Except Failure β} (h : Related R r r') (hR : ∀ x y, R x y → R' x y) :
    Related R' r r' := by
  cases h with
  | ok hxy => exact .ok (hR _ _ hxy)
  | error f => exact .error f

theorem Related.comp {α β γ : Type} {R : α → β → Prop} {Q : β → γ → Prop} {P : α → γ → Prop}
    {r : Except Failure α} {r' : Except Failure β} {r'' : Except Failure γ} (h : Related R r r')
    (h' : Related Q r' r'') (hP : ∀ x y z, R x y → Q y z → P x z) : Related P r r'' := by
  cases h with
  | ok hxy =>
      cases h' with
      | ok hyz => exact .ok (hP _ _ _ hxy hyz)
  | error f =>
      cases h' with
      | error => exact .error f

theorem Related.left_unique {α β : Type} {R : α → β → Prop} {r r' : Except Failure α}
    {m : Except Failure β} (h : Related R r m) (h' : Related R r' m)
    (hR : ∀ x y z, R x z → R y z → x = y) : r = r' := by
  cases h with
  | ok hx =>
      cases h' with
      | ok hy => rw [hR _ _ _ hx hy]
  | error f =>
      cases h' with
      | error => rfl

/-- A heap, and for each of its failed computations the mark of the failure. -/
structure MarkedHeap where
  heap : Heap
  inTest : Nat → Bool

namespace MarkedHeap

def start (s : MarkedHeap) (loc : Nat) : MarkedHeap :=
  { s with heap := s.heap.start loc }

def finish (s : MarkedHeap) (loc : Nat) : Except Failure Value → MarkedHeap
  | .ok v => { s with heap := s.heap.finish loc (.ok v) }
  | .error f =>
      ⟨s.heap.finish loc (.error f.error), fun l => if l = loc then f.inTest else s.inTest l⟩

def marked (s : MarkedHeap) (loc : Nat) : Except EvalError Value → Except Failure Value
  | .ok v => .ok v
  | .error e => .error ⟨e, s.inTest loc⟩

theorem heap_finish (s : MarkedHeap) (loc : Nat) (r : Except Failure Value) :
    (s.finish loc r).heap = s.heap.finish loc (r.mapError Failure.error) := by
  cases r <;> rfl

end MarkedHeap

def Observer.marks : Observer Failure MarkedHeap where
  error := Failure.error
  heap := MarkedHeap.heap
  raise := Failure.plain
  leaveTest f := ⟨f.error, true⟩
  move s h := { s with heap := h }
  finish := MarkedHeap.finish
  kept := MarkedHeap.marked
  stops := false
  error_raise _ := rfl
  error_leaveTest _ := rfl
  heap_move _ _ := rfl
  heap_finish := MarkedHeap.heap_finish
  mapError_kept _ _ r := by cases r <;> rfl

abbrev MarkedM := ObservedM Failure MarkedHeap

/-- Evaluate a tree as `eval` does, and mark failures of tests. -/
abbrev evalMarked : (fuel : Nat) → Tree → Env → MarkedM Value :=
  Observer.marks.eval

theorem evalMarked_erases (fuel : Nat) (t : Tree) (env : Env) (s : MarkedHeap) :
    eval fuel t env s.heap =
      (evalMarked fuel t env s).map fun p => (p.1.mapError Failure.error, p.2.heap) :=
  (Observer.marks.eval_tracks fuel t env).erases rfl s

end ExprTree

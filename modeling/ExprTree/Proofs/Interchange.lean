import ExprTree.Proofs.Lockstep
/-!
# Trees that evaluate alike

Values, environments and heaps agree with themselves, so two runs that start
from the same ones can be compared to their end. Trees that are equal up to the
names of bound variables may take the place of each other.
-/

namespace ExprTree

variable {c : Comparison}

/-! ## Values and heaps that agree with themselves -/

mutual

/-- All locations that the value mentions are in `live`. -/
inductive Value.Lives (live : Nat → Prop) : Value → Prop where
  | bool (b : Bool) : Value.Lives live (.bool b)
  | int (n : Int64) : Value.Lives live (.int n)
  | closure (tag : Nat) (param : VarId) (body : Tree) {env : Env} :
      Env.Lives live env → Value.Lives live (.closure tag param body env)

inductive Slot.Lives (live : Nat → Prop) : Slot → Prop where
  | ready {v : Value} : Value.Lives live v → Slot.Lives live (.ready v)
  | delayed {loc : Nat} : live loc → Slot.Lives live (.delayed loc)

inductive Env.Lives (live : Nat → Prop) : Env → Prop where
  | intro {env : Env} :
      (∀ id slot, env.get? id = some slot → Slot.Lives live slot) → Env.Lives live env

end

inductive Progress.Lives (live : Nat → Prop) : Progress → Prop where
  | pending {t : Tree} {env : Env} : env.Lives live → Progress.Lives live (.pending t env)
  | running : Progress.Lives live .running
  | finished {v : Value} : v.Lives live → Progress.Lives live (.finished (.ok v))
  | failed (e : EvalError) : Progress.Lives live (.finished (.error e))

/-- The locations of `live` are on the heap, and what stands there mentions no others. -/
def Heap.Holds (h : Heap) (live : Nat → Prop) : Prop :=
  ∀ loc, live loc → ∃ p, h.progress? loc = some p ∧ p.Lives live

mutual

theorem Value.lives_all : (v : Value) → v.Lives fun _ => True
  | .bool b => .bool b
  | .int n => .int n
  | .closure tag param body env => .closure tag param body env.lives_all

theorem Slot.lives_all : (slot : Slot) → slot.Lives fun _ => True
  | .ready v => .ready v.lives_all
  | .delayed _ => .delayed trivial

theorem Env.lives_all : (env : Env) → env.Lives fun _ => True
  | .empty => .intro (by simp [Env.get?])
  | .bind id slot rest => by
      obtain ⟨hrest⟩ := rest.lives_all
      refine .intro fun x s hs => ?_
      simp only [Env.get?] at hs
      split at hs
      · exact Option.some.inj hs ▸ slot.lives_all
      · exact hrest x s hs

end

theorem Progress.lives_all (p : Progress) : p.Lives fun _ => True := by
  cases p with
  | pending t env => exact .pending env.lives_all
  | running => exact .running
  | finished r =>
      cases r with
      | ok v => exact .finished v.lives_all
      | error e => exact .failed e

/-- Every variable may be unbound, and the live locations are compared with themselves. -/
structure Comparison.Fixes (c : Comparison) (live : Nat → Prop) : Prop where
  unbound : ∀ x, c.unbound x
  covers : ∀ loc, live loc → c.Covers loc
  place_eq : ∀ loc, live loc → c.place loc = loc

mutual

theorem Value.Lives.alike {live : Nat → Prop} (hc : c.Fixes live) {v : Value} :
    v.Lives live → v.Alike c v
  | .bool b => .bool b
  | .int n => .int n
  | .closure tag _ _ henv => by
      have hself := henv.alike hc fun _ => True
      exact .closure tag tag (.same _ (Renaming.enter_self (fun _ => ⟨rfl, trivial⟩) _)) hself

theorem Slot.Lives.alike {live : Nat → Prop} (hc : c.Fixes live) : {slot : Slot} →
    slot.Lives live → slot.Alike c slot
  | _, .ready hv => .ready (hv.alike hc)
  | .delayed loc, .delayed hloc => by
      have hslot : Slot.Alike c (.delayed loc) (.delayed (c.place loc)) :=
        .delayed (hc.covers loc hloc)
      rwa [hc.place_eq loc hloc] at hslot

theorem Env.Lives.alike {live : Nat → Prop} (hc : c.Fixes live) {env : Env} :
    env.Lives live → (vars : VarId → Prop) → env.Alike c (.only vars) env
  | .intro hslots, _ => by
      refine .intro ?_ ?_ ?_
      · rintro x _ ⟨rfl, _⟩
        rfl
      · rintro x _ ⟨rfl, _⟩ _
        exact ⟨rfl, hc.unbound x⟩
      · rintro x _ s s' ⟨rfl, _⟩ hs hs'
        obtain rfl : s = s' := Option.some.inj (hs.symm.trans hs')
        exact (hslots x s hs).alike hc

end

theorem Progress.Lives.alike {live : Nat → Prop} (hc : c.Fixes live) {p : Progress}
    (h : p.Lives live) : Progress.Alike c (some p) (some p) := by
  cases h with
  | pending henv =>
      have hself := henv.alike hc fun _ => True
      exact .pending (.same _ fun _ => ⟨rfl, trivial⟩) hself
  | running => exact .running
  | finished hv => exact .finished (.ok (hv.alike hc))
  | failed e => exact .finished (.error fun x _ => hc.unbound x)

/-! ## Evaluation to the end -/

/-- The same integer, truth value or failure, or functions on both sides. -/
inductive Matching : Except EvalError Value → Except EvalError Value → Prop where
  | bool (b : Bool) : Matching (.ok (.bool b)) (.ok (.bool b))
  | int (n : Int64) : Matching (.ok (.int n)) (.ok (.int n))
  | function {tag tag' : Nat} {param param' : VarId} {body body' : Tree} {env env' : Env} :
      Matching (.ok (.closure tag param body env)) (.ok (.closure tag' param' body' env'))
  | error (e : EvalError) : Matching (.error e) (.error e)

theorem ResultAlike.matching {r r' : Except EvalError Value}
    (h : ResultAlike c (Value.Alike c) r r') : Matching r r' := by
  cases h with
  | error _ => exact .error _
  | ok hv =>
      cases hv with
      | bool b => exact .bool b
      | int n => exact .int n
      | closure => exact .function

structure EvaluateAlike (t : Tree) (env : Env) (h : Heap) (t' : Tree) (env' : Env) (h' : Heap) :
    Prop where
  ends_iff : (∃ r, t.Evaluates env h r) ↔ ∃ r, t'.Evaluates env' h' r
  matching : ∀ r r', t.Evaluates env h r → t'.Evaluates env' h' r' → Matching r r'

theorem Tree.Evaluates.of_eval {t : Tree} {env : Env} {h h' : Heap} {r : Except EvalError Value}
    {fuel : Nat} (heval : eval fuel t env h = some (r, h')) : t.Evaluates env h r :=
  ⟨h', fuel, fun _ hk => eval_mono hk t env heval⟩

theorem Tree.Evaluates.exists_eval {t : Tree} {env : Env} {h : Heap} {r : Except EvalError Value}
    (ht : t.Evaluates env h r) :
    ∃ (h' : Heap) (fuel : Nat), ∀ k, fuel ≤ k → eval k t env h = some (r, h') :=
  ht

theorem EvaluateAlike.of_runs {t t' : Tree} {env env' : Env} {h h' : Heap} (more : Nat)
    (hruns : ∀ fuel, RunAlike c (Value.Alike c) (eval fuel t env h)
      (eval (fuel + more) t' env' h')) : EvaluateAlike t env h t' env' h' := by
  refine ⟨⟨?_, ?_⟩, ?_⟩
  · rintro ⟨r, hr⟩
    obtain ⟨h₁, n, hn⟩ := hr.exists_eval
    have hrun := hruns n
    rw [hn n (Nat.le_refl n)] at hrun
    generalize hq : eval (n + more) t' env' h' = q at hrun
    cases hrun with
    | result _ _ => exact ⟨_, .of_eval hq⟩
  · rintro ⟨r, hr⟩
    obtain ⟨h₁, n, hn⟩ := hr.exists_eval
    have hrun := hruns n
    rw [hn (n + more) (Nat.le_add_right n more)] at hrun
    generalize hq : eval n t env h = q at hrun
    cases hrun with
    | result _ _ => exact ⟨_, .of_eval hq⟩
  · intro r r' hr hr'
    obtain ⟨h₁, n, hn⟩ := hr.exists_eval
    obtain ⟨h₁', n', hn'⟩ := hr'.exists_eval
    have hrun := hruns (max n n')
    rw [hn _ (Nat.le_max_left n n'),
      hn' _ (Nat.le_add_right_of_le (Nat.le_max_right n n'))] at hrun
    cases hrun with
    | result hr _ => exact hr.matching

/-! ## One heap beside itself -/

def Comparison.same : Comparison :=
  ⟨0, 0, fun _ => True, fun _ => True⟩

theorem Comparison.same_fixes : Comparison.same.Fixes fun _ => True :=
  ⟨fun _ => trivial, fun _ _ => .inr trivial, fun _ _ => rfl⟩

theorem Heap.alike_same (h : Heap) : h.Alike .same h := by
  refine ⟨Nat.zero_le _, rfl, fun loc _ => ?_⟩
  show Progress.Alike .same (h.progress? loc) (h.progress? loc)
  cases h.progress? loc with
  | none => exact .missing
  | some p => exact p.lives_all.alike Comparison.same_fixes

/-! ## Results -/

/-- Trees that are equal up to the names of bound variables may take the place of each other. In
every environment and on every heap one of them gives a result if and only if the other one does:
the same integer, truth value or failure, or a function on both sides. -/
theorem Tree.evaluateAlike_of_alphaEq {s t : Tree} (hs : s.Built) (ht : t.Built)
    (hfull : s.isFull = true) (h : alphaEq .standard s t = true) (env : Env) (heap : Heap) :
    EvaluateAlike s env heap t env heap := by
  have hrenamed : s.Renamed (.only fun _ => True) t := by
    rw [alphaEq_eq] at h
    refine .alpha hs.fits ht.fits (fun hpartial => ?_) h fun x _ y hxy => ?_
    · simp [hfull] at hpartial
    · exact ⟨by simpa [matchVars] using hxy, trivial⟩
  have henv := env.lives_all.alike Comparison.same_fixes fun _ => True
  exact .of_runs 0 fun fuel => eval_renamed .same fuel hrenamed henv heap heap heap.alike_same

private def squareOfDouble (x y : VarId) : Tree :=
  let binary (op : ArithOp) (id : VarId) : Tree :=
    .node (.node (.leaf (.arith op)) (.leaf (.var id .int))) (.leaf (.var id .int))
  .node
    (.node (.leaf (.call .int .int))
      (.node (.leaf (.lambda x .int .int))
        (.node (.node (.leaf (.letIn .int .int)) (binary .add x))
          (.node (.leaf (.lambda y .int .int)) (binary .mul y)))))
    (.leaf (.var 0 .int))

theorem Tree.evaluateAlike_of_alphaEq_squareOfDouble :
    alphaEq .standard (squareOfDouble 1 2) (squareOfDouble 0 0) = true
      ∧ EvaluateAlike (squareOfDouble 1 2) (.bind 0 (.ready (.int 3)) .empty) .empty
          (squareOfDouble 0 0) (.bind 0 (.ready (.int 3)) .empty) .empty
      ∧ (squareOfDouble 0 0).Evaluates (.bind 0 (.ready (.int 3)) .empty) .empty (.ok (.int 36))
      ∧ EvaluateAlike (squareOfDouble 1 2) .empty .empty (squareOfDouble 0 0) .empty .empty
      ∧ (squareOfDouble 0 0).Evaluates .empty .empty (.error (.unboundVariable 0)) := by
  have halpha : alphaEq .standard (squareOfDouble 1 2) (squareOfDouble 0 0) = true := by decide
  have halike := Tree.evaluateAlike_of_alphaEq (s := squareOfDouble 1 2) (t := squareOfDouble 0 0)
    (by decide) (by decide) rfl halpha
  exact ⟨halpha, halike _ _, .of_eval (show eval 7 _ _ _ = _ from rfl), halike _ _,
    .of_eval (show eval 3 _ _ _ = _ from rfl)⟩

end ExprTree

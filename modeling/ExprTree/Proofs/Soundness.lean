import ExprTree.Proofs.Adequacy
import ExprTree.Proofs.Grounded
/-!
# Type soundness and termination

A value is of a function type when it is a function that ends on every argument
of the parameter type, with a value of the result type or because of a division
by zero. This has to stay so on all later heaps, and the argument may be a
computation that is still delayed.

Every full well-annotated tree evaluates to a value of its type or fails in a
division by zero, where its variables are bound to integers and truth values.
-/

namespace ExprTree

/-- With enough fuel the computation ends with a value in `P`, or with a division by zero. -/
def EvalM.Sound (P : Heap → Value → Prop) (m : Nat → EvalM Value) (h : Heap) : Prop :=
  ∃ r h', Settles (fun k => m k h) (r, h') ∧ Outcome (· = .divideByZero) (P h') r

/-- The value is of the type, on this heap and on later ones. -/
def Value.OfType : Ty → Heap → Value → Prop
  | .bool, _, v => ∃ b, v = .bool b
  | .int, _, v => ∃ n, v = .int n
  | .fn arg result, h, v =>
      v.Grounded h ∧ (∃ tag param body env, v = .closure tag param body env)
        ∧ ∀ h' slot, h.Reaches h' → slot.Grounded h' →
          EvalM.Sound (OfType arg) (fun k => slot.force (eval k)) h' →
          EvalM.Sound (OfType result) (fun k => v.call (eval k) slot) h'

def OnlyDivision (e : EvalError) : Prop :=
  e = .divideByZero

/-! ## Types and reducibility by name -/

/-- Values of the type are those that stand for reducible ones. -/
def Ty.Agrees (ty : Ty) : Prop :=
  ∀ ⦃s : MarkedHeap⦄ ⦃w : World⦄ ⦃v : Value⦄ ⦃v' : NameValue⦄, w.Holds s → v.Reads w v' →
    (v.OfType ty s.heap ↔ v'.Reducible OnlyDivision ty)

/-- Linked computations are sound if and only if they are reducible. -/
theorem Ty.Agrees.sound_iff {ty : Ty} (hty : ty.Agrees) {s : MarkedHeap} {w : World}
    (hw : w.Holds s) {m : Nat → MarkedM Value} {mp : Nat → EvalM Value} {m' : Nat → NameM NameValue}
    (htracks : ∀ k, Observer.marks.Tracks (m k) (mp k))
    (hlinked : ∀ side n, Linked side n Value.Reads w m m') :
    EvalM.Sound (Value.OfType ty) mp s.heap
      ↔ Ends OnlyDivision (NameValue.Reducible OnlyDivision ty) m' := by
  constructor
  · rintro ⟨r, h', ⟨n, hn⟩, hr⟩
    have hrun : mp n s.heap = some (r, h') := hn n (Nat.le_refl n)
    obtain ⟨⟨r₁, s₁⟩, hmarked, hp⟩ := Option.map_eq_some_iff.1
      (((htracks n).erases rfl s).symm.trans hrun)
    obtain ⟨rfl, rfl⟩ := Prod.mk.inj hp
    obtain ⟨p, r', hgiven, _, hname, w', hw', _, hrel⟩ :=
      hlinked .heap n s hw fun hnone => Option.some_ne_none _ (hmarked.symm.trans hnone)
    obtain rfl : p = (r₁, s₁) := Option.some.inj (Eq.trans (Eq.symm hgiven) hmarked)
    refine ⟨r', hname, ?_⟩
    cases hrel with
    | ok hv => exact (hty hw' hv).1 hr
    | error f => exact hr
  · rintro ⟨r', ⟨n, hn⟩, hr'⟩
    have hrun : m' n = some r' := hn n (Nat.le_refl n)
    obtain ⟨⟨r, s₁⟩, r'', hgiven, ⟨k, hk⟩, _, w', hw', _, hrel⟩ :=
      hlinked .name n s hw fun hnone => Option.some_ne_none _ (hrun.symm.trans hnone)
    obtain rfl : r'' = r' := Option.some.inj (Eq.trans (Eq.symm hgiven) hrun)
    refine ⟨r.mapError Failure.error, s₁.heap, ⟨k, fun j hj => ?_⟩, ?_⟩
    · have hmarked : m j s = some (r, s₁) := hk j hj
      exact ((htracks j).erases rfl s).trans (by rw [hmarked]; rfl)
    · cases hrel with
      | ok hv => exact (hty hw' hv).2 hr'
      | error f => exact hr'

theorem Ty.Agrees.force_iff {ty : Ty} (hty : ty.Agrees) {s : MarkedHeap} {w : World}
    (hw : w.Holds s) {slot : Slot} {slot' : NameSlot} (hslot : slot.Reads w slot') :
    EvalM.Sound (Value.OfType ty) (fun k => slot.force (eval k)) s.heap
      ↔ slot'.Reducible OnlyDivision ty :=
  hty.sound_iff hw (fun k => .force (Observer.marks.eval_tracks k) slot)
    fun side n => hslot.force_linked (eval_linked side n)

theorem Ty.Agrees.call_iff {ty : Ty} (hty : ty.Agrees) {s : MarkedHeap} {w : World}
    (hw : w.Holds s) {v : Value} {v' : NameValue} (hv : v.Reads w v') {slot : Slot}
    {slot' : NameSlot} (hslot : slot.Reads w slot') :
    EvalM.Sound (Value.OfType ty) (fun k => v.call (eval k) slot) s.heap
      ↔ Ends OnlyDivision (NameValue.Reducible OnlyDivision ty)
        (fun k => v'.call (evalByName k) slot') :=
  hty.sound_iff hw (fun k => .call (Observer.marks.eval_tracks k) slot v)
    fun side n => hv.call_linked (eval_linked side n) hslot

theorem Ty.agrees (ty : Ty) : ty.Agrees := by
  induction ty with
  | bool =>
      intro s w v v' _ hv
      constructor
      · rintro ⟨b, rfl⟩
        cases hv
        exact ⟨b, rfl⟩
      · rintro ⟨b, rfl⟩
        cases hv
        exact ⟨b, rfl⟩
  | int =>
      intro s w v v' _ hv
      constructor
      · rintro ⟨n, rfl⟩
        cases hv
        exact ⟨n, rfl⟩
      · rintro ⟨n, rfl⟩
        cases hv
        exact ⟨n, rfl⟩
  | fn A B ihA ihB =>
      intro s w v v' hw hv
      constructor
      · rintro ⟨_, ⟨tag, param, body, env, rfl⟩, hcall⟩
        cases hv with
        | @closure _ _ _ _ env' henv =>
            refine ⟨param, body, env', rfl, fun slot' hslot' => ?_⟩
            -- Any argument by name has its place on some later heap.
            obtain ⟨s₁, w₁, slot, hreach, hw₁, hsub, hslot⟩ := slot'.realized hw
            have hread : (Value.closure tag param body env).Reads w₁ (.closure param body env') :=
              .closure tag param body (henv.mono hsub)
            have hsound := hcall s₁.heap slot hreach (hslot.grounded hw₁.grounded)
              ((ihA.force_iff hw₁ hslot).2 hslot')
            exact (ihB.call_iff hw₁ hread hslot).1 hsound
      · rintro ⟨param, body, env', rfl, hcall⟩
        have hgrounded := hv.grounded hw.grounded
        cases hv with
        | @closure tag _ _ env _ henv =>
            refine ⟨hgrounded, ⟨tag, param, body, env, rfl⟩, fun h' slot hreach hslot hforce => ?_⟩
            -- What could be read still can be, and the argument can be read as well.
            obtain ⟨s₁, w₁, rfl, hw₁, hsub₁⟩ := hreach.holds rfl hw
            obtain ⟨w₂, slot', hw₂, hsub₂, hslot'⟩ := hslot.readable w₁ hw₁
            have hread : (Value.closure tag param body env).Reads w₂ (.closure param body env') :=
              .closure tag param body (henv.mono fun _ he => hsub₂ (hsub₁ he))
            have hreducible := hcall slot' ((ihA.force_iff hw₂ hslot').1 hforce)
            exact (ihB.call_iff hw₂ hread hslot').2 hreducible

/-! ## Results -/

theorem Slot.Reads.reducible {E : EvalError → Prop} {w : World} {slot : Slot} {slot' : NameSlot}
    {ty : Ty} (h : slot.Reads w slot') (hty : slot.groundType? = some ty) :
    slot'.Reducible E ty := by
  rcases Slot.groundType?_cases hty with ⟨b, rfl, rfl⟩ | ⟨n, rfl, rfl⟩
  · cases h with
    | ready hv =>
        cases hv
        exact .pure ⟨b, rfl⟩
  · cases h with
    | ready hv =>
        cases hv
        exact .pure ⟨n, rfl⟩

theorem Typed.sound {Γ : Context} {t : Tree} {ty : Ty} (ht : Typed Γ t ty) {env : Env} {h : Heap}
    (hgrounded : env.Grounded h)
    (henv : ∀ id ∈ t.freeVars .standard,
      ∃ slot, env.get? id = some slot ∧ slot.groundType? = some (Γ id)) :
    EvalM.Sound (Value.OfType ty) (fun k => eval k t env) h := by
  let s : MarkedHeap := ⟨h, fun _ => false⟩
  obtain ⟨w, env', hw, _, hreads⟩ := Env.Grounded.reads (s := s) hgrounded (w := []) trivial
  have hreducible : t.Reducible OnlyDivision env' ty := by
    have hdivision : OnlyDivision .divideByZero := rfl
    refine ht.reducible hdivision fun id hid => ?_
    obtain ⟨slot, hget, hty⟩ := henv id hid
    obtain ⟨slot', hget', hslot⟩ := hreads.get? hget
    rw [hget']
    exact hslot.reducible hty
  have hsound := ty.agrees.sound_iff hw (fun k => Observer.marks.eval_tracks k t env)
    fun side n => eval_linked side n w t env env' hreads
  exact hsound.2 hreducible

/-- Evaluation of a well-annotated tree ends with a value of the type of the tree or with a
division by zero. -/
theorem Tree.eval_sound {t : Tree} (hbuilt : t.Built) (hfull : t.isFull = true) {Γ : Context}
    (hann : t.WellAnnotated Γ) {env : Env} {h : Heap} (hgrounded : env.Grounded h)
    (henv : ∀ id ∈ t.freeVars .standard,
      ∃ slot, env.get? id = some slot ∧ slot.groundType? = some (Γ id)) :
    EvalM.Sound (Value.OfType t.resultType) (fun k => eval k t env) h :=
  (hbuilt.fits.typed hann hfull).sound hgrounded henv

private def divideByFirst : Tree :=
  .node (.leaf (.lambda 1 .int .int))
    (.node (.node (.leaf (.arith .div)) (.leaf (.var 1 .int))) (.leaf (.var 0 .int)))

theorem Tree.eval_sound_divideByFirst :
    EvalM.Sound (Value.OfType (.fn .int .int))
      (fun k => eval k divideByFirst (.bind 0 (.ready (.int 0)) .empty)) .empty := by
  have hann : divideByFirst.WellAnnotated fun _ => .int := by decide
  refine Tree.eval_sound (t := divideByFirst) (by decide) rfl hann
    (.bind 0 (.ready (.int 0)) .empty) fun id hid => ?_
  have hfree : divideByFirst.freeVars .standard = .singleton 0 := by decide
  rw [hfree, VarSet.mem_singleton] at hid
  exact ⟨.ready (.int 0), by rw [hid]; rfl, rfl⟩

end ExprTree

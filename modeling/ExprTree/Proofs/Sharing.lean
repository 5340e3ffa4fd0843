import Mathlib.Data.List.Forall2
import ExprTree.Proofs.World
/-!
# Sharing and evaluation by name

A delayed computation runs once on the heap and at every reading by name. Both
ways of evaluation give the same results: if one of them ends, so does the
other, with a value that stands for the other one's or with the same failure.

`Linked` says this of two computations, given the run of one `Side` with some
fuel. It is kept by every step of the evaluators, for both sides at once.
-/

namespace ExprTree

inductive Side where
  | heap
  | name

section

variable {α β γ δ : Type}

def Completes (side : Side) (n : Nat) (m : Nat → MarkedM α) (s : MarkedHeap)
    (m' : Nat → NameM β) : Prop :=
  match side with
  | .heap => m n s ≠ none
  | .name => (m' n : Option (Except Failure β)) ≠ none

def Given (side : Side) (n : Nat) (m : Nat → MarkedM α) (s : MarkedHeap) (m' : Nat → NameM β)
    (p : Except Failure α × MarkedHeap) (r' : Except Failure β) : Prop :=
  match side with
  | .heap => m n s = some p
  | .name => m' n = some r'

/-- Both sides end, with related results and in a world that extends `w`. -/
structure Meets (R : World → α → β → Prop) (w : World) (m : Nat → MarkedM α) (s : MarkedHeap)
    (m' : Nat → NameM β) (p : Except Failure α × MarkedHeap) (r' : Except Failure β) : Prop where
  heap : Settles (fun k => m k s) p
  name : Settles m' r'
  related : ∃ w' : World, w'.Holds p.2 ∧ World.Extends s w p.2 w' ∧ Related (R w') p.1 r'

/-- Wherever the heap upholds `w` and the given side ends, both sides meet. -/
def Linked (side : Side) (n : Nat) (R : World → α → β → Prop) (w : World)
    (m : Nat → MarkedM α) (m' : Nat → NameM β) : Prop :=
  ∀ s, w.Holds s → Completes side n m s m' →
    ∃ p r', Given side n m s m' p r' ∧ Meets R w m s m' p r'

variable {side : Side} {n : Nat} {w : World}

theorem Linked.of_settled {R : World → α → β → Prop} {m : MarkedM α} {m' : NameM β}
    (h : ∀ s, w.Holds s → ∃ p r' w', m s = some p ∧ m' = some r' ∧ World.Holds p.2 w'
      ∧ World.Extends s w p.2 w' ∧ Related (R w') p.1 r') :
    Linked side n R w (fun _ => m) (fun _ => m') := by
  intro s hs _
  obtain ⟨p, r', w', hm, hm', hw', hext, hrel⟩ := h s hs
  refine ⟨p, r', ?_, ⟨0, fun _ _ => hm⟩, ⟨0, fun _ _ => hm'⟩, w', hw', hext, hrel⟩
  cases side with
  | heap => exact hm
  | name => exact hm'

theorem Linked.of_result {R : World → α → β → Prop} {m : MarkedM α} {m' : NameM β}
    {r : Except Failure α} {r' : Except Failure β} (hm : ∀ s, m s = some (r, s))
    (hm' : m' = some r') (hr : Related (R w) r r') :
    Linked side n R w (fun _ => m) (fun _ => m') :=
  .of_settled fun s hs => ⟨(r, s), r', w, hm s, hm', hs, .refl s w, hr⟩

private theorem Completes.of_bind {m : Nat → MarkedM α} {f : Nat → α → MarkedM γ}
    {m' : Nat → NameM β} {f' : Nat → β → NameM δ} {s : MarkedHeap}
    (h : Completes side n (fun k => m k >>= f k) s (fun k => m' k >>= f' k)) :
    Completes side n m s m' := by
  cases side with
  | heap =>
      intro hm
      apply h
      show (m n >>= f n) s = none
      exact ObservedM.bind_none hm _
  | name =>
      intro hm
      apply h
      show (m' n >>= f' n) = none
      rw [NameM.bind_eq, hm]

theorem Linked.bind {R : World → α → β → Prop} {Q : World → γ → δ → Prop}
    {m : Nat → MarkedM α} {f : Nat → α → MarkedM γ} {m' : Nat → NameM β} {f' : Nat → β → NameM δ}
    (hm : Linked side n R w m m')
    (hf : ∀ w' x y, w ⊆ w' → R w' x y →
      Linked side n Q w' (fun k => f k x) (fun k => f' k y)) :
    Linked side n Q w (fun k => m k >>= f k) (fun k => m' k >>= f' k) := by
  intro s hs hcompletes
  obtain ⟨⟨r, s₁⟩, r', hgiven, ⟨i, hi⟩, ⟨j, hj⟩, w₁, hs₁, hext, hrel⟩ := hm s hs hcompletes.of_bind
  cases hrel with
  | error e =>
      refine ⟨(.error e, s₁), .error e, ?_, ⟨i, fun k hk => ObservedM.bind_error (hi k hk) _⟩,
        ⟨j, fun k hk => NameM.bind_error (hj k hk) _⟩, w₁, hs₁, hext, .error e⟩
      cases side with
      | heap => exact ObservedM.bind_error hgiven _
      | name => exact NameM.bind_error hgiven _
  | @ok x y hxy =>
      have hrest : Completes side n (fun k => f k x) s₁ (fun k => f' k y) := by
        cases side with
        | heap => exact fun hnone => hcompletes ((ObservedM.bind_ok hgiven _).trans hnone)
        | name => exact fun hnone => hcompletes ((NameM.bind_ok hgiven _).trans hnone)
      obtain ⟨q, q', hgiven', ⟨i', hi'⟩, ⟨j', hj'⟩, w₂, hs₂, hext', hrel'⟩ :=
        hf w₁ x y hext.subset hxy s₁ hs₁ hrest
      refine ⟨q, q', ?_, ⟨max i i', fun k hk => ?_⟩, ⟨max j j', fun k hk => ?_⟩, w₂, hs₂,
        hext.trans hext', hrel'⟩
      · cases side with
        | heap => exact (ObservedM.bind_ok hgiven _).trans hgiven'
        | name => exact (NameM.bind_ok hgiven _).trans hgiven'
      · exact (ObservedM.bind_ok (hi k (by omega)) _).trans (hi' k (by omega))
      · exact (NameM.bind_ok (hj k (by omega)) _).trans (hj' k (by omega))

theorem Linked.mapM {R : World → α → β → Prop}
    (hR : ∀ {w w' x y}, w ⊆ w' → R w x y → R w' x y)
    {m : Nat → γ → MarkedM α} {m' : Nat → γ → NameM β}
    (hm : ∀ w' x, w ⊆ w' → Linked side n R w' (fun k => m k x) (fun k => m' k x)) (xs : List γ) :
    Linked side n (fun w => List.Forall₂ (R w)) w (fun k => xs.mapM (m k))
      (fun k => xs.mapM (m' k)) := by
  induction xs generalizing w with
  | nil => exact .of_result (fun _ => rfl) rfl (.ok .nil)
  | cons x xs ih =>
      simp only [List.mapM_cons]
      refine (hm w x fun _ he => he).bind fun w₁ a b hw₁ hab => ?_
      refine (ih fun w' x hw' => hm w' x fun _ he => hw' (hw₁ he)).bind fun w₂ as bs hw₂ hasbs => ?_
      exact .of_result (fun _ => rfl) rfl (.ok (.cons (hR hw₂ hab) hasbs))

theorem Linked.test {R : World → α → β → Prop} {m : Nat → MarkedM α} {m' : Nat → NameM β}
    (hm : Linked side n R w m m') :
    Linked side n R w (fun k => Observer.marks.test (m k)) (fun k => (m' k).test) := by
  have hheap : ∀ {k s r s'}, m k s = some (r, s') →
      Observer.marks.test (m k) s = some (markTest r, s') := by
    intro k s r s' h
    rw [Observer.test, h, Option.map_some]
    rfl
  have hname : ∀ {k r'}, m' k = some r' → (m' k).test = some (markTest r') := by
    intro k r' h
    simp [NameM.test, h]
  intro s hs hcompletes
  have hinner : Completes side n m s m' := by
    cases side with
    | heap => exact fun hnone => hcompletes (by simp [Observer.test, hnone])
    | name => exact fun hnone => hcompletes (by simp [NameM.test, hnone])
  obtain ⟨⟨r, s'⟩, r', hgiven, ⟨i, hi⟩, ⟨j, hj⟩, w', hs', hext, hrel⟩ := hm s hs hinner
  refine ⟨(markTest r, s'), markTest r', ?_, ⟨i, fun k hk => hheap (hi k hk)⟩,
    ⟨j, fun k hk => hname (hj k hk)⟩, w', hs', hext, ?_⟩
  · cases side with
    | heap => exact hheap hgiven
    | name => exact hname hgiven
  · cases hrel with
    | ok hxy => exact .ok hxy
    | error f => exact .error _

end

/-! ## Steps of the evaluators -/

section

variable {side : Side} {n : Nat} {w : World}

/-- A computation that was started at `loc` in world `w₁` has come back in world
`w₁'`. Its result may be kept, with all other entries as they were. -/
theorem World.Holds.finish {s s₁ : MarkedHeap} {w₂ w₁ w₁' : World} {loc : Nat} {slot' : NameSlot}
    {r : Except Failure Value} {r' : Except Failure NameValue}
    (hs : World.Holds s (w₂ ++ (loc, slot') :: w₁)) (hs₁ : w₁'.Holds s₁)
    (hext : World.Extends (s.start loc) w₁ s₁ w₁')
    (hsettles : Settles (fun k => slot'.force (evalByName k)) r')
    (hrel : Related (Value.Reads w₁') r r') :
    World.Holds (s₁.finish loc r) (w₂ ++ (loc, slot') :: w₁')
      ∧ World.Extends s (w₂ ++ (loc, slot') :: w₁) (s₁.finish loc r)
          (w₂ ++ (loc, slot') :: w₁') := by
  obtain ⟨hup, hne, hw₁⟩ := hs.of_append
  have hloc : loc < s.heap.cells.size := hup.lt_size
  have hsize : (s.start loc).heap.cells.size = s.heap.cells.size := s.heap.size_start loc
  have hsize₁ : s.heap.cells.size ≤ s₁.heap.cells.size := hsize ▸ hext.size_le
  have hfresh : ∀ e ∈ w₁', e ∈ w₁ ∨ s.heap.cells.size ≤ e.1 := hsize ▸ hext.fresh
  have hne' : ∀ e ∈ w₁', e.1 ≠ loc := by
    intro e he
    rcases hfresh e he with he | hle
    · exact hne e he
    · omega
  -- Outside `w₁` and `loc`, neither the start, the run nor the end changes anything.
  have hframe : ∀ l, l < s.heap.cells.size → l ≠ loc → (∀ e ∈ w₁, e.1 ≠ l) →
      s.SameAt (s₁.finish loc r) l := by
    intro l hl hlne hout
    have hrun : (s.start loc).SameAt s₁ l := hext.frame l (hsize.symm ▸ hl) hout
    exact ((s.sameAt_start hlne).trans hrun).trans (s₁.sameAt_finish hlne r)
  have hfinished : (s₁.finish loc r).Upholds w₁' loc slot' := by
    refine .finished (r := r.mapError Failure.error) ?_ hsettles ?_
    · rw [s₁.heap_finish, Heap.progress?_finish, if_pos ⟨rfl, by omega⟩]
    · rw [s₁.marked_finish]
      exact hrel
  have hback : World.Holds (s₁.finish loc r) ((loc, slot') :: w₁') :=
    ⟨hfinished, hne', hs₁.congr fun e he => s₁.sameAt_finish (hne' e he) r⟩
  have hsub : (loc, slot') :: w₁ ⊆ (loc, slot') :: w₁' := List.cons_subset_cons _ hext.subset
  have hfresh' : ∀ e ∈ (loc, slot') :: w₁', e ∈ (loc, slot') :: w₁ ∨ s.heap.cells.size ≤ e.1 := by
    intro e he
    rcases List.mem_cons.1 he with rfl | he
    · exact .inl (by simp)
    · exact (hfresh e he).imp_left (List.mem_cons_of_mem _)
  refine ⟨hs.append_of_extends hback hsub hfresh' fun e he => ?_, ?_, ?_, ?_, ?_⟩
  · have hother := hs.ne_of_mem_append e he
    refine hframe e.1 (hs.lt_size e (List.mem_append_left _ he)) ?_ fun e₁ he₁ => ?_
    · exact (hother (loc, slot') (by simp)).symm
    · exact hother e₁ (List.mem_cons_of_mem _ he₁)
  · intro e he
    rcases List.mem_append.1 he with he | he
    · exact List.mem_append_left _ he
    · exact List.mem_append_right _ (hsub he)
  · intro e he
    rcases List.mem_append.1 he with he | he
    · exact .inl (List.mem_append_left _ he)
    · exact (hfresh' e he).imp_left (List.mem_append_right _)
  · rw [s₁.heap_finish, Heap.size_finish]
    exact hsize₁
  · intro l hl hout
    refine hframe l hl ?_ fun e he => hout e (by simp [he])
    exact (hout (loc, slot') (by simp)).symm

def EvalLinked (side : Side) (n : Nat) : Prop :=
  ∀ w t env env', Env.Reads w env env' →
    Linked side n Value.Reads w (fun k => evalMarked k t env) (fun k => evalByName k t env')

theorem Slot.Reads.force_linked (hrun : EvalLinked side n) {slot : Slot} {slot' : NameSlot}
    (hslot : slot.Reads w slot') :
    Linked side n Value.Reads w (fun k => Observer.marks.force (evalMarked k) slot)
      (fun k => slot'.force (evalByName k)) := by
  cases hslot with
  | ready hv => exact .of_result (fun _ => rfl) rfl (.ok hv)
  | @delayed loc slot' hmem =>
      intro s hs hcompletes
      obtain ⟨w₂, w₁, rfl⟩ := List.append_of_mem hmem
      obtain ⟨hup, hne, hw₁⟩ := hs.of_append
      have hforce := fun k => Observer.marks_force_delayed (evalMarked k) loc s
      cases hup with
      | @finished r _ r' hp hsettles hrel =>
          simp only [hp] at hforce
          refine ⟨(s.marked loc r, s), r', ?_, ⟨0, fun k _ => hforce k⟩, hsettles, _, hs,
            .refl s _, hrel.mono fun _ _ hv => hv.mono ?_⟩
          · cases side with
            | heap => exact hforce n
            | name =>
                obtain ⟨r₀, hr₀⟩ := Option.ne_none_iff_exists'.1 hcompletes
                have heq : r₀ = r' := (NameSlot.settles_force hr₀).unique hsettles
                exact heq ▸ hr₀
          · intro e he
            simp [he]
      | @pending t env env' hp henv =>
          simp only [hp] at hforce
          have hstart : World.Holds (s.start loc) w₁ :=
            hw₁.congr fun e he => s.sameAt_start (hne e he)
          have hinner : Completes side n (fun k => evalMarked k t env) (s.start loc)
              (fun k => evalByName k t env') := by
            cases side with
            | heap =>
                intro hnone
                apply hcompletes
                simp only [hforce, hnone, Option.map_none]
            | name => exact hcompletes
          obtain ⟨⟨r, s₁⟩, r', hgiven, ⟨i, hi⟩, hsettles, w₁', hs₁, hext, hrel⟩ :=
            hrun w₁ t env env' henv (s.start loc) hstart hinner
          obtain ⟨hfinish, hextends⟩ := hs.finish hs₁ hext hsettles hrel
          refine ⟨(r, s₁.finish loc r), r', ?_, ⟨i, fun k hk => ?_⟩, hsettles, _, hfinish, hextends,
            hrel.mono fun _ _ hv => hv.mono ?_⟩
          · cases side with
            | heap =>
                have hrun : evalMarked n t env (s.start loc) = some (r, s₁) := hgiven
                show Observer.marks.force (evalMarked n) (.delayed loc) s = _
                simp only [hforce, hrun, Option.map_some]
            | name => exact hgiven
          · simp only [hforce, hi k hk, Option.map_some]
          · intro e he
            simp [he]

theorem Value.Reads.call_linked (hrun : EvalLinked side n) {v : Value} {v' : NameValue}
    {slot : Slot} {slot' : NameSlot} (hv : v.Reads w v') (hslot : slot.Reads w slot') :
    Linked side n Value.Reads w (fun k => Observer.marks.call (evalMarked k) slot v)
      (fun k => v'.call (evalByName k) slot') := by
  cases hv with
  | bool b => exact .of_result (fun _ => rfl) rfl (.error _)
  | int m => exact .of_result (fun _ => rfl) rfl (.error _)
  | closure tag param body henv => exact hrun w body _ _ (henv.bind hslot param)

theorem Symbol.denote_linked (hrun : EvalLinked side n) (s : Symbol) {args : List Value}
    {args' : List NameValue} (hargs : List.Forall₂ (Value.Reads w) args args') :
    Linked side n Value.Reads w (fun k => Observer.marks.denote (evalMarked k) s args)
      (fun k => s.denoteByName (evalByName k) args') := by
  rcases hargs with _ | ⟨h₁, _ | ⟨h₂, _ | ⟨h₃, _ | ⟨h₄, hargs⟩⟩⟩⟩
  · cases s with
    | int m => exact .of_result (fun _ => rfl) rfl (.ok (.int m))
    | bool b => exact .of_result (fun _ => rfl) rfl (.ok (.bool b))
    | _ => exact .of_result (fun _ => rfl) rfl (.error _)
  · cases s with
    | negation =>
        cases h₁ with
        | bool p => exact .of_result (fun _ => rfl) rfl (.ok (.bool _))
        | _ => exact .of_result (fun _ => rfl) rfl (.error _)
    | _ => exact .of_result (fun _ => rfl) rfl (.error _)
  · cases s with
    | arith op =>
        cases h₁ with
        | int a =>
            cases h₂ with
            | int b =>
                change Linked side n Value.Reads w
                  (fun _ => Observer.marks.lift (do return .int (← op.eval a b)))
                  (fun _ => do return .int (← (op.eval a b).mapError Failure.plain))
                cases op.eval a b with
                | ok c => exact .of_result (fun _ => rfl) rfl (.ok (.int c))
                | error e => exact .of_result (fun _ => rfl) rfl (.error _)
            | _ => exact .of_result (fun _ => rfl) rfl (.error _)
        | _ => exact .of_result (fun _ => rfl) rfl (.error _)
    | compare op =>
        cases h₁ with
        | int a =>
            cases h₂ with
            | int b => exact .of_result (fun _ => rfl) rfl (.ok (.bool _))
            | _ => exact .of_result (fun _ => rfl) rfl (.error _)
        | _ => exact .of_result (fun _ => rfl) rfl (.error _)
    | conjunction =>
        cases h₁ with
        | bool p =>
            cases p with
            | false => exact .of_result (fun _ => rfl) rfl (.ok (.bool _))
            | true =>
                cases h₂ with
                | bool q => exact .of_result (fun _ => rfl) rfl (.ok (.bool _))
                | _ => exact .of_result (fun _ => rfl) rfl (.error _)
        | _ => exact .of_result (fun _ => rfl) rfl (.error _)
    | letIn a r => exact h₂.call_linked hrun (.ready h₁)
    | call a r => exact h₁.call_linked hrun (.ready h₂)
    | _ => exact .of_result (fun _ => rfl) rfl (.error _)
  · cases s with
    | cond ty =>
        cases h₁ with
        | bool p =>
            cases p with
            | false => exact .of_result (fun _ => rfl) rfl (.ok h₃)
            | true => exact .of_result (fun _ => rfl) rfl (.ok h₂)
        | _ => exact .of_result (fun _ => rfl) rfl (.error _)
    | _ => exact .of_result (fun _ => rfl) rfl (.error _)
  · cases s with
    | _ => exact .of_result (fun _ => rfl) rfl (.error _)

theorem Value.Reads.asBool_linked {v : Value} {v' : NameValue} (hv : v.Reads w v') :
    Linked side n (fun _ => Eq) w (fun _ => Observer.marks.lift v.asBool)
      (fun _ => (v'.asBool : NameM Bool)) := by
  cases hv with
  | bool b => exact .of_result (fun _ => rfl) rfl (.ok rfl)
  | _ => exact .of_result (fun _ => rfl) rfl (.error _)

theorem delay_linked (t : Tree) {env : Env} {env' : NameEnv} (henv : env.Reads w env') :
    Linked side n Slot.Reads w (fun _ => Observer.marks.lift (EvalM.delay t env))
      (fun _ => pure (.delayed t env')) := by
  refine .of_settled fun s hs => ?_
  refine ⟨(.ok (.delayed s.heap.cells.size), { s with heap := s.heap.add (.pending t env) }),
    .ok (.delayed t env'), (s.heap.cells.size, .delayed t env') :: w, rfl, rfl,
    hs.add_pending t henv, ?_, .ok (.delayed List.mem_cons_self)⟩
  refine ⟨List.subset_cons_self _ _, fun e he => ?_, ?_, fun l hl _ => s.sameAt_add _ hl rfl⟩
  · rcases List.mem_cons.1 he with rfl | he
    · exact .inr (Nat.le_refl _)
    · exact .inl he
  · rw [Heap.size_add]
    omega

theorem Form.step_linked (hrun : EvalLinked side n) (form : Form) {env : Env} {env' : NameEnv}
    (henv : env.Reads w env') :
    Linked side n Value.Reads w (fun k => Observer.marks.step (evalMarked k) env form)
      (fun k => form.stepByName (evalByName k) env') := by
  cases form with
  | incomplete s => exact .of_result (fun _ => rfl) rfl (.error _)
  | read id =>
      simp only [Observer.step, stepByName]
      cases hget : env.get? id with
      | none =>
          rw [henv.get?_eq_none hget]
          exact .of_result (fun _ => rfl) rfl (.error _)
      | some slot =>
          obtain ⟨slot', hget', hslot⟩ := henv.get? hget
          rw [hget']
          exact hslot.force_linked hrun
  | function id body =>
      refine .of_settled fun s hs => ?_
      refine ⟨(.ok (.closure s.heap.nextTag id body env),
          { s with heap.nextTag := s.heap.nextTag + 1 }),
        .ok (.closure id body env'), w, rfl, rfl, ?_, ?_, .ok (.closure _ id body henv)⟩
      · exact hs.congr fun _ _ => ⟨rfl, rfl⟩
      · exact { World.Extends.refl s w with }
  | bind bound func =>
      change Linked side n Value.Reads w
        (fun k => Observer.marks.lift (EvalM.delay bound env) >>= fun slot =>
          evalMarked k func env >>= fun f => Observer.marks.call (evalMarked k) slot f)
        (fun k => (pure (.delayed bound env') : NameM NameSlot) >>= fun slot =>
          evalByName k func env' >>= fun f => f.call (evalByName k) slot)
      refine (delay_linked bound henv).bind fun w₁ slot slot' hw₁ hslot => ?_
      refine (hrun w₁ func env env' (henv.mono hw₁)).bind fun w₂ f f' hw₂ hf => ?_
      exact hf.call_linked hrun (hslot.mono hw₂)
  | choose test thenBranch elseBranch =>
      refine (hrun w test env env' henv).test.bind fun w₁ v v' hw₁ hv => ?_
      refine hv.asBool_linked.bind fun w₂ b b' hw₂ hb => ?_
      have henv₂ : env.Reads w₂ env' := henv.mono fun _ he => hw₂ (hw₁ he)
      subst hb
      cases b with
      | true => exact hrun w₂ thenBranch env env' henv₂
      | false => exact hrun w₂ elseBranch env env' henv₂
  | strict s args =>
      refine (Linked.mapM (fun hw hv => hv.mono hw)
        (fun w' arg hw' => hrun w' arg env env' (henv.mono hw')) args).bind ?_
      exact fun w₁ vs vs' _ hvs => s.denote_linked hrun hvs

theorem eval_linked (side : Side) (n : Nat) : EvalLinked side n := by
  induction n with
  | zero =>
      intro w t env env' henv s hs hcompletes
      cases side with
      | heap => exact absurd rfl hcompletes
      | name => exact absurd rfl hcompletes
  | succ n ih =>
      intro w t env env' henv s hs hcompletes
      obtain ⟨p, r', hgiven, ⟨i, hi⟩, ⟨j, hj⟩, hw⟩ := t.form.step_linked ih henv s hs hcompletes
      refine ⟨p, r', hgiven, ⟨i + 1, fun k hk => ?_⟩, ⟨j + 1, fun k hk => ?_⟩, hw⟩
      · obtain ⟨k, rfl⟩ : ∃ k', k = k' + 1 := ⟨k - 1, by omega⟩
        exact hi k (by omega)
      · obtain ⟨k, rfl⟩ : ∃ k', k = k' + 1 := ⟨k - 1, by omega⟩
        exact hj k (by omega)

end

end ExprTree

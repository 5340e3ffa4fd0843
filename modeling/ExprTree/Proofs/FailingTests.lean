import ExprTree.Draws.Permuted
import ExprTree.Proofs.GeneratorCalls
/-!
# Failing tests of generated trees

The generator puts nothing that may fail into the test of a condition. Still the
test can fail: it may read a variable that is bound around it to a tree that may
fail, and this tree is evaluated when the variable is read. There is no other
way. If evaluation of a generated tree fails inside a test, then a delayed
computation has divided by zero, outside all tests of its own.
-/

namespace ExprTree

/-! ## States of an evaluation -/

def Value.FirstOrder : Value → Prop
  | .closure .. => False
  | _ => True

def Slot.FirstOrder : Slot → Prop
  | .ready v => v.FirstOrder
  | .delayed _ => True

def Env.FirstOrder (env : Env) : Prop :=
  ∀ id slot, env.get? id = some slot → slot.FirstOrder

theorem Env.FirstOrder.bind {env : Env} (h : env.FirstOrder) {id : VarId} {slot : Slot}
    (hslot : slot.FirstOrder) : (Env.bind id slot env).FirstOrder := by
  intro x slot' hx
  rw [Env.get?] at hx
  split at hx
  · obtain rfl := Option.some.inj hx
    exact hslot
  · exact h x slot' hx

inductive Progress.Sane (first next : Nat) : Progress → Prop where
  | pending {t : Tree} {env : Env} :
      t.Made first next true .int → env.FirstOrder → Sane first next (.pending t env)
  | running : Sane first next .running
  | finished {v : Value} : v.FirstOrder → Sane first next (.finished (.ok v))

namespace MarkedHeap

/-- Generated trees are delayed on the heap, and none of them has failed. -/
def Tidy (first next : Nat) (s : MarkedHeap) : Prop :=
  ∀ loc p, s.heap.progress? loc = some p → p.Sane first next

def KeepsRunning (s s' : MarkedHeap) : Prop :=
  ∀ loc, s.heap.progress? loc = some .running → s'.heap.progress? loc = some .running

/-- A delayed computation has divided by zero, outside all tests of its own. -/
def HasCulprit (s : MarkedHeap) : Prop :=
  ∃ loc, s.heap.progress? loc = some (.finished (.error .divideByZero)) ∧ s.inTest loc = false

theorem KeepsRunning.trans {s s' s'' : MarkedHeap} (h : s.KeepsRunning s')
    (h' : s'.KeepsRunning s'') : s.KeepsRunning s'' :=
  fun loc hloc => h' loc (h loc hloc)

end MarkedHeap

/-! ## Blame for failures -/

/-- From a tidy heap, the computation gives a result in `P`, or a failure. For a division by zero
there is a culprit if it is inside a test, or if the computation may not fail by itself. -/
def MarkedM.Blames {α : Type} (first next : Nat) (mayFail : Bool) (P : α → Prop) (m : MarkedM α) :
    Prop :=
  ∀ s, s.Tidy first next → ∀ r s', m s = some (r, s') → s.KeepsRunning s' ∧
    match r with
    | .ok x => P x ∧ s'.Tidy first next
    | .error f => f.error = .divideByZero → mayFail = false ∨ f.inTest = true → s'.HasCulprit

namespace EvalM.Quiet

variable {E : EvalError → Prop}

theorem asInt (v : Value) (hE : ∀ ty text, E (.valueMismatch ty text)) :
    EvalM.Quiet E (fun n => v = .int n) (liftM v.asInt) := by
  cases v with
  | int n => exact pure rfl
  | bool b => exact throw (hE _ _)
  | closure => exact throw (hE _ _)

theorem asBool (v : Value) (hE : ∀ ty text, E (.valueMismatch ty text)) :
    EvalM.Quiet E (fun _ => True) (liftM v.asBool) := by
  cases v with
  | bool b => exact pure trivial
  | int n => exact throw (hE _ _)
  | closure => exact throw (hE _ _)

end EvalM.Quiet

namespace MarkedM.Blames

variable {α β : Type} {first next : Nat} {mayFail : Bool} {P : α → Prop} {Q : β → Prop}

theorem pure {x : α} (hx : P x) : Blames first next mayFail P (pure x) := by
  rintro s hs r s' ⟨⟩
  exact ⟨fun _ h => h, hx, hs⟩

theorem throw {f : Failure} (hf : f.error ≠ .divideByZero) :
    Blames first next mayFail P (throw f : MarkedM α) := by
  rintro s hs r s' ⟨⟩
  exact ⟨fun _ h => h, fun h => absurd h hf⟩

theorem bind {m : MarkedM α} {f : α → MarkedM β} (hm : m.Blames first next mayFail P)
    (hf : ∀ x, P x → (f x).Blames first next mayFail Q) :
    Blames first next mayFail Q (m >>= f) := by
  intro s hs r s' hr
  rcases ObservedM.bind_cases hr with ⟨e, hfirst, rfl⟩ | ⟨x, s₁, hfirst, hrest⟩
  · exact hm s hs (.error e) s' hfirst
  · obtain ⟨hrunning, hx, hs₁⟩ := hm s hs (.ok x) s₁ hfirst
    obtain ⟨hrunning', hr'⟩ := hf x hx s₁ hs₁ r s' hrest
    exact ⟨hrunning.trans hrunning', hr'⟩

theorem test {m : MarkedM α} (hm : m.Blames first next false P) :
    MarkedM.Blames first next mayFail P (Observer.marks.test m) := by
  intro s hs r s' hr
  obtain ⟨⟨r₁, s₁⟩, hms, heq⟩ := Option.map_eq_some_iff.1 hr
  obtain ⟨rfl, rfl⟩ := Prod.mk.inj heq
  obtain ⟨hrunning, hr₁⟩ := hm s hs r₁ s₁ hms
  refine ⟨hrunning, ?_⟩
  cases r₁ with
  | ok x => exact hr₁
  | error f => exact fun herror _ => hr₁ herror (.inl rfl)

theorem lift {m : EvalM α} (hm : m.Quiet (fun e => mayFail = true ∨ e ≠ .divideByZero) P) :
    MarkedM.Blames first next mayFail P (Observer.marks.lift m) := by
  intro s hs r s' hr
  obtain ⟨⟨r₁, h₁⟩, hms, heq⟩ := Option.map_eq_some_iff.1 hr
  obtain ⟨rfl, rfl⟩ := Prod.mk.inj heq
  obtain ⟨hcells, hr₁⟩ := hm s.heap r₁ h₁ hms
  have hsame (loc : Nat) : h₁.progress? loc = s.heap.progress? loc := by
    simp only [Heap.progress?, hcells]
  refine ⟨fun loc hloc => (hsame loc).trans hloc, ?_⟩
  cases r₁ with
  | ok x => exact ⟨hr₁, fun loc p hp => hs loc p ((hsame loc).symm.trans hp)⟩
  | error e =>
      -- A failure outside all tests, which only a computation that may fail has.
      intro herror hblame
      rcases hblame with rfl | hblame
      · exact absurd herror (hr₁.resolve_left (by simp))
      · cases hblame

end MarkedM.Blames

/-! ## Steps -/

section

variable {first next : Nat} {mayFail : Bool}

namespace MarkedHeap

variable {s : MarkedHeap} {loc : Nat}

theorem Tidy.start (hs : s.Tidy first next) (loc : Nat) : (s.start loc).Tidy first next := by
  intro l p hp
  rw [MarkedHeap.start, Heap.progress?_start] at hp
  split at hp
  · obtain rfl := Option.some.inj hp
    exact .running
  · exact hs l p hp

theorem Tidy.finish (hs : s.Tidy first next) (loc : Nat) {v : Value} (hv : v.FirstOrder) :
    (s.finish loc (.ok v)).Tidy first next := by
  intro l p hp
  rw [heap_finish, Heap.progress?_finish] at hp
  split at hp
  · obtain rfl := Option.some.inj hp
    exact .finished hv
  · exact hs l p hp

/-- The failure of a computation has a culprit: the computation itself, unless it failed in one of
its tests. -/
theorem HasCulprit.finish {f : Failure} (hloc : s.heap.progress? loc = some .running)
    (hf : f.error = .divideByZero) (hculprit : f.inTest = true → s.HasCulprit) :
    (s.finish loc (.error f)).HasCulprit := by
  cases hmark : f.inTest with
  | false =>
      refine ⟨loc, ?_, by simp [MarkedHeap.finish, hmark]⟩
      rw [heap_finish, Heap.progress?_finish, if_pos ⟨rfl, Heap.lt_size_of_progress? hloc⟩]
      exact congrArg (fun e => some (Progress.finished (.error e))) hf
  | true =>
      obtain ⟨l, hl, hmark'⟩ := hculprit hmark
      have hne : l ≠ loc := by
        rintro rfl
        rw [hloc] at hl
        cases hl
      obtain ⟨hprogress, htest⟩ := s.sameAt_finish hne (.error f)
      exact ⟨l, hprogress.trans hl, htest.trans hmark'⟩

end MarkedHeap

/-- Reading a slot: what it delays may fail, wherever it is read. -/
theorem Observer.marks_force_blames {run : Tree → Env → MarkedM Value}
    (hrun : ∀ {t : Tree} {env : Env}, t.Made first next true .int → env.FirstOrder →
      (run t env).Blames first next true Value.FirstOrder)
    {slot : Slot} (hslot : slot.FirstOrder) :
    MarkedM.Blames first next mayFail Value.FirstOrder (marks.force run slot) := by
  cases slot with
  | ready v => exact .pure hslot
  | delayed loc =>
      intro s hs r s' hr
      rw [marks_force_delayed] at hr
      cases hp : s.heap.progress? loc with
      | none =>
          rw [hp] at hr
          cases hr
          exact ⟨fun _ h => h, fun h => by simp [Failure.plain] at h⟩
      | some p =>
          rw [hp] at hr
          cases hs loc p hp with
          | running =>
              cases hr
              exact ⟨fun _ h => h, fun h => by simp [Failure.plain] at h⟩
          | finished hv =>
              cases hr
              exact ⟨fun _ h => h, hv, hs⟩
          | @pending t env ht henv =>
              obtain ⟨⟨r₁, s₁⟩, hrun', heq⟩ := Option.map_eq_some_iff.1 hr
              obtain ⟨rfl, rfl⟩ := Prod.mk.inj heq
              obtain ⟨hrunning, hr₁⟩ := hrun ht henv _ (hs.start loc) r₁ s₁ hrun'
              have hloc : s₁.heap.progress? loc = some .running := by
                refine hrunning loc ?_
                rw [MarkedHeap.start, Heap.progress?_start,
                  if_pos ⟨rfl, Heap.lt_size_of_progress? hp⟩]
              refine ⟨fun l hl => ?_, ?_⟩
              · have hne : l ≠ loc := by
                  rintro rfl
                  rw [hp] at hl
                  cases hl
                have hl₁ := hrunning l ((s.sameAt_start hne).1.trans hl)
                exact (s₁.sameAt_finish hne r₁).1.trans hl₁
              · cases r₁ with
                | ok v => exact ⟨hr₁.1, hr₁.2.finish loc hr₁.1⟩
                | error f =>
                    intro herror _
                    exact .finish hloc herror fun htest => hr₁ herror (.inr htest)

theorem delay_blames {t : Tree} {env : Env} (ht : t.Made first next true .int)
    (henv : env.FirstOrder) :
    MarkedM.Blames first next mayFail Slot.FirstOrder
      (Observer.marks.lift (EvalM.delay t env)) := by
  rintro s hs r s' ⟨⟩
  refine ⟨fun l hl => ?_, trivial, fun l p hp => ?_⟩
  · change (s.heap.add (.pending t env)).progress? l = _
    rw [Heap.progress?_add, if_neg (Nat.ne_of_lt (Heap.lt_size_of_progress? hl))]
    exact hl
  · change (s.heap.add (.pending t env)).progress? l = _ at hp
    rw [Heap.progress?_add] at hp
    split at hp
    · obtain rfl := Option.some.inj hp
      exact .pending ht henv
    · exact hs l p hp

/-! ## Symbols -/

section

variable {E : EvalError → Prop} (hE : ∀ ty text, E (.valueMismatch ty text))
  (run : Tree → Env → EvalM Value)

include hE

theorem Symbol.arith_quiet {op : ArithOp} {v w : Value}
    (hop : ∀ m n e, v = .int m → w = .int n → op.eval m n = .error e → E e) :
    EvalM.Quiet E Value.FirstOrder (Symbol.denote run (.arith op) [v, w]) := by
  refine (EvalM.Quiet.asInt v hE).bind fun m hm => (EvalM.Quiet.asInt w hE).bind fun n hn => ?_
  cases hresult : op.eval m n with
  | ok x => exact .pure trivial
  | error e => exact .throw (hop m n e hm hn hresult)

theorem Symbol.compare_quiet (op : CompareOp) (v w : Value) :
    EvalM.Quiet E Value.FirstOrder (Symbol.denote run (.compare op) [v, w]) :=
  (EvalM.Quiet.asInt v hE).bind fun _ _ => (EvalM.Quiet.asInt w hE).bind fun _ _ => .pure trivial

theorem Symbol.negation_quiet (v : Value) :
    EvalM.Quiet E Value.FirstOrder (Symbol.denote run .negation [v]) :=
  (EvalM.Quiet.asBool v hE).bind fun _ _ => .pure trivial

theorem Symbol.conjunction_quiet (v w : Value) :
    EvalM.Quiet E Value.FirstOrder (Symbol.denote run .conjunction [v, w]) := by
  refine (EvalM.Quiet.asBool v hE).bind fun p _ => ?_
  cases p with
  | true => exact (EvalM.Quiet.asBool w hE).bind fun _ _ => .pure trivial
  | false => exact .pure trivial

end

/-! ## Evaluation -/

theorem evalMarked_two (k : Nat) {s : Symbol} {a b : Tree}
    (hform : (Tree.node (.node (.leaf s) a) b).form = .strict s [a, b]) (env : Env) :
    evalMarked (k + 1) (.node (.node (.leaf s) a) b) env = (do
      let v ← evalMarked k a env
      let w ← evalMarked k b env
      Observer.marks.denote (evalMarked k) s [v, w] : MarkedM Value) := by
  rw [evalMarked, Observer.eval, hform]
  simp only [Observer.step, List.mapM_cons, List.mapM_nil, bind_assoc, pure_bind]

theorem evalMarked_int_blames (k : Nat) (n : Int64) (env : Env) :
    (evalMarked k (.leaf (.int n)) env).Blames first next mayFail (· = .int n) := by
  cases k with
  | zero => rintro s _ r s' ⟨⟩
  | succ k =>
      refine MarkedM.Blames.lift (m := pure (Value.int n)) ?_
      exact .pure rfl

theorem evalMarked_lambda_blames (k : Nat) (id : VarId) (body : Tree) (env : Env) :
    (evalMarked k (.node (.leaf (.lambda id .int .int)) body) env).Blames first next mayFail
      (fun v => ∃ tag, v = .closure tag id body env) := by
  cases k with
  | zero => rintro s _ r s' ⟨⟩
  | succ k =>
      refine MarkedM.Blames.lift (m := EvalM.closure id body env) ?_
      rintro h r h' ⟨⟩
      exact ⟨rfl, _, rfl⟩

theorem evalMarked_blames (k : Nat) {ty : Ty} {t : Tree} (ht : t.Made first next mayFail ty)
    {env : Env} (henv : env.FirstOrder) :
    (evalMarked k t env).Blames first next mayFail Value.FirstOrder := by
  have hmismatch (mayFail : Bool) (ty : Ty) (text : String) :
      mayFail = true ∨ EvalError.valueMismatch ty text ≠ .divideByZero := .inr (by simp)
  induction k generalizing mayFail ty t env with
  | zero => rintro s _ r s' ⟨⟩
  | succ k ih =>
      cases ht with
      | int n => exact .lift (.pure trivial)
      | bool b => exact .lift (.pure trivial)
      | var id =>
          change MarkedM.Blames _ _ _ _ (Observer.marks.step (evalMarked k) env (.read id))
          simp only [Observer.step]
          cases hget : env.get? id with
          | none => exact .throw (show EvalError.unboundVariable id ≠ .divideByZero by simp)
          | some slot =>
              exact Observer.marks_force_blames (fun ht henv => ih ht henv) (henv id slot hget)
      | @arith _ op a b hop ha hb =>
          rw [evalMarked_two k rfl]
          refine (ih ha henv).bind fun v _ => (ih hb henv).bind fun w _ => ?_
          refine .lift (Symbol.arith_quiet (hmismatch _) _ fun m n e _ _ he => ?_)
          exact absurd he (by cases op <;> simp_all [ArithOp.eval])
      | divide ha hb =>
          rw [evalMarked_two k rfl]
          refine (ih ha henv).bind fun v _ => (ih hb henv).bind fun w _ => ?_
          exact .lift (Symbol.arith_quiet (hmismatch _) _ fun _ _ _ _ _ _ => .inl rfl)
      | @divideBy _ n a hn ha =>
          rw [evalMarked_two k rfl]
          refine (ih ha henv).bind fun v _ => (evalMarked_int_blames k n env).bind fun w hw => ?_
          subst hw
          refine .lift (Symbol.arith_quiet (hmismatch _) _ fun m n' e _ hn' he => ?_)
          obtain rfl : n = n' := by simpa using hn'
          simp [ArithOp.eval, hn] at he
      | compare op ha hb =>
          rw [evalMarked_two k rfl]
          refine (ih ha henv).bind fun v _ => (ih hb henv).bind fun w _ => ?_
          exact .lift (Symbol.compare_quiet (hmismatch _) _ op v w)
      | @negation _ a ha =>
          change MarkedM.Blames _ _ _ _
            (Observer.marks.step (evalMarked k) env (.strict .negation [a]))
          simp only [Observer.step, List.mapM_cons, List.mapM_nil, bind_assoc, pure_bind]
          exact (ih ha henv).bind fun v _ => .lift (Symbol.negation_quiet (hmismatch _) _ v)
      | conjunction ha hb =>
          rw [evalMarked_two k rfl]
          refine (ih ha henv).bind fun v _ => (ih hb henv).bind fun w _ => ?_
          exact .lift (Symbol.conjunction_quiet (hmismatch _) _ v w)
      | @cond _ _ test a b htest ha hb =>
          refine (ih htest henv).test.bind fun v _ => ?_
          refine (MarkedM.Blames.lift (EvalM.Quiet.asBool v (hmismatch _))).bind fun p _ => ?_
          cases p with
          | true => exact ih ha henv
          | false => exact ih hb henv
      | letIn _ _ ha hb =>
          have ha' := ha.weaken (Nat.le_refl next) fun _ => rfl
          refine (delay_blames ha' henv).bind fun slot hslot => ?_
          refine (evalMarked_lambda_blames k _ _ env).bind fun v hv => ?_
          obtain ⟨tag, rfl⟩ := hv
          exact ih hb (henv.bind hslot)
      | call _ _ ha hb =>
          rw [evalMarked_two k rfl]
          refine (evalMarked_lambda_blames k _ _ env).bind fun v hv => ?_
          obtain ⟨tag, rfl⟩ := hv
          exact (ih ha henv).bind fun w hw => ih hb (henv.bind hw)

end

/-! ## Generated trees -/

namespace Generator

variable {σ : Type}

theorem env_firstOrder (g : Generator σ) : g.env.FirstOrder := by
  intro id slot hget
  rw [g.get?_env] at hget
  split at hget
  · obtain rfl := Option.some.inj hget
    trivial
  · cases hget

theorem Answered.blames {g g' : Generator σ} {request : Request} {t : Tree}
    (h : g.Answered request t g') :
    ∃ r s', Settles (fun k => evalMarked k t g.env ⟨.empty, fun _ => false⟩) (r, s')
      ∧ ∀ f, r = .error f → f.inTest = true → f.error = .divideByZero ∧ s'.HasCulprit := by
  have htyped : Typed (g.env.context fun _ => .int) t request.ty := by
    rw [g.env_context]
    exact h.grown.typed
  obtain ⟨r, ⟨s', hsettles⟩, _⟩ :=
    htyped.evaluatesMarked (g.env_assigns .empty) ⟨.empty, fun _ => false⟩
  refine ⟨r, s', hsettles, ?_⟩
  rintro f rfl htest
  have herror := g.divideByZero_of_evaluatesMarked h.grown ⟨s', hsettles⟩
  refine ⟨herror, ?_⟩
  obtain ⟨k, hk⟩ := hsettles
  have hempty : MarkedHeap.Tidy g.supply.next g'.supply.next ⟨.empty, fun _ => false⟩ := by
    intro loc p hp
    cases hp
  obtain ⟨_, hblame⟩ :=
    evalMarked_blames k h.made g.env_firstOrder _ hempty _ s' (hk k (Nat.le_refl k))
  exact hblame herror (.inr htest)

private theorem forall_mem_of_forall₂ {α β : Type} {P : β → Prop} {xs : List α} {ys : List β}
    (h : List.Forall₂ (fun _ y => P y) xs ys) : ∀ y ∈ ys, P y := by
  induction h with
  | nil => exact fun y hy => absurd hy List.not_mem_nil
  | cons hy _ ih => exact List.forall_mem_cons.2 ⟨hy, ih⟩

/-- A generated tree that fails inside a test divides by zero, in a delayed computation. -/
theorem culprit_of_failing_test (src : Source σ) (draws : σ) (n : Nat) (requests : List Request) :
    Yields (ShortFor n requests)
      (fun p => ∀ t ∈ p.1, ∃ r s',
        Settles (fun k => evalMarked k t (new draws n).env ⟨.empty, fun _ => false⟩) (r, s')
          ∧ ∀ f, r = .error f → f.inTest = true → f.error = .divideByZero ∧ s'.HasCulprit)
      ((new draws n).answerAll src requests) := by
  refine (answerAll_yields_of_answered src ?_ (new_good draws n) rfl requests).mono
    (fun h => h) fun p hp => forall_mem_of_forall₂ hp.1
  intro g g' request t _ hn h
  subst hn
  exact h.blames

private def failure? : Option (Except Failure Value × MarkedHeap) → Option Failure
  | some (.error f, _) => some f
  | _ => none

private theorem eq_of_failure? {run : Option (Except Failure Value × MarkedHeap)} {f : Failure}
    (h : failure? run = some f) : ∃ s', run = some (.error f, s') := by
  rcases run with _ | ⟨_ | _, s'⟩
  · cases h
  · obtain rfl := Option.some.inj h
    exact ⟨s', rfl⟩
  · cases h

private def smallQuotient : Tree :=
  .node (.node (.leaf (.arith .div)) (.leaf (.int (-2)))) (.leaf (.int 5))

private def zeroByZeroTested : Tree :=
  .node
    (.node (.leaf (.letIn .int .int))
      (.node (.node (.leaf (.arith .div)) smallQuotient) smallQuotient))
    (.node (.leaf (.lambda 0 .int .int))
      (.node
        (.node
          (.node (.leaf (.cond .int))
            (.node (.node (.leaf (.compare .lt)) (.leaf (.var 0 .int))) (.leaf (.int 6))))
          smallQuotient)
        smallQuotient))

/-- There are generated trees that fail inside a test. -/
theorem exists_failing_test :
    ∃ t g' s', (new (Permuted.ofSeed 663850) 0).intTree Permuted.source 3 = .ok (t, g')
      ∧ evalMarked 20 t (new (Permuted.ofSeed 663850) 0).env ⟨.empty, fun _ => false⟩ =
        some (.error ⟨.divideByZero, true⟩, s') := by
  have htree : ((new (Permuted.ofSeed 663850) 0).intTree Permuted.source 3).toOption.map Prod.fst =
      some zeroByZeroTested := by
    decide +kernel
  have hfailure : failure? (evalMarked 20 zeroByZeroTested (new (Permuted.ofSeed 663850) 0).env
      ⟨.empty, fun _ => false⟩) = some ⟨.divideByZero, true⟩ := by
    decide +kernel
  cases hrun : (new (Permuted.ofSeed 663850) 0).intTree Permuted.source 3 with
  | error e =>
      rw [hrun] at htree
      cases htree
  | ok p =>
      obtain ⟨t, g'⟩ := p
      rw [hrun] at htree
      obtain rfl : t = zeroByZeroTested := Option.some.inj htree
      obtain ⟨s', heval⟩ := eq_of_failure? hfailure
      exact ⟨_, g', s', rfl, heval⟩

end Generator

end ExprTree

import ExprTree.Proofs.Form
import ExprTree.Proofs.Outcomes
/-!
# Observed evaluation

An `Observer` looks on while a tree is evaluated: it may keep more than the heap,
tell failures apart that are the same to `eval`, and stop when a computation needs
its own result. `Observer.eval` is evaluation with an observer, and
`Observer.eval_tracks` says that it is `eval` once all that is left out.

What every reading of a slot keeps, a whole evaluation keeps. This is
`Observer.Allows.eval_keeps`.
-/

namespace ExprTree

theorem mapError_self {ε α : Type} (r : Except ε α) : (r.mapError fun e => e) = r := by
  cases r <;> rfl

/-! ## Computations with a state -/

abbrev ObservedM (ε σ : Type) := ExceptT ε (StateT σ Option)

namespace ObservedM

variable {ε σ α β : Type} {m : ObservedM ε σ α} {s s' : σ}

theorem bind_ok {x : α} (h : m s = some (.ok x, s')) (f : α → ObservedM ε σ β) :
    (m >>= f) s = f x s' := by
  rw [stateful_bind_apply, h]

theorem bind_error {e : ε} (h : m s = some (.error e, s')) (f : α → ObservedM ε σ β) :
    (m >>= f) s = some (.error e, s') := by
  rw [stateful_bind_apply, h]

theorem bind_none (h : m s = none) (f : α → ObservedM ε σ β) : (m >>= f) s = none := by
  rw [stateful_bind_apply, h]

/-- A sequence of computations ends in the first one that fails, or else in the last one. -/
theorem bind_cases {f : α → ObservedM ε σ β} {r : Except ε β} (h : (m >>= f) s = some (r, s')) :
    (∃ e, m s = some (.error e, s') ∧ r = .error e)
      ∨ ∃ x s₁, m s = some (.ok x, s₁) ∧ f x s₁ = some (r, s') := by
  rw [stateful_bind_apply] at h
  cases hm : m s with
  | none => simp [hm] at h
  | some p =>
      obtain ⟨r₁, s₁⟩ := p
      rw [hm] at h
      cases r₁ with
      | ok x => exact .inr ⟨x, s₁, rfl, h⟩
      | error e =>
          obtain ⟨rfl, rfl⟩ : .error e = r ∧ s₁ = s' := by simpa using h
          exact .inl ⟨e, rfl, rfl⟩

end ObservedM

/-! ## Readings and symbols -/

def Heap.progress? (h : Heap) (loc : Nat) : Option Progress :=
  h.cells[loc]?.map Cell.progress

theorem Slot.force_delayed (run : Tree → Env → EvalM Value) (loc : Nat) (h : Heap) :
    (Slot.delayed loc).force run h =
      match h.progress? loc with
      | some (.pending t env) => (run t env (h.start loc)).map fun p => (p.1, p.2.finish loc p.1)
      | some (.finished r) => some (r, h)
      | some .running => some (.error .cyclicBinding, h)
      | none => some (.error .cyclicBinding, h) := by
  have hprogress : h.cells[loc]?.map Cell.progress = h.progress? loc := rfl
  simp only [Slot.force, hprogress]
  cases h.progress? loc with
  | none => rfl
  | some p =>
      cases p with
      | pending t env =>
          dsimp only
          cases run t env (h.start loc) <;> rfl
      | running => rfl
      | finished r => rfl

/-- Only bindings and calls evaluate more than their arguments. -/
theorem Symbol.denote_congr (run run' : Tree → Env → EvalM Value) {s : Symbol} {args : List Value}
    (hlet : ∀ A B bound func, s = .letIn A B → args = [bound, func] → False)
    (hcall : ∀ A B func arg, s = .call A B → args = [func, arg] → False) :
    s.denote run args = s.denote run' args := by
  unfold Symbol.denote
  split
  case h_8 => exact absurd rfl (hlet _ _ _ _ rfl)
  case h_9 => exact absurd rfl (hcall _ _ _ _ rfl)
  all_goals rfl

/-- A computation that leaves all others alone, with a result in `P` or an error in `E`. -/
def EvalM.Quiet {α : Type} (E : EvalError → Prop) (P : α → Prop) (m : EvalM α) : Prop :=
  ∀ h r h', m h = some (r, h') → h'.cells = h.cells ∧ Outcome E P r

abbrev EvalM.Still {α : Type} (m : EvalM α) : Prop :=
  m.Quiet (fun _ => True) fun _ => True

namespace EvalM.Quiet

variable {α β : Type} {E : EvalError → Prop} {P : α → Prop} {Q : β → Prop}

theorem lift {x : Except EvalError α} (hx : Outcome E P x) : EvalM.Quiet E P (liftM x) := by
  intro h r h' hr
  cases x with
  | ok x =>
      cases hr
      exact ⟨rfl, hx⟩
  | error e =>
      cases hr
      exact ⟨rfl, hx⟩

theorem pure {x : α} (hx : P x) : EvalM.Quiet E P (pure x) :=
  lift (x := .ok x) hx

theorem throw {e : EvalError} (he : E e) : EvalM.Quiet E P (throw e : EvalM α) :=
  lift (x := .error e) he

theorem bind {m : EvalM α} {f : α → EvalM β} (hm : m.Quiet E P)
    (hf : ∀ x, P x → (f x).Quiet E Q) : EvalM.Quiet E Q (m >>= f) := by
  intro h r h' hr
  rcases ObservedM.bind_cases hr with ⟨e, hfirst, rfl⟩ | ⟨x, h₁, hfirst, hrest⟩
  · exact hm h (.error e) h' hfirst
  · obtain ⟨hcells, hx⟩ := hm h (.ok x) h₁ hfirst
    obtain ⟨hcells', hr'⟩ := hf x hx h₁ r h' hrest
    exact ⟨hcells'.trans hcells, hr'⟩

end EvalM.Quiet

theorem EvalM.still_lift {α : Type} (x : Except EvalError α) : EvalM.Still (liftM x) := by
  apply EvalM.Quiet.lift
  cases x with
  | ok x => trivial
  | error e => trivial

theorem EvalM.still_closure (param : VarId) (body : Tree) (env : Env) :
    (EvalM.closure param body env).Still := by
  rintro h r h' ⟨⟩
  exact ⟨rfl, trivial⟩

open EvalM (still_lift) in
theorem Symbol.denote_still (s : Symbol) (args : List Value) :
    (s.denote (fun _ _ => EvalM.outOfFuel) args).Still := by
  have hpure (v : Value) : EvalM.Still (pure v) := .pure trivial
  have hcall (v : Value) (slot : Slot) : (v.call (fun _ _ => EvalM.outOfFuel) slot).Still := by
    cases v with
    | closure => exact fun _ _ _ h => by cases h
    | _ => exact .throw trivial
  unfold Symbol.denote
  split
  case h_3 =>
    exact (still_lift _).bind fun _ _ => (still_lift _).bind fun _ _ =>
      (still_lift _).bind fun _ _ => hpure _
  case h_4 => exact (still_lift _).bind fun _ _ => (still_lift _).bind fun _ _ => hpure _
  case h_5 => exact (still_lift _).bind fun _ _ => hpure _
  case h_6 =>
    refine (still_lift _).bind fun p _ => ?_
    cases p with
    | true => exact (still_lift _).bind fun _ _ => hpure _
    | false => exact hpure _
  case h_7 =>
    refine (still_lift _).bind fun p _ => ?_
    cases p with
    | true => exact hpure _
    | false => exact hpure _
  case h_8 => exact hcall _ _
  case h_9 => exact hcall _ _
  case h_10 => exact .throw trivial
  all_goals exact hpure _

/-! ## Evaluation with an observer -/

/-- What is kept beside the heap during an evaluation, and beside the error when it fails. -/
structure Observer (ε σ : Type) where
  error : ε → EvalError
  heap : σ → Heap
  /-- The failure with an error, outside all tests. -/
  raise : EvalError → ε
  /-- The failure of a test, as it is outside of it. -/
  leaveTest : ε → ε
  /-- The state when the heap has become another one. -/
  move : σ → Heap → σ
  /-- The state when a computation has come to its result. -/
  finish : σ → Nat → Except ε Value → σ
  /-- The result of a computation that has finished. -/
  kept : σ → Nat → Except EvalError Value → Except ε Value
  /-- Whether there is no result once a running computation is read. -/
  stops : Bool
  error_raise : ∀ e, error (raise e) = e
  error_leaveTest : ∀ f, error (leaveTest f) = error f
  heap_move : ∀ s h, heap (move s h) = h
  heap_finish : ∀ s loc r, heap (finish s loc r) = (heap s).finish loc (r.mapError error)
  mapError_kept : ∀ s loc r, (kept s loc r).mapError error = r

namespace Observer

variable {ε σ α β : Type} (o : Observer ε σ)

/-- A computation that reads no slot and evaluates no test. -/
def lift (m : EvalM α) : ObservedM ε σ α := fun s =>
  (m (o.heap s)).map fun p => (p.1.mapError o.raise, o.move s p.2)

def test (m : ObservedM ε σ α) : ObservedM ε σ α := fun s =>
  (m s).map fun p => (p.1.mapError o.leaveTest, p.2)

def readRunning : ObservedM ε σ Value := fun s =>
  if o.stops then none else some (.error (o.raise .cyclicBinding), o.move s (o.heap s))

section

variable (run : Tree → Env → ObservedM ε σ Value)

def force : Slot → ObservedM ε σ Value
  | .ready v => pure v
  | .delayed loc => fun s =>
      match (o.heap s).progress? loc with
      | some (.pending tree env) =>
          (run tree env (o.move s ((o.heap s).start loc))).map fun p => (p.1, o.finish p.2 loc p.1)
      | some (.finished r) => some (o.kept s loc r, o.move s (o.heap s))
      | some .running => o.readRunning s
      | none => o.readRunning s

def call (arg : Slot) : Value → ObservedM ε σ Value
  | .closure _ param body env => run body (.bind param arg env)
  | v => throw (o.raise (.notAFunction v.text))

def denote (s : Symbol) (args : List Value) : ObservedM ε σ Value :=
  match s, args with
  | .letIn _ _, [bound, func] => o.call run (.ready bound) func
  | .call _ _, [func, arg] => o.call run (.ready arg) func
  | s, args => o.lift (s.denote (fun _ _ => EvalM.outOfFuel) args)

def step (env : Env) : Form → ObservedM ε σ Value
  | .incomplete s => throw (o.raise (.unsaturated s.name))
  | .read id =>
      match env.get? id with
      | some slot => o.force run slot
      | none => throw (o.raise (.unboundVariable id))
  | .function id body => o.lift (EvalM.closure id body env)
  | .bind bound func => do
      let slot ← o.lift (EvalM.delay bound env)
      let f ← run func env
      o.call run slot f
  | .choose test thenBranch elseBranch => do
      let v ← o.test (run test env)
      if ← o.lift v.asBool then run thenBranch env else run elseBranch env
  | .strict s args => do
      let values ← args.mapM fun arg => run arg env
      o.denote run s values

end

def eval : (fuel : Nat) → Tree → Env → ObservedM ε σ Value
  | 0, _, _ => fun _ => none
  | fuel + 1, t, env => o.step (eval fuel) env t.form

end Observer

/-! ## Without the observer -/

namespace Observer

variable {ε σ α β : Type} (o : Observer ε σ)

/-- The same answer, with what the observer adds to it, unless the observer has stopped. -/
inductive Matches : Option (Except ε α × σ) → Option (Except EvalError α × Heap) → Prop where
  | answer (r : Except ε α) (s : σ) : Matches (some (r, s)) (some (r.mapError o.error, o.heap s))
  | outOfFuel : Matches none none
  | stopped (h : Heap) : o.stops = true → Matches none (some (.error .cyclicBinding, h))

def Tracks (m : ObservedM ε σ α) (m' : EvalM α) : Prop :=
  ∀ s, o.Matches (m s) (m' (o.heap s))

variable {o}

theorem Matches.of_eq {r : Except ε α} {s : σ} {r' : Except EvalError α} {h : Heap}
    (hr : r.mapError o.error = r') (hs : o.heap s = h) :
    o.Matches (some (r, s)) (some (r', h)) := by
  subst hr hs
  exact .answer r s

namespace Tracks

theorem raise (e : EvalError) : o.Tracks (throw (o.raise e) : ObservedM ε σ α) (throw e) :=
  fun _ => .of_eq (congrArg Except.error (o.error_raise e)) rfl

theorem pure (x : α) : o.Tracks (pure x) (pure x) :=
  fun s => .answer (.ok x) s

theorem bind {m : ObservedM ε σ α} {m' : EvalM α} {f : α → ObservedM ε σ β} {f' : α → EvalM β}
    (hm : o.Tracks m m') (hf : ∀ x, o.Tracks (f x) (f' x)) : o.Tracks (m >>= f) (m' >>= f') := by
  intro s
  have hms := hm s
  rw [stateful_bind_apply, stateful_bind_apply]
  generalize m s = p, m' (o.heap s) = p' at hms ⊢
  cases hms with
  | answer r s' =>
      cases r with
      | ok x => exact hf x s'
      | error e => exact .answer (.error e) s'
  | outOfFuel => exact .outOfFuel
  | stopped h hstops => exact .stopped h hstops

theorem mapM {γ : Type} {f : γ → ObservedM ε σ α} {f' : γ → EvalM α}
    (hf : ∀ x, o.Tracks (f x) (f' x)) (xs : List γ) : o.Tracks (xs.mapM f) (xs.mapM f') := by
  induction xs with
  | nil => exact pure _
  | cons x xs ih =>
      simp only [List.mapM_cons]
      exact (hf x).bind fun _ => ih.bind fun _ => pure _

theorem lift (m : EvalM α) : o.Tracks (o.lift m) m := by
  intro s
  unfold Observer.lift
  cases m (o.heap s) with
  | none => exact .outOfFuel
  | some p =>
      obtain ⟨r, h⟩ := p
      have hr : (r.mapError o.raise).mapError o.error = r := by
        cases r with
        | ok x => rfl
        | error e => exact congrArg Except.error (o.error_raise e)
      exact .of_eq hr (o.heap_move s h)

theorem test {m : ObservedM ε σ α} {m' : EvalM α} (hm : o.Tracks m m') :
    o.Tracks (o.test m) m' := by
  intro s
  have hms := hm s
  unfold Observer.test
  generalize m s = p, m' (o.heap s) = p' at hms ⊢
  cases hms with
  | answer r s' =>
      have hr : (r.mapError o.leaveTest).mapError o.error = r.mapError o.error := by
        cases r with
        | ok x => rfl
        | error f => exact congrArg Except.error (o.error_leaveTest f)
      exact .of_eq hr rfl
  | outOfFuel => exact .outOfFuel
  | stopped h hstops => exact .stopped h hstops

theorem readRunning :
    o.Tracks o.readRunning (fun h => some (.error .cyclicBinding, h)) := by
  intro s
  unfold Observer.readRunning
  split
  · rename_i hstops
    exact .stopped _ hstops
  · exact .of_eq (congrArg Except.error (o.error_raise _)) (o.heap_move s _)

section

variable {run : Tree → Env → ObservedM ε σ Value} {run' : Tree → Env → EvalM Value}

theorem force (hrun : ∀ t env, o.Tracks (run t env) (run' t env)) (slot : Slot) :
    o.Tracks (o.force run slot) (slot.force run') := by
  cases slot with
  | ready v => exact pure v
  | delayed loc =>
      intro s
      rw [Slot.force_delayed]
      simp only [Observer.force]
      cases (o.heap s).progress? loc with
      | none => exact readRunning s
      | some p =>
          cases p with
          | running => exact readRunning s
          | finished r => exact .of_eq (o.mapError_kept s loc r) (o.heap_move s _)
          | pending t env =>
              -- The computation runs from the heap on which it is marked as started.
              have hstart := hrun t env (o.move s ((o.heap s).start loc))
              rw [o.heap_move] at hstart
              dsimp only
              generalize run t env (o.move s ((o.heap s).start loc)) = q,
                run' t env ((o.heap s).start loc) = q' at hstart ⊢
              cases hstart with
              | answer r s' => exact .of_eq rfl (o.heap_finish s' loc r)
              | outOfFuel => exact .outOfFuel
              | stopped h hstops => exact .stopped _ hstops

theorem call (hrun : ∀ t env, o.Tracks (run t env) (run' t env)) (arg : Slot) (v : Value) :
    o.Tracks (o.call run arg v) (v.call run' arg) := by
  cases v with
  | closure tag param body env => exact hrun _ _
  | bool b => exact raise _
  | int n => exact raise _

theorem denote (hrun : ∀ t env, o.Tracks (run t env) (run' t env)) (s : Symbol)
    (args : List Value) : o.Tracks (o.denote run s args) (s.denote run' args) := by
  unfold Observer.denote
  split
  · exact call hrun _ _
  · exact call hrun _ _
  · rename_i hlet hcall
    rw [← Symbol.denote_congr (fun _ _ => EvalM.outOfFuel) run' hlet hcall]
    exact lift _

theorem step (hrun : ∀ t env, o.Tracks (run t env) (run' t env)) (env : Env) (form : Form) :
    o.Tracks (o.step run env form) (form.step run' env) := by
  cases form with
  | incomplete s => exact raise _
  | read id =>
      simp only [Observer.step, Form.step]
      cases env.get? id with
      | none => exact raise _
      | some slot => exact force hrun slot
  | function id body => exact lift _
  | bind bound func => exact (lift _).bind fun _ => (hrun _ _).bind fun _ => call hrun _ _
  | choose test thenBranch elseBranch =>
      refine (hrun _ _).test.bind fun _ => (lift _).bind fun b => ?_
      cases b with
      | true => exact hrun _ _
      | false => exact hrun _ _
  | strict s args => exact (mapM (fun _ => hrun _ _) _).bind fun _ => denote hrun _ _

end

theorem erases {m : ObservedM ε σ α} {m' : EvalM α} (h : o.Tracks m m') (hstops : o.stops = false)
    (s : σ) : m' (o.heap s) = (m s).map fun p => (p.1.mapError o.error, o.heap p.2) := by
  have hs := h s
  generalize m s = p, m' (o.heap s) = p' at hs ⊢
  cases hs with
  | answer r s' => rfl
  | outOfFuel => rfl
  | stopped h hstops' => cases hstops.symm.trans hstops'

/-- An observer has not stopped where the answer is not a computation that needs itself. -/
theorem exists_answer {m : ObservedM ε σ α} {m' : EvalM α} (h : o.Tracks m m') {s : σ}
    {r : Except EvalError α} {h' : Heap} (hm' : m' (o.heap s) = some (r, h'))
    (hr : r ≠ .error .cyclicBinding) :
    ∃ r₀ s', m s = some (r₀, s') ∧ r₀.mapError o.error = r ∧ o.heap s' = h' := by
  have hs := h s
  rw [hm'] at hs
  generalize m s = p at hs ⊢
  cases hs with
  | answer r₀ s' => exact ⟨r₀, s', rfl, rfl, rfl⟩
  | stopped => exact absurd rfl hr

end Tracks

theorem eval_tracks (o : Observer ε σ) (fuel : Nat) (t : Tree) (env : Env) :
    o.Tracks (o.eval fuel t env) (ExprTree.eval fuel t env) := by
  induction fuel generalizing t env with
  | zero => exact fun _ => .outOfFuel
  | succ fuel ih =>
      rw [eval_succ]
      exact Tracks.step ih env t.form

end Observer

/-! ## What an evaluation keeps -/

def ObservedM.Keeps {ε σ α : Type} (R : σ → σ → Prop) (m : ObservedM ε σ α) : Prop :=
  ∀ s r s', m s = some (r, s') → R s s'

/-- The relation holds wherever no slot is read. -/
structure Observer.Allows {ε σ : Type} (o : Observer ε σ) (R : σ → σ → Prop) : Prop where
  refl : ∀ s, R s s
  trans : ∀ {s s' s''}, R s s' → R s' s'' → R s s''
  still : ∀ s h, h.cells = (o.heap s).cells → R s (o.move s h)
  delay : ∀ s t env, R s (o.move s ((o.heap s).delay t env).2)

namespace Observer.Allows

variable {ε σ α β : Type} {o : Observer ε σ} {R : σ → σ → Prop} (hR : o.Allows R)

include hR

theorem keeps_throw (f : ε) : ObservedM.Keeps R (throw f : ObservedM ε σ α) := by
  rintro s r s' ⟨⟩
  exact hR.refl s

theorem keeps_pure (x : α) : ObservedM.Keeps R (pure x : ObservedM ε σ α) := by
  rintro s r s' ⟨⟩
  exact hR.refl s

theorem keeps_bind {m : ObservedM ε σ α} {f : α → ObservedM ε σ β} (hm : m.Keeps R)
    (hf : ∀ x, (f x).Keeps R) : ObservedM.Keeps R (m >>= f) := by
  intro s r s' hr
  rcases ObservedM.bind_cases hr with ⟨e, hfirst, _⟩ | ⟨x, s₁, hfirst, hrest⟩
  · exact hm s (.error e) s' hfirst
  · exact hR.trans (hm s (.ok x) s₁ hfirst) (hf x s₁ r s' hrest)

theorem keeps_mapM {γ : Type} {f : γ → ObservedM ε σ α} (hf : ∀ x, (f x).Keeps R) (xs : List γ) :
    ObservedM.Keeps R (xs.mapM f) := by
  induction xs with
  | nil => exact hR.keeps_pure _
  | cons x xs ih =>
      simp only [List.mapM_cons]
      exact hR.keeps_bind (hf x) fun _ => hR.keeps_bind ih fun _ => hR.keeps_pure _

omit hR in
theorem keeps_lift {m : EvalM α}
    (hm : ∀ s r h, m (o.heap s) = some (r, h) → R s (o.move s h)) : (o.lift m).Keeps R := by
  intro s r s' hr
  obtain ⟨⟨r₁, h₁⟩, hms, heq⟩ := Option.map_eq_some_iff.1 hr
  obtain ⟨_, rfl⟩ := Prod.mk.inj heq
  exact hm s r₁ h₁ hms

omit hR in
theorem keeps_test {m : ObservedM ε σ α} (hm : m.Keeps R) : (o.test m).Keeps R := by
  intro s r s' hr
  obtain ⟨⟨r₁, s₁⟩, hms, heq⟩ := Option.map_eq_some_iff.1 hr
  obtain ⟨_, rfl⟩ := Prod.mk.inj heq
  exact hm s r₁ s₁ hms

theorem keeps_still {m : EvalM α} (hm : m.Still) : (o.lift m).Keeps R :=
  keeps_lift fun s r h hr => hR.still s h (hm _ r h hr).1

theorem keeps_delay (t : Tree) (env : Env) : (o.lift (EvalM.delay t env)).Keeps R := by
  refine keeps_lift ?_
  rintro s r h ⟨⟩
  exact hR.delay s t env

section

variable {run : Tree → Env → ObservedM ε σ Value}

theorem keeps_call (hrun : ∀ t env, (run t env).Keeps R) (arg : Slot) (v : Value) :
    (o.call run arg v).Keeps R := by
  cases v with
  | closure tag param body env => exact hrun _ _
  | bool b => exact hR.keeps_throw _
  | int n => exact hR.keeps_throw _

theorem keeps_denote (hrun : ∀ t env, (run t env).Keeps R) (s : Symbol) (args : List Value) :
    (o.denote run s args).Keeps R := by
  unfold Observer.denote
  split
  · exact hR.keeps_call hrun _ _
  · exact hR.keeps_call hrun _ _
  · exact hR.keeps_still (s.denote_still args)

theorem keeps_step (hrun : ∀ t env, (run t env).Keeps R)
    (hforce : ∀ slot, (o.force run slot).Keeps R) (env : Env) (form : Form) :
    (o.step run env form).Keeps R := by
  cases form with
  | incomplete s => exact hR.keeps_throw _
  | read id =>
      simp only [Observer.step]
      cases env.get? id with
      | none => exact hR.keeps_throw _
      | some slot => exact hforce slot
  | function id body => exact hR.keeps_still (EvalM.still_closure id body env)
  | bind bound func =>
      exact hR.keeps_bind (hR.keeps_delay bound env) fun _ =>
        hR.keeps_bind (hrun _ _) fun _ => hR.keeps_call hrun _ _
  | choose test thenBranch elseBranch =>
      refine hR.keeps_bind (keeps_test (hrun _ _)) fun v => ?_
      refine hR.keeps_bind (hR.keeps_still (EvalM.still_lift v.asBool)) fun b => ?_
      cases b with
      | true => exact hrun _ _
      | false => exact hrun _ _
  | strict s args =>
      exact hR.keeps_bind (hR.keeps_mapM (fun _ => hrun _ _) _) fun _ => hR.keeps_denote hrun _ _

end

/-- An evaluation keeps what readings keep. -/
theorem eval_keeps
    (hforce : ∀ n, (∀ t env, (o.eval n t env).Keeps R) → ∀ slot, (o.force (o.eval n) slot).Keeps R)
    (fuel : Nat) (t : Tree) (env : Env) : (o.eval fuel t env).Keeps R := by
  induction fuel generalizing t env with
  | zero =>
      intro s r s' h
      cases h
  | succ fuel ih => exact hR.keeps_step ih (hforce fuel ih) env t.form

end Observer.Allows

end ExprTree

import ExprTree.Tree
/-!
# Outcomes of computations

`Outcome` says what a computation may return and what it may fail with, and
`Outcome.From` says it of one that starts in a state. `Reaches` is for computations
that take fuel: from some amount on, the answer is always the same. All that is
said about the passes, the generator and the evaluators is said with these.
-/

namespace ExprTree

/-! ## Results and errors -/

/-- A result in `P` or an error in `E`. -/
def Outcome {ε α : Type} (E : ε → Prop) (P : α → Prop) : Except ε α → Prop
  | .ok x => P x
  | .error e => E e

namespace Outcome

variable {ε α β : Type} {E E' : ε → Prop} {P P' : α → Prop} {Q : β → Prop} {m : Except ε α}

theorem bind {f : α → Except ε β} (hm : Outcome E P m) (hf : ∀ x, P x → Outcome E Q (f x)) :
    Outcome E Q (m >>= f) := by
  cases m with
  | ok x => exact hf x hm
  | error e => exact hm

theorem mono (hm : Outcome E P m) (hE : ∀ e, E e → E' e) (hP : ∀ x, P x → P' x) :
    Outcome E' P' m := by
  cases m with
  | ok x => exact hP x hm
  | error e => exact hE e hm

theorem of_ok {x : α} (hm : Outcome E P m) (hx : m = .ok x) : P x := by
  subst hx
  exact hm

theorem with_eq (hm : Outcome E P m) : Outcome E (fun x => P x ∧ m = .ok x) m := by
  cases m with
  | ok x => exact ⟨hm, rfl⟩
  | error e => exact hm

theorem pair (hm : Outcome E P m) (st : β) :
    Outcome E (fun p : α × β => P p.1 ∧ p.2 = st) (m >>= fun x => pure (x, st)) :=
  hm.bind fun _ hx => ⟨hx, rfl⟩

def From {σ : Type} (E : ε → Prop) (s : σ) (P : α → σ → Prop) (m : StateT σ (Except ε) α) : Prop :=
  Outcome E (fun p => P p.1 p.2) (m s)

namespace From

variable {σ : Type} {s : σ} {P P' : α → σ → Prop} {Q : β → σ → Prop} {m : StateT σ (Except ε) α}

theorem pure {x : α} (hx : P x s) : From E s P (Pure.pure x) :=
  hx

theorem lift {e : Except ε α} (he : Outcome E (P · s) e) : From E s P (liftM e) :=
  he.bind fun _ hx => hx

theorem bind {f : α → StateT σ (Except ε) β} (hm : From E s P m)
    (hf : ∀ x s', P x s' → From E s' Q (f x)) : From E s Q (m >>= f) :=
  Outcome.bind hm fun p hp => hf p.1 p.2 hp

theorem mono (hm : From E s P m) (hE : ∀ e, E e → E' e) (hP : ∀ x s', P x s' → P' x s') :
    From E' s P' m :=
  Outcome.mono hm hE fun p hp => hP p.1 p.2 hp

end From

end Outcome

/-- A result in `P`, or else the fault of a number out of range, which then has to
come from `cause`. -/
def Yields {α : Type} (cause : Prop) (P : α → Prop) : Except Fault α → Prop :=
  Outcome (fun f => f = .overflow ∧ cause) P

def Returns {α : Type} (P : α → Prop) : Except Fault α → Prop :=
  Outcome (fun _ => True) P

theorem returns_iff {α : Type} {P : α → Prop} {m : Except Fault α} :
    Returns P m ↔ ∀ x, m = .ok x → P x := by
  constructor
  · intro h x hx
    exact h.of_ok hx
  · intro h
    cases m with
    | ok x => exact h x rfl
    | error e => trivial

namespace Yields

variable {α : Type} {cause cause' : Prop} {P P' : α → Prop} {m : Except Fault α}

theorem mono (hm : Yields cause P m) (hcause : cause → cause') (hP : ∀ x, P x → P' x) :
    Yields cause' P' m :=
  Outcome.mono hm (fun _ hf => ⟨hf.1, hcause hf.2⟩) hP

/-- Where the fault has no cause there is a result. -/
theorem exists_ok (hm : Yields cause P m) (hcause : ¬cause) : ∃ x, m = .ok x ∧ P x := by
  cases m with
  | ok x => exact ⟨x, rfl, hm⟩
  | error e => exact absurd hm.2 hcause

end Yields

/-! ## Fuel -/

/-- With enough fuel the answer is `x`. -/
def Reaches {α : Type} (m : Nat → α) (x : α) : Prop :=
  ∃ n, ∀ fuel, n ≤ fuel → m fuel = x

namespace Reaches

variable {α β : Type} {m : Nat → α} {m' : Nat → β} {x y : α} {z : β}

theorem const (x : α) : Reaches (fun _ => x) x :=
  ⟨0, fun _ _ => rfl⟩

theorem both {γ : Type} {k : Nat → γ} {w : γ} (hm : Reaches m x) (hm' : Reaches m' z)
    (hk : ∀ fuel, m fuel = x → m' fuel = z → k fuel = w) : Reaches k w := by
  obtain ⟨i, hi⟩ := hm
  obtain ⟨j, hj⟩ := hm'
  exact ⟨max i j, fun fuel hfuel => hk fuel (hi fuel (by omega)) (hj fuel (by omega))⟩

theorem map (hm : Reaches m x) {m' : Nat → β} (h : ∀ fuel, m fuel = x → m' fuel = z) :
    Reaches m' z :=
  hm.both hm fun fuel hfuel _ => h fuel hfuel

theorem exists_common (hm : Reaches m x) (hm' : Reaches m' z) :
    ∃ fuel, m fuel = x ∧ m' fuel = z := by
  obtain ⟨n, hn⟩ := hm.both (k := fun fuel => (m fuel, m' fuel)) hm' fun _ hx hz => by rw [hx, hz]
  exact ⟨n, Prod.mk.inj (hn n (Nat.le_refl n))⟩

theorem unique (hx : Reaches m x) (hy : Reaches m y) : x = y := by
  obtain ⟨fuel, hx, hy⟩ := hx.exists_common hy
  exact hx.symm.trans hy

end Reaches

/-- With enough fuel the answer is `x`, and with any fuel it is `x` or that fuel is short. -/
structure Decides {ε α : Type} (short : ε) (m : Nat → Except ε α) (x : Except ε α) : Prop where
  reaches : Reaches m x
  any : ∀ fuel, m fuel = x ∨ m fuel = .error short

namespace Decides

variable {ε α β : Type} {short : ε} {m : Nat → Except ε α} {f : Nat → α → Except ε β}

theorem of_eq {x : Except ε α} (h : ∀ fuel, m fuel = x) : Decides short m x :=
  ⟨⟨0, fun fuel _ => h fuel⟩, fun fuel => .inl (h fuel)⟩

theorem eq_of_ok {x y : α} (hm : Decides short m (.ok x)) {fuel : Nat} (hy : m fuel = .ok y) :
    y = x := by
  rcases hm.any fuel with hok | hshort
  · exact Except.ok.inj (hy.symm.trans hok)
  · cases hy.symm.trans hshort

theorem bind {x : α} {y : Except ε β} (hm : Decides short m (.ok x))
    (hf : Decides short (fun fuel => f fuel x) y) :
    Decides short (fun fuel => m fuel >>= f fuel) y where
  reaches := hm.reaches.both hf.reaches fun fuel hx hy => by rw [hx]; exact hy
  any := by
    intro fuel
    rcases hm.any fuel with hok | hshort
    · rw [hok]
      exact hf.any fuel
    · rw [hshort]
      exact .inr rfl

theorem bind_error {e : ε} (hm : Decides short m (.error e)) :
    Decides short (fun fuel => m fuel >>= f fuel) (.error e) where
  reaches := hm.reaches.map fun fuel hfuel => by rw [hfuel]; rfl
  any := by
    intro fuel
    rcases hm.any fuel with h | h
    · rw [h]
      exact .inl rfl
    · rw [h]
      exact .inr rfl

theorem mapError {ε' : Type} {x : Except ε α} (hm : Decides short m x) (g : ε → ε') :
    Decides (g short) (fun fuel => (m fuel).mapError g) (x.mapError g) where
  reaches := hm.reaches.map fun _ hfuel => congrArg (Except.mapError g) hfuel
  any fuel := (hm.any fuel).imp (congrArg (Except.mapError g)) (congrArg (Except.mapError g))

end Decides

/-- As `Decides`, with an answer in `P`. -/
def Concludes {ε α : Type} (short : ε) (P : Except ε α → Prop) (m : Nat → Except ε α) : Prop :=
  ∃ x, P x ∧ Decides short m x

namespace Concludes

variable {ε α β : Type} {short : ε} {P P' : Except ε α → Prop} {Q : Except ε β → Prop}
  {m : Nat → Except ε α}

theorem const {x : Except ε α} (hx : P x) : Concludes short P fun _ => x :=
  ⟨x, hx, .of_eq fun _ => rfl⟩

theorem mono (hm : Concludes short P m) (hP : ∀ x, P x → P' x) : Concludes short P' m := by
  obtain ⟨x, hx, hdecides⟩ := hm
  exact ⟨x, hP x hx, hdecides⟩

theorem bind {f : Nat → α → Except ε β} (hm : Concludes short P m)
    (hok : ∀ a, P (.ok a) → Concludes short Q fun fuel => f fuel a)
    (herror : ∀ e, P (.error e) → Q (.error e)) :
    Concludes short Q fun fuel => m fuel >>= f fuel := by
  obtain ⟨x, hx, hdecides⟩ := hm
  cases x with
  | error e => exact ⟨.error e, herror e hx, hdecides.bind_error⟩
  | ok a =>
      obtain ⟨y, hy, hdecides'⟩ := hok a hx
      exact ⟨y, hy, hdecides.bind hdecides'⟩

theorem mapError {ε' : Type} {P' : Except ε' α → Prop} (hm : Concludes short P m) (g : ε → ε')
    (hP : ∀ x, P x → P' (x.mapError g)) :
    Concludes (g short) P' fun fuel => (m fuel).mapError g := by
  obtain ⟨x, hx, hdecides⟩ := hm
  exact ⟨x.mapError g, hP x hx, hdecides.mapError g⟩

end Concludes

def Determines {α : Type} (m : Nat → Except Fault α) (x : α) : Prop :=
  Decides .outOfFuel m (.ok x)

def Settles {α : Type} (m : Nat → Option α) (a : α) : Prop :=
  Reaches m (some a)

theorem Settles.unique {α : Type} {m : Nat → Option α} {a b : α} (ha : Settles m a)
    (hb : Settles m b) : a = b :=
  Option.some.inj (Reaches.unique ha hb)

end ExprTree

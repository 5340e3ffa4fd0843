import ExprTree.Proofs.Adequacy
import ExprTree.Proofs.Scope
/-!
# Refinement up to failures of tests

A pass that drops a test also drops its failures. `Refined` compares results in
that sense: values and failures are kept, but a failure raised in a test may
become anything. On functions the comparison is extensional, so that it passes
through closures and delayed arguments.
-/

namespace ExprTree

/-- The second result keeps the first one, unless that is a failure raised in a test. -/
inductive Refined {α β : Type} (R : α → β → Prop) : Except Failure α → Except Failure β → Prop where
  | ok {x : α} {y : β} : R x y → Refined R (.ok x) (.ok y)
  | error (f : Failure) : Refined R (.error f) (.error f)
  | test {f : Failure} (r : Except Failure β) : f.inTest = true → Refined R (.error f) r

namespace Refined

variable {α β γ δ : Type} {R : α → β → Prop} {Q : γ → δ → Prop}

theorem bind {m : Except Failure α} {m' : Except Failure β} {f : α → Except Failure γ}
    {f' : β → Except Failure δ} (hm : Refined R m m')
    (hf : ∀ x y, R x y → Refined Q (f x) (f' y)) : Refined Q (m >>= f) (m' >>= f') := by
  cases hm with
  | ok hxy => exact hf _ _ hxy
  | error e => exact .error e
  | test r htest => exact .test _ htest

/-- After a test only its values matter: its failures are marked. -/
theorem after_test {m : Except Failure α} {f : α → Except Failure γ} {r : Except Failure δ}
    (h : ∀ x, m = .ok x → Refined Q (f x) r) : Refined Q (ExprTree.markTest m >>= f) r := by
  cases m with
  | ok x => exact h x rfl
  | error e => exact .test _ rfl

theorem markTest {m : Except Failure α} {m' : Except Failure β} (hm : Refined R m m') :
    Refined R (ExprTree.markTest m) (ExprTree.markTest m') := by
  cases hm with
  | ok hxy => exact .ok hxy
  | error e => exact .error _
  | test r' _ => exact .test _ rfl

end Refined

/-- The second object of the type keeps what the first one does. -/
def Ty.Refines : (ty : Ty) → ty.Carrier → ty.Carrier → Prop
  | bool => fun p q => p = q
  | int => fun m n => m = n
  | fn arg result => fun f g =>
      ∀ m m', Refined arg.Refines m m' → Refined result.Refines (f m) (g m')

def Valuation.Refines (Γ : Context) (ρ ρ' : Valuation) : Prop :=
  ∀ id, Refined (Γ id).Refines (ρ id (Γ id)) (ρ' id (Γ id))

theorem Valuation.Refines.set {Γ : Context} {ρ ρ' : Valuation} (h : ρ.Refines Γ ρ') (id : VarId)
    {ty : Ty} {m m' : Meaning ty} (hm : Refined ty.Refines m m') :
    (ρ.set id ty m).Refines (Γ.set id ty) (ρ'.set id ty m') := by
  intro x
  by_cases hx : x = id
  · subst hx
    rw [Γ.set_same, ρ.set_same, ρ'.set_same]
    exact hm
  · rw [Γ.set_other ty hx, ρ.set_other id m hx, ρ'.set_other id m' hx]
    exact h x

theorem Env.Assigns.valuation_refines {env : Env} {Γ : Context} {vars : VarSet}
    (h : env.Assigns Γ vars) : env.valuation.Refines (env.context Γ) env.valuation := by
  intro id
  cases hget : env.get? id with
  | none =>
      have hunbound : ∀ ty, env.valuation id ty = .error (.plain (.unboundVariable id)) := by
        intro ty
        simp [Env.valuation, hget]
      rw [hunbound]
      exact .error _
  | some slot =>
      obtain ⟨ty, hslot, _⟩ := h id slot hget
      have hctx : env.context Γ id = ty := by simp [Env.context, hget, hslot]
      rw [hctx]
      rcases Slot.groundType?_cases hslot with ⟨b, rfl, rfl⟩ | ⟨n, rfl, rfl⟩
      · simp only [Env.valuation, hget]
        exact .ok rfl
      · simp only [Env.valuation, hget]
        exact .ok rfl

namespace Tree

/-- The second tree is no larger and brings no variables of its own. -/
structure Simpler (t t' : Tree) : Prop where
  size_le : t'.size ≤ t.size
  mem_freeVars : ∀ x ∈ t'.freeVars .standard, x ∈ t.freeVars .standard
  bindsOutside : ∀ taken, t.BindsOutside taken → t'.BindsOutside taken

theorem Simpler.refl (t : Tree) : Simpler t t :=
  ⟨Nat.le_refl _, fun _ h => h, fun _ h => h⟩

theorem Simpler.node {f f' x x' : Tree} (hf : Simpler f f') (hx : Simpler x x')
    (hbinder : f'.binder? .standard = f.binder? .standard) :
    Simpler (node f x) (node f' x') where
  size_le := Nat.add_le_add hf.size_le hx.size_le
  mem_freeVars := by
    intro y hy
    rw [mem_freeVars_node, hbinder] at hy
    rw [mem_freeVars_node]
    exact hy.imp (hf.mem_freeVars y) fun h => ⟨hx.mem_freeVars y h.1, h.2⟩
  bindsOutside := by
    intro taken h
    unfold BindsOutside at h ⊢
    rw [hbinder]
    cases hfb : f.binder? .standard with
    | some id =>
        rw [hfb] at h
        exact ⟨h.1, hx.bindsOutside _ h.2⟩
    | none =>
        rw [hfb] at h
        exact ⟨hf.bindsOutside _ h.1, hx.bindsOutside _ h.2⟩

theorem Simpler.of_arg {f x x' : Tree} (hf : f.binder? .standard = none) (h : Simpler x x') :
    Simpler (.node f x) x' where
  size_le := Nat.le_trans h.size_le (Nat.le_add_left _ _)
  mem_freeVars := by
    intro y hy
    refine mem_freeVars_node.2 (.inr ⟨h.mem_freeVars y hy, ?_⟩)
    simp [hf]
  bindsOutside := by
    intro taken ht
    unfold BindsOutside at ht
    rw [hf] at ht
    exact h.bindsOutside taken ht.2

theorem Simpler.of_func {f x t' : Tree} (hf : f.binder? .standard = none) (h : Simpler f t') :
    Simpler (.node f x) t' where
  size_le := Nat.le_trans h.size_le (Nat.le_add_right _ _)
  mem_freeVars := fun y hy => mem_freeVars_node.2 (.inl (h.mem_freeVars y hy))
  bindsOutside := by
    intro taken ht
    unfold BindsOutside at ht
    rw [hf] at ht
    exact h.bindsOutside taken ht.1

theorem Simpler.nonShadowing {t t' : Tree} (h : Simpler t t') (ht : t.NonShadowing) :
    t'.NonShadowing :=
  (h.bindsOutside _ ht).mono h.mem_freeVars

structure Improves (Γ : Context) (ty : Ty) (t t' : Tree) : Prop where
  typed : Typed Γ t ty
  typed' : Typed Γ t' ty
  simpler : Simpler t t'
  refines : ∀ ρ ρ' : Valuation, ρ.Refines Γ ρ' → Refined ty.Refines (t.value ρ ty) (t'.value ρ' ty)

/-! ## One construct over improved arguments -/

namespace Improves

variable {Γ : Context} {a a' b b' test test' : Tree} {A B ty : Ty}

theorem var (id : VarId) : Improves Γ (Γ id) (leaf (.var id (Γ id))) (leaf (.var id (Γ id))) where
  typed := .var id
  typed' := .var id
  simpler := .refl _
  refines := by
    intro ρ ρ' hρ
    rw [value_var, value_var]
    exact hρ id

theorem int (n : Int64) : Improves Γ .int (leaf (.int n)) (leaf (.int n)) where
  typed := .int n
  typed' := .int n
  simpler := .refl _
  refines := by
    intro ρ ρ' _
    rw [value_int, value_int]
    exact .ok rfl

theorem bool (p : Bool) : Improves Γ .bool (leaf (.bool p)) (leaf (.bool p)) where
  typed := .bool p
  typed' := .bool p
  simpler := .refl _
  refines := by
    intro ρ ρ' _
    rw [value_bool, value_bool]
    exact .ok rfl

theorem arith (op : ArithOp) (ha : Improves Γ .int a a') (hb : Improves Γ .int b b') :
    Improves Γ .int (node (node (leaf (.arith op)) a) b)
      (node (node (leaf (.arith op)) a') b') where
  typed := .arith op ha.typed hb.typed
  typed' := .arith op ha.typed' hb.typed'
  simpler := ((Simpler.refl _).node ha.simpler rfl).node hb.simpler rfl
  refines := by
    intro ρ ρ' hρ
    rw [value_arith ρ op ha.typed.resultType_eq hb.typed.resultType_eq,
      value_arith ρ' op ha.typed'.resultType_eq hb.typed'.resultType_eq]
    refine (ha.refines ρ ρ' hρ).bind fun m m' hm => (hb.refines ρ ρ' hρ).bind fun n n' hn => ?_
    obtain rfl : m = m' := hm
    obtain rfl : n = n' := hn
    cases op.eval m n with
    | ok z => exact .ok rfl
    | error e => exact .error _

theorem compare (op : CompareOp) (ha : Improves Γ .int a a') (hb : Improves Γ .int b b') :
    Improves Γ .bool (node (node (leaf (.compare op)) a) b)
      (node (node (leaf (.compare op)) a') b') where
  typed := .compare op ha.typed hb.typed
  typed' := .compare op ha.typed' hb.typed'
  simpler := ((Simpler.refl _).node ha.simpler rfl).node hb.simpler rfl
  refines := by
    intro ρ ρ' hρ
    rw [value_compare ρ op ha.typed.resultType_eq hb.typed.resultType_eq,
      value_compare ρ' op ha.typed'.resultType_eq hb.typed'.resultType_eq]
    refine (ha.refines ρ ρ' hρ).bind fun m m' hm => (hb.refines ρ ρ' hρ).bind fun n n' hn => ?_
    obtain rfl : m = m' := hm
    obtain rfl : n = n' := hn
    exact .ok rfl

theorem negation (ha : Improves Γ .bool a a') :
    Improves Γ .bool (node (leaf .negation) a) (node (leaf .negation) a') where
  typed := .negation ha.typed
  typed' := .negation ha.typed'
  simpler := (Simpler.refl _).node ha.simpler rfl
  refines := by
    intro ρ ρ' hρ
    rw [value_negation ρ ha.typed.resultType_eq, value_negation ρ' ha.typed'.resultType_eq]
    refine (ha.refines ρ ρ' hρ).bind fun p p' hp => ?_
    obtain rfl : p = p' := hp
    exact .ok rfl

theorem conjunction (ha : Improves Γ .bool a a') (hb : Improves Γ .bool b b') :
    Improves Γ .bool (node (node (leaf .conjunction) a) b)
      (node (node (leaf .conjunction) a') b') where
  typed := .conjunction ha.typed hb.typed
  typed' := .conjunction ha.typed' hb.typed'
  simpler := ((Simpler.refl _).node ha.simpler rfl).node hb.simpler rfl
  refines := by
    intro ρ ρ' hρ
    rw [value_conjunction ρ ha.typed.resultType_eq hb.typed.resultType_eq,
      value_conjunction ρ' ha.typed'.resultType_eq hb.typed'.resultType_eq]
    refine (ha.refines ρ ρ' hρ).bind fun p p' hp => (hb.refines ρ ρ' hρ).bind fun q q' hq => ?_
    obtain rfl : p = p' := hp
    obtain rfl : q = q' := hq
    exact .ok rfl

theorem cond (htest : Improves Γ .bool test test') (ha : Improves Γ ty a a')
    (hb : Improves Γ ty b b') :
    Improves Γ ty (node (node (node (leaf (.cond ty)) test) a) b)
      (node (node (node (leaf (.cond ty)) test') a') b') where
  typed := .cond htest.typed ha.typed hb.typed
  typed' := .cond htest.typed' ha.typed' hb.typed'
  simpler := (((Simpler.refl _).node htest.simpler rfl).node ha.simpler rfl).node hb.simpler rfl
  refines := by
    intro ρ ρ' hρ
    rw [value_cond ρ htest.typed.resultType_eq ha.typed.resultType_eq hb.typed.resultType_eq,
      value_cond ρ' htest.typed'.resultType_eq ha.typed'.resultType_eq hb.typed'.resultType_eq]
    refine (htest.refines ρ ρ' hρ).markTest.bind fun (p p' : Bool) hp => ?_
    obtain rfl : p = p' := hp
    cases p with
    | true => exact ha.refines ρ ρ' hρ
    | false => exact hb.refines ρ ρ' hρ

/-- A condition both of whose branches `c` may replace. -/
theorem cond_of_branches {c : Tree} (htest : Typed Γ test .bool) (ha : Improves Γ ty a c)
    (hb : Typed Γ b ty)
    (hbc : ∀ ρ ρ' : Valuation, ρ.Refines Γ ρ' → Refined ty.Refines (b.value ρ ty) (c.value ρ' ty)) :
    Improves Γ ty (node (node (node (leaf (.cond ty)) test) a) b) c where
  typed := .cond htest ha.typed hb
  typed' := ha.typed'
  simpler := (ha.simpler.of_arg rfl).of_func rfl
  refines := by
    intro ρ ρ' hρ
    rw [value_cond ρ htest.resultType_eq ha.typed.resultType_eq hb.resultType_eq]
    refine Refined.after_test fun (p : Bool) _ => ?_
    cases p with
    | true => exact ha.refines ρ ρ' hρ
    | false => exact hbc ρ ρ' hρ

/-- A condition whose test has become decided. -/
theorem cond_of_decided {c : Tree} {p : Bool} (htest : Improves Γ .bool test test')
    (hvalue : ∀ ρ, test'.value ρ .bool = .ok p) (ha : Typed Γ a ty) (hb : Typed Γ b ty)
    (hc : Improves Γ ty (if p then a else b) c) :
    Improves Γ ty (node (node (node (leaf (.cond ty)) test) a) b) c where
  typed := .cond htest.typed ha hb
  typed' := hc.typed'
  simpler := by
    cases p with
    | true => exact (hc.simpler.of_arg rfl).of_func rfl
    | false => exact hc.simpler.of_arg rfl
  refines := by
    intro ρ ρ' hρ
    rw [value_cond ρ htest.typed.resultType_eq ha.resultType_eq hb.resultType_eq]
    refine Refined.after_test fun (q : Bool) hq => ?_
    have hkept := htest.refines ρ ρ' hρ
    rw [hq, hvalue ρ'] at hkept
    cases hkept with
    | ok hqp =>
        obtain rfl : q = p := hqp
        have hbranch := hc.refines ρ ρ' hρ
        cases q with
        | true => exact hbranch
        | false => exact hbranch

theorem lambda {id : VarId} (ha : Improves (Γ.set id A) B a a') :
    Improves Γ (.fn A B) (node (leaf (.lambda id A B)) a) (node (leaf (.lambda id A B)) a') where
  typed := .lambda ha.typed
  typed' := .lambda ha.typed'
  simpler := (Simpler.refl _).node ha.simpler rfl
  refines := by
    intro ρ ρ' hρ
    rw [value_lambda, value_lambda]
    exact .ok fun m m' hm => ha.refines _ _ (hρ.set id hm)

theorem letIn (ha : Improves Γ A a a') (hb : Improves Γ (.fn A B) b b') :
    Improves Γ B (node (node (leaf (.letIn A B)) a) b) (node (node (leaf (.letIn A B)) a') b') where
  typed := .letIn ha.typed hb.typed
  typed' := .letIn ha.typed' hb.typed'
  simpler := ((Simpler.refl _).node ha.simpler rfl).node hb.simpler rfl
  refines := by
    intro ρ ρ' hρ
    rw [value_letIn ρ ha.typed.resultType_eq hb.typed.resultType_eq,
      value_letIn ρ' ha.typed'.resultType_eq hb.typed'.resultType_eq]
    exact (hb.refines ρ ρ' hρ).bind fun f f' hf => hf _ _ (ha.refines ρ ρ' hρ)

theorem call (ha : Improves Γ (.fn A B) a a') (hb : Improves Γ A b b') :
    Improves Γ B (node (node (leaf (.call A B)) a) b) (node (node (leaf (.call A B)) a') b') where
  typed := .call ha.typed hb.typed
  typed' := .call ha.typed' hb.typed'
  simpler := ((Simpler.refl _).node ha.simpler rfl).node hb.simpler rfl
  refines := by
    intro ρ ρ' hρ
    rw [value_call ρ ha.typed.resultType_eq hb.typed.resultType_eq,
      value_call ρ' ha.typed'.resultType_eq hb.typed'.resultType_eq]
    exact (ha.refines ρ ρ' hρ).bind fun f f' hf => (hb.refines ρ ρ' hρ).bind fun x x' hx =>
      hf _ _ (.ok hx)

end Improves

end Tree

end ExprTree

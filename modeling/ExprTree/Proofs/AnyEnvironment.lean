import ExprTree.Proofs.Adequacy
/-!
# Termination in any environment

A reference to a bound variable carries the type of its binder, but a free
variable may carry any type, whatever an environment binds it to. So an integer
or a truth value can turn up at any type. To use it as something else is an
error, and no evaluation goes on because of it: trees whose bound variables are
annotated well end in every environment of integers and truth values.
-/

namespace ExprTree

/-! ## Annotations of bound variables -/

abbrev BoundTypes := VarId → Option Ty

namespace BoundTypes

def empty : BoundTypes := fun _ => none

def under (Δ : BoundTypes) : Tree → BoundTypes
  | .leaf (.lambda id arg _) => fun x => if x = id then some arg else Δ x
  | _ => Δ

/-- A reference to the variable may carry the type: the variable is bound with it or free. -/
def Allows (Δ : BoundTypes) (id : VarId) (ty : Ty) : Prop :=
  Δ id = none ∨ Δ id = some ty

instance (Δ : BoundTypes) (id : VarId) (ty : Ty) : Decidable (Δ.Allows id ty) :=
  inferInstanceAs (Decidable (_ ∨ _))

end BoundTypes

namespace Tree

/-- Every reference to a bound variable carries the parameter type of the innermost function
around it that binds the variable. -/
def BindersAgree : Tree → BoundTypes → Prop
  | leaf (.var id ty), Δ => Δ.Allows id ty
  | leaf _, _ => True
  | node func arg, Δ => func.BindersAgree Δ ∧ arg.BindersAgree (Δ.under func)

def decidableBindersAgree : (t : Tree) → (Δ : BoundTypes) → Decidable (t.BindersAgree Δ)
  | leaf (.var id ty), Δ => inferInstanceAs (Decidable (Δ.Allows id ty))
  | leaf (.int _), _ | leaf (.bool _), _ | leaf (.arith _), _ | leaf (.compare _), _
  | leaf .negation, _ | leaf .conjunction, _ | leaf (.cond _), _ | leaf (.lambda ..), _
  | leaf (.letIn ..), _ | leaf (.call ..), _ => isTrue trivial
  | node func arg, Δ =>
      have := func.decidableBindersAgree Δ
      have := arg.decidableBindersAgree (Δ.under func)
      inferInstanceAs (Decidable (func.BindersAgree Δ ∧ arg.BindersAgree (Δ.under func)))

instance (t : Tree) (Δ : BoundTypes) : Decidable (t.BindersAgree Δ) := t.decidableBindersAgree Δ

/-- What is bound around a tree may be taken to be free. -/
theorem BindersAgree.mono {t : Tree} {Δ Δ' : BoundTypes} (h : t.BindersAgree Δ)
    (hΔ : ∀ id, Δ' id = none ∨ Δ' id = Δ id) : t.BindersAgree Δ' := by
  induction t generalizing Δ Δ' with
  | leaf s =>
      cases s with
      | var id ty =>
          rcases hΔ id with hid | hid
          · exact .inl hid
          · exact h.imp hid.trans hid.trans
      | _ => trivial
  | node f x ihf ihx =>
      refine ⟨ihf h.1 hΔ, ihx h.2 fun id => ?_⟩
      unfold BoundTypes.under
      split
      · split
        · exact .inr rfl
        · exact hΔ id
      · exact hΔ id

theorem BindersAgree.forget {t : Tree} {Δ : BoundTypes} (h : t.BindersAgree Δ) :
    t.BindersAgree .empty :=
  h.mono fun _ => .inl rfl

theorem boundTypes_under_apply {f : Tree} {id : VarId} (h : f.binder? .standard ≠ some id)
    (Δ : BoundTypes) : Δ.under f id = Δ id := by
  unfold BoundTypes.under
  split
  · refine if_neg fun hid => h ?_
    rw [hid]
    rfl
  · rfl

/-- A tree whose free variables are bound around it is annotated well in a context with their
types. -/
theorem BindersAgree.wellAnnotated {t : Tree} {Δ : BoundTypes} {Γ : Context} (h : t.BindersAgree Δ)
    (hΓ : ∀ id ∈ t.freeVars .standard, Δ id = some (Γ id)) : t.WellAnnotated Γ := by
  induction t generalizing Δ Γ with
  | leaf s =>
      cases s with
      | var id ty =>
          have hid := hΓ id (by simp)
          rcases h with hnone | hsome
          · simp [hid] at hnone
          · exact Option.some.inj (hid.symm.trans hsome)
      | _ => trivial
  | node f x ihf ihx =>
      refine ⟨ihf h.1 fun id hid => hΓ id (mem_freeVars_node.2 (.inl hid)), ihx h.2 ?_⟩
      intro id hid
      by_cases hbinder : f.binder? .standard = some id
      · obtain ⟨a, r, rfl⟩ := binder?_eq_some hbinder
        simp [BoundTypes.under, Context.under]
      · rw [boundTypes_under_apply hbinder, under_apply hbinder]
        exact hΓ id (mem_freeVars_node.2 (.inr ⟨hid, hbinder⟩))

/-- Functions around a well-annotated tree may bind what they like with the types of its context. -/
theorem WellAnnotated.bindersAgree {t : Tree} {Γ : Context} {Δ : BoundTypes}
    (h : t.WellAnnotated Γ) (hΔ : ∀ id, Δ id = none ∨ Δ id = some (Γ id)) : t.BindersAgree Δ := by
  induction t generalizing Γ Δ with
  | leaf s =>
      cases s with
      | var id ty =>
          have hid : Γ id = ty := h
          exact hid ▸ hΔ id
      | _ => trivial
  | node f x ihf ihx =>
      refine ⟨ihf h.1 hΔ, ihx h.2 fun id => ?_⟩
      by_cases hbinder : f.binder? .standard = some id
      · obtain ⟨a, r, rfl⟩ := binder?_eq_some hbinder
        exact .inr (by simp [BoundTypes.under, Context.under])
      · rw [boundTypes_under_apply hbinder, under_apply hbinder]
        exact hΔ id

/-- A closed tree needs no context. -/
theorem Fits.typed_of_closed {t : Tree} (h : t.Fits) (hfull : t.isFull = true) {Δ : BoundTypes}
    (hann : t.BindersAgree Δ) (hclosed : ∀ x, x ∉ t.freeVars .standard) (Γ : Context) :
    Typed Γ t t.resultType :=
  h.typed (hann.wellAnnotated fun id hid => absurd hid (hclosed id)) hfull

/-! ## Arguments -/

theorem size_lt_of_mem_args {t a : Tree} (h : a ∈ t.args) : a.size < t.size := by
  induction t with
  | leaf s => exact absurd h List.not_mem_nil
  | node f x ihf _ =>
      have hf := f.size_pos
      have hx := x.size_pos
      rw [size_node]
      rcases List.mem_append.1 h with h | h
      · have := ihf h
        omega
      · obtain rfl := List.mem_singleton.1 h
        omega

theorem Fits.of_mem_args {t a : Tree} (h : t.Fits) (ha : a ∈ t.args) :
    a.Fits ∧ a.isFull = true := by
  induction t with
  | leaf s => exact absurd ha List.not_mem_nil
  | node f x ihf _ =>
      obtain ⟨hf, hx, hfull, _⟩ := h
      rcases List.mem_append.1 ha with ha | ha
      · exact ihf hf ha
      · obtain rfl := List.mem_singleton.1 ha
        exact ⟨hx, hfull⟩

theorem Fits.args_types {t : Tree} (h : t.Fits) :
    t.args.map resultType = t.signature.args.take t.applied := by
  induction t with
  | leaf s => rfl
  | node f x ihf _ =>
      obtain ⟨hf, _, _, hnext⟩ := h
      have hget : f.signature.args[f.applied]? = some x.resultType := hnext
      rw [args, List.map_append, ihf hf, signature_node, applied_node, List.take_add_one, hget]
      rfl

theorem Fits.args_types_of_isFull {t : Tree} (h : t.Fits) (hfull : t.isFull = true) :
    t.args.map resultType = t.head.signature.args := by
  have hlength : t.signature.args.length ≤ t.applied :=
    List.getElem?_eq_none_iff.1 (Option.isNone_iff_eq_none.1 hfull)
  rw [h.args_types, List.take_of_length_le hlength]
  rfl

theorem eq_leaf_of_args {t : Tree} (h : t.args = []) : t = leaf t.head := by
  cases t with
  | leaf s => rfl
  | node f x => simp [args] at h

theorem eq_node_of_args {t a : Tree} (h : t.args = [a]) : t = node (leaf t.head) a := by
  cases t with
  | leaf s => cases h
  | node f x =>
      obtain ⟨hf, rfl⟩ : f.args = [] ∧ x = a := by
        simpa [args, List.append_eq_singleton_iff] using h
      rw [eq_leaf_of_args hf]
      rfl

theorem BindersAgree.of_mem_args {t : Tree} {Δ : BoundTypes} (h : t.BindersAgree Δ)
    (hhead : t.head.lambda? = none) {a : Tree} (ha : a ∈ t.args) : a.BindersAgree Δ := by
  induction t with
  | leaf s => exact absurd ha List.not_mem_nil
  | node f x ihf _ =>
      have hunder : Δ.under f = Δ := by
        unfold BoundTypes.under
        split
        · cases hhead
        · rfl
      obtain ⟨hf, hx⟩ := h
      rw [hunder] at hx
      rcases List.mem_append.1 ha with ha | ha
      · exact ihf hf hhead ha
      · obtain rfl := List.mem_singleton.1 ha
        exact hx

end Tree

/-! ## Values that end -/

def NotCyclic (e : EvalError) : Prop :=
  e ≠ .cyclicBinding

/-- Functions that end on every argument that ends, with a value of this kind again. An integer or
a truth value may stand at any type. -/
def NameValue.Tame : Ty → NameValue → Prop
  | _, .bool _ => True
  | _, .int _ => True
  | .fn A B, .closure param body env =>
      ∀ slot : NameSlot, Ends NotCyclic (Tame A) (fun k => slot.force (evalByName k)) →
        Ends NotCyclic (Tame B) (fun k => evalByName k body (.bind param slot env))
  | _, .closure .. => False

theorem NameValue.tame_bool (ty : Ty) (b : Bool) : NameValue.Tame ty (.bool b) := by
  cases ty <;> trivial

theorem NameValue.tame_int (ty : Ty) (n : Int64) : NameValue.Tame ty (.int n) := by
  cases ty <;> trivial

def NameSlot.Tame (ty : Ty) (slot : NameSlot) : Prop :=
  Ends NotCyclic (NameValue.Tame ty) (fun k => slot.force (evalByName k))

/-- Every variable that is bound stands for such a slot, at each type that a reference may carry. -/
def NameEnv.Tame (Δ : BoundTypes) (env : NameEnv) : Prop :=
  ∀ id slot, env.get? id = some slot → ∀ ty, Δ.Allows id ty → slot.Tame ty

theorem NameEnv.Tame.bind {Δ : BoundTypes} {env : NameEnv} (henv : env.Tame Δ) {id : VarId}
    {A B : Ty} {slot : NameSlot} (hslot : slot.Tame A) :
    (NameEnv.bind id slot env).Tame (Δ.under (.leaf (.lambda id A B))) := by
  intro x slot' hget ty hallows
  by_cases hx : x = id
  · subst hx
    obtain rfl : slot = slot' := by simpa [NameEnv.get?] using hget
    obtain rfl : A = ty := by simpa [BoundTypes.Allows, BoundTypes.under] using hallows
    exact hslot
  · rw [NameEnv.get?, if_neg (Ne.symm hx)] at hget
    simp only [BoundTypes.Allows, BoundTypes.under, if_neg hx] at hallows
    exact henv x slot' hget ty hallows

theorem Ends.throw_plain {α : Type} {P : α → Prop} {e : EvalError} (he : e ≠ .cyclicBinding) :
    Ends NotCyclic P (fun _ => (MonadExcept.throw (Failure.plain e) : NameM α)) :=
  .throw he

theorem Ends.mapM {E : EvalError → Prop} {α γ : Type} {P : γ → α → Prop} {m : Nat → γ → NameM α}
    (xs : List γ) (h : ∀ x ∈ xs, Ends E (P x) (fun k => m k x)) :
    Ends E (List.Forall₂ P xs) (fun k => xs.mapM (m k)) := by
  induction xs with
  | nil => exact .pure .nil
  | cons x xs ih =>
      simp only [List.mapM_cons]
      refine (h x (by simp)).bind fun y hy => ?_
      refine (ih fun z hz => h z (by simp [hz])).bind fun ys hys => ?_
      exact .pure (.cons hy hys)

/-- A call of anything but a function is an error. -/
theorem NameValue.Tame.call {A B : Ty} {v : NameValue} {slot : NameSlot} (hv : v.Tame (.fn A B))
    (hslot : slot.Tame A) :
    Ends NotCyclic (NameValue.Tame B) (fun k => v.call (evalByName k) slot) := by
  cases v with
  | bool b => exact .throw_plain (e := .notAFunction _) (by simp)
  | int n => exact .throw_plain (e := .notAFunction _) (by simp)
  | closure param body env => exact hv slot hslot

theorem NameValue.Tame.asInt {v : NameValue} (hv : v.Tame .int) :
    Ends NotCyclic (fun _ => True) (fun _ => (v.asInt : NameM Int64)) := by
  cases v with
  | bool b => exact .throw_plain (e := .valueMismatch _ _) (by simp)
  | int n => exact .pure trivial
  | closure => exact absurd hv id

theorem NameValue.Tame.asBool {v : NameValue} (hv : v.Tame .bool) :
    Ends NotCyclic (fun _ => True) (fun _ => (v.asBool : NameM Bool)) := by
  cases v with
  | bool b => exact .pure trivial
  | int n => exact .throw_plain (e := .valueMismatch _ _) (by simp)
  | closure => exact absurd hv id

/-- Every symbol ends on values of the types that it asks for. -/
theorem Symbol.denoteByName_tame (s : Symbol) {values : List NameValue}
    (h : List.Forall₂ NameValue.Tame s.signature.args values) :
    Ends NotCyclic (NameValue.Tame s.signature.result)
      (fun k => s.denoteByName (evalByName k) values) := by
  cases s with
  | int n =>
      cases h
      exact .pure (NameValue.tame_int _ n)
  | bool b =>
      cases h
      exact .pure (NameValue.tame_bool _ b)
  | var id ty =>
      cases h
      exact .throw_plain (e := .needsEnvironment _) (by simp)
  | lambda id A B =>
      rcases h with _ | ⟨_, _ | _⟩
      exact .throw_plain (e := .needsEnvironment _) (by simp)
  | arith op =>
      rcases h with _ | ⟨ha, _ | ⟨hb, _ | _⟩⟩
      refine ha.asInt.bind fun m _ => hb.asInt.bind fun n _ => ?_
      cases hop : op.eval m n with
      | ok x => exact .pure (NameValue.tame_int _ x)
      | error e => exact .throw_plain (e := e) (by simp [ArithOp.eval_error hop])
  | compare op =>
      rcases h with _ | ⟨ha, _ | ⟨hb, _ | _⟩⟩
      exact ha.asInt.bind fun m _ => hb.asInt.bind fun n _ => .pure (NameValue.tame_bool _ _)
  | negation =>
      rcases h with _ | ⟨ha, _ | _⟩
      exact ha.asBool.bind fun p _ => .pure (NameValue.tame_bool _ _)
  | conjunction =>
      rcases h with _ | ⟨ha, _ | ⟨hb, _ | _⟩⟩
      refine ha.asBool.bind fun p _ => ?_
      cases p with
      | true => exact hb.asBool.bind fun q _ => .pure (NameValue.tame_bool _ q)
      | false => exact .pure (NameValue.tame_bool _ false)
  | cond ty =>
      rcases h with _ | ⟨htest, _ | ⟨ha, _ | ⟨hb, _ | _⟩⟩⟩
      refine htest.asBool.bind fun p _ => ?_
      cases p with
      | true => exact .pure ha
      | false => exact .pure hb
  | letIn A B =>
      rcases h with _ | ⟨ha, _ | ⟨hf, _ | _⟩⟩
      exact hf.call (.pure ha)
  | call A B =>
      rcases h with _ | ⟨hf, _ | ⟨ha, _ | _⟩⟩
      exact hf.call (.pure ha)

/-! ## The fundamental lemma -/

def Tree.Tame (env : NameEnv) (ty : Ty) (t : Tree) : Prop :=
  Ends NotCyclic (NameValue.Tame ty) (fun k => evalByName k t env)

namespace Tree.Tame

variable {t : Tree} {env : NameEnv} {ty A B : Ty}

theorem var {Δ : BoundTypes} {id : VarId} (hform : t.form = .read id) (henv : env.Tame Δ)
    (hid : Δ.Allows id ty) : t.Tame env ty := by
  apply Ends.eval
  rw [hform]
  simp only [Form.stepByName]
  cases hget : env.get? id with
  | none => exact .throw_plain (e := .unboundVariable id) (by simp)
  | some slot => exact henv id slot hget ty hid

theorem lambda {id : VarId} {body : Tree} (hform : t.form = .function id body)
    (hbody : ∀ slot, NameSlot.Tame A slot → body.Tame (.bind id slot env) B) :
    t.Tame env (.fn A B) := by
  apply Ends.eval
  rw [hform]
  exact .pure hbody

theorem letIn {bound func : Tree} (hform : t.form = .bind bound func) (hbound : bound.Tame env A)
    (hfunc : func.Tame env (.fn A B)) : t.Tame env B := by
  apply Ends.eval
  rw [hform]
  have hslot : NameSlot.Tame A (.delayed bound env) := hbound
  exact Ends.bind hfunc fun v hv => hv.call hslot

theorem cond {test a b : Tree} (hform : t.form = .choose test a b) (htest : test.Tame env .bool)
    (ha : a.Tame env ty) (hb : b.Tame env ty) : t.Tame env ty := by
  apply Ends.eval
  rw [hform]
  refine htest.test.bind fun v hv => hv.asBool.bind fun p _ => ?_
  cases p with
  | true => exact ha
  | false => exact hb

theorem strict {s : Symbol} {args : List Tree} (hform : t.form = .strict s args)
    (htypes : args.map resultType = s.signature.args)
    (hargs : ∀ a ∈ args, a.Tame env a.resultType) : t.Tame env s.signature.result := by
  apply Ends.eval
  rw [hform]
  refine (Ends.mapM args hargs).bind fun values hvalues => ?_
  exact s.denoteByName_tame (htypes ▸ List.forall₂_map_left_iff.2 hvalues)

end Tree.Tame

theorem Tree.Fits.tame {t : Tree} (hfits : t.Fits) (hfull : t.isFull = true) {Δ : BoundTypes}
    (hann : t.BindersAgree Δ) {env : NameEnv} (henv : env.Tame Δ) : t.Tame env t.resultType := by
  -- A function is met only under the constructs around it, so the induction is on the size.
  induction hsize : t.size using Nat.strongRecOn generalizing t Δ env with
  | ind n ih =>
  subst hsize
  have htypes := hfits.args_types_of_isFull hfull
  have hresult : t.resultType = t.head.signature.result := rfl
  have hargs (hhead : t.head.lambda? = none) (a : Tree) (ha : a ∈ t.args) :
      a.Tame env a.resultType := by
    obtain ⟨hfits', hfull'⟩ := hfits.of_mem_args ha
    exact ih a.size (size_lt_of_mem_args ha) hfits' hfull' (hann.of_mem_args hhead ha) henv rfl
  cases hhead : t.head with
  | var id ty =>
      rw [hhead] at htypes hresult
      have hleaf := eq_leaf_of_args (List.map_eq_nil_iff.1 htypes)
      rw [hleaf, hhead] at hann
      rw [hresult]
      exact .var (by simp [form, hfull, hhead]) henv hann
  | lambda id A B =>
      rw [hhead] at htypes hresult
      obtain ⟨body, hbody, rfl⟩ := List.map_eq_singleton_iff.1 htypes
      have hmem : body ∈ t.args := by simp [hbody]
      obtain ⟨hfits', hfull'⟩ := hfits.of_mem_args hmem
      rw [eq_node_of_args hbody, hhead] at hann
      have hform : t.form = .function id body := by simp [form, hfull, hhead, hbody]
      rw [hresult]
      refine .lambda hform fun slot hslot => ?_
      exact ih body.size (size_lt_of_mem_args hmem) hfits' hfull' hann.2 (henv.bind hslot) rfl
  | letIn A B =>
      have hargs := hargs (by rw [hhead]; rfl)
      rw [hhead] at htypes hresult
      obtain ⟨bound, _, hpair, rfl, hrest⟩ := List.map_eq_cons_iff.1 htypes
      obtain ⟨func, rfl, hfunc⟩ := List.map_eq_singleton_iff.1 hrest
      rw [hresult]
      exact .letIn (by simp [form, hfull, hhead, hpair]) (hargs bound (by simp [hpair]))
        (hfunc ▸ hargs func (by simp [hpair]))
  | cond ty =>
      have hargs := hargs (by rw [hhead]; rfl)
      rw [hhead] at htypes hresult
      obtain ⟨test, _, htriple, htest, hrest⟩ := List.map_eq_cons_iff.1 htypes
      obtain ⟨a, _, rfl, ha, hrest⟩ := List.map_eq_cons_iff.1 hrest
      obtain ⟨b, rfl, hb⟩ := List.map_eq_singleton_iff.1 hrest
      rw [hresult]
      exact .cond (by simp [form, hfull, hhead, htriple]) (htest ▸ hargs test (by simp [htriple]))
        (ha ▸ hargs a (by simp [htriple])) (hb ▸ hargs b (by simp [htriple]))
  | _ =>
      have hform : t.form = .strict t.head t.args := by simp [form, hfull, hhead]
      exact .strict hform htypes (hargs (by rw [hhead]; rfl))

end ExprTree

import ExprTree.Tree.Variables
/-!
# Typing

Checked application makes arguments fit their symbols, but nothing compares a
reference with the function that binds its variable. A tree is *well-annotated*
in a context when each reference carries the type of its variable. Full
well-annotated trees are the terms of a simply typed calculus: `Typed` lists
their forms, one for each construct of the language.
-/

namespace ExprTree

abbrev Context := VarId → Ty

namespace Context

def set (Γ : Context) (id : VarId) (ty : Ty) : Context :=
  fun x => if x = id then ty else Γ x

/-- The context of an argument of `func`. A bare function symbol binds its
parameter there; any other tree binds nothing. -/
def under (Γ : Context) : Tree → Context
  | .leaf (.lambda id arg _) => Γ.set id arg
  | _ => Γ

@[simp] theorem set_same (Γ : Context) (id : VarId) (ty : Ty) : Γ.set id ty id = ty := by
  simp [set]

theorem set_other (Γ : Context) {id x : VarId} (ty : Ty) (h : x ≠ id) : Γ.set id ty x = Γ x := by
  simp [set, h]

end Context

/-! ## Trees that fit together -/

namespace Tree

/-- Every application in the tree passes the check of `app`. -/
def Built : Tree → Prop
  | leaf _ => True
  | node func arg => func.Built ∧ arg.Built ∧ app func arg = .ok (node func arg)

/-- Every reference carries the type of its variable: the parameter type of the
innermost function around it that binds the variable, or else the type that the
context gives it. -/
def WellAnnotated : Tree → Context → Prop
  | leaf (.var id ty), Γ => Γ id = ty
  | leaf _, _ => True
  | node func arg, Γ => func.WellAnnotated Γ ∧ arg.WellAnnotated (Γ.under func)

/-- Every argument is full and of the type that is expected of it. -/
def Fits : Tree → Prop
  | leaf _ => True
  | node func arg =>
      func.Fits ∧ arg.Fits ∧ arg.isFull = true ∧ func.nextArg? = some arg.resultType

def decidableWellAnnotated : (t : Tree) → (Γ : Context) → Decidable (t.WellAnnotated Γ)
  | leaf (.var id ty), Γ => inferInstanceAs (Decidable (Γ id = ty))
  | leaf (.int _), _ | leaf (.bool _), _ | leaf (.arith _), _ | leaf (.compare _), _
  | leaf .negation, _ | leaf .conjunction, _ | leaf (.cond _), _ | leaf (.lambda ..), _
  | leaf (.letIn ..), _ | leaf (.call ..), _ => isTrue trivial
  | node func arg, Γ =>
      have := func.decidableWellAnnotated Γ
      have := arg.decidableWellAnnotated (Γ.under func)
      inferInstanceAs (Decidable (func.WellAnnotated Γ ∧ arg.WellAnnotated (Γ.under func)))

instance (t : Tree) (Γ : Context) : Decidable (t.WellAnnotated Γ) := t.decidableWellAnnotated Γ

@[simp] theorem head_node (func arg : Tree) : (node func arg).head = func.head := rfl

@[simp] theorem signature_node (func arg : Tree) : (node func arg).signature = func.signature := rfl

@[simp] theorem resultType_node (func arg : Tree) : (node func arg).resultType = func.resultType :=
  rfl

@[simp] theorem applied_node (func arg : Tree) : (node func arg).applied = func.applied + 1 := rfl

@[simp] theorem size_leaf (s : Symbol) : (leaf s).size = 1 := rfl

@[simp] theorem size_node (func arg : Tree) : (node func arg).size = func.size + arg.size := rfl

theorem size_leaf_lt (s : Symbol) : (leaf s).size < wordLimit := by
  show 1 < 18446744073709551616
  omega

theorem size_pos (t : Tree) : 0 < t.size := by
  induction t with
  | leaf s => simp
  | node f x ihf _ =>
      rw [size_node]
      omega

theorem freeVars_node {func arg : Tree} (h : func.binder? .standard = none) :
    (node func arg).freeVars .standard = func.freeVars .standard ∪ arg.freeVars .standard := by
  simp [freeVars, h]

@[simp] theorem freeVars_var (id : VarId) (ty : Ty) :
    (leaf (.var id ty)).freeVars .standard = .singleton id := rfl

@[simp] theorem freeVars_lambda (id : VarId) (arg result : Ty) (body : Tree) :
    (node (leaf (.lambda id arg result)) body).freeVars .standard =
      (body.freeVars .standard).erase id := rfl

theorem binder?_eq_some {t : Tree} {id : VarId} (h : t.binder? .standard = some id) :
    ∃ arg result, t = leaf (.lambda id arg result) := by
  cases t with
  | node f x => simp [binder?] at h
  | leaf s =>
      cases s with
      | lambda id' arg result =>
          obtain rfl : id' = id := by simpa [binder?, Binders.standard, Symbol.lambda?] using h
          exact ⟨arg, result, rfl⟩
      | _ => simp [binder?, Binders.standard, Symbol.lambda?] at h

theorem binder?_of_head {t : Tree} (h : t.head.lambda? = none) :
    t.binder? .standard = none := by
  cases t with
  | leaf s => exact h
  | node f x => rfl

theorem mem_freeVars_node {func arg : Tree} {x : VarId} :
    x ∈ (node func arg).freeVars .standard ↔
      x ∈ func.freeVars .standard
        ∨ x ∈ arg.freeVars .standard ∧ func.binder? .standard ≠ some x := by
  cases hfunc : func.binder? .standard with
  | none => simp [freeVars_node hfunc]
  | some id =>
      obtain ⟨a, r, rfl⟩ := binder?_eq_some hfunc
      have hempty : x ∉ (leaf (.lambda id a r)).freeVars .standard := VarSet.not_mem_empty x
      simp [hempty, eq_comm]

theorem app_eq_ok_iff {func arg t : Tree} :
    app func arg = .ok t ↔
      t = node func arg ∧ func.nextArg? = some arg.resultType ∧ arg.isFull = true
        ∧ func.size + arg.size < wordLimit := by
  unfold app join
  cases hnext : func.nextArg? with
  | none => simp
  | some expected =>
      cases hfull : arg.isFull with
      | false => simp
      | true =>
          by_cases hty : arg.resultType = expected
          · by_cases hsize : func.size + arg.size < wordLimit
            · simp [hty, hsize, eq_comm]
            · simp [hty, hsize]
          · simp [hty, Ne.symm hty]

def decidableBuilt : (t : Tree) → Decidable t.Built
  | leaf _ => isTrue trivial
  | node func arg =>
      have := func.decidableBuilt
      have := arg.decidableBuilt
      decidable_of_iff
        (func.Built ∧ arg.Built ∧ func.nextArg? = some arg.resultType ∧ arg.isFull = true
          ∧ func.size + arg.size < wordLimit)
        (by simp only [Built, app_eq_ok_iff, true_and])

instance : DecidablePred Built := decidableBuilt

theorem Built.size_lt {t : Tree} (h : t.Built) : t.size < wordLimit := by
  cases t with
  | leaf s => exact size_leaf_lt s
  | node f x => exact (app_eq_ok_iff.1 h.2.2).2.2.2

theorem Built.fits {t : Tree} (h : t.Built) : t.Fits := by
  induction t with
  | leaf s => trivial
  | node f x ihf ihx =>
      obtain ⟨hf, hx, happ⟩ := h
      obtain ⟨_, hnext, hfull, _⟩ := app_eq_ok_iff.1 happ
      exact ⟨ihf hf, ihx hx, hfull, hnext⟩

theorem Fits.built {t : Tree} (h : t.Fits) (hsize : t.size < wordLimit) : t.Built := by
  induction t with
  | leaf s => trivial
  | node f x ihf ihx =>
      obtain ⟨hf, hx, hfull, hnext⟩ := h
      have hsum : f.size + x.size < wordLimit := by
        rw [← size_node]
        exact hsize
      refine ⟨ihf hf (by omega), ihx hx (by omega), ?_⟩
      exact app_eq_ok_iff.2 ⟨rfl, hnext, hfull, hsum⟩

theorem under_eq_self {func : Tree} (h : func.binder? .standard = none) (Γ : Context) :
    Γ.under func = Γ := by
  cases func with
  | node f x => rfl
  | leaf s =>
      cases s with
      | lambda id arg result => simp [binder?, Binders.standard, Symbol.lambda?] at h
      | _ => rfl

theorem under_apply {func : Tree} {x : VarId} (h : func.binder? .standard ≠ some x) (Γ : Context) :
    Γ.under func x = Γ x := by
  cases hfunc : func.binder? .standard with
  | none => rw [under_eq_self hfunc]
  | some id =>
      obtain ⟨a, r, rfl⟩ := binder?_eq_some hfunc
      have hne : x ≠ id := by
        rintro rfl
        exact h hfunc
      exact Γ.set_other a hne

/-- Only the types of free variables count. -/
theorem WellAnnotated.congr {t : Tree} {Γ Γ' : Context} (h : t.WellAnnotated Γ)
    (hΓ : ∀ id ∈ t.freeVars .standard, Γ' id = Γ id) : t.WellAnnotated Γ' := by
  induction t generalizing Γ Γ' with
  | leaf s =>
      cases s with
      | var id ty => exact (hΓ id (by simp)).trans h
      | _ => trivial
  | node f x ihf ihx =>
      obtain ⟨hf, hx⟩ := h
      refine ⟨ihf hf fun id hid => hΓ id (mem_freeVars_node.2 (.inl hid)), ihx hx fun id hid => ?_⟩
      by_cases hid' : f.binder? .standard = some id
      · obtain ⟨a, r, rfl⟩ := binder?_eq_some hid'
        simp [Context.under]
      · rw [under_apply hid', under_apply hid']
        exact hΓ id (mem_freeVars_node.2 (.inr ⟨hid, hid'⟩))

/-! ## Trees with the same spine -/

inductive SameSpine : Tree → Tree → Prop where
  | leaf (s : Symbol) : SameSpine (leaf s) (leaf s)
  | node {f f' x x' : Tree} : SameSpine f f' → SameSpine (node f x) (node f' x')

namespace SameSpine

variable {t t' : Tree}

theorem head_eq (h : SameSpine t t') : t'.head = t.head := by
  induction h with
  | leaf s => rfl
  | node _ ih => exact ih

theorem applied_eq (h : SameSpine t t') : t'.applied = t.applied := by
  induction h with
  | leaf s => rfl
  | node _ ih => simp [ih]

theorem resultType_eq (h : SameSpine t t') : t'.resultType = t.resultType := by
  rw [resultType, resultType, signature, signature, h.head_eq]

theorem nextArg?_eq (h : SameSpine t t') : t'.nextArg? = t.nextArg? := by
  rw [nextArg?, nextArg?, signature, signature, h.head_eq, h.applied_eq]

theorem isFull_eq (h : SameSpine t t') : t'.isFull = t.isFull := by
  rw [isFull, isFull, h.nextArg?_eq]

theorem isLeaf_eq (h : SameSpine t t') : t'.isLeaf = t.isLeaf := by
  cases h <;> rfl

theorem binder?_eq (h : SameSpine t t') : t'.binder? .standard = t.binder? .standard := by
  cases h <;> rfl

theorem under_eq (h : SameSpine t t') (Γ : Context) : Γ.under t' = Γ.under t := by
  cases h <;> rfl

theorem eq_of_binder? (h : SameSpine t t') {id : VarId} (ht : t.binder? .standard = some id) :
    t' = t := by
  obtain ⟨a, r, rfl⟩ := binder?_eq_some ht
  cases h
  rfl

end SameSpine

end Tree

/-! ## The forms of full trees -/

inductive Typed : Context → Tree → Ty → Prop where
  | int {Γ : Context} (n : Int64) : Typed Γ (.leaf (.int n)) .int
  | bool {Γ : Context} (b : Bool) : Typed Γ (.leaf (.bool b)) .bool
  | var {Γ : Context} (id : VarId) : Typed Γ (.leaf (.var id (Γ id))) (Γ id)
  | arith {Γ : Context} {a b : Tree} (op : ArithOp) :
      Typed Γ a .int → Typed Γ b .int → Typed Γ (.node (.node (.leaf (.arith op)) a) b) .int
  | compare {Γ : Context} {a b : Tree} (op : CompareOp) :
      Typed Γ a .int → Typed Γ b .int → Typed Γ (.node (.node (.leaf (.compare op)) a) b) .bool
  | negation {Γ : Context} {a : Tree} :
      Typed Γ a .bool → Typed Γ (.node (.leaf .negation) a) .bool
  | conjunction {Γ : Context} {a b : Tree} :
      Typed Γ a .bool → Typed Γ b .bool → Typed Γ (.node (.node (.leaf .conjunction) a) b) .bool
  | cond {Γ : Context} {test a b : Tree} {ty : Ty} :
      Typed Γ test .bool → Typed Γ a ty → Typed Γ b ty →
        Typed Γ (.node (.node (.node (.leaf (.cond ty)) test) a) b) ty
  | lambda {Γ : Context} {id : VarId} {body : Tree} {arg result : Ty} :
      Typed (Γ.set id arg) body result →
        Typed Γ (.node (.leaf (.lambda id arg result)) body) (.fn arg result)
  | letIn {Γ : Context} {bound func : Tree} {a r : Ty} :
      Typed Γ bound a → Typed Γ func (.fn a r) →
        Typed Γ (.node (.node (.leaf (.letIn a r)) bound) func) r
  | call {Γ : Context} {func arg : Tree} {a r : Ty} :
      Typed Γ func (.fn a r) → Typed Γ arg a →
        Typed Γ (.node (.node (.leaf (.call a r)) func) arg) r

namespace Typed

variable {Γ : Context} {t : Tree} {ty : Ty}

theorem resultType_eq (h : Typed Γ t ty) : t.resultType = ty := by
  cases h <;> rfl

theorem isFull (h : Typed Γ t ty) : t.isFull = true := by
  cases h <;> rfl

private theorem next {f : Tree} (h : Typed Γ t ty) (hf : f.nextArg? = some ty) :
    f.nextArg? = some t.resultType := by
  rw [hf, h.resultType_eq]

theorem fits (h : Typed Γ t ty) : t.Fits := by
  induction h with
  | int | bool | var => trivial
  | negation ha iha => exact ⟨trivial, iha, ha.isFull, ha.next rfl⟩
  | lambda hbody ih => exact ⟨trivial, ih, hbody.isFull, hbody.next rfl⟩
  | arith op ha hb iha ihb =>
      exact ⟨⟨trivial, iha, ha.isFull, ha.next rfl⟩, ihb, hb.isFull, hb.next rfl⟩
  | compare op ha hb iha ihb =>
      exact ⟨⟨trivial, iha, ha.isFull, ha.next rfl⟩, ihb, hb.isFull, hb.next rfl⟩
  | conjunction ha hb iha ihb | letIn ha hb iha ihb | call ha hb iha ihb =>
      exact ⟨⟨trivial, iha, ha.isFull, ha.next rfl⟩, ihb, hb.isFull, hb.next rfl⟩
  | cond htest ha hb ihtest iha ihb =>
      exact ⟨⟨⟨trivial, ihtest, htest.isFull, htest.next rfl⟩, iha, ha.isFull, ha.next rfl⟩,
        ihb, hb.isFull, hb.next rfl⟩

theorem wellAnnotated (h : Typed Γ t ty) : t.WellAnnotated Γ := by
  induction h with
  | int | bool => trivial
  | var id => rfl
  | negation _ iha => exact ⟨trivial, iha⟩
  | lambda _ ih => exact ⟨trivial, ih⟩
  | arith op _ _ iha ihb => exact ⟨⟨trivial, iha⟩, ihb⟩
  | compare op _ _ iha ihb => exact ⟨⟨trivial, iha⟩, ihb⟩
  | conjunction _ _ iha ihb | letIn _ _ iha ihb | call _ _ iha ihb => exact ⟨⟨trivial, iha⟩, ihb⟩
  | cond _ _ _ ihtest iha ihb => exact ⟨⟨⟨trivial, ihtest⟩, iha⟩, ihb⟩

end Typed

namespace Tree

/-- Symbols take three arguments at most. -/
theorem arity_le (s : Symbol) : s.signature.args.length ≤ 3 := by
  cases s <;> simp [Symbol.signature]

private theorem nextArg?_leaf (s : Symbol) : (leaf s).nextArg? = s.signature.args[0]? := rfl

private theorem nextArg?_one (s : Symbol) (a : Tree) :
    (node (leaf s) a).nextArg? = s.signature.args[1]? := rfl

private theorem nextArg?_two (s : Symbol) (a b : Tree) :
    (node (node (leaf s) a) b).nextArg? = s.signature.args[2]? := rfl

theorem Fits.typed : {t : Tree} → {Γ : Context} → t.Fits → t.WellAnnotated Γ → t.isFull = true →
    Typed Γ t t.resultType
  | leaf s, Γ, _, hann, hfull => by
      cases s with
      | int n => exact .int n
      | bool b => exact .bool b
      | var id ty =>
          obtain rfl : Γ id = ty := hann
          exact .var id
      | _ => simp [isFull, nextArg?_leaf, Symbol.signature] at hfull
  | node (leaf s) a, Γ, ⟨_, ha, hfa, hnext⟩, ⟨_, hanna⟩, hfull => by
      have hta := Fits.typed ha hanna hfa
      rw [nextArg?_leaf] at hnext
      cases s with
      | negation =>
          have hty : .bool = a.resultType := by simpa [Symbol.signature] using hnext
          exact .negation (hty ▸ hta)
      | lambda id arg result =>
          have hty : result = a.resultType := by simpa [Symbol.signature] using hnext
          exact .lambda (hty ▸ hta)
      | _ => simp [isFull, nextArg?_one, Symbol.signature] at hfull hnext
  | node (node (leaf s) a) b, Γ, ⟨⟨_, ha, hfa, hnexta⟩, hb, hfb, hnextb⟩, ⟨⟨_, hanna⟩, hannb⟩,
      hfull => by
      have hta := Fits.typed ha hanna hfa
      have htb : Typed Γ b b.resultType := Fits.typed hb hannb hfb
      have hnext := And.intro hnexta hnextb
      rw [nextArg?_leaf, nextArg?_one] at hnext
      cases s with
      | arith op =>
          have hty : .int = a.resultType ∧ .int = b.resultType := by
            simpa [Symbol.signature] using hnext
          exact .arith op (hty.1 ▸ hta) (hty.2 ▸ htb)
      | compare op =>
          have hty : .int = a.resultType ∧ .int = b.resultType := by
            simpa [Symbol.signature] using hnext
          exact .compare op (hty.1 ▸ hta) (hty.2 ▸ htb)
      | conjunction =>
          have hty : .bool = a.resultType ∧ .bool = b.resultType := by
            simpa [Symbol.signature] using hnext
          exact .conjunction (hty.1 ▸ hta) (hty.2 ▸ htb)
      | letIn x y =>
          have hty : x = a.resultType ∧ .fn x y = b.resultType := by
            simpa [Symbol.signature] using hnext
          exact .letIn (hty.1 ▸ hta) (hty.2 ▸ htb)
      | call x y =>
          have hty : .fn x y = a.resultType ∧ x = b.resultType := by
            simpa [Symbol.signature] using hnext
          exact .call (hty.1 ▸ hta) (hty.2 ▸ htb)
      | _ => simp [isFull, nextArg?_two, Symbol.signature] at hfull hnext
  | node (node (node (leaf s) a) b) c, Γ,
      ⟨⟨⟨_, ha, hfa, hnexta⟩, hb, hfb, hnextb⟩, hc, hfc, hnextc⟩,
      ⟨⟨⟨_, hanna⟩, hannb⟩, hannc⟩, _ => by
      have hta := Fits.typed ha hanna hfa
      have htb : Typed Γ b b.resultType := Fits.typed hb hannb hfb
      have htc : Typed Γ c c.resultType := Fits.typed hc hannc hfc
      have hnext := And.intro hnexta (And.intro hnextb hnextc)
      rw [nextArg?_leaf, nextArg?_one, nextArg?_two] at hnext
      cases s with
      | cond ty =>
          have hty : .bool = a.resultType ∧ ty = b.resultType ∧ ty = c.resultType := by
            simpa [Symbol.signature] using hnext
          exact .cond (hty.1 ▸ hta) (hty.2.1 ▸ htb) (hty.2.2 ▸ htc)
      | _ => simp [Symbol.signature] at hnext
  | node (node (node (node f a) b) c) d, Γ, ⟨⟨⟨⟨_, _, _, _⟩, _⟩, _⟩, _, _, hnextd⟩, _, _ => by
      have h := arity_le f.head
      have hlt := (List.getElem?_eq_some_iff.1 hnextd).1
      simp [signature, head, applied] at hlt
      omega

end Tree

end ExprTree

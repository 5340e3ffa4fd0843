import ExprTree.Proofs.Alpha
import ExprTree.Proofs.Outcomes
import ExprTree.Proofs.Scope
/-!
# Replacement of a part by a variable

`Liftable` says where a part may stand that is to be computed outside the tree,
and `Replaces` what replacement of its occurrences does. Where the variable
stands for the meaning of the part, the tree keeps its meaning.
-/

namespace ExprTree

theorem Supply.fresh_yields (s : Supply) :
    Yields (wordLimit ≤ s.next + 1) (· = (s.next, ⟨s.next + 1⟩)) s.fresh := by
  have hfresh : s.fresh = word (s.next + 1) >>= fun next => pure (s.next, (⟨next⟩ : Supply)) := rfl
  rw [hfresh, word]
  split
  · rfl
  · rename_i hlt
    exact ⟨rfl, Nat.le_of_not_lt hlt⟩

namespace Tree

theorem reapply_yields {func arg : Tree} (hfull : arg.isFull = true)
    (hnext : func.nextArg? = some arg.resultType) :
    Yields (wordLimit ≤ func.size + arg.size) (· = node func arg) (reapply func arg) := by
  have hfit : (arg.isFull && func.nextArg? == some arg.resultType) = true := by
    simp [hfull, hnext]
  rw [reapply, if_pos hfit, join]
  split
  · rfl
  · rename_i hsize
    exact ⟨rfl, Nat.le_of_not_lt hsize⟩

/-! ## Parts that may be computed outside -/

/-- `p` is an argument in the tree, and refers to no parameter of a function
around it. -/
inductive Liftable (p : Tree) : Tree → Prop where
  | here {f : Tree} :
      (∀ id ∈ p.freeVars .standard, f.binder? .standard ≠ some id) → Liftable p (node f p)
  | func {f x : Tree} : Liftable p f → Liftable p (node f x)
  | arg {f x : Tree} :
      (∀ id ∈ p.freeVars .standard, f.binder? .standard ≠ some id) → Liftable p x →
        Liftable p (node f x)

theorem not_liftable_leaf {p : Tree} {s : Symbol} : ¬Liftable p (leaf s) := by
  intro h
  cases h

namespace Liftable

variable {p t : Tree}

theorem isLeaf_eq (h : Liftable p t) : t.isLeaf = false := by
  cases h <;> rfl

theorem size_lt (h : Liftable p t) : p.size < t.size := by
  induction h with
  | @here f _ =>
      have := f.size_pos
      rw [size_node]
      omega
  | @func f x _ ih =>
      rw [size_node]
      omega
  | @arg f x _ _ ih =>
      rw [size_node]
      omega

theorem mentions (h : Liftable p t) {x : VarId} (hx : p.Mentions x) : t.Mentions x := by
  induction h with
  | here _ => exact .inr hx
  | func _ ih => exact .inl ih
  | arg _ _ ih => exact .inr ih

theorem fits (h : Liftable p t) (ht : t.Fits) : p.Fits := by
  induction h with
  | here _ => exact ht.2.1
  | func _ ih => exact ih ht.1
  | arg _ _ ih => exact ih ht.2.1

theorem mem_freeVars (h : Liftable p t) {y : VarId} (hy : y ∈ p.freeVars .standard) :
    y ∈ t.freeVars .standard := by
  induction h with
  | here hf => exact mem_freeVars_node.2 (.inr ⟨hy, hf y hy⟩)
  | func _ ih => exact mem_freeVars_node.2 (.inl ih)
  | arg hf _ ih => exact mem_freeVars_node.2 (.inr ⟨ih, hf y hy⟩)

theorem wellAnnotated (h : Liftable p t) {Γ : Context} (ht : t.WellAnnotated Γ) :
    p.WellAnnotated Γ := by
  induction h generalizing Γ with
  | here hf => exact ht.2.congr fun y hy => (under_apply (hf y hy) Γ).symm
  | func _ ih => exact ih ht.1
  | arg hf _ ih => exact (ih ht.2).congr fun y hy => (under_apply (hf y hy) Γ).symm

theorem nonShadowing (h : Liftable p t) (ht : t.NonShadowing) : p.NonShadowing := by
  induction h with
  | here _ => exact ht.arg
  | func _ ih => exact ih ht.func
  | arg _ _ ih => exact ih ht.arg

end Liftable

/-! ## Replacement -/

/-- The second tree has variable `id` in the place of the arguments of the first
that are equivalent to `p`. -/
inductive Replaces (p : Tree) (id : VarId) : Tree → Tree → Prop where
  | leaf (s : Symbol) : Replaces p id (leaf s) (leaf s)
  | hit {f f' x : Tree} :
      Replaces p id f f' → alphaEq .standard p x = true →
        Replaces p id (node f x) (node f' (leaf (.var id p.resultType)))
  | miss {f f' x x' : Tree} :
      Replaces p id f f' → alphaEq .standard p x = false → Replaces p id x x' →
        Replaces p id (node f x) (node f' x')

theorem resultType_eq_of_alphaEq {s t : Tree} (h : alphaEq .standard s t = true) :
    s.resultType = t.resultType := by
  rw [alphaEq_eq] at h
  exact resultType_eq_of_alphaEqUnder h

theorem size_eq_of_alphaEq {s t : Tree} (h : alphaEq .standard s t = true) : s.size = t.size := by
  rw [alphaEq_eq] at h
  exact size_eq_of_alphaEqUnder h

namespace Replaces

variable {p t t' : Tree} {id : VarId}

theorem sameSpine (h : Replaces p id t t') : SameSpine t t' := by
  induction h with
  | leaf s => exact .leaf s
  | hit _ _ ih => exact .node ih
  | miss _ _ _ ih _ => exact .node ih

theorem size_le (h : Replaces p id t t') : t'.size ≤ t.size := by
  induction h with
  | leaf s => exact Nat.le_refl _
  | @hit f f' x _ _ ih =>
      have := x.size_pos
      simp only [size_node, size_leaf]
      omega
  | miss _ _ _ ihf ihx =>
      simp only [size_node]
      omega

theorem size_add_le (h : Replaces p id t t') (hp : Liftable p t) :
    t'.size + p.size ≤ t.size + 1 := by
  induction h with
  | leaf s => exact absurd hp not_liftable_leaf
  | hit hf hx _ =>
      have hsize := size_eq_of_alphaEq hx
      have hle := hf.size_le
      simp only [size_node, size_leaf]
      omega
  | @miss f f' x x' hf hne hx ihf ihx =>
      have hlef := hf.size_le
      have hlex := hx.size_le
      simp only [size_node]
      cases hp with
      | here _ =>
          rw [p.alphaEq_self] at hne
          exact absurd hne (by decide)
      | func hp =>
          have := ihf hp
          omega
      | arg _ hp =>
          have := ihx hp
          omega

theorem fits (h : Replaces p id t t') (ht : t.Fits) : t'.Fits := by
  induction h with
  | leaf s => exact ht
  | hit hf hx ih =>
      obtain ⟨htf, _, _, hnext⟩ := ht
      refine ⟨ih htf, trivial, rfl, ?_⟩
      rw [hf.sameSpine.nextArg?_eq, hnext, ← resultType_eq_of_alphaEq hx]
      rfl
  | miss hf _ hx ihf ihx =>
      obtain ⟨htf, htx, hfull, hnext⟩ := ht
      refine ⟨ihf htf, ihx htx, hx.sameSpine.isFull_eq.trans hfull, ?_⟩
      rw [hf.sameSpine.nextArg?_eq, hnext, hx.sameSpine.resultType_eq]

theorem mentions (h : Replaces p id t t') {x : VarId} (hx : t'.Mentions x) :
    t.Mentions x ∨ x = id := by
  induction h with
  | leaf s => exact .inl hx
  | hit _ _ ih =>
      rcases hx with hx | hx
      · exact (ih hx).imp_left .inl
      · exact .inr (by simpa [Mentions, Symbol.reference?, Symbol.lambda?, eq_comm] using hx)
  | miss _ _ _ ihf ihx =>
      rcases hx with hx | hx
      · exact (ihf hx).imp_left .inl
      · exact (ihx hx).imp_left .inr

theorem mem_freeVars (h : Replaces p id t t') {x : VarId} (hx : x ∈ t'.freeVars .standard) :
    x ∈ t.freeVars .standard ∨ x = id := by
  induction h with
  | leaf s => exact .inl hx
  | hit _ _ ih =>
      rcases mem_freeVars_node.1 hx with hx | hx
      · exact (ih hx).imp_left fun hx => mem_freeVars_node.2 (.inl hx)
      · exact .inr (by simpa using hx.1)
  | miss hf _ _ ihf ihx =>
      rcases mem_freeVars_node.1 hx with hx | ⟨hx, hne⟩
      · exact (ihf hx).imp_left fun hx => mem_freeVars_node.2 (.inl hx)
      · rw [hf.sameSpine.binder?_eq] at hne
        exact (ihx hx).imp_left fun hx => mem_freeVars_node.2 (.inr ⟨hx, hne⟩)

theorem bindsOutside (h : Replaces p id t t') {taken : VarSet} (ht : t.BindsOutside taken) :
    t'.BindsOutside taken := by
  induction h generalizing taken with
  | leaf s => trivial
  | @hit f f' y hf _ ih =>
      unfold BindsOutside at ht ⊢
      rw [hf.sameSpine.binder?_eq]
      split at ht
      · exact ⟨ht.1, trivial⟩
      · exact ⟨ih ht.1, trivial⟩
  | miss hf _ _ ihf ihx =>
      unfold BindsOutside at ht ⊢
      rw [hf.sameSpine.binder?_eq]
      split at ht
      · exact ⟨ht.1, ihx ht.2⟩
      · exact ⟨ihf ht.1, ihx ht.2⟩

theorem wellAnnotated (h : Replaces p id t t') {taken : VarSet} (hout : t.BindsOutside taken)
    (hid : id ∈ taken) {Γ : Context} (hΓ : Γ id = p.resultType) (ht : t.WellAnnotated Γ) :
    t'.WellAnnotated Γ := by
  induction h generalizing Γ with
  | leaf s => exact ht
  | hit hf _ ih =>
      refine ⟨ih hout.func hΓ ht.1, ?_⟩
      show Γ.under _ id = p.resultType
      rw [hf.sameSpine.under_eq, under_apply (hout.binder?_ne hid), hΓ]
  | miss hf _ _ ihf ihx =>
      refine ⟨ihf hout.func hΓ ht.1, ?_⟩
      rw [hf.sameSpine.under_eq]
      refine ihx hout.arg ?_ ht.2
      rw [under_apply (hout.binder?_ne hid), hΓ]

end Replaces

def Names (p : Tree) (id : VarId) (σ : Valuation) : Prop :=
  σ id p.resultType = p.value σ p.resultType

/-- Other variables may be bound, as long as the part does not refer to them. -/
theorem Names.set {p : Tree} {id : VarId} {σ : Valuation} (h : Names p id σ) {y : VarId}
    (hid : id ≠ y) (hp : y ∉ p.freeVars .standard) {ty : Ty} (m : Meaning ty) :
    Names p id (σ.set y ty m) := by
  have hvalue : p.value (σ.set y ty m) p.resultType = p.value σ p.resultType := by
    refine meaning_congr (fun x hx ty' => σ.set_other y m ?_ ty') [] _
    rintro rfl
    exact hp hx
  rw [Names, σ.set_other y m hid, hvalue]
  exact h

theorem Names.value_eq {p x : Tree} {id : VarId} {σ : Valuation} (h : Names p id σ)
    (hx : alphaEq .standard p x = true) :
    (leaf (.var id p.resultType)).value σ p.resultType = x.value σ p.resultType := by
  rw [value_var, h]
  exact meaning_eq_of_alphaEq hx σ [] _

/-- Where the variable stands for the part, replacement keeps the meaning. -/
theorem Replaces.meaning_eq {p t t' : Tree} {id : VarId} (h : Replaces p id t t') (hfits : t.Fits)
    {taken : VarSet} (hout : t.BindsOutside taken) (hid : id ∈ taken)
    (hp : ∀ x ∈ p.freeVars .standard, x ∈ taken) {σ : Valuation} (hσ : Names p id σ)
    (args : List Ty) : t'.meaning σ args t.resultType = t.meaning σ args t.resultType := by
  have hset : ∀ {f x : Tree} {y : VarId} {σ : Valuation}, (node f x).BindsOutside taken →
      f.binder? .standard = some y → Names p id σ →
      ∀ {ty : Ty} (m : Meaning ty), Names p id (σ.set y ty m) := by
    intro f x y σ hout hy hσ ty m
    refine hσ.set ?_ ?_ m
    · rintro rfl
      exact hout.binder?_ne hid hy
    · exact fun hyp => hout.binder?_ne (hp y hyp) hy
  induction h generalizing σ args with
  | leaf s => rfl
  | @hit f f' x hf hx ih =>
      obtain ⟨hfitsf, _, _, hnext⟩ := hfits
      cases hbinder : f.binder? .standard with
      | none =>
          have hbinder' := hf.sameSpine.binder?_eq.trans hbinder
          rw [meaning_node hbinder, meaning_node hbinder']
          show f'.meaning σ (p.resultType :: args) f.resultType _ = _
          rw [← resultType_eq_of_alphaEq hx, ← hσ.value_eq hx]
          exact congrFun (ih hfitsf hout.func hσ _) _
      | some y =>
          rw [hf.sameSpine.eq_of_binder? hbinder]
          refine meaning_function_congr hbinder hnext (fun ty m => ?_) args
          rw [← resultType_eq_of_alphaEq hx]
          exact (hset hout hbinder hσ m).value_eq hx
  | @miss f f' x x' hf _ hx ihf ihx =>
      obtain ⟨hfitsf, hfitsx, _, hnext⟩ := hfits
      cases hbinder : f.binder? .standard with
      | none =>
          have hbinder' := hf.sameSpine.binder?_eq.trans hbinder
          rw [meaning_node hbinder, meaning_node hbinder', hx.sameSpine.resultType_eq, value, value,
            ihx hfitsx hout.arg hσ]
          exact congrFun (ihf hfitsf hout.func hσ _) _
      | some y =>
          rw [hf.sameSpine.eq_of_binder? hbinder]
          refine meaning_function_congr hbinder hnext (fun ty m => ?_) args
          exact ihx hfitsx hout.arg (hset hout hbinder hσ m) []

theorem replaceSpine_yields (p : Tree) (id : VarId) {t : Tree} (hfits : t.Fits) :
    Yields (wordLimit ≤ t.size) (Replaces p id t)
      (replaceSpine .standard p (leaf (.var id p.resultType)) t) := by
  induction t with
  | leaf s => exact .leaf s
  | node f x ihf ihx =>
      obtain ⟨hfitsf, hfitsx, hfull, hnext⟩ := hfits
      rw [replaceSpine]
      refine ((ihf hfitsf).mono (fun hw => ?_) fun _ hf => hf).bind fun f' hf => ?_
      · rw [size_node]
        omega
      have hlef := hf.size_le
      cases hx : alphaEq .standard p x with
      | true =>
          have hnext' : f'.nextArg? = some (leaf (.var id p.resultType)).resultType := by
            rw [hf.sameSpine.nextArg?_eq, hnext, ← resultType_eq_of_alphaEq hx]
            rfl
          refine (reapply_yields rfl hnext').mono (fun hw => ?_) ?_
          · have hpos := x.size_pos
            rw [size_leaf] at hw
            rw [size_node]
            omega
          · rintro _ rfl
            exact .hit hf hx
      | false =>
          refine ((ihx hfitsx).mono (fun hw => ?_) fun _ hx => hx).bind fun x' hx' => ?_
          · rw [size_node]
            omega
          have hlex := hx'.size_le
          have hnext' : f'.nextArg? = some x'.resultType := by
            rw [hf.sameSpine.nextArg?_eq, hnext, hx'.sameSpine.resultType_eq]
          have hfull' := hx'.sameSpine.isFull_eq.trans hfull
          refine (reapply_yields hfull' hnext').mono (fun hw => ?_) ?_
          · rw [size_node]
            omega
          · rintro _ rfl
            exact .miss hf hx hx'

theorem replace_yields {p t : Tree} (id : VarId) (hp : Liftable p t) (hfits : t.Fits) :
    Yields (wordLimit ≤ t.size) (Replaces p id t)
      (replace .standard p (leaf (.var id p.resultType)) t) := by
  have hne : alphaEq .standard p t = false := by
    cases h : alphaEq .standard p t with
    | false => rfl
    | true => exact absurd (size_eq_of_alphaEq h) (Nat.ne_of_lt hp.size_lt)
  rw [replace, if_neg (by simp [hne])]
  exact replaceSpine_yields p id hfits

end Tree

end ExprTree

import ExprTree.Proofs.Meaning
import ExprTree.Tree.Alpha
/-!
# Alpha-equivalence and meaning

Alpha-equivalent trees have the same signature and the same meaning. The meaning
of a tree depends on its free variables only, since every tree is
alpha-equivalent to itself.
-/

namespace ExprTree

/-- Equivalent symbols are two references, two bare function symbols or one
symbol that refers to nothing. -/
theorem Symbol.alphaEqUnder_cases {pairs : List (VarId × VarId)} {s t : Symbol}
    (h : s.alphaEqUnder .standard pairs t = true) :
    (∃ x y ty, s = .var x ty ∧ t = .var y ty ∧ matchVars pairs x y = true)
      ∨ ((∃ u, s.lambda? = some u) ∧ (∃ v, t.lambda? = some v) ∧ s.signature = t.signature)
      ∨ (s = t ∧ s.reference? = none) := by
  simp only [Symbol.alphaEqUnder] at h
  split at h
  · rename_i x y hx hy
    change s.reference? = some x at hx
    change t.reference? = some y at hy
    left
    cases s with
    | var x ty =>
        cases t with
        | var y ty' =>
            simp only [Symbol.reference?, Option.some.injEq] at hx hy
            subst hx hy
            obtain ⟨hty, hxy⟩ := Bool.and_eq_true_iff.1 h
            obtain rfl : ty = ty' := by simpa [Symbol.signature] using hty
            exact ⟨x, y, ty, rfl, rfl, hxy⟩
        | _ => simp [Symbol.reference?] at hy
    | _ => simp [Symbol.reference?] at hx
  · rename_i hs ht
    right
    split at h
    · rename_i hlambda
      left
      obtain ⟨hu, hv⟩ := Bool.and_eq_true_iff.1 hlambda
      exact ⟨Option.isSome_iff_exists.1 hu, Option.isSome_iff_exists.1 hv, by simpa using h⟩
    · right
      exact ⟨by simpa using h, hs⟩
  · simp at h

namespace Tree

/-- Equivalent applications are two functions, compared under their parameters,
or two trees equivalent part by part. -/
theorem alphaEqUnder_node_cases {pairs : List (VarId × VarId)} {f x g y : Tree}
    (h : alphaEqUnder .standard pairs (node f x) (node g y) = true) :
    (∃ u v, f.binder? .standard = some u ∧ g.binder? .standard = some v
        ∧ f.signature = g.signature ∧ alphaEqUnder .standard ((u, v) :: pairs) x y = true)
      ∨ (f.binder? .standard = none ∧ g.binder? .standard = none
        ∧ alphaEqUnder .standard pairs f g = true ∧ alphaEqUnder .standard pairs x y = true) := by
  simp only [alphaEqUnder] at h
  split at h
  · rename_i u v hu hv
    obtain ⟨hsig, hxy⟩ := Bool.and_eq_true_iff.1 h
    exact .inl ⟨u, v, hu, hv, by simpa using hsig, hxy⟩
  · rename_i hnot
    obtain ⟨hfg, hxy⟩ := Bool.and_eq_true_iff.1 h
    -- A bare function symbol is equivalent to nothing but another one.
    have hiff : (f.binder? .standard).isSome = (g.binder? .standard).isSome := by
      cases f with
      | node f₁ f₂ =>
          cases g with
          | node g₁ g₂ => rfl
          | leaf t => simp [alphaEqUnder] at hfg
      | leaf s =>
          cases g with
          | node g₁ g₂ => simp [alphaEqUnder] at hfg
          | leaf t =>
              rcases Symbol.alphaEqUnder_cases hfg with
                ⟨a, b, ty, rfl, rfl, _⟩ | ⟨⟨u, hu⟩, ⟨v, hv⟩, _⟩ | ⟨rfl, _⟩
              · rfl
              · simp [binder?, Binders.standard, hu, hv]
              · rfl
    cases hf : f.binder? .standard with
    | none =>
        rw [hf] at hiff
        exact .inr ⟨rfl, by simpa using hiff.symm, hfg, hxy⟩
    | some u =>
        rw [hf] at hiff
        obtain ⟨v, hg⟩ := Option.isSome_iff_exists.1 hiff.symm
        exact absurd hg (hnot u v hf)

theorem signature_eq_of_alphaEqUnder {pairs : List (VarId × VarId)} {s t : Tree}
    (h : alphaEqUnder .standard pairs s t = true) : s.signature = t.signature := by
  induction s generalizing pairs t with
  | leaf s =>
      cases t with
      | node g y => simp [alphaEqUnder] at h
      | leaf t =>
          rcases Symbol.alphaEqUnder_cases h with ⟨x, y, ty, rfl, rfl, _⟩ | ⟨_, _, hsig⟩ | ⟨rfl, _⟩
          · rfl
          · exact hsig
          · rfl
  | node f x ihf _ =>
      cases t with
      | leaf t => simp [alphaEqUnder] at h
      | node g y =>
          rcases alphaEqUnder_node_cases h with ⟨_, _, _, _, hsig, _⟩ | ⟨_, _, hfg, _⟩
          · exact hsig
          · show f.signature = g.signature
            exact ihf hfg

theorem resultType_eq_of_alphaEqUnder {pairs : List (VarId × VarId)} {s t : Tree}
    (h : alphaEqUnder .standard pairs s t = true) : s.resultType = t.resultType :=
  congrArg Signature.result (signature_eq_of_alphaEqUnder h)

theorem applied_eq_of_alphaEqUnder {pairs : List (VarId × VarId)} {s t : Tree}
    (h : alphaEqUnder .standard pairs s t = true) : s.applied = t.applied := by
  induction s generalizing pairs t with
  | leaf s =>
      cases t with
      | node g y => simp [alphaEqUnder] at h
      | leaf t => rfl
  | node f x ihf _ =>
      cases t with
      | leaf t => simp [alphaEqUnder] at h
      | node g y =>
          rcases alphaEqUnder_node_cases h with ⟨u, v, hu, hv, _, _⟩ | ⟨_, _, hfg, _⟩
          · obtain ⟨_, _, rfl⟩ := binder?_eq_some hu
            obtain ⟨_, _, rfl⟩ := binder?_eq_some hv
            rfl
          · rw [applied_node, applied_node, ihf hfg]

theorem isFull_eq_of_alphaEqUnder {pairs : List (VarId × VarId)} {s t : Tree}
    (h : alphaEqUnder .standard pairs s t = true) : s.isFull = t.isFull := by
  rw [isFull, isFull, nextArg?, nextArg?, signature_eq_of_alphaEqUnder h,
    applied_eq_of_alphaEqUnder h]

theorem mem_freeVars_of_alphaEqUnder {pairs : List (VarId × VarId)} {s t : Tree}
    (h : alphaEqUnder .standard pairs s t = true) {y : VarId} (hy : y ∈ t.freeVars .standard) :
    ∃ x ∈ s.freeVars .standard, matchVars pairs x y = true := by
  induction s generalizing pairs t with
  | leaf s =>
      cases t with
      | node g z => simp [alphaEqUnder] at h
      | leaf t =>
          rcases Symbol.alphaEqUnder_cases h with
            ⟨x, z, ty, rfl, rfl, hxz⟩ | ⟨_, ⟨v, hv⟩, _⟩ | ⟨rfl, hs⟩
          · obtain rfl : y = z := by simpa using hy
            exact ⟨x, by simp, hxz⟩
          · cases t with
            | lambda => exact absurd hy (VarSet.not_mem_empty y)
            | _ => simp [Symbol.lambda?] at hv
          · simp [freeVars, Binders.standard, hs] at hy
  | node f x ihf ihx =>
      cases t with
      | leaf t => simp [alphaEqUnder] at h
      | node g z =>
          rcases alphaEqUnder_node_cases h with ⟨u, v, hu, hv, _, hxz⟩ | ⟨hf, hg, hfg, hxz⟩
          · simp only [freeVars, hv, VarSet.mem_erase] at hy
            obtain ⟨w, hw, hwy⟩ := ihx hxz hy.1
            -- The counterpart is not the parameter either, so the pair of parameters is passed by.
            simp only [matchVars] at hwy
            split at hwy
            · obtain ⟨_, hvy⟩ := Bool.and_eq_true_iff.1 hwy
              exact absurd (by simpa using hvy) (Ne.symm hy.2)
            · rename_i hne
              obtain ⟨huw, _⟩ : ¬u = w ∧ ¬v = y := by simpa using hne
              refine ⟨w, ?_, hwy⟩
              simp only [freeVars, hu, VarSet.mem_erase]
              exact ⟨hw, Ne.symm huw⟩
          · rw [freeVars_node hg] at hy
            rw [freeVars_node hf]
            rcases VarSet.mem_union.1 hy with hy | hy
            · obtain ⟨w, hw, hwy⟩ := ihf hfg hy
              exact ⟨w, VarSet.mem_union.2 (.inl hw), hwy⟩
            · obtain ⟨w, hw, hwy⟩ := ihx hxz hy
              exact ⟨w, VarSet.mem_union.2 (.inr hw), hwy⟩

theorem mem_freeVars_of_alphaEq {s t : Tree} (h : alphaEq .standard s t = true) {x : VarId}
    (hx : x ∈ t.freeVars .standard) : x ∈ s.freeVars .standard := by
  rw [alphaEq_eq] at h
  obtain ⟨y, hy, hyx⟩ := mem_freeVars_of_alphaEqUnder h hx
  obtain rfl : y = x := by simpa [matchVars] using hyx
  exact hy

end Tree

/-! ## Meaning -/

theorem Symbol.meaning_congr {ρ σ : Valuation} {s : Symbol} (hs : s.reference? = none)
    (args : List Ty) (ty : Ty) : s.meaning ρ args ty = s.meaning σ args ty := by
  have hden : s.denotation ρ = s.denotation σ := by
    cases s with
    | var id ty => simp [Symbol.reference?] at hs
    | _ => rfl
  simp only [Symbol.meaning, hden]

theorem Symbol.meaning_of_lambda? {ρ : Valuation} {s : Symbol} {id : VarId}
    (hs : s.lambda? = some id) (args : List Ty) (ty : Ty) :
    s.meaning ρ args ty = Curried.stuck args ty := by
  cases s with
  | lambda id' arg result =>
      unfold Symbol.meaning
      split
      · rename_i hsig
        obtain ⟨rfl, rfl⟩ : [result] = args ∧ Ty.fn arg result = ty := by
          simpa [Symbol.signature] using hsig
        rfl
      · rfl
  | _ => simp [Symbol.lambda?] at hs

theorem Tree.meaning_eq_of_alphaEqUnder {pairs : List (VarId × VarId)} {s t : Tree}
    {ρ σ : Valuation} (h : alphaEqUnder .standard pairs s t = true)
    (hvars : ∀ x ∈ s.freeVars .standard, ∀ y, matchVars pairs x y = true → ∀ ty, ρ x ty = σ y ty)
    (args : List Ty) (ty : Ty) : s.meaning ρ args ty = t.meaning σ args ty := by
  induction s generalizing pairs t ρ σ args ty with
  | leaf s =>
      cases t with
      | node g y => simp [alphaEqUnder] at h
      | leaf t =>
          rcases Symbol.alphaEqUnder_cases h with
            ⟨x, y, ty', rfl, rfl, hxy⟩ | ⟨⟨u, hu⟩, ⟨v, hv⟩, _⟩ | ⟨rfl, hs⟩
          · have hρσ := hvars x (by simp) y hxy ty'
            show (Symbol.var x ty').meaning ρ args ty = (Symbol.var y ty').meaning σ args ty
            by_cases hsig : (Symbol.var x ty').signature = ⟨args, ty⟩
            · obtain ⟨rfl, rfl⟩ : [] = args ∧ ty' = ty := by simpa [Symbol.signature] using hsig
              exact (value_var ρ x ty').trans (hρσ.trans (value_var σ y ty').symm)
            · have hsig' : ¬(Symbol.var y ty').signature = ⟨args, ty⟩ := hsig
              rw [Symbol.meaning, dif_neg hsig, Symbol.meaning, dif_neg hsig']
          · simp only [meaning, Symbol.meaning_of_lambda? hu, Symbol.meaning_of_lambda? hv]
          · exact Symbol.meaning_congr hs args ty
  | node f x ihf ihx =>
      cases t with
      | leaf t => simp [alphaEqUnder] at h
      | node g y =>
          rcases alphaEqUnder_node_cases h with ⟨u, v, hu, hv, _, hxy⟩ | ⟨hf, hg, hfg, hxy⟩
          · rw [meaning_binder hu, meaning_binder hv]
            congr 1
            funext a r m
            -- The parameters stand for one meaning, and hide what is paired outside.
            refine ihx hxy (fun z hz z' hzz' ty => ?_) [] r
            simp only [matchVars] at hzz'
            split at hzz'
            · obtain ⟨hz₁, hz₂⟩ := Bool.and_eq_true_iff.1 hzz'
              obtain rfl : u = z := by simpa using hz₁
              obtain rfl : v = z' := by simpa using hz₂
              simp [Valuation.set]
            · rename_i hne
              obtain ⟨hzu, hzv⟩ : ¬u = z ∧ ¬v = z' := by simpa using hne
              rw [Valuation.set_other _ _ _ (Ne.symm hzu), Valuation.set_other _ _ _ (Ne.symm hzv)]
              refine hvars z ?_ z' hzz' ty
              simp only [freeVars, hu, VarSet.mem_erase]
              exact ⟨hz, Ne.symm hzu⟩
          · rw [freeVars_node hf] at hvars
            rw [meaning_node hf, meaning_node hg, resultType_eq_of_alphaEqUnder hxy, value, value,
              ihx hxy fun z hz => hvars z (VarSet.mem_union.2 (.inr hz)),
              ihf hfg fun z hz => hvars z (VarSet.mem_union.2 (.inl hz))]

theorem Tree.alphaEq_self (t : Tree) : alphaEq .standard t t = true := by
  rw [alphaEq_eq]
  exact alphaEqUnder_self .standard (List.forall_mem_nil _) t

/-- Only free variables count. -/
theorem Tree.meaning_congr {t : Tree} {ρ σ : Valuation}
    (h : ∀ x ∈ t.freeVars .standard, ∀ ty, ρ x ty = σ x ty) (args : List Ty) (ty : Ty) :
    t.meaning ρ args ty = t.meaning σ args ty := by
  have hself := alphaEqUnder_self .standard (List.forall_mem_nil _) t
  refine meaning_eq_of_alphaEqUnder hself ?_ args ty
  intro x hx y hxy ty'
  obtain rfl : x = y := by simpa [matchVars] using hxy
  exact h x hx ty'

theorem Tree.meaning_eq_of_alphaEq {s t : Tree} (h : alphaEq .standard s t = true) (ρ : Valuation)
    (args : List Ty) (ty : Ty) : s.meaning ρ args ty = t.meaning ρ args ty := by
  rw [alphaEq_eq] at h
  refine meaning_eq_of_alphaEqUnder h ?_ args ty
  intro x _ y hxy ty'
  obtain rfl : x = y := by simpa [matchVars] using hxy
  rfl

end ExprTree

import ExprTree.Proofs.FunctionBodies
import ExprTree.Proofs.Nameless
/-!
# Code motion and the names of bound variables

Trees that differ in the names of their bound variables only have their code
moved alike: the search finds the same part in both, the policy decides alike,
and what is left of the trees after the part is taken out differs in such names
only. The new variables are two more names of this kind.

Inside the trees, the names of free variables differ as well. There two parts
are compared under the pairs of binders around them: first those around the two
trees that are searched, then those that the search went through.
-/

namespace ExprTree

/-! ## Pairs of binders -/

section

variable {inner pairs : List (VarId × VarId)} {x y : VarId}

theorem matchVars_append_of_not_mem (hx : x ∉ inner.map Prod.fst) (hy : y ∉ inner.map Prod.snd) :
    matchVars (inner ++ pairs) x y = matchVars pairs x y := by
  induction inner with
  | nil => rfl
  | cons p inner ih =>
      obtain ⟨u, v⟩ := p
      rw [List.map_cons, List.mem_cons, not_or] at hx hy
      simp [matchVars, Ne.symm hx.1, Ne.symm hy.1, ih hx.2 hy.2]

theorem matchVars_cons_mono {pairs' : List (VarId × VarId)} {u v : VarId}
    (h : matchVars ((u, v) :: pairs) x y = true)
    (hvars : u ≠ x → v ≠ y → matchVars pairs x y = true → matchVars pairs' x y = true) :
    matchVars ((u, v) :: pairs') x y = true := by
  simp only [matchVars] at h ⊢
  split
  · rename_i hpair
    rwa [if_pos hpair] at h
  · rename_i hpair
    rw [if_neg hpair] at h
    obtain ⟨hux, hvy⟩ : ¬u = x ∧ ¬v = y := by simpa using hpair
    exact hvars hux hvy h

theorem mem_map_fst_of_matchVars (h : matchVars (inner ++ pairs) x y = true)
    (hy : y ∈ inner.map Prod.snd) : x ∈ inner.map Prod.fst := by
  induction inner with
  | nil => simp at hy
  | cons p inner ih =>
      obtain ⟨u, v⟩ := p
      simp only [List.cons_append, matchVars] at h
      split at h
      · obtain ⟨hu, _⟩ := Bool.and_eq_true_iff.1 h
        obtain rfl : u = x := by simpa using hu
        exact List.mem_cons_self
      · rename_i hne
        obtain ⟨_, hv⟩ : ¬u = x ∧ ¬v = y := by simpa using hne
        exact List.mem_cons_of_mem _ (ih h ((List.mem_cons.1 hy).resolve_left (Ne.symm hv)))

end

namespace Tree

/-- Only matches of free variables count. -/
theorem alphaEqUnder_congr {pairs pairs' : List (VarId × VarId)} {s t : Tree}
    (h : alphaEqUnder .standard pairs s t = true)
    (hvars : ∀ x ∈ s.freeVars .standard, ∀ y ∈ t.freeVars .standard,
      matchVars pairs x y = true → matchVars pairs' x y = true) :
    alphaEqUnder .standard pairs' s t = true := by
  induction s generalizing pairs pairs' t with
  | leaf s =>
      cases t with
      | node g y => simp [alphaEqUnder] at h
      | leaf t =>
          rcases Symbol.alphaEqUnder_cases h with
            ⟨x, y, ty, rfl, rfl, hxy⟩ | ⟨⟨u, hu⟩, ⟨v, hv⟩, hsig⟩ | ⟨rfl, hs⟩
          · have hxy' := hvars x (by simp) y (by simp) hxy
            simp [alphaEqUnder, Symbol.alphaEqUnder, Binders.standard, Symbol.reference?,
              Symbol.signature, hxy']
          · obtain ⟨_, _, rfl⟩ := Symbol.lambda?_eq_some hu
            obtain ⟨_, _, rfl⟩ := Symbol.lambda?_eq_some hv
            exact h
          · simp [alphaEqUnder, Symbol.alphaEqUnder, Binders.standard, hs]
  | node f x ihf ihx =>
      cases t with
      | leaf t => simp [alphaEqUnder] at h
      | node g y =>
          rcases alphaEqUnder_node_cases h with ⟨u, v, hu, hv, hsig, hxy⟩ | ⟨hf, hg, hfg, hxy⟩
          · -- Below two functions, a pair of variables that passes their parameters is free.
            have hbody : alphaEqUnder .standard ((u, v) :: pairs') x y = true := by
              refine ihx hxy fun z hz w hw hzw => matchVars_cons_mono hzw fun huz hvw => ?_
              refine hvars z (mem_freeVars_node.2 (.inr ⟨hz, ?_⟩)) w
                (mem_freeVars_node.2 (.inr ⟨hw, ?_⟩))
              · simpa [hu] using huz
              · simpa [hv] using hvw
            simp [alphaEqUnder, hu, hv, hsig, hbody]
          · have hfunc := ihf hfg fun z hz w hw => hvars z (mem_freeVars_node.2 (.inl hz)) w
              (mem_freeVars_node.2 (.inl hw))
            have harg := ihx hxy fun z hz w hw =>
              hvars z (mem_freeVars_node.2 (.inr ⟨hz, by simp [hf]⟩)) w
                (mem_freeVars_node.2 (.inr ⟨hw, by simp [hg]⟩))
            rw [alphaEqUnder_applications (.inl hf), hfunc, harg, Bool.and_self]

theorem alphaEqUnder_cons {pairs : List (VarId × VarId)} {s t : Tree} {u v : VarId}
    (h : alphaEqUnder .standard pairs s t = true) (hu : u ∉ s.freeVars .standard)
    (hv : v ∉ t.freeVars .standard) : alphaEqUnder .standard ((u, v) :: pairs) s t = true := by
  refine alphaEqUnder_congr h fun x hx y hy hxy => ?_
  have hux : u ≠ x := fun heq => hu (heq ▸ hx)
  have hvy : v ≠ y := fun heq => hv (heq ▸ hy)
  simpa [matchVars, hux, hvy] using hxy

theorem isLeaf_eq_of_alphaEqUnder {pairs : List (VarId × VarId)} {s t : Tree}
    (h : alphaEqUnder .standard pairs s t = true) : s.isLeaf = t.isLeaf := by
  cases s with
  | leaf s =>
      cases t with
      | leaf t => rfl
      | node g y => simp [alphaEqUnder] at h
  | node f x =>
      cases t with
      | leaf t => simp [alphaEqUnder] at h
      | node g y => rfl

/-! ## Occurrences -/

section

variable {pairs : List (VarId × VarId)} {p q t u : Tree} {taken taken' : VarSet}

/-- Equivalent parts occur equally often in equivalent trees, if no function in them hides a
variable of the parts. -/
theorem countSpine_congr (h : alphaEqUnder .standard pairs t u = true)
    (hpart : alphaEqUnder .standard pairs p q = true) (ht : t.BindsOutside taken)
    (hu : u.BindsOutside taken') (hp : ∀ x ∈ p.freeVars .standard, x ∈ taken)
    (hq : ∀ x ∈ q.freeVars .standard, x ∈ taken') :
    countSpine .standard p t = countSpine .standard q u := by
  induction t generalizing pairs u with
  | leaf s =>
      cases u with
      | leaf t => rfl
      | node g y => simp [alphaEqUnder] at h
  | node f x ihf ihx =>
      cases u with
      | leaf t => simp [alphaEqUnder] at h
      | node g y =>
          rcases alphaEqUnder_node_cases h with ⟨a, b, ha, hb, _, hxy⟩ | ⟨_, _, hfg, hxy⟩
          · -- Neither part refers to the parameters.
            have hpart' := alphaEqUnder_cons hpart (fun hmem => ht.binder?_ne (hp a hmem) ha)
              fun hmem => hu.binder?_ne (hq b hmem) hb
            obtain ⟨_, _, rfl⟩ := binder?_eq_some ha
            obtain ⟨_, _, rfl⟩ := binder?_eq_some hb
            simp only [countSpine, alphaEq_congr hpart' hxy, ihx hxy hpart' ht.arg hu.arg]
          · simp only [countSpine, alphaEq_congr hpart hxy, ihx hxy hpart ht.arg hu.arg,
              ihf hfg hpart ht.func hu.func]

theorem count_congr (h : alphaEqUnder .standard pairs t u = true)
    (hpart : alphaEqUnder .standard pairs p q = true) (ht : t.BindsOutside taken)
    (hu : u.BindsOutside taken') (hp : ∀ x ∈ p.freeVars .standard, x ∈ taken)
    (hq : ∀ x ∈ q.freeVars .standard, x ∈ taken') :
    count .standard p t = count .standard q u := by
  simp only [count, alphaEq_congr hpart h, countSpine_congr h hpart ht hu hp hq]

/-- A replacement goes on in the function, and stops at an argument that is equivalent. -/
theorem Replaces.node_inv {id : VarId} {f x t' : Tree} (h : Replaces p id (node f x) t') :
    ∃ f' x', t' = node f' x' ∧ Replaces p id f f'
      ∧ (alphaEq .standard p x = true ∧ x' = .leaf (.var id p.resultType)
        ∨ alphaEq .standard p x = false ∧ Replaces p id x x') := by
  cases h with
  | @hit _ f' _ hf halpha => exact ⟨f', _, rfl, hf, .inl ⟨halpha, rfl⟩⟩
  | @miss _ f' _ x' hf halpha hx => exact ⟨f', x', rfl, hf, .inr ⟨halpha, hx⟩⟩

/-- Equivalent parts are replaced at the same places of equivalent trees. What is left is
equivalent under any pairs that match the two new variables and agree with the old pairs on all
others. -/
theorem alphaEqUnder_of_replaces {pairs' : List (VarId × VarId)} {body body' : Tree}
    {id id' : VarId} (hbody : Replaces p id t body) (hbody' : Replaces q id' u body')
    (h : alphaEqUnder .standard pairs t u = true)
    (hpart : alphaEqUnder .standard pairs p q = true) (ht : t.BindsOutside taken)
    (hu : u.BindsOutside taken') (hp : ∀ x ∈ p.freeVars .standard, x ∈ taken)
    (hq : ∀ x ∈ q.freeVars .standard, x ∈ taken') (hid : ¬t.Mentions id) (hid' : ¬u.Mentions id')
    (hnew : matchVars pairs' id id' = true)
    (hvars : ∀ x y, x ≠ id → y ≠ id' → matchVars pairs x y = true → matchVars pairs' x y = true) :
    alphaEqUnder .standard pairs' body body' = true := by
  induction t generalizing pairs pairs' u body body' with
  | leaf s =>
      cases u with
      | node g y => simp [alphaEqUnder] at h
      | leaf t =>
          cases hbody
          cases hbody'
          refine alphaEqUnder_congr h fun x hx y hy => hvars x y ?_ ?_
          · rintro rfl
            exact hid (mentions_of_mem_freeVars hx)
          · rintro rfl
            exact hid' (mentions_of_mem_freeVars hy)
  | node f x ihf ihx =>
      cases u with
      | leaf t => simp [alphaEqUnder] at h
      | node g y =>
          obtain ⟨f', x', rfl, hf', hx'⟩ := hbody.node_inv
          obtain ⟨g', y', rfl, hg', hy'⟩ := hbody'.node_inv
          obtain ⟨hidf, hidx⟩ := not_or.1 hid
          obtain ⟨hidg, hidy⟩ := not_or.1 hid'
          -- What became of the arguments, under the pairs there.
          have harg : ∀ {pairs pairs' : List (VarId × VarId)},
              alphaEqUnder .standard pairs x y = true → alphaEqUnder .standard pairs p q = true →
              matchVars pairs' id id' = true →
              (∀ z w, z ≠ id → w ≠ id' → matchVars pairs z w = true →
                matchVars pairs' z w = true) →
              alphaEqUnder .standard pairs' x' y' = true := by
            intro pairs pairs' hxy hpart hnew hvars
            have hsame := alphaEq_congr hpart hxy
            rcases hx' with ⟨hx, rfl⟩ | ⟨hx, hx'⟩
            · rcases hy' with ⟨_, rfl⟩ | ⟨hy, _⟩
              · simp [alphaEqUnder, Symbol.alphaEqUnder, Binders.standard, Symbol.reference?,
                  Symbol.signature, resultType_eq_of_alphaEqUnder hpart, hnew]
              · simp [hx, hy] at hsame
            · rcases hy' with ⟨hy, _⟩ | ⟨_, hy'⟩
              · simp [hx, hy] at hsame
              · exact ihx hx' hy' hxy hpart ht.arg hu.arg hidx hidy hnew hvars
          rcases alphaEqUnder_node_cases h with ⟨a, b, ha, hb, hsig, hxy⟩ | ⟨hf, hg, hfg, hxy⟩
          · have haid : a ≠ id := fun heq => hidf (heq ▸ mentions_of_binder? ha)
            have hbid : b ≠ id' := fun heq => hidg (heq ▸ mentions_of_binder? hb)
            have hpart' := alphaEqUnder_cons hpart (fun hmem => ht.binder?_ne (hp a hmem) ha)
              fun hmem => hu.binder?_ne (hq b hmem) hb
            have hxy' : alphaEqUnder .standard ((a, b) :: pairs') x' y' = true := by
              refine harg hxy hpart' (by simpa [matchVars, haid, hbid] using hnew) ?_
              exact fun z w hz hw hzw => matchVars_cons_mono hzw fun _ _ => hvars z w hz hw
            obtain rfl := hf'.sameSpine.eq_of_binder? ha
            obtain rfl := hg'.sameSpine.eq_of_binder? hb
            simp [alphaEqUnder, ha, hb, hsig, hxy']
          · rw [← hf'.sameSpine.binder?_eq] at hf
            rw [alphaEqUnder_applications (.inl hf),
              ihf hf' hg' hfg hpart ht.func hu.func hidf hidg hnew hvars,
              harg hxy hpart hnew hvars, Bool.and_self]

end

/-! ## The search -/

/-- Two trees that differ in the names of bound variables only, and hide no variable. -/
structure Twins (pairs : List (VarId × VarId)) (t u : Tree) : Prop where
  alphaEq : alphaEqUnder .standard pairs t u = true
  left : t.NonShadowing
  right : u.NonShadowing

/-- A part of `whole`, below functions with these parameters, which make up the set `crossed`. -/
structure Inside (whole : Tree) (params : List VarId) (crossed : VarSet) (t : Tree) : Prop where
  mem_crossed : ∀ x, x ∈ crossed ↔ x ∈ params
  free : ∀ x ∈ t.freeVars .standard, x ∈ whole.freeVars .standard ∨ x ∈ crossed
  outside : t.BindsOutside (whole.freeVars .standard ∪ crossed)

/-- Parts at the same place of two trees, which are compared under `pairs`. On the way to them the
search went through functions with the parameters in `inner`. -/
structure Alongside (whole whole' : Tree) (pairs inner : List (VarId × VarId))
    (crossed crossed' : VarSet) (t u : Tree) : Prop where
  alphaEq : alphaEqUnder .standard (inner ++ pairs) t u = true
  left : Inside whole (inner.map Prod.fst) crossed t
  right : Inside whole' (inner.map Prod.snd) crossed' u

namespace Inside

variable {whole t f x : Tree} {params : List VarId} {crossed : VarSet}

theorem self (h : t.NonShadowing) : Inside t [] .empty t where
  mem_crossed x := by simp
  free x hx := .inl hx
  outside := h.mono fun x hx => by simpa using hx

theorem func (h : Inside whole params crossed (node f x)) : Inside whole params crossed f where
  mem_crossed := h.mem_crossed
  free y hy := h.free y (mem_freeVars_node.2 (.inl hy))
  outside := h.outside.func

theorem arg (h : Inside whole params crossed (node f x)) :
    Inside whole ((f.binder? .standard).toList ++ params) (crossed.enter f) x where
  mem_crossed y := by simp [h.mem_crossed]
  free y hy := by
    by_cases hf : f.binder? .standard = some y
    · exact .inr (VarSet.mem_enter.2 (.inl hf))
    · refine (h.free y (mem_freeVars_node.2 (.inr ⟨hy, hf⟩))).imp_right fun hcrossed => ?_
      exact VarSet.mem_enter.2 (.inr hcrossed)
  outside := h.outside.enter.mono fun y hy => by
    simp only [VarSet.mem_union, VarSet.mem_enter] at hy ⊢
    exact or_left_comm.1 hy

theorem isEmpty_iff (h : Inside whole params crossed t) : crossed.isEmpty = true ↔ params = [] := by
  rw [VarSet.isEmpty_iff, List.eq_nil_iff_forall_not_mem]
  exact forall_congr' fun x => not_congr (h.mem_crossed x)

end Inside

theorem Twins.alongside {pairs : List (VarId × VarId)} {t u : Tree} (h : Twins pairs t u) :
    Alongside t u pairs [] .empty .empty t u :=
  ⟨h.alphaEq, .self h.left, .self h.right⟩

namespace Alongside

variable {whole whole' t u f x g y : Tree} {pairs inner : List (VarId × VarId)}
  {crossed crossed' : VarSet}

theorem symm (h : Alongside whole whole' pairs inner crossed crossed' t u) :
    Alongside whole' whole (pairs.map Prod.swap) (inner.map Prod.swap) crossed' crossed u t where
  alphaEq := by simpa using alphaEqUnder_symm h.alphaEq
  left := by simpa [Function.comp_def] using h.right
  right := by simpa [Function.comp_def] using h.left

theorem node_cases (h : Alongside whole whole' pairs inner crossed crossed' (node f x) (node g y)) :
    (f.isLeaf = true ∧ g.isLeaf = true ∨ Alongside whole whole' pairs inner crossed crossed' f g)
      ∧ ∃ inner', Alongside whole whole' pairs inner' (crossed.enter f) (crossed'.enter g) x y := by
  have hleft := h.left.arg
  have hright := h.right.arg
  rcases alphaEqUnder_node_cases h.alphaEq with ⟨a, b, ha, hb, _, hxy⟩ | ⟨hf, hg, hfg, hxy⟩
  · rw [ha] at hleft
    rw [hb] at hright
    obtain ⟨_, _, rfl⟩ := binder?_eq_some ha
    obtain ⟨_, _, rfl⟩ := binder?_eq_some hb
    exact ⟨.inl ⟨rfl, rfl⟩, (a, b) :: inner, hxy, hleft, hright⟩
  · rw [hf] at hleft
    rw [hg] at hright
    exact ⟨.inr ⟨hfg, h.left.func, h.right.func⟩, inner, hxy, hleft, hright⟩

theorem isEmpty_congr (h : Alongside whole whole' pairs inner crossed crossed' t u) :
    crossed.isEmpty = crossed'.isEmpty := by
  rw [Bool.eq_iff_iff, h.left.isEmpty_iff, h.right.isEmpty_iff, List.map_eq_nil_iff,
    List.map_eq_nil_iff]

theorem refersTo_of_right (h : Alongside whole whole' pairs inner crossed crossed' t u)
    (hrefers : u.refersTo .standard crossed' = true) : t.refersTo .standard crossed = true := by
  obtain ⟨y, hy, hfree⟩ := exists_mem_freeVars_of_refersTo hrefers h.right.outside
    fun y hy => VarSet.mem_union.2 (.inr hy)
  obtain ⟨x, hx, hxy⟩ := mem_freeVars_of_alphaEqUnder h.alphaEq hfree
  have hcrossed := (h.left.mem_crossed x).2
    (mem_map_fst_of_matchVars hxy ((h.right.mem_crossed y).1 hy))
  rw [← Bool.not_eq_false]
  exact fun hnot => not_mem_freeVars_of_refersTo hnot hcrossed hx

theorem refersTo_congr (h : Alongside whole whole' pairs inner crossed crossed' t u) :
    t.refersTo .standard crossed = u.refersTo .standard crossed' :=
  Bool.eq_iff_iff.2 ⟨h.symm.refersTo_of_right, h.refersTo_of_right⟩

/-- Parts that refer to no parameter on the way to them are equivalent outside as well. -/
theorem outside (h : Alongside whole whole' pairs inner crossed crossed' t u)
    (ht : ∀ x ∈ crossed, x ∉ t.freeVars .standard)
    (hu : ∀ x ∈ crossed', x ∉ u.freeVars .standard) : alphaEqUnder .standard pairs t u = true := by
  refine alphaEqUnder_congr h.alphaEq fun x hx y hy hxy => ?_
  rwa [matchVars_append_of_not_mem] at hxy
  · exact fun hmem => ht x ((h.left.mem_crossed x).2 hmem) hx
  · exact fun hmem => hu y ((h.right.mem_crossed y).2 hmem) hy

theorem worthSharing_congr (h : Alongside whole whole' pairs inner crossed crossed' t u)
    (hwhole : Twins pairs whole whole') :
    worthSharing .standard whole crossed t = worthSharing .standard whole' crossed' u := by
  -- Occurrences count only outside all functions.
  have hcount : crossed.isEmpty = true →
      count .standard t whole = count .standard u whole' := by
    intro hempty
    obtain rfl : inner = [] := List.map_eq_nil_iff.1 (h.left.isEmpty_iff.1 hempty)
    have hnone := VarSet.isEmpty_iff.1 hempty
    have hnone' := VarSet.isEmpty_iff.1 (h.isEmpty_congr.symm.trans hempty)
    exact count_congr hwhole.alphaEq h.alphaEq hwhole.left hwhole.right
      (fun x hx => (h.left.free x hx).resolve_right (hnone x))
      fun x hx => (h.right.free x hx).resolve_right (hnone' x)
  simp only [worthSharing, isFull_eq_of_alphaEqUnder h.alphaEq,
    isLeaf_eq_of_alphaEqUnder h.alphaEq, h.refersTo_congr]
  cases hempty : crossed.isEmpty with
  | true => rw [← h.isEmpty_congr, hempty, hcount hempty]
  | false => simp [← h.isEmpty_congr, hempty]

theorem rel_shareableBelow? (h : Alongside whole whole' pairs inner crossed crossed' t u)
    (hwhole : Twins pairs whole whole') :
    Option.Rel (fun p q => alphaEqUnder .standard pairs p q = true)
      (shareableBelow? .standard whole crossed t)
      (shareableBelow? .standard whole' crossed' u) := by
  induction t generalizing inner crossed crossed' u with
  | leaf s =>
      cases u with
      | leaf s' => exact .none
      | node g y => cases isLeaf_eq_of_alphaEqUnder h.alphaEq
  | node f x ihf ihx =>
      cases u with
      | leaf s' => cases isLeaf_eq_of_alphaEqUnder h.alphaEq
      | node g y =>
          obtain ⟨hfunc, inner', harg⟩ := h.node_cases
          have hfound : Option.Rel (fun p q => alphaEqUnder .standard pairs p q = true)
              (shareableBelow? .standard whole crossed f)
              (shareableBelow? .standard whole' crossed' g) := by
            rcases hfunc with ⟨hf, hg⟩ | hfunc
            · cases f with
              | node => cases hf
              | leaf s =>
                  cases g with
                  | node => cases hg
                  | leaf s' => exact .none
            · exact ihf hfunc
          rw [shareableBelow?_node, shareableBelow?_node]
          generalize shareableBelow? .standard whole crossed f = found,
            shareableBelow? .standard whole' crossed' g = found' at hfound ⊢
          cases hfound with
          | some hpq => exact .some hpq
          | none =>
              rw [Option.none_or, Option.none_or, harg.worthSharing_congr hwhole]
              split
              · rename_i hworth
                obtain ⟨_, _, hcrossed', _⟩ := worthSharing_cases hworth
                obtain ⟨_, _, hcrossed, _⟩ :=
                  worthSharing_cases ((harg.worthSharing_congr hwhole).trans hworth)
                exact .some (harg.outside hcrossed hcrossed')
              · exact ihx harg

end Alongside

/-- The search finds equivalent parts in twins, or nothing in both. -/
theorem Twins.rel_shareable? {pairs : List (VarId × VarId)} {t u : Tree} (h : Twins pairs t u) :
    Option.Rel (fun p q => alphaEqUnder .standard pairs p q = true)
      (t.shareable? .standard) (u.shareable? .standard) := by
  rw [shareable?, shareable?, h.alongside.worthSharing_congr h]
  split
  · exact .some h.alphaEq
  · exact h.alongside.rel_shareableBelow? h

/-! ## Runs -/

theorem standard_congr {pairs : List (VarId × VarId)} {p q t u : Tree}
    (hpart : alphaEqUnder .standard pairs p q = true)
    (h : alphaEqUnder .standard pairs t u = true) :
    SharePolicy.standard p t = SharePolicy.standard q u := by
  simp only [SharePolicy.standard, isFull_eq_of_alphaEqUnder hpart, isFull_eq_of_alphaEqUnder h,
    resultType_eq_of_alphaEqUnder hpart, resultType_eq_of_alphaEqUnder h]

theorem Twins.exists_part {pairs : List (VarId × VarId)} {t u p : Tree} (h : Twins pairs t u)
    (hp : t.shareable? .standard = some p) :
    ∃ q, u.shareable? .standard = some q ∧ Twins pairs p q
      ∧ SharePolicy.standard p t = SharePolicy.standard q u := by
  have hrel := h.rel_shareable?
  rw [hp] at hrel
  generalize hfound : u.shareable? .standard = found at hrel
  cases hrel with
  | @some _ q hpq =>
      have hleft := (liftable_of_shareable? hp).1.nonShadowing h.left
      have hright := (liftable_of_shareable? hfound).1.nonShadowing h.right
      exact ⟨q, rfl, ⟨hpq, hleft, hright⟩, standard_congr hpq h.alphaEq⟩

theorem Twins.symm {pairs : List (VarId × VarId)} {t u : Tree} (h : Twins pairs t u) :
    Twins (pairs.map Prod.swap) u t :=
  ⟨alphaEqUnder_symm h.alphaEq, h.right, h.left⟩

theorem Twins.body {pairs : List (VarId × VarId)} {t u p q body body' : Tree}
    {next next' id id' : VarId} (h : Twins pairs t u) (hpart : Twins pairs p q)
    (hp : Liftable p t) (hq : Liftable q u) (hbody : Replaces p id t body)
    (hbody' : Replaces q id' u body') (hbelow : t.MentionsBelow next)
    (hbelow' : u.MentionsBelow next') (hid : next ≤ id) (hid' : next' ≤ id') :
    Twins ((id, id') :: pairs) body body' where
  alphaEq := by
    refine alphaEqUnder_of_replaces hbody hbody' h.alphaEq hpart.alphaEq h.left h.right
      (fun x => hp.mem_freeVars) (fun x => hq.mem_freeVars)
      (fun hmentions => Nat.not_lt_of_le hid (hbelow id hmentions))
      (fun hmentions => Nat.not_lt_of_le hid' (hbelow' id' hmentions)) ?_ fun x y hx hy hxy => ?_
    · simp [matchVars]
    · simpa [matchVars, Ne.symm hx, Ne.symm hy] using hxy
  left := hbody.nonShadowing h.left hbelow hid
  right := hbody'.nonShadowing h.right hbelow' hid'

theorem alphaEqUnder_bindTree {pairs : List (VarId × VarId)} {types : LetTypes} {id id' : VarId}
    {bound bound' body body' : Tree} (hbound : alphaEqUnder .standard pairs bound bound' = true)
    (hbody : alphaEqUnder .standard ((id, id') :: pairs) body body' = true) :
    alphaEqUnder .standard pairs (types.bindTree id bound body)
      (types.bindTree id' bound' body') = true := by
  have hlet : alphaEqUnder .standard pairs (leaf (.letIn types.bound types.body))
      (leaf (.letIn types.bound types.body)) = true := by
    simp [alphaEqUnder, Symbol.alphaEqUnder, Binders.standard, Symbol.reference?]
  have hfunc : alphaEqUnder .standard pairs (node (leaf (.lambda id types.bound types.body)) body)
      (node (leaf (.lambda id' types.bound types.body)) body') = true :=
    Bool.and_eq_true_iff.2 ⟨beq_self_eq_true _, hbody⟩
  rw [LetTypes.bindTree, LetTypes.bindTree, alphaEqUnder_applications (.inl rfl),
    alphaEqUnder_applications (.inl rfl), hlet, hbound, hfunc, Bool.and_self, Bool.and_self]

mutual

/-- Twins are turned into equivalent trees, with equally many bindings. -/
theorem Hoists.alike : {next : VarId} → {t t' : Tree} → {n : Nat} →
    Hoists .standard next t n t' → {next' : VarId} → {u u' : Tree} → {n' : Nat} →
    Hoists .standard next' u n' u' → {pairs : List (VarId × VarId)} → Twins pairs t u →
    t.MentionsBelow next → u.MentionsBelow next' →
    n = n' ∧ alphaEqUnder .standard pairs t' u' = true
  | _, t, _, _, .args hrefuse hargs, _, u, _, _, hu, pairs, h, hbelow, hbelow' => by
      cases hu with
      | args _ hargs' => exact hargs.alike hargs' h hbelow hbelow'
      | share hshare haccept =>
          obtain ⟨p, hp, _, hsame⟩ := h.symm.exists_part hshare
          rw [haccept, hrefuse p hp] at hsame
          cases hsame
  | next, t, _, _, .share (p := p) (m := m) hshare haccept hbound hbody hrest, next', u, _, _, hu,
      pairs, h, hbelow, hbelow' => by
      obtain ⟨q, hq, hpart, hsame⟩ := h.exists_part hshare
      cases hu with
      | args hrefuse _ =>
          rw [haccept, hrefuse q hq] at hsame
          cases hsame
      | @share _ _ q' bound' body' _ m' n' hshare' haccept' hbound' hbody' hrest' =>
          obtain rfl : q = q' := Option.some.inj (hq.symm.trans hshare')
          have hpt := (liftable_of_shareable? hshare).1
          have hqu := (liftable_of_shareable? hshare').1
          obtain ⟨rfl, halikebound⟩ := hbound.alike hbound' hpart (hpt.mentionsBelow hbelow)
            (hqu.mentionsBelow hbelow')
          have hid : next ≤ next + m := Nat.le_add_right next m
          have hid' : next' ≤ next' + m := Nat.le_add_right next' m
          obtain ⟨rfl, halikebody⟩ := hrest.alike hrest'
            (h.body hpart hpt hqu hbody hbody' hbelow hbelow' hid hid')
            (hbody.mentionsBelow hbelow hid) (hbody'.mentionsBelow hbelow' hid')
          rw [resultType_eq_of_alphaEqUnder hpart.alphaEq, resultType_eq_of_alphaEqUnder h.alphaEq]
          exact ⟨rfl, alphaEqUnder_bindTree halikebound halikebody⟩

theorem HoistsArgs.alike : {next : VarId} → {t t' : Tree} → {n : Nat} →
    HoistsArgs .standard next t n t' → {next' : VarId} → {u u' : Tree} → {n' : Nat} →
    HoistsArgs .standard next' u n' u' → {pairs : List (VarId × VarId)} → Twins pairs t u →
    t.MentionsBelow next → u.MentionsBelow next' →
    n = n' ∧ alphaEqUnder .standard pairs t' u' = true
  | _, _, _, _, .leaf s, _, u, _, _, hu, pairs, h, _, _ => by
      cases hu with
      | leaf s' => exact ⟨rfl, h.alphaEq⟩
      | node _ _ => cases isLeaf_eq_of_alphaEqUnder h.alphaEq
  | next, _, _, _, .node (f := f) (x := x) (m := m) hf hx, next', u, _, _, hu, pairs, h, hbelow,
      hbelow' => by
      cases hu with
      | leaf s' => cases isLeaf_eq_of_alphaEqUnder h.alphaEq
      | @node _ g g' y y' m' n' hg hy =>
          have hbelowx := hbelow.arg.mono (Nat.le_add_right next m)
          have hbelowy := hbelow'.arg.mono (Nat.le_add_right next' m')
          rcases alphaEqUnder_node_cases h.alphaEq with
            ⟨a, b, ha, hb, hsig, hxy⟩ | ⟨hbare, _, hfg, hxy⟩
          · obtain ⟨rfl, halike⟩ := hx.alike hy ⟨hxy, h.left.arg, h.right.arg⟩ hbelowx hbelowy
            -- Bare function symbols stay as they are.
            obtain ⟨_, _, rfl⟩ := binder?_eq_some ha
            obtain ⟨_, _, rfl⟩ := binder?_eq_some hb
            cases hf
            cases hg
            refine ⟨rfl, ?_⟩
            simp [alphaEqUnder, ha, hb, hsig, halike]
          · obtain ⟨rfl, halikef⟩ := hf.alike hg ⟨hfg, h.left.func, h.right.func⟩ hbelow.func
              hbelow'.func
            obtain ⟨rfl, halikex⟩ := hx.alike hy ⟨hxy, h.left.arg, h.right.arg⟩ hbelowx hbelowy
            refine ⟨rfl, ?_⟩
            rw [← hf.moves.sameSpine.binder?_eq] at hbare
            rw [alphaEqUnder_applications (.inl hbare), halikef, halikex, Bool.and_self]

end

end Tree

/-- Code motion does not depend on the names of bound variables: full trees that differ in them
only, each with new variables from its own first unused one, get equally many bindings and are
equivalent afterwards, unless one of the runs is short of machine words. -/
theorem Tree.hoist_alphaEq {t u : Tree} (ht : t.Built) (hu : u.Built) (hfull : t.isFull = true)
    (h : alphaEq .standard t u = true) (hns : t.NonShadowing) (hns' : u.NonShadowing)
    {start start' : VarId} (hstart : t.firstUnused .standard = .ok start)
    (hstart' : u.firstUnused .standard = .ok start') :
    Yields (t.Crowded start ∨ u.Crowded start')
      (fun runs => alphaEq .standard runs.1.tree runs.2.tree = true ∧ runs.1.lets = runs.2.lets)
      (do
        let hoisted ← t.hoist ⟨.standard, .standard⟩
        let hoisted' ← u.hoist ⟨.standard, .standard⟩
        return (hoisted, hoisted')) := by
  rw [alphaEq_eq] at h
  have hufull : u.isFull = true := (isFull_eq_of_alphaEqUnder h).symm.trans hfull
  have hrun := hoist_hoists SharePolicy.standard_ownTypes ht.fits hfull hstart
  have hrun' := hoist_hoists SharePolicy.standard_ownTypes hu.fits hufull hstart'
  refine (hrun.mono .inl fun _ h => h).bind fun hoisted hhoists => ?_
  refine (hrun'.mono .inr fun _ h => h).bind fun hoisted' hhoists' => ?_
  obtain ⟨hlets, halpha⟩ := hhoists.alike hhoists' ⟨h, hns, hns'⟩
    (mentionsBelow_of_firstUnused hstart) (mentionsBelow_of_firstUnused hstart')
  exact ⟨(alphaEq_eq _ _ _).trans halpha, hlets⟩

private def sumOfProducts (x y : VarId) : Tree :=
  .node (.leaf (.lambda x .int (.fn .int .int)))
    (.node (.leaf (.lambda y .int .int))
      (.node
        (.node (.leaf (.arith .add))
          (.node (.node (.leaf (.arith .mul)) (.leaf (.var x .int))) (.leaf (.var x .int))))
        (.node (.node (.leaf (.arith .add)) (.leaf (.var y .int)))
          (.node (.node (.leaf (.arith .mul)) (.leaf (.int 2))) (.leaf (.int 3))))))

theorem Tree.hoist_alphaEq_sumOfProducts :
    alphaEq .standard (sumOfProducts 0 1) (sumOfProducts 7 0) = true
      ∧ ∃ hoisted hoisted', (sumOfProducts 0 1).hoist ⟨.standard, .standard⟩ = .ok hoisted
        ∧ (sumOfProducts 7 0).hoist ⟨.standard, .standard⟩ = .ok hoisted' ∧ hoisted.lets = 2
        ∧ hoisted'.lets = 2 ∧ alphaEq .standard hoisted.tree hoisted'.tree = true := by
  have halpha : alphaEq .standard (sumOfProducts 0 1) (sumOfProducts 7 0) = true := by decide
  have hstart : (sumOfProducts 0 1).firstUnused .standard = .ok 2 := rfl
  have hstart' : (sumOfProducts 7 0).firstUnused .standard = .ok 8 := rfl
  have hrun : (sumOfProducts 0 1).hoist ⟨.standard, .standard⟩ = .ok ⟨_, 2, ⟨2⟩⟩ := rfl
  have hrun' : (sumOfProducts 7 0).hoist ⟨.standard, .standard⟩ = .ok ⟨_, 2, ⟨2⟩⟩ := rfl
  have halike := Tree.hoist_alphaEq (by decide) (by decide) rfl halpha (by decide) (by decide)
    hstart hstart'
  rw [hrun, hrun'] at halike
  exact ⟨halpha, _, _, hrun, hrun', rfl, rfl, halike.1⟩

private def productUnder (x : VarId) : Tree :=
  .node (.leaf (.lambda x .int .int))
    (.node (.node (.leaf (.arith .mul)) (.leaf (.int 3))) (.leaf (.int 4)))

/-- At the end of their range names matter: of two trees that differ in the name of a parameter
only, code is moved in one, and for the other there is no new variable. -/
theorem Tree.hoist_short_of_names :
    ∃ t u : Tree, t.Built ∧ u.Built ∧ t.isFull = true ∧ alphaEq .standard t u = true
      ∧ t.NonShadowing ∧ u.NonShadowing ∧ t.firstUnused .standard = .ok 1
      ∧ u.firstUnused .standard = .ok (wordLimit - 1)
      ∧ (∃ hoisted, t.hoist ⟨.standard, .standard⟩ = .ok hoisted ∧ hoisted.lets = 1)
      ∧ u.hoist ⟨.standard, .standard⟩ = .error .overflow :=
  ⟨productUnder 0, productUnder (wordLimit - 2), by decide, by decide, rfl, by decide, by decide,
    by decide, rfl, rfl, ⟨_, rfl, rfl⟩, rfl⟩

end ExprTree

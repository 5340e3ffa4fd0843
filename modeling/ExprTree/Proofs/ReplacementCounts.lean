import ExprTree.Proofs.FirstOrder
import ExprTree.Proofs.FunctionBodies
/-!
# Counting and replacing

`count` and `replace` walk a tree separately. They agree on every occurrence: a
variable that is new to the tree is put in as many places as there were
occurrences, each of them makes the tree smaller by the size of the part less
one, and afterwards there is no occurrence left.
-/

namespace ExprTree.Tree

/-- The types that the references to a variable carry, free and bound ones, from left to right. -/
def references (id : VarId) : Tree → List Ty
  | leaf s => if s.reference? = some id then [s.signature.result] else []
  | node func arg => func.references id ++ arg.references id

theorem references_eq_nil {t : Tree} {id : VarId} (h : ¬t.Mentions id) : t.references id = [] := by
  induction t with
  | leaf s =>
      have href : s.reference? ≠ some id := fun hs => h (.inl hs)
      simp [references, href]
  | node f x ihf ihx =>
      rw [Mentions, not_or] at h
      rw [references, ihf h.1, ihx h.2, List.nil_append]

@[simp] theorem references_var (id : VarId) (ty : Ty) :
    (leaf (.var id ty)).references id = [ty] := by
  simp [references, Symbol.reference?, Symbol.signature]

theorem countSpine_pos_of_mem {p t : Tree} (h : p ∈ t.partsBelow) :
    0 < countSpine .standard p t := by
  induction t with
  | leaf s => cases h
  | node f x ihf ihx =>
      rw [countSpine]
      split
      · omega
      · rename_i hne
        rcases mem_partsBelow_node.1 h with h | h
        · have := ihf h
          omega
        · rcases mem_parts.1 h with rfl | h
          · exact absurd p.alphaEq_self hne
          · have := ihx h
            omega

theorem count_pos_of_mem {p t : Tree} (h : p ∈ t.parts) : 0 < count .standard p t := by
  rw [count]
  split
  · exact Nat.one_pos
  · rename_i hne
    rcases mem_parts.1 h with rfl | h
    · exact absurd p.alphaEq_self hne
    · exact countSpine_pos_of_mem h

/-- A tree that refers to a variable which the part does not refer to is no occurrence of it. -/
theorem alphaEq_eq_false_of_mem_freeVars {p t : Tree} {id : VarId}
    (hp : id ∉ p.freeVars .standard) (ht : id ∈ t.freeVars .standard) :
    alphaEq .standard p t = false := by
  by_contra h
  exact hp (freeVars_eq_of_alphaEq (by simpa using h) ▸ ht)

theorem alphaEq_var_eq_false {p : Tree} {id : VarId} (hp : id ∉ p.freeVars .standard) :
    alphaEq .standard p (leaf (.var id p.resultType)) = false :=
  alphaEq_eq_false_of_mem_freeVars hp (by simp)

/-! ## Occurrences below the root -/

namespace Replaces

variable {p t r : Tree} {id : VarId}

theorem references_eq (h : Replaces p id t r) (hid : ¬t.Mentions id) :
    r.references id = List.replicate (countSpine .standard p t) p.resultType := by
  induction h with
  | leaf s => exact references_eq_nil hid
  | hit _ hx ih =>
      rw [Mentions, not_or] at hid
      rw [references, ih hid.1, references_var, countSpine, if_pos hx, List.replicate_succ']
  | miss _ hx _ ihf ihx =>
      rw [Mentions, not_or] at hid
      rw [references, ihf hid.1, ihx hid.2, countSpine, hx, List.replicate_append_replicate]
      rfl

/-- Each occurrence costs the size of the part, and the variable in its place one symbol. -/
theorem size_add_eq (h : Replaces p id t r) :
    r.size + countSpine .standard p t * (p.size - 1) = t.size := by
  induction h with
  | leaf s => simp [countSpine]
  | @hit f f' x _ hx ih =>
      have hsize := size_eq_of_alphaEq hx
      have hpos := p.size_pos
      simp only [size_node, size_leaf, countSpine, hx, if_true, Nat.add_mul, Nat.one_mul]
      omega
  | miss _ hx _ ihf ihx =>
      simp only [size_node, countSpine, hx, Bool.false_eq_true, if_false, Nat.add_mul]
      omega

/-- A tree does not become an occurrence: what changes in it refers to the variable. -/
theorem alphaEq_eq_false (h : Replaces p id t r) (hne : alphaEq .standard p t = false)
    (hp : id ∉ p.freeVars .standard) (hid : id ∉ t.binders) : alphaEq .standard p r = false := by
  rcases h.eq_or_mem_freeVars hid with rfl | hmem
  · exact hne
  · exact alphaEq_eq_false_of_mem_freeVars hp hmem

theorem countSpine_eq_zero (h : Replaces p id t r) (hp : id ∉ p.freeVars .standard)
    (hid : id ∉ t.binders) : countSpine .standard p r = 0 := by
  induction h with
  | leaf s => rfl
  | hit _ _ ih =>
      rw [binders, List.mem_append, not_or] at hid
      simp [countSpine, alphaEq_var_eq_false hp, ih hid.1]
  | miss _ hx hx' ihf ihx =>
      rw [binders, List.mem_append, not_or] at hid
      simp [countSpine, hx'.alphaEq_eq_false hx hp hid.2, ihf hid.1, ihx hid.2]

end Replaces

/-! ## Occurrences in a tree -/

/-- `r` has `k` references to variable `id`, all of the type of `p`, in the place of as many
occurrences of `p` in `t`, and no occurrence is left. -/
structure Replaced (p : Tree) (id : VarId) (t : Tree) (k : Nat) (r : Tree) : Prop where
  references_eq : r.references id = List.replicate k p.resultType
  size_add_eq : r.size + k * (p.size - 1) = t.size
  count_eq : count .standard p r = 0

/-- A tree that is itself an occurrence is replaced as a whole. -/
theorem Replaced.root {p t : Tree} {id : VarId} (h : alphaEq .standard p t = true)
    (hp : id ∉ p.freeVars .standard) : Replaced p id t 1 (leaf (.var id p.resultType)) where
  references_eq := references_var id p.resultType
  size_add_eq := by
    have hsize := size_eq_of_alphaEq h
    have hpos := p.size_pos
    rw [size_leaf]
    omega
  count_eq := by simp [count, alphaEq_var_eq_false hp, countSpine]

theorem Replaces.replaced {p t r : Tree} {id : VarId} (h : Replaces p id t r)
    (hne : alphaEq .standard p t = false) (hp : id ∉ p.freeVars .standard)
    (hid : ¬t.Mentions id) : Replaced p id t (countSpine .standard p t) r where
  references_eq := h.references_eq hid
  size_add_eq := h.size_add_eq
  count_eq := by
    have hbinders : id ∉ t.binders := fun hmem => hid (mentions_of_mem_binders hmem)
    simp [count, h.alphaEq_eq_false hne hp hbinders, h.countSpine_eq_zero hp hbinders]

/-- Replacement by a new variable comes to a result, in which exactly the occurrences that are
counted are replaced. A part of the tree is counted, so the result is smaller. -/
theorem replace_agrees_with_count {p t : Tree} {id : VarId} (ht : t.Built)
    (hleaf : p.isLeaf = false) (hp : ¬p.Mentions id) (hid : ¬t.Mentions id) :
    ∃ r, replace .standard p (leaf (.var id p.resultType)) t = .ok r
      ∧ Replaced p id t (count .standard p t) r
      ∧ (p ∈ t.parts → 1 ≤ count .standard p t ∧ r.size < t.size) := by
  have hfree : id ∉ p.freeVars .standard := fun hmem => hp (mentions_of_mem_freeVars hmem)
  obtain ⟨r, hrun, hr⟩ : ∃ r, replace .standard p (leaf (.var id p.resultType)) t = .ok r
      ∧ Replaced p id t (count .standard p t) r := by
    unfold replace count
    cases h : alphaEq .standard p t with
    | true => exact ⟨_, rfl, .root h hfree⟩
    | false =>
        have hspine := replaceSpine_yields p id ht.fits
        obtain ⟨r, hrun, hr⟩ := hspine.exists_ok (Nat.not_le_of_lt ht.size_lt)
        exact ⟨r, hrun, hr.replaced h hfree hid⟩
  refine ⟨r, hrun, hr, fun hmem => ?_⟩
  have hcount := count_pos_of_mem hmem
  have hsize := hr.size_add_eq
  have htwo : 2 ≤ p.size := two_le_size hleaf
  have hsaved : 1 ≤ count .standard p t * (p.size - 1) := Nat.mul_pos hcount (by omega)
  exact ⟨hcount, by omega⟩

private def successorCall (id : VarId) : Tree :=
  node
    (node (leaf (.call .int .int))
      (node (leaf (.lambda id .int .int))
        (node (node (leaf (.arith .add)) (leaf (.var id .int))) (leaf (.int 1)))))
    (leaf (.int 3))

private def twoCalls : Tree :=
  node (node (leaf (.arith .add)) (successorCall 0))
    (node (node (leaf (.arith .mul)) (successorCall 1)) (leaf (.var 2 .int)))

theorem replace_agrees_with_count_twoCalls :
    count .standard (successorCall 0) twoCalls = 2
      ∧ ∃ r, replace .standard (successorCall 0) (leaf (.var 3 .int)) twoCalls = .ok r
        ∧ Replaced (successorCall 0) 3 twoCalls 2 r ∧ r.size < twoCalls.size := by
  have hcount : count .standard (successorCall 0) twoCalls = 2 := by decide +kernel
  have hpart : ¬(successorCall 0).Mentions 3 := by
    simp [successorCall, Mentions, Symbol.reference?, Symbol.lambda?]
  have htree : ¬twoCalls.Mentions 3 := by
    simp [twoCalls, successorCall, Mentions, Symbol.reference?, Symbol.lambda?]
  obtain ⟨r, hrun, hr, hsmaller⟩ :=
    replace_agrees_with_count (show twoCalls.Built by decide) rfl hpart htree
  have hmem : successorCall 0 ∈ twoCalls.parts := by decide +kernel
  exact ⟨hcount, r, hrun, hcount ▸ hr, (hsmaller hmem).2⟩

end ExprTree.Tree

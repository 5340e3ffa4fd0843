import ExprTree.Proofs.FreshVariables
import ExprTree.Proofs.Nameless
/-!
# First-order trees

Trees without functions, bindings and calls. They bind no variables, so that
equivalent trees are equal, and the occurrences of a tree are its places in the
list of parts. Replacement of a part by a variable can be undone: `expand` puts
the part back, and the parts of the expanded tree are those of the tree, with the
parts of the part in the place of the variable.
-/

namespace ExprTree

/-- A symbol other than those of functions, bindings and calls. -/
def Symbol.isFirstOrder : Symbol → Bool
  | lambda _ _ _ => false
  | letIn _ _ => false
  | call _ _ => false
  | _ => true

namespace Tree

def isFirstOrder : Tree → Bool
  | leaf s => s.isFirstOrder
  | node func arg => func.isFirstOrder && arg.isFirstOrder

/-- The arguments in a tree in the order of the search, each one before its own. -/
def partsBelow : Tree → List Tree
  | leaf _ => []
  | node func arg => func.partsBelow ++ arg :: arg.partsBelow

def parts (t : Tree) : List Tree :=
  t :: t.partsBelow

/-! ## Parts -/

theorem mem_parts {s t : Tree} : s ∈ t.parts ↔ s = t ∨ s ∈ t.partsBelow :=
  List.mem_cons

theorem mem_partsBelow_node {s f x : Tree} :
    s ∈ (node f x).partsBelow ↔ s ∈ f.partsBelow ∨ s ∈ x.parts := by
  rw [partsBelow, List.mem_append, parts]

theorem size_lt_of_mem_partsBelow {s t : Tree} (h : s ∈ t.partsBelow) : s.size < t.size := by
  induction t with
  | leaf s => cases h
  | node f x ihf ihx =>
      have hf := f.size_pos
      rw [size_node]
      rcases mem_partsBelow_node.1 h with h | h
      · have := ihf h
        omega
      · rcases mem_parts.1 h with rfl | h
        · omega
        · have := ihx h
          omega

theorem not_mem_partsBelow_self (t : Tree) : t ∉ t.partsBelow :=
  fun h => Nat.lt_irrefl _ (size_lt_of_mem_partsBelow h)

/-- What passes from a tree to its function and its argument holds of all parts. The argument may
come with more, such as that it is full. -/
theorem of_mem_partsBelow {P Q : Tree → Prop} (hnode : ∀ f x, P (node f x) → P f ∧ Q x)
    (hQ : ∀ x, Q x → P x) {s t : Tree} (ht : P t) (h : s ∈ t.partsBelow) : Q s := by
  induction t with
  | leaf s => cases h
  | node f x ihf ihx =>
      obtain ⟨hf, hx⟩ := hnode f x ht
      rcases mem_partsBelow_node.1 h with h | h
      · exact ihf hf h
      · rcases mem_parts.1 h with rfl | h
        · exact hx
        · exact ihx (hQ x hx) h

theorem of_mem_parts {P : Tree → Prop} (hnode : ∀ f x, P (node f x) → P f ∧ P x) {s t : Tree}
    (ht : P t) (h : s ∈ t.parts) : P s := by
  rcases mem_parts.1 h with rfl | h
  · exact ht
  · exact of_mem_partsBelow hnode (fun _ hx => hx) ht h

theorem mem_partsBelow_trans {r s t : Tree} (hr : r ∈ s.partsBelow) (hs : s ∈ t.parts) :
    r ∈ t.partsBelow := by
  by_contra ht
  refine of_mem_parts (P := fun u => r ∉ u.partsBelow) (fun f x h => ?_) ht hs hr
  rw [mem_partsBelow_node, mem_parts, not_or, not_or] at h
  exact ⟨h.1, h.2.2⟩

theorem isLeaf_eq_of_mem_partsBelow {s t : Tree} (h : s ∈ t.partsBelow) : t.isLeaf = false := by
  cases t with
  | leaf s => cases h
  | node f x => rfl

theorem count_parts_self (t : Tree) : t.parts.count t = 1 := by
  rw [parts, List.count_cons_self, List.count_eq_zero.2 t.not_mem_partsBelow_self]

/-- A part is followed by its own parts. -/
theorem partsBelow_eq_append {t s : Tree} {before after : List Tree}
    (h : t.partsBelow = before ++ s :: after) : ∃ rest, after = s.partsBelow ++ rest := by
  induction t generalizing before after with
  | leaf _ => simp [partsBelow] at h
  | node f x ihf ihx =>
      rw [partsBelow] at h
      rcases List.append_eq_append_iff.1 h with ⟨between, rfl, hx⟩ | ⟨between, hf, hx⟩
      · cases between with
        | nil =>
            obtain ⟨rfl, rfl⟩ := List.cons.inj hx
            exact ⟨[], (List.append_nil _).symm⟩
        | cons y between =>
            rw [List.cons_append] at hx
            exact ihx (List.cons.inj hx).2
      · cases between with
        | nil =>
            obtain ⟨rfl, rfl⟩ := List.cons.inj hx
            exact ⟨[], (List.append_nil _).symm⟩
        | cons y between =>
            obtain ⟨rfl, rfl⟩ := List.cons.inj hx
            obtain ⟨rest, rfl⟩ := ihf hf
            exact ⟨rest ++ x :: x.partsBelow, List.append_assoc _ _ _⟩

theorem after_eq_append {t s : Tree} {before after : List Tree}
    (h : t.parts = before ++ s :: after) : ∃ rest, after = s.partsBelow ++ rest := by
  cases before with
  | nil =>
      obtain ⟨rfl, rfl⟩ := List.cons.inj h
      exact ⟨[], (List.append_nil _).symm⟩
  | cons y before => exact partsBelow_eq_append (List.cons.inj h).2

theorem mentions_of_mem_parts {s t : Tree} (h : s ∈ t.parts) {x : VarId} (hx : s.Mentions x) :
    t.Mentions x := by
  by_contra ht
  exact of_mem_parts (P := fun u => ¬u.Mentions x) (fun _ _ => not_or.1) ht h hx

/-! ## Equivalence and occurrences -/

theorem isFirstOrder_node {f x : Tree} :
    (node f x).isFirstOrder = true ↔ f.isFirstOrder = true ∧ x.isFirstOrder = true := by
  rw [isFirstOrder, Bool.and_eq_true]

theorem isFirstOrder_of_mem_parts {s t : Tree} (h : s ∈ t.parts) (ht : t.isFirstOrder = true) :
    s.isFirstOrder = true :=
  of_mem_parts (P := fun u => u.isFirstOrder = true) (fun _ _ => isFirstOrder_node.1) ht h

theorem binder?_of_isFirstOrder {t : Tree} (h : t.isFirstOrder = true) :
    t.binder? .standard = none := by
  cases t with
  | node f x => rfl
  | leaf s => cases s <;> first | rfl | cases h

/-- A tree that is equivalent to a first-order one is equal to it. -/
theorem eq_of_alphaEq {s t : Tree} (hs : s.isFirstOrder = true)
    (h : alphaEq .standard s t = true) : s = t := by
  rw [alphaEq_eq] at h
  induction s generalizing t with
  | leaf s =>
      cases t with
      | node g y => simp [alphaEqUnder] at h
      | leaf t =>
          rcases Symbol.alphaEqUnder_cases h with
            ⟨x, y, ty, rfl, rfl, hvars⟩ | ⟨hlambda, _⟩ | ⟨rfl, _⟩
          · obtain rfl : x = y := by simpa [matchVars] using hvars
            rfl
          · obtain ⟨u, hu⟩ := hlambda
            cases s <;> simp_all [isFirstOrder, Symbol.isFirstOrder, Symbol.lambda?]
          · rfl
  | node f x ihf ihx =>
      obtain ⟨hf, hx⟩ := isFirstOrder_node.1 hs
      cases t with
      | leaf t => simp [alphaEqUnder] at h
      | node g y =>
          rcases alphaEqUnder_node_cases h with ⟨u, _, hu, _⟩ | ⟨_, _, hfg, hxy⟩
          · rw [binder?_of_isFirstOrder hf] at hu
            cases hu
          · rw [ihf hf hfg, ihx hx hxy]

theorem countSpine_eq {b : Tree} (hb : b.isFirstOrder = true) (t : Tree) :
    countSpine .standard b t = t.partsBelow.count b := by
  induction t with
  | leaf s => rfl
  | node f x ihf ihx =>
      rw [countSpine, partsBelow, List.count_append, ihf, ihx]
      by_cases h : b = x
      · subst h
        rw [if_pos b.alphaEq_self, ← parts, count_parts_self]
      · have hne : ¬alphaEq .standard b x = true := fun halpha => h (eq_of_alphaEq hb halpha)
        rw [if_neg hne, List.count_cons_of_ne (Ne.symm h)]

/-- The occurrences of a first-order tree are its places among the parts. -/
theorem count_eq {b : Tree} (hb : b.isFirstOrder = true) (t : Tree) :
    count .standard b t = t.parts.count b := by
  rw [count]
  split
  · rename_i halpha
    obtain rfl := eq_of_alphaEq hb halpha
    exact b.count_parts_self.symm
  · rename_i halpha
    have hne : t ≠ b := by
      rintro rfl
      exact halpha t.alphaEq_self
    rw [countSpine_eq hb, parts, List.count_cons_of_ne hne]

/-- The tree with `p` in the place of variable `id`, wherever it is an argument. -/
def expand (id : VarId) (p : Tree) : Tree → Tree
  | leaf s => leaf s
  | node func arg =>
      node (expand id p func)
        (if arg = leaf (.var id p.resultType) then p else expand id p arg)

section Expand

variable {id : VarId} {p : Tree}

/-- The parts of the expanded tree that come from the part `x`. -/
def expandedParts (id : VarId) (p x : Tree) : List Tree :=
  if x = leaf (.var id p.resultType) then p.parts else [expand id p x]

theorem expandedParts_of_isLeaf {x : Tree} (hx : x.isLeaf = false) :
    expandedParts id p x = [expand id p x] := by
  refine if_neg ?_
  rintro rfl
  cases hx

theorem mem_expandedParts {s x : Tree} (h : s ∈ expandedParts id p x) :
    s ∈ p.parts ∨ s = expand id p x := by
  rw [expandedParts] at h
  split at h
  · exact .inl h
  · exact .inr (List.mem_singleton.1 h)

theorem isLeaf_expand (id : VarId) (p t : Tree) : (expand id p t).isLeaf = t.isLeaf := by
  cases t <;> rfl

theorem resultType_expand (id : VarId) (p t : Tree) :
    (expand id p t).resultType = t.resultType := by
  induction t with
  | leaf s => rfl
  | node f x ihf _ => exact ihf

theorem partsBelow_expand (t : Tree) :
    (expand id p t).partsBelow = t.partsBelow.flatMap (expandedParts id p) := by
  induction t with
  | leaf s => rfl
  | node f x ihf ihx =>
      rw [expand, partsBelow, partsBelow, List.flatMap_append, List.flatMap_cons, ihf,
        expandedParts]
      split
      · rename_i hx
        rw [hx]
        simp [partsBelow, parts]
      · rw [ihx, List.singleton_append]

theorem parts_expand {t : Tree} (ht : t.isLeaf = false) :
    (expand id p t).parts = t.parts.flatMap (expandedParts id p) := by
  rw [parts, parts, List.flatMap_cons, expandedParts_of_isLeaf ht, partsBelow_expand,
    List.singleton_append]

theorem mem_partsBelow_expand (id : VarId) (p : Tree) {b t : Tree} (hb : b.isLeaf = false)
    (h : b ∈ t.partsBelow) : expand id p b ∈ (expand id p t).partsBelow := by
  rw [partsBelow_expand]
  refine List.mem_flatMap.2 ⟨b, h, ?_⟩
  rw [expandedParts_of_isLeaf hb]
  exact List.mem_singleton.2 rfl

theorem expand_eq_self {t : Tree} (h : leaf (.var id p.resultType) ∉ t.partsBelow) :
    expand id p t = t := by
  induction t with
  | leaf s => rfl
  | node f x ihf ihx =>
      rw [mem_partsBelow_node, mem_parts, not_or, not_or] at h
      obtain ⟨hf, hne, hx⟩ := h
      rw [expand, if_neg (Ne.symm hne), ihf hf, ihx hx]

theorem not_mem_partsBelow_of_not_mentions {t : Tree} (h : ¬t.Mentions id) (ty : Ty) :
    leaf (.var id ty) ∉ t.partsBelow :=
  fun hmem => h (mentions_of_mem_parts (mem_parts.2 (.inr hmem)) (.inl rfl))

theorem expand_ne {t : Tree} (h : p ∉ t.parts) : expand id p t ≠ p := by
  rw [mem_parts, not_or] at h
  by_cases hvar : leaf (.var id p.resultType) ∈ t.partsBelow
  · have hmem : p ∈ (expand id p t).partsBelow := by
      rw [partsBelow_expand]
      refine List.mem_flatMap.2 ⟨_, hvar, ?_⟩
      rw [expandedParts, if_pos rfl]
      exact mem_parts.2 (.inl rfl)
    intro heq
    rw [heq] at hmem
    exact p.not_mem_partsBelow_self hmem
  · rw [expand_eq_self hvar]
    exact Ne.symm h.1

/-- Trees without the part are the same if they are once expanded. -/
theorem expand_injective {s t : Tree} (hs : p ∉ s.partsBelow) (ht : p ∉ t.partsBelow)
    (h : expand id p s = expand id p t) : s = t := by
  induction s generalizing t with
  | leaf s =>
      cases t with
      | leaf t => exact h
      | node g y => cases h
  | node f x ihf ihx =>
      cases t with
      | leaf t => cases h
      | node g y =>
          rw [mem_partsBelow_node, not_or] at hs ht
          rw [expand, expand] at h
          obtain ⟨hfg, hxy⟩ := node.inj h
          have hargs : x = y := by
            split at hxy
            · rename_i hx
              split at hxy
              · rename_i hy
                rw [hx, hy]
              · exact absurd hxy.symm (expand_ne ht.2)
            · split at hxy
              · exact absurd hxy (expand_ne hs.2)
              · exact ihx (fun hmem => hs.2 (mem_parts.2 (.inr hmem)))
                  (fun hmem => ht.2 (mem_parts.2 (.inr hmem))) hxy
          rw [ihf hs.1 ht.1 hfg, hargs]

theorem count_expandedParts (id : VarId) {u x : Tree} (hleaf : u.isLeaf = false)
    (hu : p ∉ u.partsBelow) (hx : p ∉ x.partsBelow) :
    (expandedParts id p x).count (expand id p u) =
      (if x = u then 1 else 0)
        + (if x = leaf (.var id p.resultType) then 1 else 0) * p.parts.count (expand id p u) := by
  rw [expandedParts]
  split
  · rename_i hvar
    have hne : x ≠ u := by
      rintro rfl
      rw [hvar] at hleaf
      cases hleaf
    rw [if_neg hne, Nat.one_mul, Nat.zero_add]
  · have hiff : expand id p x = expand id p u ↔ x = u :=
      ⟨expand_injective hx hu, fun heq => by rw [heq]⟩
    simp [List.count_singleton, hiff]

/-- The copies of an expanded tree in another: those that were there before, and for each place
of the variable those in the part. -/
theorem count_parts_expand (id : VarId) {u t : Tree} (hleaf : u.isLeaf = false)
    (hu : p ∉ u.partsBelow) (htleaf : t.isLeaf = false) (ht : p ∉ t.partsBelow) :
    (expand id p t).parts.count (expand id p u) =
      t.parts.count u
        + t.parts.count (leaf (.var id p.resultType)) * p.parts.count (expand id p u) := by
  have hlist : ∀ xs : List Tree, (∀ x ∈ xs, p ∉ x.partsBelow) →
      (xs.flatMap (expandedParts id p)).count (expand id p u) =
        xs.count u + xs.count (leaf (.var id p.resultType)) * p.parts.count (expand id p u) := by
    intro xs hxs
    induction xs with
    | nil => simp
    | cons x xs ih =>
        have hx := count_expandedParts id hleaf hu (hxs x List.mem_cons_self)
        have hrest := ih fun y hy => hxs y (List.mem_cons_of_mem _ hy)
        rw [List.flatMap_cons, List.count_append, hx, hrest, List.count_cons, List.count_cons,
          Nat.add_mul]
        simp only [beq_iff_eq]
        omega
  rw [parts_expand htleaf]
  exact hlist t.parts fun x hx hmem => ht (mem_partsBelow_trans hmem hx)

end Expand

/-! ## Replacement -/

theorem Replaces.eq_of_not_mentions {p t body : Tree} {id : VarId} (h : Replaces p id t body)
    (hbody : ¬body.Mentions id) : body = t := by
  induction h with
  | leaf s => rfl
  | hit _ _ _ => exact absurd (.inr (.inl rfl)) hbody
  | miss _ _ _ ihf ihx =>
      rw [ihf fun hf => hbody (.inl hf), ihx fun hx => hbody (.inr hx)]

theorem Replaces.isFirstOrder {p t body : Tree} {id : VarId} (h : Replaces p id t body)
    (ht : t.isFirstOrder = true) : body.isFirstOrder = true := by
  induction h with
  | leaf s => exact ht
  | hit _ _ ih => exact isFirstOrder_node.2 ⟨ih (isFirstOrder_node.1 ht).1, rfl⟩
  | miss _ _ _ ihf ihx =>
      obtain ⟨hf, hx⟩ := isFirstOrder_node.1 ht
      exact isFirstOrder_node.2 ⟨ihf hf, ihx hx⟩

/-- Expansion undoes replacement. -/
theorem Replaces.expand_eq {p t body : Tree} {id : VarId} (h : Replaces p id t body)
    (ht : t.isFirstOrder = true) (hid : ¬t.Mentions id) : expand id p body = t := by
  induction h with
  | leaf s => rfl
  | hit _ halpha ih =>
      obtain ⟨hf, hx⟩ := isFirstOrder_node.1 ht
      rw [expand, if_pos rfl, ih hf fun h => hid (.inl h), eq_of_alphaEq hx (alphaEq_symm halpha)]
  | @miss f f' x x' _ _ hx ihf ihx =>
      obtain ⟨hf, hxfirst⟩ := isFirstOrder_node.1 ht
      have hne : x' ≠ Tree.leaf (.var id p.resultType) := by
        rintro rfl
        cases hx
        exact hid (.inr (.inl rfl))
      rw [expand, if_neg hne, ihf hf fun h => hid (.inl h), ihx hxfirst fun h => hid (.inr h)]

theorem Replaces.not_mem_partsBelow {p t body : Tree} {id : VarId} (h : Replaces p id t body)
    (hleaf : p.isLeaf = false) (hid : ¬p.Mentions id) : p ∉ body.partsBelow := by
  induction h with
  | leaf s => exact List.not_mem_nil
  | hit _ _ ih =>
      rw [mem_partsBelow_node, mem_parts, not_or, not_or]
      refine ⟨ih, fun heq => ?_, List.not_mem_nil⟩
      rw [heq] at hleaf
      cases hleaf
  | @miss f f' x x' _ hne hx ihf ihx =>
      rw [mem_partsBelow_node, mem_parts, not_or, not_or]
      refine ⟨ihf, ?_, ihx⟩
      rintro rfl
      rw [← hx.eq_of_not_mentions hid, alphaEq_self] at hne
      cases hne

end Tree

end ExprTree

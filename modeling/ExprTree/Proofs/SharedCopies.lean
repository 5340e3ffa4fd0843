import ExprTree.Proofs.CodeMotion
import ExprTree.Proofs.FirstOrder
/-!
# Copies that code motion leaves

In a first-order tree, the pass binds the first part that occurs again, and goes on
with the part and with what is left of the tree, each on its own. So no copies are
left inside a bound tree or inside the innermost body, but there may be one in each
of them: a tree that was bound is not looked at together with the rest. A part is
left in one copy at most if every tree that can be bound around it, and that the
search meets before it, holds all its occurrences. Functions are not bound: where
one occurs again, the pass goes on in each argument alone.
-/

namespace ExprTree

namespace Tree

/-! ## The search -/

theorem refersTo_empty (t : Tree) : t.refersTo .standard .empty = false := by
  induction t with
  | leaf s =>
      rw [refersTo]
      split
      · simp
      · rfl
  | node f x ihf ihx => rw [refersTo, ihf, ihx, Bool.or_self]

theorem worthSharing_empty_iff {whole c : Tree} :
    worthSharing .standard whole .empty c = true ↔
      c.isFull = true ∧ c.isLeaf = false ∧ 1 < count .standard c whole := by
  have hempty : VarSet.empty.isEmpty = true := rfl
  simp [worthSharing, refersTo_empty, hempty, and_assoc]

theorem shareableBelow?_eq_find? (whole : Tree) {t : Tree} (ht : t.isFirstOrder = true) :
    shareableBelow? .standard whole .empty t =
      t.partsBelow.find? (worthSharing .standard whole .empty) := by
  induction t with
  | leaf s => rfl
  | node f x ihf ihx =>
      obtain ⟨hf, hx⟩ := isFirstOrder_node.1 ht
      rw [shareableBelow?, binder?_of_isFirstOrder hf, ihf hf, ihx hx, partsBelow,
        List.find?_append, List.find?_cons]
      cases f.partsBelow.find? (worthSharing .standard whole .empty) with
      | some c => rfl
      | none => cases worthSharing .standard whole .empty x <;> rfl

theorem shareable?_eq_find? {t : Tree} (ht : t.isFirstOrder = true) :
    t.shareable? .standard = t.parts.find? (worthSharing .standard t .empty) := by
  rw [shareable?, shareableBelow?_eq_find? t ht, parts, List.find?_cons]
  cases worthSharing .standard t .empty t <;> rfl

theorem mem_parts_of_one_lt {c t : Tree} (h : 1 < t.parts.count c) : c ∈ t.parts :=
  List.count_pos_iff.1 (Nat.lt_trans Nat.zero_lt_one h)

theorem Fits.isFull_of_mem_parts {s t : Tree} (hfits : t.Fits) (hfull : t.isFull = true)
    (h : s ∈ t.parts) : s.isFull = true := by
  rcases mem_parts.1 h with rfl | h
  · exact hfull
  · exact (of_mem_partsBelow (P := Fits) (Q := fun x => x.Fits ∧ x.isFull = true)
      (fun _ _ h => ⟨h.1, h.2.1, h.2.2.1⟩) (fun _ h => h.1) hfits h).2

structure Plain (t : Tree) : Prop where
  fits : t.Fits
  isFull : t.isFull = true
  isFirstOrder : t.isFirstOrder = true

theorem Plain.of_mem_parts {s t : Tree} (ht : t.Plain) (h : s ∈ t.parts) : s.Plain :=
  ⟨Tree.of_mem_parts (fun _ _ hnode => ⟨hnode.1, hnode.2.1⟩) ht.fits h,
    ht.fits.isFull_of_mem_parts ht.isFull h, isFirstOrder_of_mem_parts h ht.isFirstOrder⟩

theorem Plain.of_replaces {p t body : Tree} {id : VarId} (ht : t.Plain) (h : Replaces p id t body) :
    body.Plain :=
  ⟨h.fits ht.fits, h.sameSpine.isFull_eq.trans ht.isFull, h.isFirstOrder ht.isFirstOrder⟩

def NoRepeats (t : Tree) : Prop :=
  ∀ c : Tree, c.isLeaf = false → t.parts.count c ≤ 1

/-- In the order of the search, `p` is the first part that occurs again. -/
structure FirstRepeat (p t : Tree) (before after : List Tree) : Prop where
  parts_eq : t.parts = before ++ p :: after
  before_once : ∀ c ∈ before, c.isLeaf = false → t.parts.count c ≤ 1
  isLeaf : p.isLeaf = false
  one_lt : 1 < t.parts.count p

theorem FirstRepeat.mem {p t : Tree} {before after : List Tree} (h : FirstRepeat p t before after) :
    p ∈ t.parts := by
  rw [h.parts_eq]
  exact List.mem_append_right _ List.mem_cons_self

theorem FirstRepeat.not_mem_before {p t c : Tree} {before after : List Tree}
    (h : FirstRepeat p t before after) (hleaf : c.isLeaf = false) (hc : 1 < t.parts.count c) :
    c ∉ before :=
  fun hmem => Nat.not_le_of_lt hc (h.before_once c hmem hleaf)

theorem Plain.worthSharing_iff {t c : Tree} (ht : t.Plain) (hc : c ∈ t.parts) :
    worthSharing .standard t .empty c = true ↔ c.isLeaf = false ∧ 1 < t.parts.count c := by
  rw [worthSharing_empty_iff, ← count_eq (ht.of_mem_parts hc).isFirstOrder,
    (ht.of_mem_parts hc).isFull]
  simp

theorem Plain.noRepeats {t : Tree} (ht : t.Plain) (h : t.shareable? .standard = none) :
    t.NoRepeats := by
  rw [shareable?_eq_find? ht.isFirstOrder] at h
  refine fun c hleaf => Nat.le_of_not_lt fun hcount => ?_
  have hc := mem_parts_of_one_lt hcount
  exact List.find?_eq_none.1 h c hc ((ht.worthSharing_iff hc).2 ⟨hleaf, hcount⟩)

theorem Plain.firstRepeat {t p : Tree} (ht : t.Plain) (h : t.shareable? .standard = some p) :
    ∃ before after, FirstRepeat p t before after := by
  rw [shareable?_eq_find? ht.isFirstOrder] at h
  obtain ⟨hp, before, after, hparts, hbefore⟩ := List.find?_eq_some_iff_append.1 h
  obtain ⟨hleaf, hcount⟩ := (ht.worthSharing_iff (List.mem_of_find?_eq_some h)).1 hp
  refine ⟨before, after, hparts, fun c hc hcleaf => Nat.le_of_not_lt fun hlt => ?_, hleaf, hcount⟩
  have hmem : c ∈ t.parts := by
    rw [hparts]
    exact List.mem_append_left _ hc
  have hnot := hbefore c hc
  rw [(ht.worthSharing_iff hmem).2 ⟨hcleaf, hlt⟩] at hnot
  cases hnot

/-- Part `p` of a first-order tree was replaced by a new variable. -/
structure Extracts (p : Tree) (id : VarId) (t body : Tree) : Prop where
  replaces : Replaces p id t body
  isFirstOrder : t.isFirstOrder = true
  fresh : ¬t.Mentions id
  isLeaf : p.isLeaf = false
  mem : p ∈ t.partsBelow

namespace Extracts

variable {p t body u : Tree} {id : VarId}

theorem of_repeated (hbody : Replaces p id t body) (ht : t.isFirstOrder = true)
    (hfresh : ¬t.Mentions id) (hleaf : p.isLeaf = false) (hcount : 1 < t.parts.count p) :
    Extracts p id t body := by
  refine ⟨hbody, ht, hfresh, hleaf, ?_⟩
  have hmem := mem_parts_of_one_lt hcount
  refine (mem_parts.1 hmem).resolve_left ?_
  rintro rfl
  rw [p.count_parts_self] at hcount
  exact Nat.lt_irrefl 1 hcount

theorem part_fresh (h : Extracts p id t body) : ¬p.Mentions id :=
  fun hp => h.fresh (mentions_of_mem_parts (mem_parts.2 (.inr h.mem)) hp)

theorem expand_eq (h : Extracts p id t body) : expand id p body = t :=
  h.replaces.expand_eq h.isFirstOrder h.fresh

theorem not_mem_partsBelow (h : Extracts p id t body) : p ∉ body.partsBelow :=
  h.replaces.not_mem_partsBelow h.isLeaf h.part_fresh

theorem body_isLeaf (h : Extracts p id t body) : body.isLeaf = false :=
  h.replaces.sameSpine.isLeaf_eq.trans (isLeaf_eq_of_mem_partsBelow h.mem)

theorem not_mem_parts (h : Extracts p id t body) : p ∉ body.parts := by
  rw [mem_parts, not_or]
  refine ⟨?_, h.not_mem_partsBelow⟩
  rintro rfl
  have heq := h.replaces.eq_of_not_mentions h.part_fresh
  have hmem := h.mem
  rw [← heq] at hmem
  exact p.not_mem_partsBelow_self hmem

theorem not_mem_partsBelow_of_mem (h : Extracts p id t body) (hu : u ∈ body.parts) :
    p ∉ u.partsBelow :=
  fun hpu => h.not_mem_partsBelow (mem_partsBelow_trans hpu hu)

theorem count_pos (h : Extracts p id t body) : 0 < t.parts.count p :=
  List.count_pos_iff.2 (mem_parts.2 (.inr h.mem))

theorem expand_of_not_mentions (hu : ¬u.Mentions id) : expand id p u = u :=
  expand_eq_self (not_mem_partsBelow_of_not_mentions hu _)

theorem count_var (h : Extracts p id t body) :
    body.parts.count (leaf (.var id p.resultType)) = t.parts.count p := by
  have hcount := count_parts_expand id h.isLeaf p.not_mem_partsBelow_self h.body_isLeaf
    h.not_mem_partsBelow
  rw [h.expand_eq, expand_of_not_mentions h.part_fresh, p.count_parts_self,
    List.count_eq_zero.2 h.not_mem_parts] at hcount
  omega

/-- The copies of another tree are left in the body, or stand in the part. -/
theorem count_eq (h : Extracts p id t body) (hleaf : u.isLeaf = false) (hu : ¬u.Mentions id)
    (hpart : p ∉ u.partsBelow) :
    t.parts.count u = body.parts.count u + t.parts.count p * p.parts.count u := by
  have hcount := count_parts_expand id hleaf hpart h.body_isLeaf h.not_mem_partsBelow
  rwa [h.expand_eq, expand_of_not_mentions hu, h.count_var] at hcount

theorem count_eq_zero (h : Extracts p id t body) (hu : p ∈ u.partsBelow) :
    body.parts.count u = 0 ∧ p.parts.count u = 0 := by
  refine ⟨List.count_eq_zero.2 fun hmem => ?_, List.count_eq_zero.2 fun hmem => ?_⟩
  · exact h.not_mem_partsBelow (mem_partsBelow_trans hu hmem)
  · exact p.not_mem_partsBelow_self (mem_partsBelow_trans hu hmem)

theorem one_lt_count (h : Extracts p id t body) (hcount : 1 < t.parts.count p)
    (hleaf : u.isLeaf = false) (hu : u ∈ p.parts) : 1 < t.parts.count u := by
  have hfresh : ¬u.Mentions id := fun hx => h.part_fresh (mentions_of_mem_parts hu hx)
  have hpart : p ∉ u.partsBelow :=
    fun hpart => p.not_mem_partsBelow_self (mem_partsBelow_trans hpart hu)
  have hpos : 0 < p.parts.count u := List.count_pos_iff.2 hu
  calc 1 < t.parts.count p := hcount
    _ ≤ t.parts.count p * p.parts.count u := Nat.le_mul_of_pos_right _ hpos
    _ ≤ body.parts.count u + t.parts.count p * p.parts.count u := Nat.le_add_left _ _
    _ = t.parts.count u := (h.count_eq hleaf hfresh hpart).symm

theorem count_add_le (h : Extracts p id t body) (hleaf : u.isLeaf = false) (hu : ¬u.Mentions id) :
    p.parts.count u + body.parts.count u ≤ t.parts.count u := by
  by_cases hpart : p ∈ u.partsBelow
  · obtain ⟨hbody, hp⟩ := h.count_eq_zero hpart
    omega
  · have hle := Nat.le_mul_of_pos_left (p.parts.count u) h.count_pos
    rw [h.count_eq hleaf hu hpart]
    omega

theorem count_expand_eq {w : Tree} (hleaf : u.isLeaf = false) (hu : p ∉ u.partsBelow)
    (hwleaf : w.isLeaf = false) (hw : p ∉ w.partsBelow) (hpart : expand id p u ∉ p.parts) :
    (expand id p w).parts.count (expand id p u) = w.parts.count u := by
  rw [count_parts_expand id hleaf hu hwleaf hw, List.count_eq_zero.2 hpart, Nat.mul_zero,
    Nat.add_zero]

theorem count_expand (h : Extracts p id t body) (hleaf : u.isLeaf = false) (hu : u ∈ body.parts)
    (hpart : expand id p u ∉ p.parts) : t.parts.count (expand id p u) = body.parts.count u := by
  have hcount := count_expand_eq hleaf (h.not_mem_partsBelow_of_mem hu) h.body_isLeaf
    h.not_mem_partsBelow hpart
  rwa [h.expand_eq] at hcount

/-- What is repeated in the body was repeated before. -/
theorem one_lt_count_expand (h : Extracts p id t body) (hleaf : u.isLeaf = false)
    (hu : 1 < body.parts.count u) : 1 < t.parts.count (expand id p u) := by
  have hmem := mem_parts_of_one_lt hu
  have hcount := count_parts_expand id hleaf (h.not_mem_partsBelow_of_mem hmem) h.body_isLeaf
    h.not_mem_partsBelow
  rw [h.expand_eq] at hcount
  omega

end Extracts

/-! ## Order and number of occurrences -/

/-- In the order of the search, `c` comes before every `b`. -/
def ComesFirst (c b t : Tree) : Prop :=
  ∃ before after, t.parts = before ++ c :: after ∧ b ∉ before

theorem ComesFirst.of_part {p t c b : Tree} {before after : List Tree} (h : ComesFirst c b p)
    (hfirst : FirstRepeat p t before after) (hb : b ∉ before) : ComesFirst c b t := by
  obtain ⟨before', after', hparts', hbefore'⟩ := h
  obtain ⟨rest, rfl⟩ := after_eq_append hfirst.parts_eq
  refine ⟨before ++ before', after' ++ rest, ?_, ?_⟩
  · rw [hfirst.parts_eq, ← List.cons_append, ← parts, hparts']
    simp
  · rw [List.mem_append, not_or]
    exact ⟨hb, hbefore'⟩

theorem ComesFirst.expand {p t body c b : Tree} {id : VarId} (h : ComesFirst c b body)
    (hstep : Extracts p id t body) (hcleaf : c.isLeaf = false) (hb : ¬b.Mentions id)
    (hpart : b ∉ p.parts) (hpb : p ∉ b.partsBelow) : ComesFirst (expand id p c) b t := by
  obtain ⟨before, after, hparts, hbefore⟩ := h
  refine ⟨before.flatMap (expandedParts id p), after.flatMap (expandedParts id p), ?_, ?_⟩
  · rw [← hstep.expand_eq, parts_expand hstep.body_isLeaf, hparts, List.flatMap_append,
      List.flatMap_cons, expandedParts_of_isLeaf hcleaf, List.singleton_append]
  · intro hmem
    obtain ⟨x, hx, hbx⟩ := List.mem_flatMap.1 hmem
    have hxbody : x ∈ body.parts := by
      rw [hparts]
      exact List.mem_append_left _ hx
    have heq := (mem_expandedParts hbx).resolve_left hpart
    rw [← Extracts.expand_of_not_mentions (p := p) hb] at heq
    rw [expand_injective hpb (hstep.not_mem_partsBelow_of_mem hxbody) heq] at hbefore
    exact hbefore hx

/-- Every occurrence of a tree has the ones of its parts behind it. -/
theorem count_le_of_mem_partsBelow {t c d : Tree} (hc : c ∈ d.partsBelow) {before after : List Tree}
    (h : t.parts = before ++ after) : after.count d ≤ after.count c := by
  -- On the length of what is left to look at, from the first `d` to the end of its parts.
  induction hlength : after.length using Nat.strongRecOn generalizing before after with
  | ind length ih =>
      by_cases hd : d ∈ after
      · obtain ⟨first, _, rfl, hfirst⟩ := List.eq_append_cons_of_mem hd
        rw [← List.append_assoc] at h
        obtain ⟨rest, rfl⟩ := after_eq_append h
        rw [← List.cons_append, ← List.append_assoc] at h
        have hshorter : rest.length < length := by
          rw [← hlength]
          simp only [List.length_append, List.length_cons]
          omega
        have hrest : rest.count d ≤ rest.count c := ih rest.length hshorter h rfl
        have hpos : 0 < d.partsBelow.count c := List.count_pos_iff.2 hc
        have hself := List.count_eq_zero.2 d.not_mem_partsBelow_self
        have hcons : (d :: (d.partsBelow ++ rest)).count c ≥ (d.partsBelow ++ rest).count c :=
          List.count_le_count_cons
        simp only [List.count_append, List.count_cons_self, List.count_eq_zero.2 hfirst, hself]
          at hcons ⊢
        omega
      · rw [List.count_eq_zero.2 hd]
        exact Nat.zero_le _

/-- `c` occurs more often than every tree around it. The pass binds no other trees. -/
def Prevalent (c t : Tree) : Prop :=
  ∀ d, c ∈ d.partsBelow → t.parts.count d < t.parts.count c

theorem FirstRepeat.prevalent {p t : Tree} {before after : List Tree}
    (h : FirstRepeat p t before after) : Prevalent p t := by
  intro d hpd
  have hone := h.one_lt
  by_cases hd : 1 < t.parts.count d
  · -- All copies of `d` stand behind the first `p`, and each of them holds another `p`.
    have hbefore := h.not_mem_before (isLeaf_eq_of_mem_partsBelow hpd) hd
    have hne : p ≠ d := by
      rintro rfl
      exact p.not_mem_partsBelow_self hpd
    have hsplit : t.parts = (before ++ [p]) ++ after := by
      rw [h.parts_eq, List.append_assoc, List.singleton_append]
    have hafter := count_le_of_mem_partsBelow hpd hsplit
    rw [h.parts_eq, List.count_append, List.count_append, List.count_eq_zero.2 hbefore,
      List.count_cons_of_ne hne, List.count_cons_self]
    omega
  · omega

theorem Prevalent.of_part {p t body d : Tree} {id : VarId} (h : Prevalent d p)
    (hstep : Extracts p id t body) (hp : Prevalent p t) (hleaf : d.isLeaf = false)
    (hd : d ∈ p.parts) : Prevalent d t := by
  intro e hde
  have hpos : 0 < p.parts.count d := List.count_pos_iff.2 hd
  have hdcount := hstep.count_eq hleaf (fun hx => hstep.part_fresh (mentions_of_mem_parts hd hx))
    fun hpd => p.not_mem_partsBelow_self (mem_partsBelow_trans hpd hd)
  have hle := Nat.le_mul_of_pos_right (t.parts.count p) hpos
  by_cases he : e ∈ t.parts
  · by_cases hpe : p ∈ e.partsBelow
    · have hlt := hp e hpe
      omega
    · have hecount := hstep.count_eq (isLeaf_eq_of_mem_partsBelow hde)
        (fun hx => hstep.fresh (mentions_of_mem_parts he hx)) hpe
      have hbody : body.parts.count e ≤ body.parts.count d :=
        count_le_of_mem_partsBelow hde (List.nil_append _).symm
      have hmul := Nat.mul_lt_mul_of_pos_left (h e hde) hstep.count_pos
      omega
  · have hzero := List.count_eq_zero.2 he
    have hppos := hstep.count_pos
    omega

theorem Prevalent.expand {p t body c : Tree} {id : VarId} (h : Prevalent c body)
    (hstep : Extracts p id t body) (hc : c ∈ body.parts) (hleaf : c.isLeaf = false)
    (hpart : expand id p c ∉ p.parts) : Prevalent (expand id p c) t := by
  have hpc := hstep.not_mem_partsBelow_of_mem hc
  have hccount := hstep.count_expand hleaf hc hpart
  intro e hce
  by_cases he : e ∈ t.parts
  · -- `e` comes from a tree of the body, and that is around `c`.
    rw [← hstep.expand_eq, parts_expand hstep.body_isLeaf] at he
    obtain ⟨x, hx, hex⟩ := List.mem_flatMap.1 he
    have hepart : e ∉ p.parts :=
      fun hep => hpart (mem_parts.2 (.inr (mem_partsBelow_trans hce hep)))
    obtain rfl := (mem_expandedParts hex).resolve_left hepart
    rw [partsBelow_expand] at hce
    obtain ⟨y, hy, hcy⟩ := List.mem_flatMap.1 hce
    have hpy := hstep.not_mem_partsBelow_of_mem (mem_parts.2 (.inr (mem_partsBelow_trans hy hx)))
    obtain rfl := expand_injective hpc hpy ((mem_expandedParts hcy).resolve_left hpart)
    rw [hccount, hstep.count_expand (isLeaf_eq_of_mem_partsBelow hy) hx hepart]
    exact h x hy
  · rw [List.count_eq_zero.2 he, hccount]
    exact List.count_pos_iff.2 hc

/-! ## Trees that are kept together -/

/-- What the pass finds before `b` does not come between its copies. -/
structure Enclosed (b t : Tree) : Prop where
  /-- It is no function. -/
  isFn_eq : ∀ c, c.isLeaf = false → 1 < t.parts.count c → ComesFirst c b t →
    c.resultType.isFn = false
  /-- If it may be bound and `b` stands in it, then all copies do. -/
  count_eq : ∀ c, 1 < t.parts.count c → Prevalent c t → ComesFirst c b t → b ∈ c.partsBelow →
    t.parts.count b = t.parts.count c * c.parts.count b

theorem Enclosed.part {p t body b : Tree} {id : VarId} {before after : List Tree}
    (h : Enclosed b t) (hstep : Extracts p id t body) (hfirst : FirstRepeat p t before after)
    (hbefore : b ∉ before) (hbody : body.parts.count b = 0)
    (hcount : t.parts.count b = t.parts.count p * p.parts.count b) : Enclosed b p where
  isFn_eq d hleaf hd hcomes := by
    have hmem := mem_parts_of_one_lt hd
    exact h.isFn_eq d hleaf (hstep.one_lt_count hfirst.one_lt hleaf hmem)
      (hcomes.of_part hfirst hbefore)
  count_eq d hd hprevalent hcomes hbd := by
    have hmem := mem_parts_of_one_lt hd
    have hleaf := isLeaf_eq_of_mem_partsBelow hbd
    have hdt : ¬d.Mentions id := fun hx => hstep.part_fresh (mentions_of_mem_parts hmem hx)
    have hpd : p ∉ d.partsBelow :=
      fun hpd => p.not_mem_partsBelow_self (mem_partsBelow_trans hpd hmem)
    have hdbody : body.parts.count d = 0 := by
      refine List.count_eq_zero.2 fun hdbody => List.count_eq_zero.1 hbody ?_
      exact mem_parts.2 (.inr (mem_partsBelow_trans hbd hdbody))
    have hdcount := hstep.count_eq hleaf hdt hpd
    rw [hdbody, Nat.zero_add] at hdcount
    have hall := h.count_eq d (hstep.one_lt_count hfirst.one_lt hleaf hmem)
      (hprevalent.of_part hstep hfirst.prevalent hleaf hmem) (hcomes.of_part hfirst hbefore) hbd
    rw [hcount, hdcount, Nat.mul_assoc] at hall
    exact Nat.eq_of_mul_eq_mul_left hstep.count_pos hall

theorem Enclosed.body {p t body b : Tree} {id : VarId} (h : Enclosed b t)
    (hstep : Extracts p id t body) (hleaf : b.isLeaf = false) (hb : ¬b.Mentions id)
    (hpart : b ∉ p.parts) (hpb : p ∉ b.partsBelow) : Enclosed b body where
  isFn_eq c hcleaf hc hcomes := by
    have hmem := mem_parts_of_one_lt hc
    rw [← resultType_expand id p c]
    exact h.isFn_eq _ (by rwa [isLeaf_expand]) (hstep.one_lt_count_expand hcleaf hc)
      (hcomes.expand hstep hcleaf hb hpart hpb)
  count_eq c hc hprevalent hcomes hbc := by
    have hcleaf := isLeaf_eq_of_mem_partsBelow hbc
    have hmem := mem_parts_of_one_lt hc
    have hpc := hstep.not_mem_partsBelow_of_mem hmem
    have hbself : expand id p b = b := Extracts.expand_of_not_mentions hb
    have hbexpand : b ∈ (expand id p c).partsBelow := by
      have hmem := mem_partsBelow_expand id p hleaf hbc
      rwa [hbself] at hmem
    have hcpart : expand id p c ∉ p.parts :=
      fun hcp => hpart (mem_parts.2 (.inr (mem_partsBelow_trans hbexpand hcp)))
    have hcountc := hstep.count_expand hcleaf hmem hcpart
    have hcountb := Extracts.count_expand_eq (w := body) hleaf hpb hstep.body_isLeaf
      hstep.not_mem_partsBelow (hbself.symm ▸ hpart)
    have hcountbc := Extracts.count_expand_eq (w := c) hleaf hpb hcleaf hpc (hbself.symm ▸ hpart)
    rw [hstep.expand_eq, hbself] at hcountb
    rw [hbself] at hcountbc
    have hall := h.count_eq (expand id p c) (hstep.one_lt_count_expand hcleaf hc)
      (hprevalent.expand hstep hmem hcleaf hcpart) (hcomes.expand hstep hcleaf hb hpart hpb)
      hbexpand
    rwa [hcountb, hcountc, hcountbc] at hall

/-! ## Runs -/

theorem count_parts_bindTree {b : Tree} (hb : b.isFirstOrder = true) (types : LetTypes)
    (id : VarId) (bound body : Tree) :
    (types.bindTree id bound body).parts.count b = bound.parts.count b + body.parts.count b := by
  have hparts : (types.bindTree id bound body).parts =
      types.bindTree id bound body :: (bound.parts
        ++ node (leaf (.lambda id types.bound types.body)) body :: body.parts) := rfl
  have hlet : types.bindTree id bound body ≠ b := by
    rintro rfl
    cases hb
  have hlambda : node (leaf (.lambda id types.bound types.body)) body ≠ b := by
    rintro rfl
    cases hb
  rw [hparts, List.count_cons_of_ne hlet, List.count_append, List.count_cons_of_ne hlambda]

theorem MentionsBelow.of_mem_parts {t p : Tree} {next : VarId} (h : t.MentionsBelow next)
    (hp : p ∈ t.parts) : p.MentionsBelow next :=
  fun x hx => h x (mentions_of_mem_parts hp hx)

theorem MentionsBelow.not_mentions {t : Tree} {next id : VarId} (h : t.MentionsBelow next)
    (hid : next ≤ id) : ¬t.Mentions id :=
  fun hmentions => Nat.not_lt_of_le hid (h id hmentions)

theorem Plain.arg {f x : Tree} (hfits : (node f x).Fits) (hfirst : (node f x).isFirstOrder = true) :
    x.Plain :=
  ⟨hfits.2.1, hfits.2.2.1, (isFirstOrder_node.1 hfirst).2⟩

theorem FirstRepeat.extracts {p t body : Tree} {before after : List Tree} {next id : VarId}
    (h : FirstRepeat p t before after) (ht : t.Plain) (hbelow : t.MentionsBelow next)
    (hid : next ≤ id) (hbody : Replaces p id t body) : Extracts p id t body :=
  .of_repeated hbody ht.isFirstOrder (hbelow.not_mentions hid) h.isLeaf h.one_lt

mutual

theorem Hoists.eq_of_isFirstOrder {policy : SharePolicy} : {next : VarId} → {t t' : Tree} →
    {n : Nat} → Hoists policy next t n t' → t'.isFirstOrder = true → t' = t
  | _, _, _, _, .args _ h, hfirst => h.eq_of_isFirstOrder hfirst
  | _, _, _, _, .share _ _ _ _ _, hfirst => by cases hfirst

theorem HoistsArgs.eq_of_isFirstOrder {policy : SharePolicy} : {next : VarId} → {t t' : Tree} →
    {n : Nat} → HoistsArgs policy next t n t' → t'.isFirstOrder = true → t' = t
  | _, _, _, _, .leaf s, _ => rfl
  | _, _, _, _, .node hf hx, hfirst => by
      obtain ⟨hffirst, hxfirst⟩ := isFirstOrder_node.1 hfirst
      rw [hf.eq_of_isFirstOrder hffirst, hx.eq_of_isFirstOrder hxfirst]

end

mutual

theorem Hoists.count_le {policy : SharePolicy} : {next : VarId} → {t t' : Tree} → {n : Nat} →
    Hoists policy next t n t' → t.Plain → t.MentionsBelow next → {b : Tree} →
    b.isFirstOrder = true → b.isLeaf = false → b.MentionsBelow next →
    t'.parts.count b ≤ t.parts.count b
  | next, t, t', _, .args _ h, ht, hbelow, b, hb, hleaf, hbbelow => by
      by_cases htb : t' = b
      · exact Nat.le_of_eq (by rw [h.eq_of_isFirstOrder (htb ▸ hb)])
      · calc t'.parts.count b
            = t'.partsBelow.count b := List.count_cons_of_ne htb
          _ ≤ t.partsBelow.count b := h.count_le ht.fits ht.isFirstOrder hbelow hb hleaf hbbelow
          _ ≤ t.parts.count b := List.count_le_count_cons
  | next, _, _, _, .share (m := m) hshare _ hbound hbody hrest, ht, hbelow, b, hb, hleaf,
      hbbelow => by
      obtain ⟨before, after, hfirst⟩ := ht.firstRepeat hshare
      have hid : next ≤ next + m := Nat.le_add_right next m
      have hstep := hfirst.extracts ht hbelow hid hbody
      have hboundle := hbound.count_le (ht.of_mem_parts hfirst.mem)
        (hbelow.of_mem_parts hfirst.mem) hb hleaf hbbelow
      have hrestle := hrest.count_le (ht.of_replaces hbody) (hbody.mentionsBelow hbelow hid) hb
        hleaf (hbbelow.mono (Nat.le_succ_of_le hid))
      rw [count_parts_bindTree hb]
      exact Nat.le_trans (Nat.add_le_add hboundle hrestle)
        (hstep.count_add_le hleaf (hbbelow.not_mentions hid))

theorem HoistsArgs.count_le {policy : SharePolicy} : {next : VarId} → {t t' : Tree} → {n : Nat} →
    HoistsArgs policy next t n t' → t.Fits → t.isFirstOrder = true → t.MentionsBelow next →
    {b : Tree} → b.isFirstOrder = true → b.isLeaf = false → b.MentionsBelow next →
    t'.partsBelow.count b ≤ t.partsBelow.count b
  | _, _, _, _, .leaf s, _, _, _, _, _, _, _ => Nat.le_refl _
  | next, .node f x, .node f' x', _, .node (m := m) hf hx, hfits, hfirst, hbelow, b, hb, hleaf,
      hbbelow => by
      have hnext : next ≤ next + m := Nat.le_add_right next m
      have hfle := hf.count_le hfits.1 (isFirstOrder_node.1 hfirst).1 hbelow.func hb hleaf hbbelow
      have hxle := hx.count_le (.arg hfits hfirst) (hbelow.arg.mono hnext) hb hleaf
        (hbbelow.mono hnext)
      rw [partsBelow, partsBelow, List.count_append, List.count_append]
      exact Nat.add_le_add hfle hxle

end

mutual

theorem Hoists.eq_self {policy : SharePolicy} : {next : VarId} → {t t' : Tree} → {n : Nat} →
    Hoists policy next t n t' → t.Plain → t.NoRepeats → t' = t
  | _, _, _, _, .args _ h, ht, hrepeats => by
      refine h.eq_self ht.fits ht.isFirstOrder fun c hc => Nat.le_trans ?_ (hrepeats c hc)
      exact List.count_le_count_cons
  | _, _, _, _, .share hshare _ _ _ _, ht, hrepeats => by
      obtain ⟨_, _, hfirst⟩ := ht.firstRepeat hshare
      exact absurd (hrepeats _ hfirst.isLeaf) (Nat.not_le_of_lt hfirst.one_lt)

theorem HoistsArgs.eq_self {policy : SharePolicy} : {next : VarId} → {t t' : Tree} → {n : Nat} →
    HoistsArgs policy next t n t' → t.Fits → t.isFirstOrder = true →
    (∀ c : Tree, c.isLeaf = false → t.partsBelow.count c ≤ 1) → t' = t
  | _, _, _, _, .leaf s, _, _, _ => rfl
  | _, _, _, _, .node (f := f) (x := x) hf hx, hfits, hfirst, hrepeats => by
      have hboth : ∀ c : Tree, c.isLeaf = false → f.partsBelow.count c + x.parts.count c ≤ 1 := by
        intro c hc
        rw [← List.count_append]
        exact hrepeats c hc
      rw [hf.eq_self hfits.1 (isFirstOrder_node.1 hfirst).1
          fun c hc => Nat.le_trans (Nat.le_add_right _ _) (hboth c hc),
        hx.eq_self (.arg hfits hfirst)
          fun c hc => Nat.le_trans (Nat.le_add_left _ _) (hboth c hc)]

end

/-- The tree cut at its bindings: what they bind and what they are around, cut in turn. -/
def pieces : Tree → List Tree
  | node (node (leaf (.letIn _ _)) bound) (node (leaf (.lambda _ _ _)) body) =>
      bound.pieces ++ body.pieces
  | t => [t]

theorem pieces_bindTree (types : LetTypes) (id : VarId) (bound body : Tree) :
    (types.bindTree id bound body).pieces = bound.pieces ++ body.pieces := by
  rw [LetTypes.bindTree, pieces]

/-- Functions occur once, except for single symbols. -/
def NoRepeatedFunctions (t : Tree) : Prop :=
  ∀ c : Tree, c.isLeaf = false → 1 < t.parts.count c → c.resultType.isFn = false

theorem NoRepeatedFunctions.part {p t body : Tree} {id : VarId} (h : t.NoRepeatedFunctions)
    (hstep : Extracts p id t body) (hcount : 1 < t.parts.count p) : p.NoRepeatedFunctions := by
  intro c hleaf hc
  have hmem := mem_parts_of_one_lt hc
  exact h c hleaf (hstep.one_lt_count hcount hleaf hmem)

theorem NoRepeatedFunctions.body {p t body : Tree} {id : VarId} (h : t.NoRepeatedFunctions)
    (hstep : Extracts p id t body) : body.NoRepeatedFunctions := by
  intro c hleaf hc
  rw [← resultType_expand id p c]
  exact h _ (by rwa [isLeaf_expand]) (hstep.one_lt_count_expand hleaf hc)

structure Shared (t : Tree) : Prop where
  isFirstOrder : ∀ piece ∈ t.pieces, piece.isFirstOrder = true
  noRepeats : ∀ piece ∈ t.pieces, piece.NoRepeats
  count_eq : ∀ b : Tree, b.isFirstOrder = true → b.isLeaf = false →
    t.parts.count b = t.pieces.countP (0 < ·.parts.count b)

theorem Shared.bindTree {bound body : Tree} (hbound : bound.Shared) (hbody : body.Shared)
    (types : LetTypes) (id : VarId) : (types.bindTree id bound body).Shared := by
  have hpieces := pieces_bindTree types id bound body
  refine ⟨?_, ?_, fun b hb hleaf => ?_⟩
  · rw [hpieces, List.forall_mem_append]
    exact ⟨hbound.isFirstOrder, hbody.isFirstOrder⟩
  · rw [hpieces, List.forall_mem_append]
    exact ⟨hbound.noRepeats, hbody.noRepeats⟩
  · rw [hpieces, List.countP_append, count_parts_bindTree hb, hbound.count_eq b hb hleaf,
      hbody.count_eq b hb hleaf]

end Tree

end ExprTree

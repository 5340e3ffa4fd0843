import ExprTree.Symbol
/-!
# Sets of variables

A finite set of variable ids, kept as its increasing list, so that sets with
the same members are equal.
-/

namespace ExprTree

namespace VarSet

/-- Put `id` into its place in an increasing list. -/
def insertId (id : VarId) : List VarId → List VarId
  | [] => [id]
  | x :: xs =>
      if id < x then id :: x :: xs
      else if id = x then x :: xs
      else x :: insertId id xs

theorem mem_insertId {id y : VarId} {xs : List VarId} :
    y ∈ insertId id xs ↔ y = id ∨ y ∈ xs := by
  induction xs with
  | nil => simp [insertId]
  | cons x xs ih =>
      unfold insertId
      split
      · simp
      · split
        · rename_i h
          simp [h]
        · simp only [List.mem_cons, ih]
          exact ⟨by rintro (h | h | h) <;> simp [h], by rintro (h | h | h) <;> simp [h]⟩

theorem pairwise_insertId {id : VarId} {xs : List VarId} (h : xs.Pairwise (· < ·)) :
    (insertId id xs).Pairwise (· < ·) := by
  induction xs with
  | nil => simp [insertId]
  | cons x xs ih =>
      obtain ⟨hx, hxs⟩ := List.pairwise_cons.1 h
      unfold insertId
      split
      · rename_i hlt
        refine List.pairwise_cons.2 ⟨fun y hy => ?_, h⟩
        rcases List.mem_cons.1 hy with rfl | hy
        · exact hlt
        · exact Nat.lt_trans hlt (hx y hy)
      · split
        · exact h
        · rename_i hge hne
          refine List.pairwise_cons.2 ⟨fun y hy => ?_, ih hxs⟩
          rcases mem_insertId.1 hy with rfl | hy
          · exact Nat.lt_of_le_of_ne (Nat.le_of_not_lt hge) (Ne.symm hne)
          · exact hx y hy

theorem pairwise_foldr_insertId {xs ys : List VarId} (h : ys.Pairwise (· < ·)) :
    (xs.foldr insertId ys).Pairwise (· < ·) := by
  induction xs with
  | nil => exact h
  | cons x xs ih => exact pairwise_insertId ih

end VarSet

structure VarSet where
  /-- The members, in increasing order. -/
  ids : List VarId
  increasing : ids.Pairwise (· < ·)
deriving DecidableEq

namespace VarSet

def empty : VarSet := ⟨[], .nil⟩

instance : Inhabited VarSet := ⟨empty⟩

instance : Membership VarId VarSet := ⟨fun s id => id ∈ s.ids⟩

instance (id : VarId) (s : VarSet) : Decidable (id ∈ s) :=
  inferInstanceAs (Decidable (id ∈ s.ids))

def isEmpty (s : VarSet) : Bool :=
  s.ids.isEmpty

def singleton (id : VarId) : VarSet := ⟨[id], by simp⟩

def insert (s : VarSet) (id : VarId) : VarSet :=
  ⟨insertId id s.ids, pairwise_insertId s.increasing⟩

def erase (s : VarSet) (id : VarId) : VarSet :=
  ⟨s.ids.filter (· ≠ id), s.increasing.filter _⟩

def union (s t : VarSet) : VarSet :=
  ⟨s.ids.foldr insertId t.ids, pairwise_foldr_insertId t.increasing⟩

instance : Union VarSet := ⟨union⟩

def ofList (ids : List VarId) : VarSet :=
  ⟨ids.foldr insertId [], pairwise_foldr_insertId .nil⟩

/-! ## Membership -/

theorem mem_foldr_insertId {xs ys : List VarId} {y : VarId} :
    y ∈ xs.foldr insertId ys ↔ y ∈ xs ∨ y ∈ ys := by
  induction xs with
  | nil => simp
  | cons x xs ih => simp [mem_insertId, ih, or_assoc]

@[simp] theorem not_mem_empty (x : VarId) : x ∉ empty :=
  List.not_mem_nil

@[simp] theorem mem_singleton {x id : VarId} : x ∈ singleton id ↔ x = id :=
  List.mem_singleton

@[simp] theorem mem_insert {x id : VarId} {s : VarSet} : x ∈ s.insert id ↔ x = id ∨ x ∈ s :=
  mem_insertId

@[simp] theorem mem_erase {x id : VarId} {s : VarSet} : x ∈ s.erase id ↔ x ∈ s ∧ x ≠ id := by
  show x ∈ s.ids.filter (· ≠ id) ↔ x ∈ s.ids ∧ x ≠ id
  simp

@[simp] theorem mem_union {x : VarId} {s t : VarSet} : x ∈ s ∪ t ↔ x ∈ s ∨ x ∈ t :=
  mem_foldr_insertId

@[simp] theorem mem_ofList {x : VarId} {ids : List VarId} : x ∈ ofList ids ↔ x ∈ ids := by
  show x ∈ ids.foldr insertId [] ↔ x ∈ ids
  simp [mem_foldr_insertId]

theorem isEmpty_iff {s : VarSet} : s.isEmpty = true ↔ ∀ x, x ∉ s := by
  obtain ⟨ids, _⟩ := s
  show ids.isEmpty = true ↔ ∀ x, x ∉ ids
  cases ids with
  | nil => simp
  | cons y ys => simpa using ⟨y, by simp⟩

theorem ext {s t : VarSet} (h : ∀ x, x ∈ s ↔ x ∈ t) : s = t := by
  obtain ⟨xs, hxs⟩ := s
  obtain ⟨ys, hys⟩ := t
  have hperm : xs.Perm ys := (List.perm_ext_iff_of_nodup (hxs.imp Nat.ne_of_lt)
    (hys.imp Nat.ne_of_lt)).2 h
  have hids : xs = ys :=
    List.Perm.eq_of_pairwise (fun x y _ _ hxy hyx => absurd hxy (Nat.lt_asymm hyx)) hxs hys hperm
  subst hids
  rfl

end VarSet

end ExprTree

import ExprTree.Proofs.FoldingFixpoint
/-!
# What a change is worth

Folding counts the expressions it computes, the branches it drops and the
branches it merges, also inside tests and branches that are dropped later. Each
of these changes removes a symbol at least, which no other change removes, and
nothing is changed without being counted.
-/

namespace ExprTree

/-! ## Computed leaves -/

theorem FoldRules.literal?_of_value?_leaf {rules : FoldRules} {s : Symbol} {v : Value}
    (h : rules.value? (.leaf s) = .ok (some v)) : v.literal? = some s := by
  unfold value? evalClosed at h
  cases hfuel : rules.fuel with
  | zero =>
      rw [hfuel] at h
      cases h
  | succ fuel =>
      rw [hfuel] at h
      cases s with
      | int n =>
          obtain rfl : Value.int n = v := Option.some.inj (Except.ok.inj h)
          rfl
      | bool b =>
          obtain rfl : Value.bool b = v := Option.some.inj (Except.ok.inj h)
          rfl
      | _ => cases h

/-! ## One step -/

/-- The changes are paid for by the symbols that are gone, and without any the tree is the same. -/
structure Folded.PaidBy (t : Tree) (folded : Folded) : Prop where
  size_add_le : folded.tree.size + folded.changes ≤ t.size
  eq_of_none : folded.changes = 0 → folded.tree = t

theorem Folded.PaidBy.changes_eq_zero_iff {t : Tree} {folded : Folded} (h : folded.PaidBy t) :
    folded.changes = 0 ↔ folded.tree = t := by
  constructor
  · exact h.eq_of_none
  · intro heq
    have hsize := h.size_add_le
    rw [heq] at hsize
    omega

namespace FoldRules

variable {rules : FoldRules}

theorem Rebuilds.paidBy {t u : Tree} {vars : VarSet} {k : Nat} (h : rules.Rebuilds t u vars k)
    (hargs : ∀ a ∈ t.args, ∀ a', a.fold rules = .ok a' → a'.PaidBy a) :
    Folded.PaidBy t ⟨u, vars, k⟩ := by
  induction h with
  | leaf s => exact ⟨Nat.le_refl _, fun _ => rfl⟩
  | @node f f' x u vars k x' hf hx hu ih =>
      obtain rfl := Tree.eq_of_reapply hu
      obtain ⟨hfsize, hfeq⟩ := ih fun a ha => hargs a (List.mem_append.2 (.inl ha))
      obtain ⟨hxsize, hxeq⟩ := hargs x (by simp [Tree.args]) x' hx
      refine ⟨?_, fun hk => ?_⟩
      · simp only [Tree.size_node] at hfsize ⊢
        omega
      · have hk' : k + x'.changes = 0 := hk
        have hf' : f' = f := hfeq (show k = 0 by omega)
        rw [hf', hxeq (by omega)]

/-- A computed application becomes a literal, which is smaller; a computed leaf is one already. -/
theorem Finishes.paidBy (hfolder : rules.folder.PutsLiterals) {t u r : Tree} {vars : VarSet}
    {i j : Nat} (h : rules.Finishes u vars r j) (hu : Folded.PaidBy t ⟨u, vars, i⟩) :
    Folded.PaidBy t ⟨r, vars, i + j⟩ := by
  cases h with
  | free => exact hu
  | failing => exact hu
  | kept => exact hu
  | @computed v _ hempty hv hput =>
      rcases hfolder u v with hkeep | ⟨s, hs, hlit⟩
      · simp [hkeep] at hput
      · obtain rfl : .leaf s = r := Option.some.inj (hlit.symm.trans hput)
        cases u with
        | leaf s' =>
            obtain rfl : s' = s := Option.some.inj ((literal?_of_value?_leaf hv).symm.trans hs)
            exact hu
        | node f x =>
            have hfpos := f.size_pos
            have hxpos := x.size_pos
            have hsize := hu.size_add_le
            refine ⟨?_, fun hnone => ?_⟩
            · simp only [Tree.size_node] at hsize
              simp only [Tree.size_leaf, Tree.isLeaf, Bool.false_eq_true, if_false]
              omega
            · simp [Tree.isLeaf] at hnone

end FoldRules

/-! ## Results -/

theorem Tree.fold_paidBy {rules : FoldRules} (hfolder : rules.folder.PutsLiterals) {t : Tree}
    {folded : Folded} (h : t.fold rules = .ok folded) : folded.PaidBy t := by
  induction t using Tree.induction_args generalizing folded with
  | h t ih =>
  have hargs : ∀ a ∈ t.args, ∀ a', a.fold rules = .ok a' → a'.PaidBy a :=
    fun a ha a' ha' => ih a ha ha'
  cases fold_eq_ok_iff.1 h with
  | var id ty => exact ⟨Nat.le_refl _, fun _ => rfl⟩
  | @function id arg result body u body' hbody hu =>
      obtain rfl := eq_of_reapply hu
      obtain ⟨hsize, heq⟩ := hargs body (by simp [args]) body' hbody
      refine ⟨?_, fun hnone => ?_⟩
      · simp only [size_node]
        omega
      · have hbody' : body'.tree = body := heq hnone
        rw [hbody']
  | @picked ty test a b c test' c' ht hpick hc =>
      have htest := (hargs test (by simp [args]) test' ht).size_add_le
      have hbranch := (hargs c hpick.mem_args c' hc).size_add_le
      have hpos := test'.tree.size_pos
      have hpicked : c.size ≤ a.size + b.size := by
        cases hpick with
        | decided taken => cases taken <;> simp
        | equal => simp
      refine ⟨?_, fun hnone => ?_⟩
      · simp only [size_node, size_leaf]
        omega
      · have hcount : test'.changes + (1 + c'.changes) = 0 := hnone
        omega
  | @merged ty test a b test' a' b' ht hdec hne ha hb heq =>
      have htest := (hargs test (by simp [args]) test' ht).size_add_le
      have hthen := (hargs a (by simp [args]) a' ha).size_add_le
      have helse := (hargs b (by simp [args]) b' hb).size_add_le
      have htestpos := test'.tree.size_pos
      have helsepos := b'.tree.size_pos
      refine ⟨?_, fun hnone => ?_⟩
      · simp only [size_node, size_leaf]
        omega
      · have hcount : test'.changes + (a'.changes + (b'.changes + 1)) = 0 := hnone
        omega
  | choice ht hdec hne ha hb hne' hu hr => exact hr.paidBy hfolder (hu.paidBy hargs)
  | plain hplain hu hr => exact hr.paidBy hfolder (hu.paidBy hargs)

/-- Whatever the count was before, a run adds to it no more than the number of symbols it removes,
and it adds nothing exactly if it gives back the tree. -/
theorem FoldRules.fold_changes_paid {rules : FoldRules} (hfolder : rules.folder.PutsLiterals)
    {t r : Tree} {vars : VarSet} {count count' : Nat}
    (h : (rules.fold t).run count = .ok ((r, vars), count')) :
    ∃ k, count' = count + k ∧ r.size + k ≤ t.size ∧ (k = 0 ↔ r = t) := by
  obtain ⟨k, hk, hyields⟩ := rules.fold_counts t h
  have hfold : t.fold rules = .ok ⟨r, vars, k⟩ := fold_yields_iff.1 hyields
  have hpaid := Tree.fold_paidBy hfolder hfold
  exact ⟨k, hk, hpaid.size_add_le, hpaid.changes_eq_zero_iff⟩

private def decidedSum : Tree :=
  .choice .int (.node (.node (.leaf (.compare .lt)) (.leaf (.int 1))) (.leaf (.int 2)))
    (.node
      (.node (.leaf (.arith .add))
        (.node (.node (.leaf (.arith .mul)) (.leaf (.int 2))) (.leaf (.int 3))))
      (.leaf (.var 0 .int)))
    (.leaf (.int 0))

theorem FoldRules.fold_changes_paid_decidedSum :
    ∃ r, (fold ⟨.standard, .literal, 2⟩ decidedSum).run 4 = .ok ((r, .singleton 0), 7)
      ∧ decidedSum.size = 10 ∧ r.size = 3
      ∧ ∃ k, 7 = 4 + k ∧ r.size + k ≤ decidedSum.size ∧ (k = 0 ↔ r = decidedSum) :=
  ⟨_, rfl, rfl, rfl, fold_changes_paid Folder.literal_putsLiterals
    (show (fold ⟨.standard, .literal, 2⟩ decidedSum).run 4 = _ from rfl)⟩

end ExprTree

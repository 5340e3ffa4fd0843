import ExprTree.Proofs.CodeMotion
import ExprTree.Proofs.CodeMotionTypes
import ExprTree.Proofs.FreshVariables
/-!
# The size of what code motion gives

Every binding that code motion makes costs three symbols, and it makes fewer
bindings than there are symbols in the tree. So sizes and new variables stay in
the range of machine words unless the tree or its variables come near the end of
it. Where no binding is made, the tree is left as it was, and only there.
-/

namespace ExprTree

namespace Tree

/-! ## Runs without bindings -/

mutual

theorem Moves.eq_self : {next : VarId} → {t t' : Tree} → {n : Nat} → Moves next t n t' →
    n = 0 → t' = t
  | _, _, _, _, .args h, hn => h.eq_self hn
  | _, _, _, _, .share _ _ _ _ _ _, hn => by omega

theorem MovesArgs.eq_self : {next : VarId} → {t t' : Tree} → {n : Nat} → MovesArgs next t n t' →
    n = 0 → t' = t
  | _, _, _, _, .leaf s, _ => rfl
  | _, _, _, _, .node hf hx, hn => by rw [hf.eq_self (by omega), hx.eq_self (by omega)]

end

/-- A binding would show: its variable is bound nowhere in the tree. -/
theorem Moves.lets_eq_zero_iff {next : VarId} {t t' : Tree} {n : Nat} (h : Moves next t n t')
    (hbelow : t.MentionsBelow next) : n = 0 ↔ t' = t := by
  constructor
  · exact h.eq_self
  · rintro rfl
    have hbinders : ∀ x ∈ t'.binders, x < next :=
      fun x hx => hbelow x (mentions_of_mem_binders hx)
    have hnew := h.functions_eq (Nat.le_refl next) hbinders false
    have hold : (t'.functions false).filter (next ≤ ·.1) = [] := by
      refine List.filter_eq_nil_iff.2 fun e he => ?_
      simpa using hbinders e.1 (mem_binders_of_mem_functions he)
    have hlength := congrArg List.length (hnew.symm.trans hold)
    simpa using hlength

end Tree

/-! ## Results -/

structure Hoisted.GrowsFrom (t : Tree) (hoisted : Hoisted) : Prop where
  lets_of_small : t.size ≤ 2 → hoisted.lets = 0
  lets_le : 2 < t.size → hoisted.lets ≤ t.size - 2
  size_le : hoisted.tree.size ≤ t.size + 3 * hoisted.lets
  lets_eq_zero_iff : hoisted.lets = 0 ↔ hoisted.tree = t

theorem Tree.Moves.growsFrom {next : VarId} {t : Tree} {hoisted : Hoisted}
    (h : t.Moves next hoisted.lets hoisted.tree) (hbelow : t.MentionsBelow next) :
    hoisted.GrowsFrom t := by
  obtain ⟨hlets, hsize⟩ := h.size_le
  have hsmall : t.size ≤ 2 → hoisted.lets = 0 := fun _ => by omega
  exact ⟨hsmall, fun _ => hlets, hsize, h.lets_eq_zero_iff hbelow⟩

theorem Tree.hoistFrom_moves {policy : SharePolicy} (hpolicy : policy.FullOnly) {t : Tree}
    (hfits : t.Fits) (start : VarId) :
    Yields (t.Crowded start) (fun hoisted => t.Moves start hoisted.lets hoisted.tree)
      (t.hoistFrom ⟨.standard, policy⟩ start) := by
  cases hfull : t.isFull with
  | true => exact t.hoistFrom_yields hpolicy.ownTypes hfits hfull start
  | false =>
      exact (hoistFrom_of_partial hpolicy hfits hfull start).mono (fun h => h) fun _ h => .args h

/-- Code motion makes fewer bindings than there are symbols, and each of them adds at most three
symbols. Where four times the size and the last new variable are machine words, none runs out. -/
theorem Tree.hoistFrom_growsFrom {policy : SharePolicy} (hpolicy : policy.FullOnly) {t : Tree}
    (hbuilt : t.Built) (start : VarId) (hstart : t.MentionsBelow start) :
    (∀ hoisted, t.hoistFrom ⟨.standard, policy⟩ start = .ok hoisted → hoisted.GrowsFrom t)
      ∧ (4 * t.size < wordLimit → start + t.size ≤ wordLimit →
        ∃ hoisted, t.hoistFrom ⟨.standard, policy⟩ start = .ok hoisted) := by
  have hmoves := hoistFrom_moves hpolicy hbuilt.fits start
  constructor
  · intro hoisted hrun
    have h : t.Moves start hoisted.lets hoisted.tree := hmoves.of_ok hrun
    exact h.growsFrom hstart
  · intro hsize hvars
    have hroom : ¬t.Crowded start :=
      fun h => h.elim (Nat.not_le_of_lt hsize) (Nat.not_lt_of_le hvars)
    obtain ⟨hoisted, hrun, _⟩ := Yields.exists_ok hmoves hroom
    exact ⟨hoisted, hrun⟩

private def constantFunction : Tree :=
  .node (.leaf (.lambda 0 .int .bool)) (.node (.leaf .negation) (.leaf (.bool true)))

theorem Tree.hoistFrom_growsFrom_constantFunction :
    constantFunction.size = 3
      ∧ ∃ hoisted, constantFunction.hoistFrom ⟨.standard, .standard⟩ 1 = .ok hoisted
        ∧ hoisted.lets = 1 ∧ hoisted.tree.size = 6 ∧ hoisted.GrowsFrom constantFunction := by
  have hbelow : constantFunction.MentionsBelow 1 := mentionsBelow_of_firstUnused rfl
  obtain ⟨hgrows, hruns⟩ := Tree.hoistFrom_growsFrom SharePolicy.standard_fullOnly
    (show constantFunction.Built by decide) 1 hbelow
  obtain ⟨hoisted, hrun⟩ := hruns (by decide) (by decide)
  have hexact : constantFunction.hoistFrom ⟨.standard, .standard⟩ 1 = .ok ⟨_, 1, ⟨1⟩⟩ := rfl
  obtain rfl := Except.ok.inj (hrun.symm.trans hexact)
  exact ⟨rfl, _, hrun, rfl, rfl, hgrows _ hrun⟩

end ExprTree

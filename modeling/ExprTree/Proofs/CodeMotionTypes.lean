import ExprTree.Proofs.CodeMotion
import ExprTree.Proofs.FoldingTotal
/-!
# Types under code motion

Code motion finds the occurrences of a part up to the names of bound variables,
and nothing keeps a new variable from being captured if the supply starts below
the variables of the tree. All the same, each tree on the way has the type that
its place asks for, whatever types the references in it carry. A partial tree
cannot be bound around, so only its arguments change.
-/

namespace ExprTree

/-! ## Policies -/

/-- The policy refuses, or binds a full tree around a full tree with their own types. -/
def SharePolicy.FullOnly (policy : SharePolicy) : Prop :=
  ∀ bound body : Tree, policy bound body = none
    ∨ bound.isFull = true ∧ body.isFull = true
      ∧ policy bound body = some ⟨bound.resultType, body.resultType⟩

theorem SharePolicy.FullOnly.ownTypes {policy : SharePolicy} (h : policy.FullOnly) :
    policy.OwnTypes :=
  fun bound body _ _ => (h bound body).imp_right fun hbinds => hbinds.2.2

theorem SharePolicy.FullOnly.refuses {policy : SharePolicy} (h : policy.FullOnly) {body : Tree}
    (hpartial : body.isFull = false) (bound : Tree) : policy bound body = none := by
  rcases h bound body with hrefuse | ⟨_, hfull, _⟩
  · exact hrefuse
  · cases hpartial.symm.trans hfull

theorem SharePolicy.standard_fullOnly : SharePolicy.standard.FullOnly := by
  intro bound body
  unfold SharePolicy.standard
  split
  case isTrue hbinds =>
    simp only [Bool.and_eq_true] at hbinds
    exact .inr ⟨hbinds.1.1, hbinds.1.2, rfl⟩
  case isFalse => exact .inl rfl

/-! ## Partial trees -/

theorem HoistRules.hoist_of_refused {rules : HoistRules} {t : Tree}
    (h : ∀ bound, rules.policy bound t = none) (fuel : Nat) :
    rules.hoist (fuel + 1) t = HoistM.onArgs (rules.hoist fuel) t := by
  rw [HoistRules.hoist]
  split
  · rfl
  · rw [h]

theorem Tree.hoistFrom_of_partial {policy : SharePolicy} (hpolicy : policy.FullOnly) {t : Tree}
    (hfits : t.Fits) (hpartial : t.isFull = false) (start : VarId) :
    Yields (t.Crowded start) (fun hoisted => t.MovesArgs start hoisted.lets hoisted.tree)
      (t.hoistFrom ⟨.standard, policy⟩ start) := by
  obtain ⟨fuel, hfuel⟩ : ∃ fuel, t.size = fuel + 1 :=
    Nat.exists_eq_add_one_of_ne_zero (Nat.ne_of_gt t.size_pos)
  have hrun : HoistRules.hoist ⟨.standard, policy⟩ t.size t =
      HoistM.onArgs (HoistRules.hoist ⟨.standard, policy⟩ fuel) t := by
    rw [hfuel]
    exact HoistRules.hoist_of_refused (hpolicy.refuses hpartial) fuel
  have hstep : ∀ x : Tree, x.size < t.size → x.Fits → x.isFull = true →
      HoistM.HoistsIn policy x (HoistRules.hoist ⟨.standard, policy⟩ fuel x) :=
    fun x hx => HoistRules.hoist_hoistsIn hpolicy.ownTypes fuel (by omega)
  have hargs := HoistM.onArgs_yields hstep (Nat.le_refl t.size) hfits ⟨⟨start⟩, 0, ⟨0⟩⟩
  rw [← hrun] at hargs
  simp only [Nat.max_zero] at hargs
  refine hargs.bind ?_
  rintro ⟨tree, _⟩ ⟨n, hhoists, rfl⟩
  show t.MovesArgs start (0 + n) tree
  rw [Nat.zero_add]
  exact hhoists.moves

/-! ## Results -/

/-- Code motion gives a tree of the same type, full or partial, in which everything is put
together as it fits; it fails only where machine words run out. Neither the annotations of the tree
nor the names of the new variables matter. -/
theorem Tree.hoistFrom_sameType {policy : SharePolicy} (hpolicy : policy.FullOnly) {t : Tree}
    (hbuilt : t.Built) (start : VarId) :
    Yields (t.Crowded start) (fun hoisted => hoisted.tree.Fits ∧ t.SameType hoisted.tree)
      (t.hoistFrom ⟨.standard, policy⟩ start) := by
  cases hfull : t.isFull with
  | true =>
      refine (t.hoistFrom_yields hpolicy.ownTypes hbuilt.fits hfull start).mono (fun h => h) ?_
      intro hoisted hmoves
      exact ⟨hmoves.fits hbuilt.fits hfull, (hmoves.isFull hfull).trans hfull.symm,
        hmoves.resultType_eq⟩
  | false =>
      refine (hoistFrom_of_partial hpolicy hbuilt.fits hfull start).mono (fun h => h) ?_
      intro hoisted hmoves
      exact ⟨hmoves.fits hbuilt.fits, hmoves.sameSpine.sameType⟩

private def waitingSum : Tree :=
  let next : Tree := .node (.node (.leaf (.arith .add)) (.leaf (.var 0 .int))) (.leaf (.int 1))
  .node (.leaf (.arith .add))
    (.node
      (.node (.leaf (.call .bool .int))
        (.node (.leaf (.lambda 0 .bool .int)) (.node (.node (.leaf (.arith .mul)) next) next)))
      (.leaf (.bool true)))

theorem Tree.hoistFrom_sameType_waitingSum :
    waitingSum.isFull = false ∧ ¬waitingSum.BindersAgree .empty
      ∧ ∃ hoisted, waitingSum.hoistFrom ⟨.standard, .standard⟩ 0 = .ok hoisted ∧ hoisted.lets = 1
        ∧ hoisted.tree.Fits ∧ waitingSum.SameType hoisted.tree := by
  have h := Tree.hoistFrom_sameType SharePolicy.standard_fullOnly
    (show waitingSum.Built by decide) 0
  exact ⟨rfl, by decide, ⟨_, 1, ⟨1⟩⟩, rfl, rfl, h⟩

end ExprTree

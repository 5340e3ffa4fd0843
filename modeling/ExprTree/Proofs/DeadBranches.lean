import ExprTree.Proofs.ClosedPrograms
import ExprTree.Proofs.FoldingTotal
/-!
# Dead branches

A condition with a closed test that has a truth value is folded as the branch
that this value selects. The rule for conditions looks at the folded test and
not at the test itself, so what counts is that folding leaves a closed test
closed and keeps its value, whatever is put for the parts inside it. The other
branch is never looked at.
-/

namespace ExprTree

namespace FoldRules

variable {folder : Folder} {t test a b : Tree}

theorem FoldsWell.gives (h : FoldsWell folder t) {folded : Folded}
    (hdet : Determines (fun fuel => t.fold ⟨.standard, folder, fuel⟩) folded) :
    FoldM.Gives (fun fuel => fold ⟨.standard, folder, fuel⟩ t)
      (· = (folded.tree, folded.vars)) := by
  refine (h.and_of_run fun fuel count p count' hrun => ?_).mono fun p hp => hp.2
  obtain ⟨k, _, hyields⟩ := fold_counts _ t hrun
  have hfold : t.fold ⟨.standard, folder, fuel⟩ = .ok ⟨p.1, p.2, k⟩ := fold_yields_iff.1 hyields
  rw [← hdet.eq_of_ok hfold]

theorem decided?_of_value? {vars : VarSet} (hempty : vars.isEmpty = true) {p : Bool}
    (hvalue : Determines (fun fuel => value? ⟨.standard, folder, fuel⟩ test) (some (.bool p))) :
    Determines (fun fuel => decided? ⟨.standard, folder, fuel⟩ test vars) (some p) := by
  unfold decided?
  simp only [hempty, if_true]
  exact hvalue.bind (.of_eq fun _ => rfl)

/-- A closed test that evaluates to a truth value is decided once it is folded. -/
theorem exists_decided (hfolder : folder.Faithful) (hbuilt : test.Built)
    (hfull : test.isFull = true) (hty : test.resultType = .bool) (hann : test.BindersAgree .empty)
    (hclosed : test.freeVars .standard = .empty) {fuel : Nat} {p : Bool}
    (heval : evalClosed fuel test = some (.ok (.bool p))) :
    ∃ test' : Folded, Determines (fun fuel => test.fold ⟨.standard, folder, fuel⟩) test'
      ∧ Determines (fun fuel => decided? ⟨.standard, folder, fuel⟩ test'.tree test'.vars)
        (some p) := by
  have hnone : ∀ x, x ∉ test.freeVars .standard := by simp [hclosed]
  have htyped := hbuilt.fits.typed_of_closed hfull hann hnone fun _ => .int
  obtain ⟨test', hdet, himproves⟩ := test.fold_determines hfolder htyped hbuilt.size_lt
  have hvalue : value? ⟨.standard, folder, fuel⟩ test = .ok (some (.bool p)) := by
    unfold value?
    rw [heval]
  have hground : test.resultType.isFn = false := by
    rw [hty]
    rfl
  obtain ⟨hvalue', _⟩ := himproves.value?_determines hground hclosed hvalue
  obtain ⟨n, hn⟩ := hdet.1
  have hsimple := Tree.fold_simplifies rfl hfolder (hn n (Nat.le_refl n))
  have hempty : test'.vars.isEmpty = true := by
    rw [hsimple.vars_eq, VarSet.isEmpty_iff]
    exact fun x hx => hnone x (hsimple.simpler.mem_freeVars x hx)
  exact ⟨test', hdet, decided?_of_value? hempty hvalue'⟩

/-- A decided condition is folded as the selected branch. -/
theorem fold_choice_gives_of_decided (ty : Ty) {test' branch' : Tree × VarSet} {p : Bool}
    (htest : FoldM.Gives (fun fuel => fold ⟨.standard, folder, fuel⟩ test) (· = test'))
    (hdecided : Determines (fun fuel => decided? ⟨.standard, folder, fuel⟩ test'.1 test'.2)
      (some p))
    (hbranch : FoldM.Gives (fun fuel => fold ⟨.standard, folder, fuel⟩ (if p then a else b))
      (· = branch')) :
    FoldM.Gives (fun fuel => fold ⟨.standard, folder, fuel⟩ (.choice ty test a b))
      (· = branch') := by
  simp only [fold_choice]
  refine htest.bind fun q hq => ?_
  obtain rfl : test' = q := hq.symm
  unfold foldBranches
  refine (FoldM.Gives.lift hdecided).bind fun o ho => ?_
  obtain rfl : some p = o := ho.symm
  refine FoldM.Gives.record ?_
  cases p with
  | true => exact hbranch
  | false => exact hbranch

end FoldRules

/-- If the test of a condition is closed and evaluates to a truth value, then folding the condition
gives the tree and the variables that folding the selected branch gives. The other branch may be
anything that the builder of conditions takes. -/
theorem Tree.fold_cond_of_decided {folder : Folder} (hfolder : folder.Faithful) {c t e u : Tree}
    (hc : c.Built) (ht : t.Built) (he : e.Built) (hannc : c.BindersAgree .empty)
    (hclosed : c.freeVars .standard = .empty) {fuel : Nat} {p : Bool}
    (heval : evalClosed fuel c = some (.ok (.bool p)))
    (hann : (if p then t else e).BindersAgree .empty) (hu : Build.cond c t e = .ok u) :
    ∃ u' branch' : Folded, Determines (fun fuel => u.fold ⟨.standard, folder, fuel⟩) u'
      ∧ Determines (fun fuel => (if p then t else e).fold ⟨.standard, folder, fuel⟩) branch'
      ∧ u'.tree = branch'.tree ∧ u'.vars = branch'.vars := by
  obtain ⟨rfl, hbuilt⟩ := Build.cond_eq_ok hu hc ht he
  obtain ⟨⟨⟨_, hcfits, hcfull, hcnext⟩, _⟩, _⟩ := hbuilt.fits
  have hcty : c.resultType = .bool := (Option.some.inj hcnext).symm
  have hbranchbuilt : (if p then t else e).Built := by
    cases p with
    | true => exact ht
    | false => exact he
  obtain ⟨c', hdetc, hdecided⟩ :=
    FoldRules.exists_decided hfolder hc hcfull hcty hannc hclosed heval
  obtain ⟨branch', hdet, _⟩ := fold_total hfolder hbranchbuilt hann
  have htest := (FoldRules.foldsWell hfolder hc.fits hannc hc.size_lt).gives hdetc
  have hbranch :=
    (FoldRules.foldsWell hfolder hbranchbuilt.fits hann hbranchbuilt.size_lt).gives hdet
  obtain ⟨⟨tree, vars⟩, changes, hp, hdetu⟩ :=
    (FoldRules.fold_choice_gives_of_decided t.resultType htest hdecided hbranch).exists_determines 0
  obtain ⟨rfl, rfl⟩ := Prod.mk.inj hp
  exact ⟨⟨branch'.tree, branch'.vars, changes⟩, branch', hdetu.bind (.of_eq fun _ => rfl), hdet,
    rfl, rfl⟩

private def smallCall : Tree :=
  .node
    (.node (.leaf (.compare .lt))
      (.node
        (.node (.leaf (.letIn (.fn .int .int) .int))
          (.node (.leaf (.lambda 0 .int .int)) (.leaf (.var 0 .int))))
        (.node (.leaf (.lambda 1 (.fn .int .int) .int))
          (.node (.node (.leaf (.call .int .int)) (.leaf (.var 1 (.fn .int .int))))
            (.leaf (.int 3))))))
    (.leaf (.int 4))

private def failingQuotient : Tree :=
  .node
    (.node (.leaf (.arith .add))
      (.node (.node (.leaf (.arith .div)) (.leaf (.int 1))) (.leaf (.int 0))))
    (.leaf (.var 7 .int))

theorem Tree.fold_cond_of_decided_smallCall :
    evalClosed 6 smallCall = some (.ok (.bool true))
      ∧ ∃ u' branch' : Folded,
        Determines (fun fuel =>
          (choice .int smallCall (.leaf (.var 2 .int)) failingQuotient).fold
            ⟨.standard, .keep, fuel⟩) u'
        ∧ Determines (fun fuel => (leaf (.var 2 .int)).fold ⟨.standard, .keep, fuel⟩) branch'
        ∧ u'.tree = branch'.tree ∧ u'.vars = branch'.vars := by
  have hkeep : Folder.keep.Faithful := fun _ _ => .inl rfl
  have heval : evalClosed 6 smallCall = some (.ok (.bool true)) := rfl
  have hann : smallCall.BindersAgree .empty := by decide
  exact ⟨heval, Tree.fold_cond_of_decided (t := .leaf (.var 2 .int)) (e := failingQuotient) hkeep
    (by decide) trivial (by decide) hann (by decide) heval (by decide) rfl⟩

end ExprTree

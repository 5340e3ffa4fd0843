import ExprTree.Proofs.FoldingFixpoint
/-!
# Closed programs

A closed program of an integer or a truth value is left as nothing but its
value, if it has one. Parts of it may fail, depend on variables or be functions,
and stay as they are; none of that reaches the root, which depends on no
variable and is evaluated as a whole.
-/

namespace ExprTree

theorem Value.Stands.exists_literal {v : Value} {ty : Ty} {x : ty.Carrier} (hv : v.Stands ty x)
    (hty : ty.isFn = false) : ∃ s, v.literal? = some s := by
  obtain ⟨w, v', hread, hv'⟩ := hv
  cases hv' with
  | bool b =>
      cases hread
      exact ⟨.bool b, rfl⟩
  | int n =>
      cases hread
      exact ⟨.int n, rfl⟩
  | closure => cases hty

theorem Refined.eq_of_ok {ty : Ty} (hty : ty.isFn = false) {x : ty.Carrier} {m : Meaning ty}
    (h : Refined ty.Refines (.ok x) m) : m = .ok x := by
  cases h with
  | ok hxy => rw [hxy.eq_of_isFn hty]

namespace FoldRules

variable {rules : FoldRules}

/-- A folder that puts literals leaves no tree with a literal value but the literal. -/
theorem Finishes.eq_literal (hfolder : rules.folder = .literal) {u : Tree} {vars : VarSet} {j : Nat}
    (h : rules.Finishes u vars u j) (hvars : vars.isEmpty = true) {v : Value} {s : Symbol}
    (hv : rules.value? u = .ok (some v)) (hs : v.literal? = some s) : u = .leaf s := by
  have hput : rules.folder u v = some (.leaf s) := by
    rw [hfolder, Folder.literal, hs]
    rfl
  cases h with
  | free hfree => simp [hvars] at hfree
  | failing _ hnone => simp [hv] at hnone
  | @kept w _ hw hkeep =>
      obtain rfl : v = w := by simpa using hv.symm.trans hw
      simp [hput] at hkeep
  | @computed w t _ hw ht =>
      obtain rfl : v = w := by simpa using hv.symm.trans hw
      exact Option.some.inj (ht.symm.trans hput)

theorem Normal.eq_literal (hfolder : rules.folder = .literal) {t : Tree} (h : rules.Normal t)
    (hty : t.resultType.isFn = false) (hclosed : t.freeVars .standard = .empty) {v : Value}
    {s : Symbol} (hv : rules.value? t = .ok (some v)) (hs : v.literal? = some s) :
    t = .leaf s := by
  have hvars : (t.freeVars .standard).isEmpty = true := by
    rw [hclosed]
    rfl
  cases h with
  | var id ty => cases hvars
  | function => cases hty
  | choice _ _ _ _ _ hfin => exact hfin.eq_literal hfolder hvars hv hs
  | plain _ _ hfin => exact hfin.eq_literal hfolder hvars hv hs

end FoldRules

/-- The value of a closed tree is kept by what may stand in its place. -/
theorem Tree.Improves.value?_determines {Γ : Context} {ty : Ty} {t t' : Tree} {folder : Folder}
    (h : t.Improves Γ ty t') (hty : ty.isFn = false) (hclosed : t.freeVars .standard = .empty)
    {fuel : Nat} {v : Value} (hv : FoldRules.value? ⟨.standard, folder, fuel⟩ t = .ok (some v)) :
    Determines (fun fuel => FoldRules.value? ⟨.standard, folder, fuel⟩ t') (some v)
      ∧ ∃ s, v.literal? = some s := by
  have hnone : ∀ x, x ∉ t.freeVars .standard := by simp [hclosed]
  have hnone' : ∀ x, x ∉ t'.freeVars .standard := fun x hx => hnone x (h.simpler.mem_freeVars x hx)
  obtain ⟨r, hdet, hstands⟩ := FoldRules.value?_related folder h.typed hnone
  obtain ⟨r', hdet', hstands'⟩ := FoldRules.value?_related folder h.typed' hnone'
  have hr : some v = r.toOption := hdet.eq_of_ok hv
  have hρ := (Env.Assigns.empty Γ .empty).valuation_refines
  have hstands := hstands Env.empty.valuation
  have hstands' := hstands' Env.empty.valuation
  have hrefines := h.refines _ _ hρ
  generalize t.value Env.empty.valuation ty = m at hstands hrefines
  cases hstands with
  | error f => cases hr
  | @ok w x hx =>
      obtain rfl : v = w := Option.some.inj hr
      rw [hrefines.eq_of_ok hty] at hstands'
      cases hstands' with
      | ok hx' =>
          obtain rfl := hx.unique hty hx'
          exact ⟨hdet', hx.exists_literal hty⟩

/-- A closed program that evaluates to an integer or a truth value is folded to its literal. -/
theorem Tree.fold_closed {t : Tree} (hbuilt : t.Built) (hfull : t.isFull = true)
    (hty : t.resultType.isFn = false) (hann : t.BindersAgree .empty)
    (hclosed : t.freeVars .standard = .empty) {fuel : Nat} {v : Value}
    (heval : evalClosed fuel t = some (.ok v)) :
    ∃ s changes, v.literal? = some s
      ∧ Determines (fun fuel => t.fold ⟨.standard, .literal, fuel⟩) ⟨.leaf s, .empty, changes⟩ := by
  have hnone : ∀ x, x ∉ t.freeVars .standard := by simp [hclosed]
  have htyped := hbuilt.fits.typed_of_closed hfull hann hnone fun _ => .int
  obtain ⟨folded, hdet, himproves⟩ :=
    t.fold_determines Folder.literal_faithful htyped hbuilt.size_lt
  have hvalue : FoldRules.value? ⟨.standard, .literal, fuel⟩ t = .ok (some v) := by
    unfold FoldRules.value?
    rw [heval]
  obtain ⟨hvalue', s, hs⟩ := himproves.value?_determines hty hclosed hvalue
  obtain ⟨n, hrun, hvalue'⟩ := hdet.reaches.exists_common hvalue'.reaches
  have hsimple := fold_simplifies rfl Folder.literal_faithful hrun
  have hnormal := FoldRules.Normal.of_fold rfl Folder.literal_putsLiterals hrun
  have hempty : folded.tree.freeVars .standard = .empty :=
    VarSet.ext fun x => ⟨fun hx => absurd (hsimple.simpler.mem_freeVars x hx) (hnone x),
      fun hx => absurd hx (VarSet.not_mem_empty x)⟩
  have hty' : folded.tree.resultType.isFn = false := by
    rw [himproves.typed'.resultType_eq]
    exact hty
  have hleaf : folded.tree = .leaf s :=
    hnormal.eq_literal rfl hty' hempty hvalue' hs
  have hvars : folded.vars = .empty := hsimple.vars_eq.trans hempty
  obtain ⟨tree, vars, changes⟩ := folded
  obtain rfl : tree = .leaf s := hleaf
  obtain rfl : vars = .empty := hvars
  exact ⟨s, changes, hs, hdet⟩

private def unreadQuotient : Tree :=
  .node
    (.node (.leaf (.letIn .int .int))
      (.node (.node (.leaf (.arith .div)) (.leaf (.int 1))) (.leaf (.int 0))))
    (.node (.leaf (.lambda 0 .int .int))
      (.choice .int (.node (.node (.leaf (.compare .lt)) (.leaf (.int 2))) (.leaf (.int 1)))
        (.leaf (.var 0 .int))
        (.node (.node (.leaf (.letIn .int .int)) (.leaf (.int 3)))
          (.node (.leaf (.lambda 1 .int .int))
            (.node (.node (.leaf (.arith .add)) (.leaf (.var 1 .int))) (.leaf (.int 4)))))))

theorem Tree.fold_closed_unreadQuotient :
    evalClosed 6 unreadQuotient = some (.ok (.int 7))
      ∧ ∃ s changes, (Value.int 7).literal? = some s
        ∧ Determines (fun fuel => unreadQuotient.fold ⟨.standard, .literal, fuel⟩)
          ⟨.leaf s, .empty, changes⟩ := by
  have heval : evalClosed 6 unreadQuotient = some (.ok (.int 7)) := rfl
  have hann : unreadQuotient.BindersAgree .empty := by decide
  exact ⟨heval, Tree.fold_closed (by decide) rfl rfl hann rfl heval⟩

end ExprTree

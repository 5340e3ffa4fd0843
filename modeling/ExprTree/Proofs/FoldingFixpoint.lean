import ExprTree.Proofs.FoldingResults
/-!
# Folding once is enough

Folding goes through a tree once, from the leaves up, and a change further down
can make another one possible further up. Still nothing is left to do: what
folding gives is *normal*, and a normal tree is folded to itself.
-/

namespace ExprTree

/-- The folder keeps an expression or puts the literal of its value in its place. -/
def Folder.PutsLiterals (folder : Folder) : Prop :=
  ∀ t v, folder t v = none ∨ ∃ s, v.literal? = some s ∧ folder t v = some (.leaf s)

theorem Folder.PutsLiterals.faithful {folder : Folder} (h : folder.PutsLiterals) :
    folder.Faithful :=
  fun t v => (h t v).imp_right .inr

theorem Folder.literal_putsLiterals : Folder.literal.PutsLiterals := by
  intro t v
  unfold Folder.literal
  cases v.literal? with
  | none => exact .inl rfl
  | some s => exact .inr ⟨s, rfl, rfl⟩

/-- No rule applies to the tree or inside it: tests are undecided, branches differ, and nothing is
put for what is closed. -/
inductive FoldRules.Normal (rules : FoldRules) : Tree → Prop where
  | var (id : VarId) (ty : Ty) : Normal rules (.leaf (.var id ty))
  | function {id : VarId} {arg result : Ty} {body : Tree} : Normal rules body →
      Normal rules (.node (.leaf (.lambda id arg result)) body)
  | choice {ty : Ty} {test a b : Tree} : Normal rules test → Normal rules a → Normal rules b →
      rules.decided? test (test.freeVars .standard) = .ok none →
      Tree.alphaEq .standard a b = false →
      rules.Finishes (.choice ty test a b) ((Tree.choice ty test a b).freeVars .standard)
        (.choice ty test a b) 0 →
      Normal rules (.choice ty test a b)
  | plain {t : Tree} : (t.isFull = true → t.head.hasRule = false) →
      (∀ a ∈ t.args, Normal rules a) → rules.Finishes t (t.freeVars .standard) t 0 →
      Normal rules t

namespace FoldRules

variable {rules : FoldRules}

/-! ## Results are normal -/

theorem value?_literal {u : Tree} {o : Option Value} (hu : rules.value? u = .ok o) {v : Value}
    {s : Symbol} (hs : v.literal? = some s) : rules.value? (.leaf s) = .ok (some v) := by
  unfold value? evalClosed at hu ⊢
  cases hfuel : rules.fuel with
  | zero =>
      rw [hfuel] at hu
      cases hu
  | succ fuel => rcases Value.literal?_cases hs with ⟨b, rfl, rfl⟩ | ⟨n, rfl, rfl⟩ <;> rfl

theorem Normal.literal (hfolder : rules.folder.PutsLiterals) {u : Tree} {o : Option Value}
    (hu : rules.value? u = .ok o) {v : Value} {s : Symbol} (hs : v.literal? = some s) :
    rules.Normal (.leaf s) := by
  have hvalue := value?_literal hu hs
  have hplain : s.hasRule = false := by
    rcases Value.literal?_cases hs with ⟨b, _, rfl⟩ | ⟨n, _, rfl⟩ <;> rfl
  have hempty : ((Tree.leaf s).freeVars .standard).isEmpty = true := by
    rcases Value.literal?_cases hs with ⟨b, _, rfl⟩ | ⟨n, _, rfl⟩ <;> rfl
  refine .plain (fun _ => hplain) (fun a ha => absurd ha List.not_mem_nil) ?_
  rcases hfolder (.leaf s) v with hkeep | ⟨s', hs', hput⟩
  · exact .kept hempty hvalue hkeep
  · obtain rfl : s = s' := Option.some.inj (hs.symm.trans hs')
    exact .computed hempty hvalue hput

/-- Either nothing is put for the rebuilt tree or it becomes a literal. -/
theorem Finishes.normal (hfolder : rules.folder.PutsLiterals) {u r : Tree} {vars : VarSet} {j : Nat}
    (h : rules.Finishes u vars r j) (hvars : vars = u.freeVars .standard)
    (hu : rules.Finishes u (u.freeVars .standard) u 0 → rules.Normal u) : rules.Normal r := by
  subst hvars
  cases h with
  | free hfree => exact hu (.free hfree)
  | failing hempty hv => exact hu (.failing hempty hv)
  | kept hempty hv hkeep => exact hu (.kept hempty hv hkeep)
  | @computed v t hempty hv hput =>
      rcases hfolder u v with hkeep | ⟨s, hs, hlit⟩
      · simp [hkeep] at hput
      · obtain rfl : .leaf s = r := Option.some.inj (hlit.symm.trans hput)
        exact .literal hfolder hv hs

theorem Rebuilds.of_mem_args {t u : Tree} {vars : VarSet} {k : Nat} (h : rules.Rebuilds t u vars k)
    {c : Tree} (hc : c ∈ u.args) :
    ∃ a ∈ t.args, ∃ a', a.fold rules = .ok a' ∧ c = a'.tree := by
  induction h with
  | leaf s => exact absurd hc List.not_mem_nil
  | @node f f' x u vars k x' hf hx hu ih =>
      obtain rfl := Tree.eq_of_reapply hu
      rcases List.mem_append.1 hc with hc | hc
      · obtain ⟨a, ha, ha'⟩ := ih hc
        exact ⟨a, List.mem_append.2 (.inl ha), ha'⟩
      · exact ⟨x, by simp [Tree.args], x', hx, List.mem_singleton.1 hc⟩

theorem Normal.of_fold (hbinders : rules.binders = .standard) (hfolder : rules.folder.PutsLiterals)
    {t : Tree} {folded : Folded} (h : t.fold rules = .ok folded) : rules.Normal folded.tree := by
  induction t using Tree.induction_args generalizing folded with
  | h t ih =>
  have hsimple {a : Tree} {a' : Folded} (ha : a.fold rules = .ok a') : a'.Simplifies a :=
    Tree.fold_simplifies hbinders hfolder.faithful ha
  cases Tree.fold_eq_ok_iff.1 h with
  | var id ty => exact .var id ty
  | @function id arg result body u body' hbody hu =>
      obtain rfl := Tree.eq_of_reapply hu
      exact .function (ih body (by simp [Tree.args]) hbody)
  | @picked ty test a b c test' c' ht hpick hc =>
      have hnormal : rules.Normal c'.tree := ih c hpick.mem_args hc
      exact hnormal
  | @merged ty test a b test' a' b' ht hdec hne ha hb heq =>
      have hnormal : rules.Normal a'.tree := ih a (by simp [Tree.args]) ha
      exact hnormal
  | @choice ty test a b u r test' a' b' vars i j ht hdec hne ha hb hne' hu hr =>
      have hvars := (hu.simplifies rfl (.inl rfl) fun a _ a' => hsimple).vars_eq
      obtain ⟨hput, _⟩ := (rebuilds_choice_iff ht ha hb).1 hu
      obtain rfl : u = .choice ty test'.tree a'.tree b'.tree := Tree.eq_of_reassemble hput
      refine hr.normal hfolder hvars fun hself => ?_
      refine .choice (ih test (by simp [Tree.args]) ht) (ih a (by simp [Tree.args]) ha)
        (ih b (by simp [Tree.args]) hb) ?_ ?_ hself
      · rw [← (hsimple ht).vars_eq]
        exact hdec
      · rw [← hbinders]
        exact hne'
  | @plain t u r vars i j hplain hu hr =>
      obtain ⟨href, hhead⟩ := Tree.head_of_plain hplain
      have hvars := (hu.simplifies href hhead fun a _ a' => hsimple).vars_eq
      have hspine := hu.sameSpine
      refine hr.normal hfolder hvars (.plain ?_ ?_)
      · rw [hspine.isFull_eq, hspine.head_eq]
        exact hplain
      · intro c hc
        obtain ⟨a, ha, a', hfold, rfl⟩ := hu.of_mem_args hc
        exact ih a ha hfold

/-! ## Normal trees stay -/

theorem Rebuilds.self {t : Tree} (hbuilt : t.Built) (href : t.head.reference? = none)
    (hhead : t.head.lambda? = none ∨ t.isLeaf = true)
    (hargs : ∀ a ∈ t.args, a.Built → a.fold rules = .ok ⟨a, a.freeVars .standard, 0⟩) :
    rules.Rebuilds t t (t.freeVars .standard) 0 := by
  induction t with
  | leaf s =>
      have hempty : (Tree.leaf s).freeVars .standard = .empty := by
        simp [Tree.freeVars, Binders.standard, show s.reference? = none from href]
      rw [hempty]
      exact .leaf s
  | node f x ihf _ =>
      obtain ⟨hf, hx, happ⟩ := hbuilt
      have hlambda : f.head.lambda? = none := hhead.resolve_right Bool.false_ne_true
      have hfunc := ihf hf href (.inl hlambda) fun a ha => hargs a (List.mem_append.2 (.inl ha))
      rw [Tree.freeVars_node (Tree.binder?_of_head hlambda)]
      exact .node hfunc (hargs x (by simp [Tree.args]) hx) (Tree.reapply_eq_ok_iff.2 happ)

theorem Normal.fold_eq (hbinders : rules.binders = .standard) {t : Tree} (h : rules.Normal t)
    (hbuilt : t.Built) : t.fold rules = .ok ⟨t, t.freeVars .standard, 0⟩ := by
  induction h with
  | var id ty => exact (FoldStep.var id ty).fold_eq
  | function _ ih =>
      obtain ⟨_, hbody, happ⟩ := hbuilt
      exact (FoldStep.function (ih hbody) (Tree.reapply_eq_ok_iff.2 happ)).fold_eq
  | @choice ty test a b _ _ _ hdec hne hfin iht iha ihb =>
      have hrebuilt : rules.Rebuilds (.choice ty test a b) (.choice ty test a b)
          ((Tree.choice ty test a b).freeVars .standard) 0 := by
        refine .self hbuilt rfl (.inl rfl) fun c hc => ?_
        rcases (by simpa [Tree.args] using hc : c = test ∨ c = a ∨ c = b) with rfl | rfl | rfl
        · exact iht
        · exact iha
        · exact ihb
      obtain ⟨⟨⟨_, htest, _⟩, ha, _⟩, hb, _⟩ := hbuilt
      rw [← hbinders] at hne
      exact (FoldStep.choice (iht htest) hdec hne (iha ha) (ihb hb) hne hrebuilt hfin).fold_eq
  | plain hplain _ hfin ih =>
      obtain ⟨href, hhead⟩ := Tree.head_of_plain hplain
      exact (FoldStep.plain hplain (.self hbuilt href hhead ih) hfin).fold_eq

/-- What folding gives is normal, and to fold it again gives it back and changes nothing. -/
theorem fold_idempotent (hbinders : rules.binders = .standard)
    (hfolder : rules.folder.PutsLiterals) {t r : Tree} {vars : VarSet} {count count' : Nat}
    (h : (rules.fold t).run count = .ok ((r, vars), count')) :
    rules.Normal r ∧ ∀ n, (rules.fold r).run n = .ok ((r, vars), n) := by
  obtain ⟨k, _, hyields⟩ := rules.fold_counts t h
  have hfold : t.fold rules = .ok ⟨r, vars, k⟩ := fold_yields_iff.1 hyields
  have hsimple := Tree.fold_simplifies hbinders hfolder.faithful hfold
  have hnormal := Normal.of_fold hbinders hfolder hfold
  obtain rfl : vars = r.freeVars .standard := hsimple.vars_eq
  exact ⟨hnormal, fold_yields_iff.2 (hnormal.fold_eq hbinders hsimple.built)⟩

private def addedTo (t : Tree) : Tree :=
  .node (.node (.leaf (.arith .add)) t) (.leaf (.var 1 .int))

private def choiceOfSums : Tree :=
  .choice .int (.node (.node (.leaf (.compare .lt)) (.leaf (.var 0 .int))) (.leaf (.int 1)))
    (addedTo (.node (.node (.leaf (.arith .add)) (.leaf (.int 1))) (.leaf (.int 2))))
    (addedTo (.leaf (.int 3)))

theorem fold_idempotent_choiceOfSums :
    (fold ⟨.standard, .literal, 2⟩ choiceOfSums).run 0
        = .ok ((addedTo (.leaf (.int 3)), .singleton 1), 2)
      ∧ Normal ⟨.standard, .literal, 2⟩ (addedTo (.leaf (.int 3)))
      ∧ ∀ n, (fold ⟨.standard, .literal, 2⟩ (addedTo (.leaf (.int 3)))).run n
        = .ok ((addedTo (.leaf (.int 3)), .singleton 1), n) := by
  have hrun : (fold ⟨.standard, .literal, 2⟩ choiceOfSums).run 0
      = .ok ((addedTo (.leaf (.int 3)), .singleton 1), 2) := rfl
  exact ⟨hrun, fold_idempotent rfl Folder.literal_putsLiterals hrun⟩

end FoldRules

end ExprTree

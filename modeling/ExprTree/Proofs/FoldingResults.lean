import ExprTree.Proofs.FoldingRuns
/-!
# What folding leaves

Whatever tree is folded, and with whatever fuel: if there is a result, then it
is put together by checked applications, it is no larger than the tree, it
brings no variables of its own, and the variables that it is said to depend on
are exactly its free ones.
-/

namespace ExprTree

/-! ## Trees and their arguments -/

/-- What holds of a tree once it holds of the arguments on its spine holds of every tree. -/
theorem Tree.induction_args {P : Tree → Prop} (h : ∀ t, (∀ a ∈ t.args, P a) → P t) (t : Tree) :
    P t := by
  induction hsize : t.size using Nat.strongRecOn generalizing t with
  | ind n ih =>
  subst hsize
  exact h t fun a ha => ih a.size (size_lt_of_mem_args ha) a rfl

theorem Tree.Simpler.of_mem_args {t a a' : Tree} (hhead : t.head.lambda? = none) (ha : a ∈ t.args)
    (h : Simpler a a') : Simpler t a' := by
  induction t with
  | leaf s => exact absurd ha List.not_mem_nil
  | node f x ihf _ =>
      have hf : f.binder? .standard = none := binder?_of_head hhead
      rcases List.mem_append.1 ha with ha | ha
      · exact (ihf hhead ha).of_func hf
      · obtain rfl := List.mem_singleton.1 ha
        exact h.of_arg hf

theorem BoundTypes.under_eq_of_sameSpine {t t' : Tree} (h : Tree.SameSpine t t')
    (Δ : BoundTypes) : Δ.under t' = Δ.under t := by
  cases h <;> rfl

/-- Under symbols without a rule of their own nothing is referred to and nothing is bound. -/
theorem Tree.head_of_plain {t : Tree} (h : t.isFull = true → t.head.hasRule = false) :
    t.head.reference? = none ∧ (t.head.lambda? = none ∨ t.isLeaf = true) := by
  cases hhead : t.head with
  | var id ty =>
      have hfull : t.isFull = true := by simp [isFull, nextArg?, signature, hhead, Symbol.signature]
      have hrule := h hfull
      rw [hhead] at hrule
      cases hrule
  | lambda id arg result =>
      refine ⟨rfl, .inr ?_⟩
      cases t with
      | leaf s => rfl
      | node f x =>
          have hfull : (node f x).isFull = true := by
            simp [isFull, nextArg?, signature, hhead, Symbol.signature, applied]
          have hrule := h hfull
          rw [hhead] at hrule
          cases hrule
  | _ => exact ⟨rfl, .inl rfl⟩

theorem Tree.lambda?_of_mem_args {t a : Tree} (hhead : t.head.lambda? = none ∨ t.isLeaf = true)
    (ha : a ∈ t.args) : t.head.lambda? = none := by
  cases t with
  | leaf s => exact absurd ha List.not_mem_nil
  | node f x => exact hhead.resolve_right Bool.false_ne_true

theorem Value.literal?_cases {v : Value} {s : Symbol} (h : v.literal? = some s) :
    (∃ b, v = .bool b ∧ s = .bool b) ∨ ∃ n, v = .int n ∧ s = .int n := by
  cases v with
  | bool b => exact .inl ⟨b, rfl, (Option.some.inj h).symm⟩
  | int n => exact .inr ⟨n, rfl, (Option.some.inj h).symm⟩
  | closure => cases h

/-! ## One step -/

/-- The outcome is a tree that is built, simpler than `t` and annotated no worse, together with
its free variables. -/
structure Folded.Simplifies (t : Tree) (folded : Folded) : Prop where
  built : folded.tree.Built
  vars_eq : folded.vars = folded.tree.freeVars .standard
  simpler : t.Simpler folded.tree
  bindersAgree : ∀ Δ, t.BindersAgree Δ → folded.tree.BindersAgree Δ

namespace Folded.Simplifies

variable {t a : Tree} {folded : Folded}

theorem literal {v : Value} {s : Symbol} (hs : v.literal? = some s) {vars : VarSet}
    (hvars : vars.isEmpty = true) (changes : Nat) : Simplifies t ⟨.leaf s, vars, changes⟩ := by
  have hempty : vars = .empty := VarSet.ext fun x => by simp [VarSet.isEmpty_iff.1 hvars x]
  have hfree : (Tree.leaf s).freeVars .standard = .empty := by
    rcases Value.literal?_cases hs with ⟨b, _, rfl⟩ | ⟨n, _, rfl⟩ <;> rfl
  refine ⟨trivial, hempty.trans hfree.symm, ⟨t.size_pos, ?_, fun _ _ => trivial⟩, fun Δ _ => ?_⟩
  · intro x hx
    rw [hfree] at hx
    exact absurd hx (VarSet.not_mem_empty x)
  · rcases Value.literal?_cases hs with ⟨b, _, rfl⟩ | ⟨n, _, rfl⟩ <;> trivial

theorem of_mem_args (hhead : t.head.lambda? = none) (ha : a ∈ t.args)
    (h : Simplifies a folded) (changes : Nat) :
    Simplifies t ⟨folded.tree, folded.vars, changes⟩ where
  built := h.built
  vars_eq := h.vars_eq
  simpler := h.simpler.of_mem_args hhead ha
  bindersAgree Δ hann := h.bindersAgree Δ (hann.of_mem_args hhead ha)

theorem node {f f' x : Tree} {vars : VarSet} {x' : Folded} {i k : Nat}
    (hf : Simplifies f ⟨f', vars, i⟩) (hx : Simplifies x x') (hspine : Tree.SameSpine f f')
    (hlambda : f.head.lambda? = none) (happ : Tree.app f' x'.tree = .ok (.node f' x'.tree)) :
    Simplifies (.node f x) ⟨.node f' x'.tree, vars ∪ x'.vars, k⟩ where
  built := ⟨hf.built, hx.built, happ⟩
  vars_eq := by
    have hbinder : f'.binder? .standard = none := by
      rw [hspine.binder?_eq]
      exact Tree.binder?_of_head hlambda
    rw [Tree.freeVars_node hbinder, ← hf.vars_eq, ← hx.vars_eq]
  simpler := hf.simpler.node hx.simpler hspine.binder?_eq
  bindersAgree := by
    intro Δ hann
    refine ⟨hf.bindersAgree Δ hann.1, ?_⟩
    rw [BoundTypes.under_eq_of_sameSpine hspine]
    exact hx.bindersAgree _ hann.2

end Folded.Simplifies

namespace FoldRules

variable {rules : FoldRules}

theorem Picks.mem_args {test : Folded} {a b c : Tree} (h : rules.Picks test a b c) {ty : Ty}
    {t : Tree} : c ∈ (Tree.choice ty t a b).args := by
  cases h with
  | decided taken => cases taken <;> simp [Tree.args]
  | equal => simp [Tree.args]

theorem Rebuilds.simplifies {t u : Tree} {vars : VarSet} {k : Nat}
    (h : rules.Rebuilds t u vars k) (href : t.head.reference? = none)
    (hhead : t.head.lambda? = none ∨ t.isLeaf = true)
    (hargs : ∀ a ∈ t.args, ∀ a', a.fold rules = .ok a' → a'.Simplifies a) :
    Folded.Simplifies t ⟨u, vars, k⟩ := by
  induction h with
  | leaf s =>
      refine ⟨trivial, ?_, .refl _, fun _ h => h⟩
      simp [Tree.freeVars, Binders.standard, show s.reference? = none from href]
  | @node f f' x u vars k x' hf hx hu ih =>
      have hlambda : f.head.lambda? = none := hhead.resolve_right Bool.false_ne_true
      have happ := Tree.reapply_eq_ok_iff.1 hu
      obtain ⟨rfl, _⟩ := Tree.app_eq_ok_iff.1 happ
      have hf' := ih href (.inl hlambda) fun a ha => hargs a (List.mem_append.2 (.inl ha))
      exact hf'.node (hargs x (by simp [Tree.args]) x' hx) hf.sameSpine hlambda happ

theorem Finishes.simplifies (hfolder : rules.folder.Faithful) {t u r : Tree} {vars : VarSet}
    {i j : Nat} (h : rules.Finishes u vars r j) (hu : Folded.Simplifies t ⟨u, vars, i⟩) :
    Folded.Simplifies t ⟨r, vars, i + j⟩ := by
  have hself (k : Nat) : Folded.Simplifies t ⟨u, vars, k⟩ :=
    ⟨hu.built, hu.vars_eq, hu.simpler, hu.bindersAgree⟩
  cases h with
  | free => exact hself _
  | failing => exact hself _
  | kept => exact hself _
  | @computed v t' hempty hv hput =>
      rcases hfolder u v with hkeep | hsame | ⟨s, hs, hlit⟩
      · simp [hkeep] at hput
      · obtain rfl : u = r := Option.some.inj (hsame.symm.trans hput)
        exact hself _
      · obtain rfl : .leaf s = r := Option.some.inj (hlit.symm.trans hput)
        exact .literal hs hempty _

end FoldRules

/-! ## Results -/

theorem Tree.fold_simplifies {rules : FoldRules} (hbinders : rules.binders = .standard)
    (hfolder : rules.folder.Faithful) {t : Tree} {folded : Folded}
    (h : t.fold rules = .ok folded) : folded.Simplifies t := by
  induction t using Tree.induction_args generalizing folded with
  | h t ih =>
  have hargs : ∀ a ∈ t.args, ∀ a', a.fold rules = .ok a' → a'.Simplifies a :=
    fun a ha a' ha' => ih a ha ha'
  cases fold_eq_ok_iff.1 h with
  | var id ty => exact ⟨trivial, rfl, .refl _, fun _ h => h⟩
  | @function id arg result body u body' hbody hu =>
      have happ := reapply_eq_ok_iff.1 hu
      obtain ⟨rfl, _⟩ := app_eq_ok_iff.1 happ
      have hbody' := hargs body (by simp [args]) body' hbody
      refine ⟨⟨trivial, hbody'.built, happ⟩, ?_, (Simpler.refl _).node hbody'.simpler rfl, ?_⟩
      · rw [freeVars_lambda, ← hbody'.vars_eq]
      · exact fun Δ hann => ⟨trivial, hbody'.bindersAgree _ hann.2⟩
  | @picked ty test a b c test' c' ht hpick hc =>
      have hmem : c ∈ (choice ty test a b).args := hpick.mem_args
      exact (hargs c hmem c' hc).of_mem_args rfl hmem _
  | @merged ty test a b test' a' b' ht hdec hne ha hb heq =>
      have hmem : a ∈ (choice ty test a b).args := by simp [args]
      have ha' := hargs a hmem a' ha
      have hb' := hargs b (by simp [args]) b' hb
      -- The merged branches have the same free variables, so nothing is added to those of one.
      have hvars : a'.vars ∪ b'.vars = a'.vars := by
        rw [hbinders] at heq
        refine VarSet.ext fun x => ?_
        rw [VarSet.mem_union, ha'.vars_eq, hb'.vars_eq]
        exact ⟨fun hx => hx.elim id (mem_freeVars_of_alphaEq heq), .inl⟩
      rw [hvars]
      exact ha'.of_mem_args rfl hmem _
  | choice ht hdec hne ha hb hne' hu hr =>
      exact hr.simplifies hfolder (hu.simplifies rfl (.inl rfl) hargs)
  | plain hplain hu hr =>
      obtain ⟨href, hhead⟩ := head_of_plain hplain
      exact hr.simplifies hfolder (hu.simplifies href hhead hargs)

/-- The variables that folding reports are the free ones of its result, no more and no fewer, and
all of them were free in the tree. -/
theorem FoldRules.fold_vars_exact {rules : FoldRules} (hbinders : rules.binders = .standard)
    (hfolder : rules.folder.Faithful) {t r : Tree} {vars : VarSet} {count count' : Nat}
    (h : (rules.fold t).run count = .ok ((r, vars), count')) :
    vars = r.freeVars .standard ∧ ∀ x ∈ vars, x ∈ t.freeVars .standard := by
  obtain ⟨k, _, hyields⟩ := rules.fold_counts t h
  have hfold : t.fold rules = .ok ⟨r, vars, k⟩ := fold_yields_iff.1 hyields
  have hsimple := Tree.fold_simplifies hbinders hfolder hfold
  obtain rfl : vars = r.freeVars .standard := hsimple.vars_eq
  exact ⟨rfl, hsimple.simpler.mem_freeVars⟩

private def decidedFunction : Tree :=
  .node (.leaf (.lambda 0 .int (.fn .int .int)))
    (.choice (.fn .int .int)
      (.node (.node (.leaf (.compare .lt)) (.leaf (.int 1))) (.leaf (.int 2)))
      (.node (.leaf (.lambda 0 .int .int))
        (.node (.node (.leaf (.arith .add)) (.leaf (.var 0 .int))) (.leaf (.var 1 .int))))
      (.node (.leaf (.lambda 3 .int .int)) (.leaf (.var 2 .int))))

theorem FoldRules.fold_vars_exact_decidedFunction :
    decidedFunction.freeVars .standard = .ofList [1, 2]
      ∧ ∃ r, (fold ⟨.standard, .literal, 2⟩ decidedFunction).run 0 = .ok ((r, .singleton 1), 2)
        ∧ VarSet.singleton 1 = r.freeVars .standard
        ∧ ∀ x ∈ VarSet.singleton 1, x ∈ decidedFunction.freeVars .standard :=
  ⟨by decide, _, rfl, fold_vars_exact rfl Folder.literal_faithful
    (show (fold ⟨.standard, .literal, 2⟩ decidedFunction).run 0 = _ from rfl)⟩

end ExprTree

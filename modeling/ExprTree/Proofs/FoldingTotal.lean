import ExprTree.Proofs.FoldingResults
/-!
# Folding comes to an end

If the references to bound variables carry the types of their binders, then
folding has a result, whatever types the free variables carry: only closed trees
are evaluated, and these are terms of the typed calculus. The result is of the
same type as the tree, so that it fits wherever the tree did.
-/

namespace ExprTree

/-! ## Types -/

/-- The second tree is full if the first one is, and has the same type. -/
def Tree.SameType (t t' : Tree) : Prop :=
  t'.isFull = t.isFull ∧ t'.resultType = t.resultType

theorem Tree.SameType.refl (t : Tree) : t.SameType t :=
  ⟨rfl, rfl⟩

theorem Tree.SameType.trans {t t' t'' : Tree} (h : t.SameType t') (h' : t'.SameType t'') :
    t.SameType t'' :=
  ⟨h'.1.trans h.1, h'.2.trans h.2⟩

theorem Tree.SameSpine.sameType {t t' : Tree} (h : SameSpine t t') : t.SameType t' :=
  ⟨h.isFull_eq, h.resultType_eq⟩

structure Tree.Rebuilt (t u : Tree) (vars : VarSet) : Prop where
  sameSpine : SameSpine t u
  simplifies : Folded.Simplifies t ⟨u, vars, 0⟩

namespace Tree.Rebuilt

theorem leaf {s : Symbol} (hs : s.reference? = none) : Rebuilt (.leaf s) (.leaf s) .empty where
  sameSpine := .leaf s
  simplifies := ⟨trivial, by simp [freeVars, Binders.standard, hs], .refl _, fun _ h => h⟩

theorem node {f f' x : Tree} {vars : VarSet} {x' : Folded} (hf : Rebuilt f f' vars)
    (hlambda : f.head.lambda? = none) (hx : x'.Simplifies x) (hty : x.SameType x'.tree)
    (hfits : (Tree.node f x).Fits) (hsize : (Tree.node f x).size < wordLimit) :
    Rebuilt (.node f x) (.node f' x'.tree) (vars ∪ x'.vars) := by
  obtain ⟨_, _, hfull, hnext⟩ := hfits
  have happ : app f' x'.tree = .ok (.node f' x'.tree) := by
    refine app_eq_ok_iff.2 ⟨rfl, ?_, hty.1.trans hfull, ?_⟩
    · rw [hf.sameSpine.nextArg?_eq, hnext, hty.2]
    · have hfsize : f'.size ≤ f.size := hf.simplifies.simpler.size_le
      have hxsize := hx.simpler.size_le
      rw [size_node] at hsize
      omega
  exact ⟨.node hf.sameSpine, hf.simplifies.node hx hf.sameSpine hlambda happ⟩

end Tree.Rebuilt

/-- Every tree is for one of the rules. -/
theorem Tree.Fits.rule_cases {t : Tree} (h : t.Fits) :
    (∃ id ty, t = leaf (.var id ty))
      ∨ (∃ id arg result body, t = node (leaf (.lambda id arg result)) body)
      ∨ (∃ ty test a b, t = choice ty test a b)
      ∨ (t.isFull = true → t.head.hasRule = false) := by
  cases t with
  | leaf s =>
      cases s with
      | var id ty => exact .inl ⟨id, ty, rfl⟩
      | lambda | cond => exact .inr (.inr (.inr fun hfull => by cases hfull))
      | _ => exact .inr (.inr (.inr fun _ => rfl))
  | node f x =>
      obtain ⟨_, _, _, hnext⟩ := h
      have hopen : f.isFull = false := by
        rw [isFull, hnext]
        rfl
      by_cases hrule : (node f x).isFull = true → (node f x).head.hasRule = false
      · exact .inr (.inr (.inr hrule))
      · obtain ⟨hfull, hhead⟩ : (node f x).isFull = true ∧ f.head.hasRule = true := by
          simpa using hrule
        rcases cases_of_hasRule hopen hfull hhead with
          ⟨id, arg, result, rfl⟩ | ⟨ty, test, a, rfl⟩
        · exact .inr (.inl ⟨id, arg, result, x, rfl⟩)
        · exact .inr (.inr (.inl ⟨ty, test, a, x, rfl⟩))

/-! ## Steps -/

theorem FoldM.Gives.and_of_run {α : Type} {m : Nat → FoldM α} {P Q : α → Prop}
    (hm : FoldM.Gives m P)
    (hrun : ∀ fuel count x count', m fuel count = .ok (x, count') → Q x) :
    FoldM.Gives m (fun x => P x ∧ Q x) := by
  intro count
  obtain ⟨x, count', hx, hdet⟩ := hm.exists_determines count
  obtain ⟨n, hn⟩ := hdet.reaches
  exact ⟨.ok (x, count'), ⟨hx, hrun n count x count' (hn n (Nat.le_refl n))⟩, hdet⟩

namespace FoldRules

variable {folder : Folder} {t u : Tree} {Δ : BoundTypes} {vars : VarSet}

/-- A tree that misses arguments has no value. -/
theorem value?_determines_of_partial (folder : Folder) (h : t.isFull = false) :
    Determines (fun fuel => value? ⟨.standard, folder, fuel⟩ t) none := by
  have hsucc (fuel : Nat) : value? ⟨.standard, folder, fuel + 1⟩ t = .ok none := by
    unfold value? evalClosed
    rw [eval, h]
    rfl
  refine ⟨⟨1, fun fuel hfuel => ?_⟩, fun fuel => ?_⟩
  · obtain ⟨k, rfl⟩ := Nat.exists_eq_add_of_le' hfuel
    exact hsucc k
  · cases fuel with
    | zero => exact .inr rfl
    | succ fuel => exact .inl (hsucc fuel)

/-- Evaluation of a closed tree ends, and a literal for its value is of the type of the tree. -/
theorem value?_total (folder : Folder) (hfits : u.Fits) (hann : u.BindersAgree Δ)
    (hclosed : ∀ x, x ∉ u.freeVars .standard) :
    ∃ o, Determines (fun fuel => value? ⟨.standard, folder, fuel⟩ u) o
      ∧ ∀ v s, o = some v → v.literal? = some s → u.SameType (.leaf s) := by
  cases hfull : u.isFull with
  | false =>
      exact ⟨none, value?_determines_of_partial folder hfull, fun v s hv => by cases hv⟩
  | true =>
      have htyped := hfits.typed_of_closed hfull hann hclosed fun _ => .int
      obtain ⟨o, hdet, hvalue⟩ := value?_determines folder htyped hclosed
      refine ⟨o, hdet, fun v s hv hs => ?_⟩
      obtain ⟨x, hx, _⟩ := hvalue v hv
      obtain ⟨hleaf, _⟩ := hx.of_literal hs fun _ => .int
      exact ⟨hleaf.isFull.trans hfull.symm, hleaf.resultType_eq⟩

theorem closed_of_isEmpty (hvars : vars = t.freeVars .standard) (hempty : vars.isEmpty = true)
    (x : VarId) : x ∉ t.freeVars .standard := by
  rw [← hvars]
  exact VarSet.isEmpty_iff.1 hempty x

theorem decided?_total (folder : Folder) (hfits : u.Fits) (hann : u.BindersAgree Δ)
    (hvars : vars = u.freeVars .standard) :
    ∃ o, Determines (fun fuel => decided? ⟨.standard, folder, fuel⟩ u vars) o := by
  unfold decided?
  cases hempty : vars.isEmpty with
  | false => exact ⟨none, .of_eq fun _ => rfl⟩
  | true =>
      obtain ⟨o, hdet, _⟩ := value?_total folder hfits hann (closed_of_isEmpty hvars hempty)
      cases o with
      | none => exact ⟨none, hdet.bind (.of_eq fun _ => rfl)⟩
      | some v =>
          cases v with
          | bool b => exact ⟨some b, hdet.bind (.of_eq fun _ => rfl)⟩
          | int n => exact ⟨none, hdet.bind (.of_eq fun _ => rfl)⟩
          | closure => exact ⟨none, hdet.bind (.of_eq fun _ => rfl)⟩

theorem finish_total (hfolder : folder.Faithful) (hu : t.Rebuilt u vars)
    (hann : t.BindersAgree Δ) :
    FoldM.Gives (fun fuel => finish ⟨.standard, folder, fuel⟩ u.head u.args vars)
      (fun p => t.SameType p.1) := by
  have hbuilt : u.Built := hu.simplifies.built
  have hvars : vars = u.freeVars .standard := hu.simplifies.vars_eq
  have hself := hu.sameSpine.sameType
  unfold finish
  refine (FoldM.Gives.lift (.of_eq fun _ =>
    Tree.reassemble_args hbuilt.fits hbuilt.size_lt)).bind fun rebuilt hrebuilt => ?_
  obtain rfl : u = rebuilt := hrebuilt.symm
  cases hempty : vars.isEmpty with
  | false => exact .pure hself
  | true =>
      obtain ⟨o, hdet, hliteral⟩ := value?_total folder hbuilt.fits
        (hu.simplifies.bindersAgree Δ hann) (closed_of_isEmpty hvars hempty)
      refine (FoldM.Gives.lift hdet).bind fun o' ho => ?_
      obtain rfl : o = o' := ho.symm
      cases o with
      | none => exact .pure hself
      | some v =>
          rcases hfolder u v with hkeep | hsame | ⟨s, hs, hput⟩
          · simp only [hkeep]
            exact .pure hself
          · simp only [hsame]
            exact .ite (fun _ => .record (.pure hself)) fun _ => .pure hself
          · simp only [hput]
            have hleaf := hself.trans (hliteral v s rfl hs)
            exact .ite (fun _ => .record (.pure hleaf)) fun _ => .pure hleaf

def FoldsWell (folder : Folder) (t : Tree) : Prop :=
  FoldM.Gives (fun fuel => fold ⟨.standard, folder, fuel⟩ t) (fun p => t.SameType p.1)

theorem FoldsWell.simplifies (hfolder : folder.Faithful) (h : FoldsWell folder t) :
    FoldM.Gives (fun fuel => fold ⟨.standard, folder, fuel⟩ t)
      (fun p => t.SameType p.1 ∧ Folded.Simplifies t ⟨p.1, p.2, 0⟩) := by
  refine h.and_of_run fun fuel count p count' hrun => ?_
  obtain ⟨k, _, hyields⟩ := fold_counts _ t hrun
  have hfold : t.fold ⟨.standard, folder, fuel⟩ = .ok ⟨p.1, p.2, k⟩ := fold_yields_iff.1 hyields
  obtain ⟨hbuilt, hvars, hsimpler, hann⟩ := Tree.fold_simplifies rfl hfolder hfold
  exact ⟨hbuilt, hvars, hsimpler, hann⟩

theorem foldArgs_total (hfolder : folder.Faithful) (hfits : t.Fits) (hsize : t.size < wordLimit)
    (href : t.head.reference? = none) (hhead : t.head.lambda? = none ∨ t.isLeaf = true)
    (hargs : ∀ a ∈ t.args, FoldsWell folder a) :
    FoldM.Gives (fun fuel => foldArgs ⟨.standard, folder, fuel⟩ t)
      (fun p => ∃ u, p.1 = u.args ∧ t.Rebuilt u p.2) := by
  induction t with
  | leaf s =>
      simp only [foldArgs]
      exact .pure ⟨.leaf s, rfl, .leaf href⟩
  | node f x ihf _ =>
      have hlambda : f.head.lambda? = none := hhead.resolve_right Bool.false_ne_true
      have hfsize : f.size < wordLimit := by
        rw [Tree.size_node] at hsize
        omega
      have hf := ihf hfits.1 hfsize href (.inl hlambda) fun a ha =>
        hargs a (List.mem_append.2 (.inl ha))
      have hx := (hargs x (by simp [Tree.args])).simplifies hfolder
      simp only [foldArgs]
      refine hf.bind ?_
      rintro ⟨args, vars⟩ ⟨u, hu, hrebuilt⟩
      refine hx.bind ?_
      rintro ⟨x', xvars⟩ ⟨hty, hx'⟩
      refine .pure ?_
      obtain rfl : args = u.args := hu
      exact ⟨.node u x', rfl, hrebuilt.node hlambda hx' hty hfits hsize⟩

theorem fold_function_total (hfolder : folder.Faithful) {id : VarId} {arg result : Ty} {body : Tree}
    (hfits : (Tree.node (.leaf (.lambda id arg result)) body).Fits)
    (hsize : (Tree.node (.leaf (.lambda id arg result)) body).size < wordLimit)
    (hbody : FoldsWell folder body) :
    FoldsWell folder (.node (.leaf (.lambda id arg result)) body) := by
  unfold FoldsWell
  simp only [fold]
  refine (hbody.simplifies hfolder).bind ?_
  rintro ⟨body', vars⟩ ⟨hty, hbody'⟩
  obtain ⟨_, _, hfull, hnext⟩ := hfits
  have hfits' : (Tree.node (.leaf (.lambda id arg result)) body').Fits := by
    refine ⟨trivial, hbody'.built.fits, hty.1.trans hfull, ?_⟩
    rw [hnext, hty.2]
  have hsize' : (Tree.node (.leaf (.lambda id arg result)) body').size < wordLimit := by
    have hle : body'.size ≤ body.size := hbody'.simpler.size_le
    rw [Tree.size_node] at hsize ⊢
    omega
  have hrebuilt := Tree.reassemble_args hfits' hsize'
  refine (FoldM.Gives.lift (.of_eq fun _ => hrebuilt)).bind fun u hu => ?_
  obtain rfl := hu
  exact .pure ⟨rfl, rfl⟩

theorem fold_choice_total (hfolder : folder.Faithful) {ty : Ty} {test a b : Tree}
    (hfits : (Tree.choice ty test a b).Fits) (hann : (Tree.choice ty test a b).BindersAgree Δ)
    (hsize : (Tree.choice ty test a b).size < wordLimit) (ht : FoldsWell folder test)
    (ha : FoldsWell folder a) (hb : FoldsWell folder b) :
    FoldsWell folder (.choice ty test a b) := by
  have hta : Tree.SameType (.choice ty test a b) a :=
    ⟨hfits.1.2.2.1, (Option.some.inj hfits.1.2.2.2).symm⟩
  have htb : Tree.SameType (.choice ty test a b) b :=
    ⟨hfits.2.2.1, (Option.some.inj hfits.2.2.2).symm⟩
  have hsizea : (Tree.node (.node (.leaf (.cond ty)) test) a).size < wordLimit := by
    rw [Tree.size_node] at hsize
    omega
  have hsizet : (Tree.node (.leaf (.cond ty)) test).size < wordLimit := by
    rw [Tree.size_node] at hsizea
    omega
  unfold FoldsWell
  simp only [fold_choice]
  refine (ht.simplifies hfolder).bind ?_
  rintro ⟨test', tvars⟩ ⟨htest, ht'⟩
  obtain ⟨o, hdet⟩ := decided?_total folder ht'.built.fits
    (ht'.bindersAgree Δ hann.1.1.2) ht'.vars_eq
  unfold foldBranches
  refine (FoldM.Gives.lift hdet).bind fun o' ho => ?_
  obtain rfl : o = o' := ho.symm
  cases o with
  | some taken =>
      refine FoldM.Gives.record ?_
      cases taken with
      | true => exact ha.mono fun p hp => hta.trans hp
      | false => exact hb.mono fun p hp => htb.trans hp
  | none =>
      refine FoldM.Gives.ite (c := Tree.alphaEq .standard a b = true) (fun _ => ?_) fun _ => ?_
      · exact FoldM.Gives.record (ha.mono fun p hp => hta.trans hp)
      refine (ha.simplifies hfolder).bind ?_
      rintro ⟨a', avars⟩ ⟨hatype, ha'⟩
      refine (hb.simplifies hfolder).bind ?_
      rintro ⟨b', bvars⟩ ⟨hbtype, hb'⟩
      unfold mergeOrFinish
      refine FoldM.Gives.ite (c := Tree.alphaEq .standard a' b' = true) (fun _ => ?_) fun _ => ?_
      · exact FoldM.Gives.record (.pure (hta.trans hatype))
      · have hhead : Tree.Rebuilt (.leaf (.cond ty)) (.leaf (.cond ty)) .empty := .leaf rfl
        have hrebuilt := ((hhead.node rfl ht' htest hfits.1.1 hsizet).node rfl ha' hatype hfits.1
          hsizea).node rfl hb' hbtype hfits hsize
        rw [VarSet.empty_union_three] at hrebuilt
        exact finish_total hfolder hrebuilt hann

theorem foldsWell (hfolder : folder.Faithful) (hfits : t.Fits) (hann : t.BindersAgree Δ)
    (hsize : t.size < wordLimit) : FoldsWell folder t := by
  -- A function changes what is bound in its body, so the induction is for all bound types.
  induction t using Tree.induction_args generalizing Δ with
  | h t ih =>
  have hargs (Δ' : BoundTypes) (a : Tree) (ha : a ∈ t.args) (hann' : a.BindersAgree Δ') :
      FoldsWell folder a :=
    ih a ha (hfits.of_mem_args ha).1 hann' (Nat.lt_trans (Tree.size_lt_of_mem_args ha) hsize)
  rcases hfits.rule_cases with
    ⟨id, ty, rfl⟩ | ⟨id, arg, result, body, rfl⟩ | ⟨ty, test, a, b, rfl⟩ | hplain
  · unfold FoldsWell
    simp only [fold]
    exact .pure (.refl _)
  · exact fold_function_total hfolder hfits hsize (hargs _ body (by simp [Tree.args]) hann.2)
  · have hbranch (c : Tree) (hc : c ∈ (Tree.choice ty test a b).args) : FoldsWell folder c :=
      hargs Δ c hc (hann.of_mem_args rfl hc)
    exact fold_choice_total hfolder hfits hann hsize (hbranch test (by simp [Tree.args]))
      (hbranch a (by simp [Tree.args])) (hbranch b (by simp [Tree.args]))
  · obtain ⟨href, hhead⟩ := Tree.head_of_plain hplain
    unfold FoldsWell
    simp only [fold_plain hplain]
    refine (foldArgs_total hfolder hfits hsize href hhead fun a ha => ?_).bind ?_
    · exact hargs Δ a ha (hann.of_mem_args (Tree.lambda?_of_mem_args hhead ha) ha)
    · rintro ⟨args, vars⟩ ⟨u, hu, hrebuilt⟩
      obtain rfl : args = u.args := hu
      rw [← hrebuilt.sameSpine.head_eq]
      exact finish_total hfolder hrebuilt hann

end FoldRules

/-! ## Results -/

/-- Folding has one result, of the same type as the tree. -/
theorem Tree.fold_total {folder : Folder} (hfolder : folder.Faithful) {t : Tree} (hbuilt : t.Built)
    {Δ : BoundTypes} (hann : t.BindersAgree Δ) :
    ∃ folded : Folded, Determines (fun fuel => t.fold ⟨.standard, folder, fuel⟩) folded
      ∧ t.SameType folded.tree := by
  obtain ⟨⟨tree, vars⟩, changes, hty, hdet⟩ :=
    (FoldRules.foldsWell hfolder hbuilt.fits hann hbuilt.size_lt).exists_determines 0
  exact ⟨⟨tree, vars, changes⟩, hdet.bind (.of_eq fun _ => rfl), hty⟩

theorem Build.cond_eq_ok {test a b u : Tree} (h : Build.cond test a b = .ok u) (ht : test.Built)
    (ha : a.Built) (hb : b.Built) : u = .choice a.resultType test a b ∧ u.Built := by
  obtain ⟨hu, hbuilt⟩ := eq_of_construct h
  refine ⟨hu, hbuilt fun c hc => ?_⟩
  rcases (by simpa using hc : c = test ∨ c = a ∨ c = b) with rfl | rfl | rfl
  · exact ht
  · exact ha
  · exact hb

/-- Folding of a well-annotated tree comes to an end, full or partial. Nothing is ever put together
that does not fit, and the result is a tree of the same type, well-annotated in the same context,
in which functions hide a variable only if they did so before. -/
theorem Tree.fold_wellTyped {folder : Folder} (hfolder : folder.Faithful) {t : Tree}
    (hbuilt : t.Built) {Γ : Context} (hann : t.WellAnnotated Γ) :
    ∃ folded : Folded, Determines (fun fuel => t.fold ⟨.standard, folder, fuel⟩) folded
      ∧ (∀ fuel head, t.fold ⟨.standard, folder, fuel⟩ ≠ .error (.misfit head))
      ∧ folded.tree.Built ∧ t.SameType folded.tree ∧ folded.tree.WellAnnotated Γ
      ∧ (t.NonShadowing → folded.tree.NonShadowing) := by
  have hbinders : t.BindersAgree fun id => some (Γ id) := hann.bindersAgree fun _ => .inr rfl
  obtain ⟨folded, hdet, htype⟩ := fold_total hfolder hbuilt hbinders
  obtain ⟨⟨n, hn⟩, hany⟩ := hdet
  have hsimple := fold_simplifies rfl hfolder (hn n (Nat.le_refl n))
  have hbinders' := hsimple.bindersAgree _ hbinders
  refine ⟨folded, ⟨⟨n, hn⟩, hany⟩, fun fuel head hmisfit => ?_, hsimple.built, htype,
    hbinders'.wellAnnotated fun _ _ => rfl, hsimple.simpler.nonShadowing⟩
  rcases hany fuel with hok | hout
  · cases hmisfit.symm.trans hok
  · cases hmisfit.symm.trans hout

private def waitingChoice : Tree :=
  .node
    (.node (.leaf (.cond .int))
      (.node (.node (.leaf (.compare .lt)) (.leaf (.var 0 .int)))
        (.node (.node (.leaf (.arith .add)) (.leaf (.int 1))) (.leaf (.int 2)))))
    (.node
      (.node (.leaf (.call .int .int))
        (.node (.leaf (.lambda 1 .int .int))
          (.node (.node (.leaf (.arith .add)) (.leaf (.var 1 .int))) (.leaf (.var 0 .int)))))
      (.choice .int (.leaf (.bool true)) (.leaf (.int 4)) (.leaf (.var 2 .int))))

theorem Tree.fold_wellTyped_waitingChoice :
    waitingChoice.isFull = false
      ∧ ∃ folded : Folded,
        Determines (fun fuel => waitingChoice.fold ⟨.standard, .literal, fuel⟩) folded
        ∧ folded.changes = 2 ∧ folded.tree.Built ∧ waitingChoice.SameType folded.tree
        ∧ folded.tree.WellAnnotated (fun _ => .int) ∧ folded.tree.NonShadowing := by
  have hann : waitingChoice.WellAnnotated fun _ => .int := by decide
  obtain ⟨folded, hdet, _, hbuilt, htype, hann', hns⟩ :=
    Tree.fold_wellTyped Folder.literal_faithful (by decide) hann
  obtain rfl := hdet.eq_of_ok (show waitingChoice.fold ⟨.standard, .literal, 3⟩ = .ok _ from rfl)
  exact ⟨rfl, _, hdet, rfl, hbuilt, htype, hann', hns (by decide)⟩

end ExprTree

import ExprTree.Proofs.AnyEnvironment
import ExprTree.Proofs.FoldingCounts
import ExprTree.Tree.Build
/-!
# Runs of folding

`FoldStep` lists what folding does with a tree, one constructor for each exit of
the pass, and `Tree.fold_eq_ok_iff` says that there is nothing else. What holds
of every run is proved about these steps, and no longer about the pass.
-/

namespace ExprTree

/-! ## Steps -/

namespace FoldRules

variable (rules : FoldRules)

/-- The arguments of `t` are folded; put back in their places they give `u`, which depends on
`vars`. -/
inductive Rebuilds : Tree → Tree → VarSet → Nat → Prop where
  | leaf (s : Symbol) : Rebuilds (.leaf s) (.leaf s) .empty 0
  | node {f f' x u : Tree} {vars : VarSet} {k : Nat} {x' : Folded} :
      Rebuilds f f' vars k → x.fold rules = .ok x' → Tree.reapply f' x'.tree = .ok u →
        Rebuilds (.node f x) u (vars ∪ x'.vars) (k + x'.changes)

/-- What is left of a rebuilt tree that depends on `vars`: the tree itself, unless it is closed
and the folder puts something for its value. -/
inductive Finishes (u : Tree) (vars : VarSet) : Tree → Nat → Prop where
  | free : vars.isEmpty = false → Finishes u vars u 0
  | failing : vars.isEmpty = true → rules.value? u = .ok none → Finishes u vars u 0
  | kept {v : Value} : vars.isEmpty = true → rules.value? u = .ok (some v) →
      rules.folder u v = none → Finishes u vars u 0
  | computed {v : Value} {t : Tree} : vars.isEmpty = true → rules.value? u = .ok (some v) →
      rules.folder u v = some t → Finishes u vars t (if u.isLeaf then 0 else 1)

inductive Picks (test : Folded) (a b : Tree) : Tree → Prop where
  | decided (taken : Bool) : rules.decided? test.tree test.vars = .ok (some taken) →
      Picks test a b (if taken then a else b)
  | equal : rules.decided? test.tree test.vars = .ok none →
      Tree.alphaEq rules.binders a b = true → Picks test a b a

end FoldRules

/-- Whether full applications of the symbol have a folding rule of their own. -/
def Symbol.hasRule : Symbol → Bool
  | var _ _ | lambda _ _ _ | cond _ => true
  | _ => false

abbrev Tree.choice (ty : Ty) (test a b : Tree) : Tree :=
  .node (.node (.node (.leaf (.cond ty)) test) a) b

open FoldRules in
inductive FoldStep (rules : FoldRules) : Tree → Folded → Prop where
  | var (id : VarId) (ty : Ty) :
      FoldStep rules (.leaf (.var id ty)) ⟨.leaf (.var id ty), .singleton id, 0⟩
  | function {id : VarId} {arg result : Ty} {body u : Tree} {body' : Folded} :
      body.fold rules = .ok body' →
        Tree.reapply (.leaf (.lambda id arg result)) body'.tree = .ok u →
        FoldStep rules (.node (.leaf (.lambda id arg result)) body)
          ⟨u, body'.vars.erase id, body'.changes⟩
  | picked {ty : Ty} {test a b c : Tree} {test' c' : Folded} :
      test.fold rules = .ok test' → Picks rules test' a b c → c.fold rules = .ok c' →
        FoldStep rules (.choice ty test a b) ⟨c'.tree, c'.vars, test'.changes + (1 + c'.changes)⟩
  | merged {ty : Ty} {test a b : Tree} {test' a' b' : Folded} :
      test.fold rules = .ok test' → rules.decided? test'.tree test'.vars = .ok none →
        Tree.alphaEq rules.binders a b = false → a.fold rules = .ok a' → b.fold rules = .ok b' →
        Tree.alphaEq rules.binders a'.tree b'.tree = true →
        FoldStep rules (.choice ty test a b)
          ⟨a'.tree, a'.vars ∪ b'.vars, test'.changes + (a'.changes + (b'.changes + 1))⟩
  | choice {ty : Ty} {test a b u r : Tree} {test' a' b' : Folded} {vars : VarSet} {i j : Nat} :
      test.fold rules = .ok test' → rules.decided? test'.tree test'.vars = .ok none →
        Tree.alphaEq rules.binders a b = false → a.fold rules = .ok a' → b.fold rules = .ok b' →
        Tree.alphaEq rules.binders a'.tree b'.tree = false →
        Rebuilds rules (.choice ty test a b) u vars i → Finishes rules u vars r j →
        FoldStep rules (.choice ty test a b) ⟨r, vars, i + j⟩
  | plain {t u r : Tree} {vars : VarSet} {i j : Nat} :
      (t.isFull = true → t.head.hasRule = false) → Rebuilds rules t u vars i →
        Finishes rules u vars r j → FoldStep rules t ⟨r, vars, i + j⟩

/-! ## The pass takes these steps -/

theorem Tree.reassemble_concat_iff {s : Symbol} {args : List Tree} {a u : Tree} :
    reassemble s (args ++ [a]) = .ok u
      ↔ ∃ f, reassemble s args = .ok f ∧ reapply f a = .ok u := by
  unfold reassemble
  rw [List.foldlM_append]
  simp only [List.foldlM_cons, List.foldlM_nil, bind_pure]
  cases args.foldlM reapply (leaf s) with
  | error e =>
      constructor
      · intro h
        cases h
      · rintro ⟨f, hf, _⟩
        cases hf
  | ok f =>
      constructor
      · exact fun h => ⟨f, rfl, h⟩
      · rintro ⟨f', hf', h⟩
        obtain rfl := Except.ok.inj hf'
        exact h

theorem Tree.reapply_eq_ok_iff {func arg t : Tree} :
    reapply func arg = .ok t ↔ app func arg = .ok t := by
  rw [app_eq_ok_iff]
  unfold reapply join
  by_cases hfit : (arg.isFull && func.nextArg? == some arg.resultType) = true
  · obtain ⟨hfull, hnext⟩ : arg.isFull = true ∧ func.nextArg? = some arg.resultType := by
      simpa using hfit
    by_cases hsize : func.size + arg.size < wordLimit
    · simp [hfull, hnext, hsize, eq_comm]
    · simp [hfull, hnext, hsize]
  · rw [if_neg hfit]
    constructor
    · intro h
      cases h
    · rintro ⟨_, hnext, hfull, _⟩
      exact absurd (by simp [hfull, hnext]) hfit

theorem Tree.eq_of_reapply {func arg t : Tree} (h : reapply func arg = .ok t) :
    t = node func arg :=
  (app_eq_ok_iff.1 (reapply_eq_ok_iff.1 h)).1

theorem Tree.eq_of_foldlM {step : Tree → Tree → Except Fault Tree}
    (hstep : ∀ f a t, step f a = .ok t → app f a = .ok t) {f : Tree} {args : List Tree} {u : Tree}
    (h : args.foldlM step f = .ok u) :
    u = args.foldl node f ∧ (f.Built → (∀ a ∈ args, a.Built) → u.Built) := by
  induction args generalizing f with
  | nil =>
      obtain rfl := Except.ok.inj h
      exact ⟨rfl, fun hf _ => hf⟩
  | cons a args ih =>
      rw [List.foldlM_cons] at h
      cases hfa : step f a with
      | error e =>
          rw [hfa] at h
          cases h
      | ok t =>
          rw [hfa] at h
          have happ := hstep f a t hfa
          obtain ⟨rfl, _⟩ := app_eq_ok_iff.1 happ
          obtain ⟨hu, hbuilt⟩ := ih h
          refine ⟨hu, fun hf hargs => hbuilt ⟨hf, hargs a (by simp), happ⟩ fun b hb => ?_⟩
          exact hargs b (by simp [hb])

theorem Tree.eq_of_reassemble {s : Symbol} {args : List Tree} {u : Tree}
    (h : reassemble s args = .ok u) : u = args.foldl node (leaf s) :=
  (eq_of_foldlM (fun _ _ _ => reapply_eq_ok_iff.1) h).1

theorem Build.eq_of_construct {s : Symbol} {args : List Tree} {u : Tree}
    (h : construct s args = .ok u) :
    u = args.foldl .node (.leaf s) ∧ ((∀ a ∈ args, a.Built) → u.Built) := by
  have happly : Tree.apply s args = .ok u := by
    unfold construct at h
    split at h
    · cases h
    · exact h
  obtain ⟨hu, hbuilt⟩ := Tree.eq_of_foldlM (fun _ _ _ happ => happ) happly
  exact ⟨hu, hbuilt trivial⟩

theorem VarSet.empty_union_three (a b c : VarSet) : empty ∪ a ∪ b ∪ c = a ∪ (b ∪ c) := by
  refine ext fun x => ?_
  simp [or_assoc]

namespace FoldRules

variable {rules : FoldRules}

theorem fold_yields_iff {t : Tree} {folded : Folded} :
    (rules.fold t).Yields (folded.tree, folded.vars) folded.changes
      ↔ t.fold rules = .ok folded := by
  constructor
  · intro h
    have h0 := h 0
    rw [Nat.zero_add] at h0
    show (rules.fold t 0 >>= _) = _
    rw [h0]
    rfl
  · intro h
    change (rules.fold t 0 >>= _) = _ at h
    cases hrun : rules.fold t 0 with
    | error e =>
        rw [hrun] at h
        cases h
    | ok p =>
        rw [hrun] at h
        obtain rfl := Except.ok.inj h
        obtain ⟨k, hk, hyields⟩ := rules.fold_foldArgs_counts.1 t hrun
        rw [Nat.zero_add] at hk
        rw [← hk] at hyields
        exact hyields

theorem finish_yields_iff {head : Symbol} {args : List Tree} {vars vars' : VarSet} {r : Tree}
    {k : Nat} :
    (rules.finish head args vars).Yields (r, vars') k
      ↔ vars' = vars ∧ ∃ u, Tree.reassemble head args = .ok u ∧ rules.Finishes u vars r k := by
  unfold finish
  rw [FoldM.yields_lift_bind_iff]
  constructor
  · rintro ⟨u, hu, h⟩
    split at h
    · rename_i hempty
      obtain ⟨o, ho, h⟩ := FoldM.yields_lift_bind_iff.1 h
      cases o with
      | none =>
          obtain ⟨hr, rfl⟩ := FoldM.yields_pure_iff.1 h
          obtain ⟨rfl, rfl⟩ := Prod.mk.inj hr
          exact ⟨rfl, r, hu, .failing hempty ho⟩
      | some v =>
          simp only at h
          cases hput : rules.folder u v with
          | none =>
              simp only [hput] at h
              obtain ⟨hr, rfl⟩ := FoldM.yields_pure_iff.1 h
              obtain ⟨rfl, rfl⟩ := Prod.mk.inj hr
              exact ⟨rfl, r, hu, .kept hempty ho hput⟩
          | some t =>
              simp only [hput] at h
              obtain ⟨hr, rfl⟩ := FoldM.yields_record_unless_iff.1 h
              obtain ⟨rfl, rfl⟩ := Prod.mk.inj hr
              exact ⟨rfl, u, hu, .computed hempty ho hput⟩
    · rename_i hfree
      obtain ⟨hr, rfl⟩ := FoldM.yields_pure_iff.1 h
      obtain ⟨rfl, rfl⟩ := Prod.mk.inj hr
      exact ⟨rfl, r, hu, .free (by simpa using hfree)⟩
  · rintro ⟨rfl, u, hu, h⟩
    refine ⟨u, hu, ?_⟩
    cases h with
    | free hfree =>
        simp only [hfree]
        exact FoldM.yields_pure_iff.2 ⟨rfl, rfl⟩
    | failing hempty ho =>
        simp only [hempty, if_true]
        exact FoldM.yields_lift_bind_iff.2 ⟨_, ho, FoldM.yields_pure_iff.2 ⟨rfl, rfl⟩⟩
    | kept hempty ho hput =>
        simp only [hempty, if_true]
        refine FoldM.yields_lift_bind_iff.2 ⟨_, ho, ?_⟩
        simp only [hput]
        exact FoldM.yields_pure_iff.2 ⟨rfl, rfl⟩
    | computed hempty ho hput =>
        simp only [hempty, if_true]
        refine FoldM.yields_lift_bind_iff.2 ⟨_, ho, ?_⟩
        simp only [hput]
        exact FoldM.yields_record_unless_iff.2 ⟨rfl, rfl⟩

theorem rebuilds_iff {t u : Tree} {vars : VarSet} {k : Nat} :
    rules.Rebuilds t u vars k
      ↔ ∃ args, (rules.foldArgs t).Yields (args, vars) k
        ∧ Tree.reassemble t.head args = .ok u := by
  obtain ⟨hfold, hfoldArgs⟩ := rules.fold_foldArgs_counts
  induction t generalizing u vars k with
  | leaf s =>
      simp only [foldArgs, FoldM.yields_pure_iff]
      constructor
      · intro h
        cases h
        exact ⟨[], ⟨rfl, rfl⟩, rfl⟩
      · rintro ⟨args, ⟨hargs, rfl⟩, hu⟩
        obtain ⟨rfl, rfl⟩ := Prod.mk.inj hargs
        obtain rfl := Except.ok.inj hu
        exact .leaf s
  | node f x ihf _ =>
      simp only [foldArgs]
      constructor
      · intro h
        cases h with
        | @node _ f' _ _ vars k x' hf hx hu =>
            obtain ⟨args, hargs, hf'⟩ := ihf.1 hf
            refine ⟨args ++ [x'.tree], ?_, Tree.reassemble_concat_iff.2 ⟨f', hf', hu⟩⟩
            refine hargs.bind (FoldM.Yields.bind (j := 0) (fold_yields_iff.2 hx) ?_)
            exact .pure _
      · rintro ⟨args, hargs, hu⟩
        obtain ⟨⟨args', vars'⟩, i, _, hf, hrest, rfl⟩ :=
          (FoldM.yields_bind_iff (hfoldArgs f) fun _ => (hfold x).bind fun _ => .pure _).1 hargs
        obtain ⟨⟨x', xvars⟩, j, _, hx, hpure, rfl⟩ :=
          (FoldM.yields_bind_iff (hfold x) fun _ => .pure _).1 hrest
        obtain ⟨hpair, rfl⟩ := FoldM.yields_pure_iff.1 hpure
        obtain ⟨rfl, rfl⟩ := Prod.mk.inj hpair
        obtain ⟨f', hf', hu⟩ := Tree.reassemble_concat_iff.1 hu
        have hx' : x.fold rules = .ok ⟨x', xvars, j⟩ := fold_yields_iff.1 hx
        exact .node (ihf.2 ⟨args', hf, hf'⟩) hx' hu

/-- A condition is rebuilt from its folded test and branches. -/
theorem rebuilds_choice_iff {ty : Ty} {test a b u : Tree} {test' a' b' : Folded} {vars : VarSet}
    {k : Nat} (ht : test.fold rules = .ok test') (ha : a.fold rules = .ok a')
    (hb : b.fold rules = .ok b') :
    rules.Rebuilds (.choice ty test a b) u vars k
      ↔ Tree.reassemble (.cond ty) [test'.tree, a'.tree, b'.tree] = .ok u
        ∧ vars = test'.vars ∪ (a'.vars ∪ b'.vars)
        ∧ k = test'.changes + (a'.changes + b'.changes) := by
  have hvars := VarSet.empty_union_three test'.vars a'.vars b'.vars
  have hargs : (rules.foldArgs (.choice ty test a b)).Yields
      ([test'.tree, a'.tree, b'.tree], test'.vars ∪ (a'.vars ∪ b'.vars))
      (test'.changes + (a'.changes + b'.changes)) := by
    rw [← hvars]
    simp only [foldArgs, pure_bind, bind_assoc, List.nil_append, List.cons_append]
    refine (fold_yields_iff.2 ht).bind ((fold_yields_iff.2 ha).bind ?_)
    refine FoldM.Yields.bind (j := 0) (fold_yields_iff.2 hb) ?_
    exact .pure _
  rw [rebuilds_iff]
  constructor
  · rintro ⟨args, hargs', hu⟩
    obtain ⟨hpair, rfl⟩ := hargs'.unique hargs
    obtain ⟨rfl, rfl⟩ := Prod.mk.inj hpair
    exact ⟨hu, rfl, rfl⟩
  · rintro ⟨hu, rfl, rfl⟩
    exact ⟨_, hargs, hu⟩

theorem fold_plain {t : Tree} (hplain : t.isFull = true → t.head.hasRule = false) :
    rules.fold t = (do
      let (args, vars) ← rules.foldArgs t
      rules.finish t.head args vars : FoldM (Tree × VarSet)) := by
  cases t with
  | leaf s =>
      cases s with
      | var id ty => cases hplain rfl
      | _ => simp only [fold, foldArgs, pure_bind, Tree.head]
  | node f x =>
      rw [fold]
      · simp only [foldArgs, bind_assoc, pure_bind, Tree.head_node]
      · rintro id arg result rfl
        cases hplain rfl
      · rintro ty test a rfl
        cases hplain rfl

end FoldRules

theorem FoldStep.fold_eq {rules : FoldRules} {t : Tree} {folded : Folded}
    (h : FoldStep rules t folded) : t.fold rules = .ok folded := by
  rw [← FoldRules.fold_yields_iff]
  cases h with
  | var id ty =>
      simp only [FoldRules.fold]
      exact .pure _
  | function hbody hu =>
      simp only [FoldRules.fold]
      refine FoldM.Yields.bind (j := 0) (FoldRules.fold_yields_iff.2 hbody) ?_
      refine FoldM.yields_lift_bind_iff.2 ⟨_, ?_, .pure _⟩
      simpa [Tree.reassemble] using hu
  | picked ht hpick hc =>
      have hc := FoldRules.fold_yields_iff.2 hc
      simp only [FoldRules.fold]
      refine (FoldRules.fold_yields_iff.2 ht).bind ?_
      cases hpick with
      | decided taken hdec =>
          refine FoldM.yields_lift_bind_iff.2 ⟨_, hdec, ?_⟩
          refine FoldM.Yields.bind (i := 1) (fun _ => rfl) ?_
          cases taken with
          | true => exact hc
          | false => exact hc
      | equal hdec heq =>
          refine FoldM.yields_lift_bind_iff.2 ⟨_, hdec, ?_⟩
          simp only [heq, if_true]
          exact FoldM.Yields.bind (i := 1) (fun _ => rfl) hc
  | merged ht hdec hne ha hb heq =>
      simp only [FoldRules.fold]
      refine (FoldRules.fold_yields_iff.2 ht).bind ?_
      refine FoldM.yields_lift_bind_iff.2 ⟨_, hdec, ?_⟩
      simp only [hne]
      refine (FoldRules.fold_yields_iff.2 ha).bind ((FoldRules.fold_yields_iff.2 hb).bind ?_)
      simp only [heq, if_true]
      exact fun _ => rfl
  | choice ht hdec hne ha hb hne' hu hr =>
      obtain ⟨hput, rfl, rfl⟩ := (FoldRules.rebuilds_choice_iff ht ha hb).1 hu
      simp only [FoldRules.fold, Nat.add_assoc]
      refine (FoldRules.fold_yields_iff.2 ht).bind ?_
      refine FoldM.yields_lift_bind_iff.2 ⟨_, hdec, ?_⟩
      simp only [hne]
      refine (FoldRules.fold_yields_iff.2 ha).bind ((FoldRules.fold_yields_iff.2 hb).bind ?_)
      simp only [hne']
      exact FoldRules.finish_yields_iff.2 ⟨rfl, _, hput, hr⟩
  | plain hplain hu hr =>
      rw [FoldRules.fold_plain hplain]
      obtain ⟨args, hargs, hu⟩ := FoldRules.rebuilds_iff.1 hu
      exact hargs.bind (FoldRules.finish_yields_iff.2 ⟨rfl, _, hu, hr⟩)

theorem FoldRules.Rebuilds.sameSpine {rules : FoldRules} {t u : Tree} {vars : VarSet} {k : Nat}
    (h : rules.Rebuilds t u vars k) : Tree.SameSpine t u := by
  induction h with
  | leaf s => exact .leaf s
  | node _ _ hu ih =>
      obtain rfl := Tree.eq_of_reapply hu
      exact .node ih

/-- A full application of a symbol with a rule of its own is what the rule is for. -/
theorem Tree.cases_of_hasRule {f x : Tree} (hf : f.isFull = false)
    (hfull : (node f x).isFull = true) (hrule : f.head.hasRule = true) :
    (∃ id arg result, f = leaf (.lambda id arg result))
      ∨ ∃ ty test a, f = node (node (leaf (.cond ty)) test) a := by
  have hlt : f.applied < f.head.signature.args.length := by
    simpa [isFull, nextArg?, signature] using hf
  have hge : f.head.signature.args.length ≤ f.applied + 1 := by
    simpa [isFull, nextArg?, signature] using hfull
  rcases f with s | ⟨s | ⟨s | ⟨f, _⟩, _⟩, _⟩
  · cases s with
    | lambda id arg result => exact .inl ⟨id, arg, result, rfl⟩
    | _ => simp [head, applied, Symbol.hasRule, Symbol.signature] at hlt hge hrule
  · cases s <;> simp [head, applied, Symbol.hasRule, Symbol.signature] at hlt hge hrule
  · cases s with
    | cond ty => exact .inr ⟨ty, _, _, rfl⟩
    | _ => simp [head, applied, Symbol.signature] at hlt hge
  · have harity := arity_le f.head
    simp only [head, applied] at hlt
    omega

namespace FoldRules

variable {rules : FoldRules}

theorem foldStep_of_mergeOrFinish {ty : Ty} {test a b r : Tree} {test' a' b' : Folded}
    {vars : VarSet} {k : Nat} (ht : test.fold rules = .ok test')
    (hdec : rules.decided? test'.tree test'.vars = .ok none)
    (hne : Tree.alphaEq rules.binders a b = false) (ha : a.fold rules = .ok a')
    (hb : b.fold rules = .ok b')
    (h : (rules.mergeOrFinish ty (test'.tree, test'.vars) (a'.tree, a'.vars)
      (b'.tree, b'.vars)).Yields (r, vars) k) :
    FoldStep rules (.choice ty test a b)
      ⟨r, vars, test'.changes + (a'.changes + (b'.changes + k))⟩ := by
  unfold mergeOrFinish at h
  split at h
  · rename_i heq
    obtain ⟨_, hpure, rfl⟩ := (FoldM.yields_record_bind_iff (.pure _)).1 h
    obtain ⟨hpair, rfl⟩ := FoldM.yields_pure_iff.1 hpure
    obtain ⟨rfl, rfl⟩ := Prod.mk.inj hpair
    exact .merged ht hdec hne ha hb heq
  · rename_i hne'
    obtain ⟨rfl, u, hu, hr⟩ := finish_yields_iff.1 h
    have hne' : Tree.alphaEq rules.binders a'.tree b'.tree = false := by simpa using hne'
    have hrebuilt := (rebuilds_choice_iff ht ha hb).2 ⟨hu, rfl, rfl⟩
    have hstep := FoldStep.choice ht hdec hne ha hb hne' hrebuilt hr
    simpa only [Nat.add_assoc] using hstep

theorem foldStep_of_foldBranches {ty : Ty} {test a b r : Tree} {test' : Folded} {vars : VarSet}
    {k : Nat} (ht : test.fold rules = .ok test')
    (h : (rules.foldBranches ty (test'.tree, test'.vars) a b).Yields (r, vars) k) :
    FoldStep rules (.choice ty test a b) ⟨r, vars, test'.changes + k⟩ := by
  have hfold := rules.fold_counts
  have hmerge := rules.mergeOrFinish_counts ty (test'.tree, test'.vars)
  unfold foldBranches at h
  obtain ⟨o, hdec, hrest⟩ := FoldM.yields_lift_bind_iff.1 h
  cases o with
  | some taken =>
      obtain ⟨j, hbranch, rfl⟩ :=
        (FoldM.yields_record_bind_iff (.ite (hfold a) (hfold b))).1 hrest
      have hc : Tree.fold rules (if taken then a else b) = .ok ⟨r, vars, j⟩ := by
        cases taken with
        | true => exact fold_yields_iff.1 hbranch
        | false => exact fold_yields_iff.1 hbranch
      exact .picked ht (.decided taken hdec) hc
  | none =>
      simp only at hrest
      split at hrest
      · rename_i heq
        obtain ⟨j, hbranch, rfl⟩ := (FoldM.yields_record_bind_iff (hfold a)).1 hrest
        have hc : a.fold rules = .ok ⟨r, vars, j⟩ := fold_yields_iff.1 hbranch
        exact .picked ht (.equal hdec heq) hc
      · rename_i hne
        obtain ⟨⟨a', avars⟩, i, _, ha, htail, rfl⟩ :=
          (FoldM.yields_bind_iff (hfold a) fun _ => (hfold b).bind fun _ => hmerge _ _).1 hrest
        obtain ⟨⟨b', bvars⟩, j, l, hb, hend, rfl⟩ :=
          (FoldM.yields_bind_iff (hfold b) fun _ => hmerge _ _).1 htail
        have ha : a.fold rules = .ok ⟨a', avars, i⟩ := fold_yields_iff.1 ha
        have hb : b.fold rules = .ok ⟨b', bvars, j⟩ := fold_yields_iff.1 hb
        exact foldStep_of_mergeOrFinish ht hdec (by simpa using hne) ha hb hend

end FoldRules

theorem foldStep_of_fold {rules : FoldRules} {t : Tree} {folded : Folded}
    (h : t.fold rules = .ok folded) : FoldStep rules t folded := by
  have hfold := rules.fold_counts
  obtain ⟨r, vars, k⟩ := folded
  replace h : (rules.fold t).Yields (r, vars) k := FoldRules.fold_yields_iff.2 h
  revert h
  fun_cases FoldRules.fold rules t with
  | case1 id ty =>
      intro h
      obtain ⟨hpair, rfl⟩ := FoldM.yields_pure_iff.1 h
      obtain ⟨rfl, rfl⟩ := Prod.mk.inj hpair
      exact .var id ty
  | case2 s hs =>
      intro h
      obtain ⟨rfl, u, hu, hr⟩ := FoldRules.finish_yields_iff.1 h
      obtain rfl := Except.ok.inj hu
      have hplain : (Tree.leaf s).isFull = true → s.hasRule = false := by
        intro hfull
        cases s with
        | var id ty => exact absurd rfl (hs id ty)
        | lambda => cases hfull
        | cond => cases hfull
        | _ => rfl
      simpa using FoldStep.plain hplain (.leaf s) hr
  | case3 id arg result body =>
      intro h
      obtain ⟨⟨body', bvars⟩, i, _, hbody, hrest, rfl⟩ :=
        (FoldM.yields_bind_iff (hfold body) fun _ =>
          (FoldM.Counts.lift _).bind fun _ => .pure _).1 h
      obtain ⟨u, hu, hpure⟩ := FoldM.yields_lift_bind_iff.1 hrest
      obtain ⟨hpair, rfl⟩ := FoldM.yields_pure_iff.1 hpure
      obtain ⟨rfl, rfl⟩ := Prod.mk.inj hpair
      have hbody : body.fold rules = .ok ⟨body', bvars, i⟩ := FoldRules.fold_yields_iff.1 hbody
      exact .function hbody (by simpa [Tree.reassemble] using hu)
  | case4 ty test a b =>
      intro h
      obtain ⟨⟨test', tvars⟩, i, j, ht, hrest, rfl⟩ := (FoldM.yields_bind_iff (hfold test) fun p =>
        rules.foldBranches_counts ty p (hfold a) (hfold b)).1 h
      have ht : test.fold rules = .ok ⟨test', tvars, i⟩ := FoldRules.fold_yields_iff.1 ht
      exact FoldRules.foldStep_of_foldBranches ht hrest
  | case5 f x hlambda hcond =>
      intro h
      obtain ⟨⟨args, avars⟩, i, _, hargs, htail, rfl⟩ :=
        (FoldM.yields_bind_iff (rules.foldArgs_counts f) fun _ => (hfold x).bind fun _ =>
          rules.finish_counts _ _ _).1 h
      obtain ⟨⟨x', xvars⟩, j, l, hx, hend, rfl⟩ :=
        (FoldM.yields_bind_iff (hfold x) fun _ => rules.finish_counts _ _ _).1 htail
      obtain ⟨rfl, u, hput, hr⟩ := FoldRules.finish_yields_iff.1 hend
      obtain ⟨f', hf', hu⟩ := Tree.reassemble_concat_iff.1 hput
      have hx : x.fold rules = .ok ⟨x', xvars, j⟩ := FoldRules.fold_yields_iff.1 hx
      have hfunc := FoldRules.rebuilds_iff.2 ⟨args, hargs, hf'⟩
      have hopen : f.isFull = false := by
        obtain ⟨_, hnext, _⟩ := Tree.app_eq_ok_iff.1 (Tree.reapply_eq_ok_iff.1 hu)
        rw [← hfunc.sameSpine.isFull_eq, Tree.isFull, hnext]
        rfl
      have hplain : (Tree.node f x).isFull = true → f.head.hasRule = false := by
        intro hfull
        by_contra hrule
        rcases Tree.cases_of_hasRule hopen hfull (by simpa using hrule) with
          ⟨id, arg, result, rfl⟩ | ⟨ty, test, a, rfl⟩
        · exact absurd rfl (hlambda id arg result)
        · exact absurd rfl (hcond ty test a)
      have hstep := FoldStep.plain hplain (.node hfunc hx hu) hr
      simpa only [Nat.add_assoc] using hstep

theorem Tree.fold_eq_ok_iff {rules : FoldRules} {t : Tree} {folded : Folded} :
    t.fold rules = .ok folded ↔ FoldStep rules t folded :=
  ⟨foldStep_of_fold, FoldStep.fold_eq⟩

/-! ## Runs by rule -/

namespace Tree

variable {rules : FoldRules} {folded : Folded}

theorem fold_function_inv {id : VarId} {arg result : Ty} {body : Tree}
    (h : (node (leaf (.lambda id arg result)) body).fold rules = .ok folded) :
    ∃ body', body.fold rules = .ok body'
      ∧ folded.tree = node (leaf (.lambda id arg result)) body'.tree := by
  cases fold_eq_ok_iff.1 h with
  | @function _ _ _ _ _ body' hbody hu => exact ⟨body', hbody, eq_of_reapply hu⟩
  | plain hplain => cases hplain rfl

theorem fold_plain_inv {t : Tree} (hplain : t.isFull = true → t.head.hasRule = false)
    (h : t.fold rules = .ok folded) :
    ∃ u i j, rules.Rebuilds t u folded.vars i ∧ rules.Finishes u folded.vars folded.tree j := by
  cases fold_eq_ok_iff.1 h with
  | var => cases hplain rfl
  | function => cases hplain rfl
  | picked => cases hplain rfl
  | merged => cases hplain rfl
  | choice => cases hplain rfl
  | @plain _ u _ _ i j _ hu hr => exact ⟨u, i, j, hu, hr⟩

end Tree

/-- A run on a condition whose test is folded to `test'` with decision `d`. -/
structure ChoiceRun (rules : FoldRules) (ty : Ty) (test a b : Tree) (folded test' : Folded)
    (d : Option Bool) : Prop where
  test_fold : test.fold rules = .ok test'
  decision : rules.decided? test'.tree test'.vars = .ok d
  of_decided : ∀ taken, d = some taken →
    ∃ c, (if taken then a else b).fold rules = .ok c ∧ folded.tree = c.tree
  of_equal : d = none → Tree.alphaEq rules.binders a b = true →
    ∃ a', a.fold rules = .ok a' ∧ folded.tree = a'.tree
  of_different : d = none → Tree.alphaEq rules.binders a b = false →
    ∃ a' b', a.fold rules = .ok a' ∧ b.fold rules = .ok b'
      ∧ (Tree.alphaEq rules.binders a'.tree b'.tree = true → folded.tree = a'.tree)
      ∧ (Tree.alphaEq rules.binders a'.tree b'.tree = false →
        ∃ u i j, rules.Rebuilds (.choice ty test a b) u folded.vars i
          ∧ rules.Finishes u folded.vars folded.tree j)

theorem Tree.fold_choice_inv {rules : FoldRules} {ty : Ty} {test a b : Tree} {folded : Folded}
    (h : (choice ty test a b).fold rules = .ok folded) :
    ∃ test' d, ChoiceRun rules ty test a b folded test' d := by
  cases fold_eq_ok_iff.1 h with
  | @picked _ _ _ _ c test' c' ht hpick hc =>
      cases hpick with
      | decided taken hdec =>
          refine ⟨test', some taken, ht, hdec, ?_, fun hd => ?_, fun hd => ?_⟩
          · intro taken' htaken
            obtain rfl := Option.some.inj htaken
            exact ⟨c', hc, rfl⟩
          · cases hd
          · cases hd
      | equal hdec heq =>
          refine ⟨test', none, ht, hdec, fun _ hd => ?_, fun _ _ => ⟨c', hc, rfl⟩, fun _ hne => ?_⟩
          · cases hd
          · simp [heq] at hne
  | @merged _ _ _ _ test' a' b' ht hdec hne ha hb heq =>
      refine ⟨test', none, ht, hdec, fun _ hd => ?_, fun _ heq' => ?_, fun _ _ => ?_⟩
      · cases hd
      · simp [hne] at heq'
      · exact ⟨a', b', ha, hb, fun _ => rfl, fun hne' => by simp [heq] at hne'⟩
  | @choice _ _ _ _ u _ test' a' b' _ i j ht hdec hne ha hb hne' hu hr =>
      refine ⟨test', none, ht, hdec, fun _ hd => ?_, fun _ heq' => ?_, fun _ _ => ?_⟩
      · cases hd
      · simp [hne] at heq'
      · exact ⟨a', b', ha, hb, fun heq' => by simp [hne'] at heq', fun _ => ⟨u, i, j, hu, hr⟩⟩
  | plain hplain => cases hplain rfl

theorem ChoiceRun.tree_eq_of_equal {rules : FoldRules} {ty : Ty} {test a b : Tree}
    {folded test' : Folded} {d : Option Bool} (h : ChoiceRun rules ty test a b folded test' d)
    (heq : Tree.alphaEq rules.binders a b = true) :
    ∃ c, (a.fold rules = .ok c ∨ b.fold rules = .ok c) ∧ folded.tree = c.tree := by
  cases d with
  | none =>
      obtain ⟨a', ha, htree⟩ := h.of_equal rfl heq
      exact ⟨a', .inl ha, htree⟩
  | some taken =>
      obtain ⟨c, hc, htree⟩ := h.of_decided taken rfl
      cases taken with
      | true => exact ⟨c, .inl hc, htree⟩
      | false => exact ⟨c, .inr hc, htree⟩

end ExprTree

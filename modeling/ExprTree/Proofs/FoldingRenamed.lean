import ExprTree.Proofs.FoldingTotal
import ExprTree.Proofs.Nameless
/-!
# Folding and the names of bound variables

Trees that differ in the names of their bound variables only are folded alike:
the same tests are decided, the same branches are merged and the same parts are
computed, so that the results differ in such names only. Inside a function the
names of free variables differ as well; there the two trees are compared under
the pairs of binders around them.
-/

namespace ExprTree

/-! ## Equivalence and rules -/

namespace Tree

theorem hasRule_congr {pairs : List (VarId × VarId)} {s t : Tree}
    (h : alphaEqUnder .standard pairs s t = true) : s.head.hasRule = t.head.hasRule := by
  induction s generalizing pairs t with
  | leaf s =>
      cases t with
      | node g y => simp [alphaEqUnder] at h
      | leaf t =>
          rcases Symbol.alphaEqUnder_cases h with
            ⟨x, y, ty, rfl, rfl, _⟩ | ⟨⟨u, hu⟩, ⟨v, hv⟩, _⟩ | ⟨rfl, _⟩
          · rfl
          · obtain ⟨_, _, rfl⟩ := Symbol.lambda?_eq_some hu
            obtain ⟨_, _, rfl⟩ := Symbol.lambda?_eq_some hv
            rfl
          · rfl
  | node f x ihf _ =>
      cases t with
      | leaf t => simp [alphaEqUnder] at h
      | node g y =>
          rcases alphaEqUnder_node_cases h with ⟨u, v, hu, hv, _, _⟩ | ⟨_, _, hfg, _⟩
          · obtain ⟨_, _, rfl⟩ := binder?_eq_some hu
            obtain ⟨_, _, rfl⟩ := binder?_eq_some hv
            rfl
          · show f.head.hasRule = g.head.hasRule
            exact ihf hfg

theorem alphaEqUnder_choice {pairs : List (VarId × VarId)} {ty : Ty} {test a b t : Tree}
    (h : alphaEqUnder .standard pairs (choice ty test a b) t = true) :
    ∃ test' a' b', t = choice ty test' a' b' ∧ alphaEqUnder .standard pairs test test' = true
      ∧ alphaEqUnder .standard pairs a a' = true ∧ alphaEqUnder .standard pairs b b' = true := by
  obtain ⟨f, b', rfl, hf, hb⟩ := alphaEqUnder_application rfl h
  obtain ⟨f', a', rfl, hf', ha⟩ := alphaEqUnder_application rfl hf
  obtain ⟨g, test', rfl, hg, ht⟩ := alphaEqUnder_application rfl hf'
  cases g with
  | node => simp [alphaEqUnder] at hg
  | leaf s =>
      rcases Symbol.alphaEqUnder_cases hg with ⟨_, _, _, hs, _⟩ | ⟨⟨_, hu⟩, _⟩ | ⟨rfl, _⟩
      · cases hs
      · cases hu
      · exact ⟨test', a', b', rfl, ht, ha, hb⟩

end Tree

/-! ## What evaluation finds out -/

theorem Value.Stands.literal?_eq {ty : Ty} {v w : Value} {x : ty.Carrier} (hv : v.Stands ty x)
    (hw : w.Stands ty x) : v.literal? = w.literal? := by
  cases ty with
  | bool => rw [hv.unique rfl hw]
  | int => rw [hv.unique rfl hw]
  | fn A B =>
      have hnone {v : Value} (hv : v.Stands (.fn A B) x) : v.literal? = none := by
        obtain ⟨_, _, hread, hmeans⟩ := hv
        cases hmeans
        cases hread
        rfl
      rw [hnone hv, hnone hw]

abbrev FoldRules.literals (fuel : Nat) : FoldRules :=
  ⟨.standard, .literal, fuel⟩

def Symbol.truth? : Symbol → Option Bool
  | bool b => some b
  | _ => none

namespace FoldRules

/-- The literal that folding finds for a tree that depends on `vars`, if the tree is closed and has
a value with one. -/
inductive Finds (fuel : Nat) (u : Tree) (vars : VarSet) : Option Symbol → Prop where
  | free : vars.isEmpty = false → Finds fuel u vars none
  | closed {o : Option Value} : vars.isEmpty = true → value? (literals fuel) u = .ok o →
      Finds fuel u vars (o.bind Value.literal?)

theorem Finishes.finds {fuel : Nat} {u r : Tree} {vars : VarSet} {j : Nat}
    (h : (literals fuel).Finishes u vars r j) :
    ∃ l, Finds fuel u vars l ∧ r = l.elim u Tree.leaf := by
  cases h with
  | free hfree => exact ⟨none, .free hfree, rfl⟩
  | failing hempty hv => exact ⟨none, .closed hempty hv, rfl⟩
  | @kept v hempty hv hkeep =>
      have hnone : v.literal? = none := Option.map_eq_none_iff.1 hkeep
      exact ⟨v.literal?, .closed hempty hv, by rw [hnone]; rfl⟩
  | @computed v t hempty hv hput =>
      obtain ⟨s, hs, rfl⟩ := Option.map_eq_some_iff.1 hput
      exact ⟨v.literal?, .closed hempty hv, by rw [hs]; rfl⟩

theorem decided?_finds {fuel : Nat} {u : Tree} {vars : VarSet} {d : Option Bool}
    (h : decided? (literals fuel) u vars = .ok d) :
    ∃ l, Finds fuel u vars l ∧ d = l.bind Symbol.truth? := by
  unfold decided? at h
  cases hempty : vars.isEmpty with
  | false =>
      rw [hempty] at h
      exact ⟨none, .free hempty, (Except.ok.inj h).symm⟩
  | true =>
      rw [hempty] at h
      cases hv : value? (literals fuel) u with
      | error e =>
          rw [hv] at h
          cases h
      | ok o =>
          rw [hv] at h
          refine ⟨o.bind Value.literal?, .closed hempty hv, ?_⟩
          cases o with
          | none => exact (Except.ok.inj h).symm
          | some v => cases v <;> exact (Except.ok.inj h).symm

/-- Evaluation finds the same literal for equivalent trees. -/
theorem value?_congr {pairs : List (VarId × VarId)} {u w : Tree}
    (h : Tree.alphaEqUnder .standard pairs u w = true) (hu : u.Fits) (hw : w.Fits)
    (hannu : u.BindersAgree .empty) (hannw : w.BindersAgree .empty)
    (hclosed : ∀ x, x ∉ u.freeVars .standard) {fuel : Nat} {o o' : Option Value}
    (ho : value? (literals fuel) u = .ok o) (ho' : value? (literals fuel) w = .ok o') :
    o.bind Value.literal? = o'.bind Value.literal? := by
  have hfull := Tree.isFull_eq_of_alphaEqUnder h
  have hclosed' := Tree.closed_of_alphaEqUnder h hclosed
  cases hfullu : u.isFull with
  | false =>
      rw [hfullu] at hfull
      rw [(value?_determines_of_partial .literal hfullu).eq_of_ok ho,
        (value?_determines_of_partial .literal hfull.symm).eq_of_ok ho']
  | true =>
      rw [hfullu] at hfull
      have htu := hu.typed_of_closed hfullu hannu hclosed fun _ => .int
      have htw := hw.typed_of_closed hfull.symm hannw hclosed' fun _ => .int
      rw [← Tree.resultType_eq_of_alphaEqUnder h] at htw
      obtain ⟨r, hdet, hstands⟩ := value?_related .literal htu hclosed
      obtain ⟨r', hdet', hstands'⟩ := value?_related .literal htw hclosed'
      rw [hdet.eq_of_ok ho, hdet'.eq_of_ok ho']
      -- Closed trees stand for the same under all valuations, so one of them is enough.
      have hmeaning : u.value Env.empty.valuation u.resultType
          = w.value Env.empty.valuation u.resultType :=
        Tree.meaning_eq_of_alphaEqUnder h (fun x hx => absurd hx (hclosed x)) [] _
      have hstands := hstands Env.empty.valuation
      have hstands' := hstands' Env.empty.valuation
      rw [hmeaning] at hstands
      generalize w.value Env.empty.valuation u.resultType = m at hstands hstands'
      cases hstands with
      | error f =>
          cases hstands'
          rfl
      | ok hv =>
          cases hstands' with
          | ok hv' => exact hv.literal?_eq hv'

theorem Finds.congr {fuel : Nat} {pairs : List (VarId × VarId)} {t e : Tree} {t' e' : Folded}
    (h : Tree.alphaEqUnder .standard pairs t'.tree e'.tree = true) (ht : t'.Simplifies t)
    (he : e'.Simplifies e) (hannt : t.BindersAgree .empty) (hanne : e.BindersAgree .empty)
    {l l' : Option Symbol} (hl : Finds fuel t'.tree t'.vars l)
    (hl' : Finds fuel e'.tree e'.vars l') : l = l' := by
  have hempty := Tree.isEmpty_freeVars_congr h
  rw [← ht.vars_eq, ← he.vars_eq] at hempty
  cases hl with
  | free hfree =>
      cases hl' with
      | free => rfl
      | closed hclosed => simp [hfree, hclosed] at hempty
  | closed hclosed ho =>
      cases hl' with
      | free hfree => simp [hfree, hclosed] at hempty
      | closed _ ho' =>
          exact value?_congr h ht.built.fits he.built.fits (ht.bindersAgree _ hannt)
            (he.bindersAgree _ hanne) (closed_of_isEmpty ht.vars_eq hclosed) ho ho'

theorem Finds.reference?_eq_none {fuel : Nat} {u : Tree} {vars : VarSet} {l : Option Symbol}
    (h : Finds fuel u vars l) {s : Symbol} (hs : l = some s) : s.reference? = none := by
  cases h with
  | free => cases hs
  | closed =>
      obtain ⟨v, _, hv⟩ := Option.bind_eq_some_iff.1 hs
      rcases Value.literal?_cases hv with ⟨b, _, rfl⟩ | ⟨n, _, rfl⟩ <;> rfl

/-! ## Two runs -/

section

variable {fuel : Nat} {pairs : List (VarId × VarId)} {t e u w r q : Tree} {vars vars' : VarSet}
  {i i' j j' : Nat}

theorem Rebuilds.alphaEqUnder (hu : (literals fuel).Rebuilds t u vars i)
    (hw : (literals fuel).Rebuilds e w vars' i')
    (h : Tree.alphaEqUnder .standard pairs t e = true)
    (hhead : t.head.lambda? = none ∨ t.isLeaf = true)
    (hargs : ∀ a ∈ t.args, ∀ c ∈ e.args, ∀ a' c',
      Tree.alphaEqUnder .standard pairs a c = true → a.fold (literals fuel) = .ok a' →
      c.fold (literals fuel) = .ok c' →
      Tree.alphaEqUnder .standard pairs a'.tree c'.tree = true) :
    Tree.alphaEqUnder .standard pairs u w = true := by
  induction hu generalizing e w vars' i' with
  | leaf s =>
      cases hw with
      | leaf => exact h
      | node => simp [Tree.alphaEqUnder] at h
  | @node f f' x u vars k x' hf hx hu ih =>
      have hlambda : f.head.lambda? = none := hhead.resolve_right Bool.false_ne_true
      have hbinder := Tree.binder?_of_head hlambda
      obtain ⟨g, y, rfl, hfg, hxy⟩ := Tree.alphaEqUnder_application hbinder h
      cases hw with
      | @node _ g' _ _ _ _ y' hg hy hw =>
          obtain rfl := Tree.eq_of_reapply hu
          obtain rfl := Tree.eq_of_reapply hw
          rw [← hf.sameSpine.binder?_eq] at hbinder
          have hfg' := ih hg hfg (.inl hlambda) fun a ha c hc =>
            hargs a (List.mem_append.2 (.inl ha)) c (List.mem_append.2 (.inl hc))
          have hxy' := hargs x (by simp [Tree.args]) y (by simp [Tree.args]) x' y' hxy hx hy
          rw [Tree.alphaEqUnder_applications (.inl hbinder), hfg', hxy']
          rfl

theorem Finishes.alphaEqUnder (hr : (literals fuel).Finishes u vars r j)
    (hq : (literals fuel).Finishes w vars' q j')
    (h : Tree.alphaEqUnder .standard pairs u w = true) (hu : Folded.Simplifies t ⟨u, vars, i⟩)
    (hw : Folded.Simplifies e ⟨w, vars', i'⟩) (hannt : t.BindersAgree .empty)
    (hanne : e.BindersAgree .empty) : Tree.alphaEqUnder .standard pairs r q = true := by
  obtain ⟨l, hl, rfl⟩ := hr.finds
  obtain ⟨l', hl', rfl⟩ := hq.finds
  obtain rfl : l = l' := Finds.congr h hu hw hannt hanne hl hl'
  cases hs : l with
  | none => exact h
  | some s =>
      refine Tree.alphaEqUnder_iff.2 ?_
      exact Symbol.nameless_congr (hl.reference?_eq_none hs) _ _

theorem decided?_congr {t' e' : Folded} {d d' : Option Bool}
    (hd : decided? (literals fuel) t'.tree t'.vars = .ok d)
    (hd' : decided? (literals fuel) e'.tree e'.vars = .ok d')
    (h : Tree.alphaEqUnder .standard pairs t'.tree e'.tree = true) (ht : t'.Simplifies t)
    (he : e'.Simplifies e) (hannt : t.BindersAgree .empty) (hanne : e.BindersAgree .empty) :
    d = d' := by
  obtain ⟨l, hl, rfl⟩ := decided?_finds hd
  obtain ⟨l', hl', rfl⟩ := decided?_finds hd'
  rw [Finds.congr h ht he hannt hanne hl hl']

/-- Two trees whose runs, if both have a result, have equivalent ones. -/
def FoldAlike (fuel : Nat) (pairs : List (VarId × VarId)) (t e : Tree) : Prop :=
  ∀ t' e', t.fold (literals fuel) = .ok t' → e.fold (literals fuel) = .ok e' →
    Tree.alphaEqUnder .standard pairs t'.tree e'.tree = true

theorem simplifies {t : Tree} {folded : Folded} (h : t.fold (literals fuel) = .ok folded) :
    folded.Simplifies t :=
  Tree.fold_simplifies rfl Folder.literal_faithful h

theorem alphaEqUnder_of_rebuilds (hu : (literals fuel).Rebuilds t u vars i)
    (hr : (literals fuel).Finishes u vars r j) (hw : (literals fuel).Rebuilds e w vars' i')
    (hq : (literals fuel).Finishes w vars' q j')
    (h : Tree.alphaEqUnder .standard pairs t e = true) (hannt : t.BindersAgree .empty)
    (hanne : e.BindersAgree .empty)
    (ht : t.head.reference? = none ∧ (t.head.lambda? = none ∨ t.isLeaf = true))
    (he : e.head.reference? = none ∧ (e.head.lambda? = none ∨ e.isLeaf = true))
    (hargs : ∀ a ∈ t.args, ∀ c ∈ e.args, Tree.alphaEqUnder .standard pairs a c = true →
      FoldAlike fuel pairs a c) :
    Tree.alphaEqUnder .standard pairs r q = true := by
  have huw := hu.alphaEqUnder hw h ht.2 fun a ha c hc a' c' hac => hargs a ha c hc hac a' c'
  exact hr.alphaEqUnder hq huw (hu.simplifies ht.1 ht.2 fun _ _ _ => simplifies)
    (hw.simplifies he.1 he.2 fun _ _ _ => simplifies) hannt hanne

theorem foldAlike_choice {ty : Ty} {test a b : Tree}
    (h : Tree.alphaEqUnder .standard pairs (.choice ty test a b) e = true)
    (hannt : (Tree.choice ty test a b).BindersAgree .empty) (hanne : e.BindersAgree .empty)
    (hargs : ∀ x ∈ (Tree.choice ty test a b).args, ∀ y ∈ e.args,
      Tree.alphaEqUnder .standard pairs x y = true → FoldAlike fuel pairs x y) :
    FoldAlike fuel pairs (.choice ty test a b) e := by
  intro t' e' ht he
  obtain ⟨test₂, a₂, b₂, rfl, htest, ha, hb⟩ := Tree.alphaEqUnder_choice h
  have hfolda := hargs a (by simp [Tree.args]) a₂ (by simp [Tree.args]) ha
  have hfoldb := hargs b (by simp [Tree.args]) b₂ (by simp [Tree.args]) hb
  obtain ⟨test', d, hrun⟩ := Tree.fold_choice_inv ht
  obtain ⟨test₂', d₂, hrun₂⟩ := Tree.fold_choice_inv he
  have htest' := hargs test (by simp [Tree.args]) test₂ (by simp [Tree.args]) htest _ _
    hrun.test_fold hrun₂.test_fold
  obtain rfl : d = d₂ := decided?_congr hrun.decision hrun₂.decision htest'
    (simplifies hrun.test_fold) (simplifies hrun₂.test_fold) hannt.1.1.2 hanne.1.1.2
  -- With one decision and comparable branches both runs leave by the same exit.
  cases d with
  | some taken =>
      obtain ⟨c, hc, htree⟩ := hrun.of_decided taken rfl
      obtain ⟨c₂, hc₂, htree₂⟩ := hrun₂.of_decided taken rfl
      rw [htree, htree₂]
      cases taken with
      | true => exact hfolda c c₂ hc hc₂
      | false => exact hfoldb c c₂ hc hc₂
  | none =>
      have hbranches := Tree.alphaEq_congr ha hb
      cases heq : Tree.alphaEq .standard a b with
      | true =>
          obtain ⟨a', ha', htree⟩ := hrun.of_equal rfl heq
          obtain ⟨a₂', ha₂', htree₂⟩ := hrun₂.of_equal rfl (hbranches.symm.trans heq)
          rw [htree, htree₂]
          exact hfolda a' a₂' ha' ha₂'
      | false =>
          obtain ⟨a', b', ha', hb', hmerge, hkeep⟩ := hrun.of_different rfl heq
          obtain ⟨a₂', b₂', ha₂', hb₂', hmerge₂, hkeep₂⟩ :=
            hrun₂.of_different rfl (hbranches.symm.trans heq)
          have haa := hfolda a' a₂' ha' ha₂'
          have hfolded := Tree.alphaEq_congr haa (hfoldb b' b₂' hb' hb₂')
          cases heq' : Tree.alphaEq .standard a'.tree b'.tree with
          | true =>
              rw [hmerge heq', hmerge₂ (hfolded.symm.trans heq')]
              exact haa
          | false =>
              obtain ⟨u, i, j, hu, hr⟩ := hkeep heq'
              obtain ⟨w, i', j', hw, hq⟩ := hkeep₂ (hfolded.symm.trans heq')
              exact alphaEqUnder_of_rebuilds hu hr hw hq h hannt hanne ⟨rfl, .inl rfl⟩
                ⟨rfl, .inl rfl⟩ hargs

theorem foldAlike (hfits : t.Fits) (hannt : t.BindersAgree .empty) (hanne : e.BindersAgree .empty)
    (h : Tree.alphaEqUnder .standard pairs t e = true) : FoldAlike fuel pairs t e := by
  -- A function adds a pair of binders, so the induction is for all pairs.
  induction t using Tree.induction_args generalizing pairs e with
  | h t ih =>
  have hargs (ht : t.head.lambda? = none ∨ t.isLeaf = true)
      (he : e.head.lambda? = none ∨ e.isLeaf = true) :
      ∀ a ∈ t.args, ∀ c ∈ e.args, Tree.alphaEqUnder .standard pairs a c = true →
        FoldAlike fuel pairs a c := by
    intro a ha c hc hac
    exact ih a ha (hfits.of_mem_args ha).1 (hannt.of_mem_args (Tree.lambda?_of_mem_args ht ha) ha)
      (hanne.of_mem_args (Tree.lambda?_of_mem_args he hc) hc) hac
  rcases hfits.rule_cases with
    ⟨id, ty, rfl⟩ | ⟨id, arg, result, body, rfl⟩ | ⟨ty, test, a, b, rfl⟩ | hplain
  · intro t' e' ht he
    obtain rfl := Except.ok.inj ((FoldStep.var id ty).fold_eq.symm.trans ht)
    cases e with
    | node => simp [Tree.alphaEqUnder] at h
    | leaf s =>
        rcases Symbol.alphaEqUnder_cases h with
          ⟨x, y, ty', _, rfl, _⟩ | ⟨⟨_, hu⟩, _⟩ | ⟨_, href⟩
        · obtain rfl := Except.ok.inj ((FoldStep.var y ty').fold_eq.symm.trans he)
          exact h
        · cases hu
        · cases href
  · intro t' e' ht he
    obtain ⟨id₂, body₂, rfl, hbody⟩ := Tree.alphaEqUnder_function h
    obtain ⟨body', hfold, htree⟩ := Tree.fold_function_inv ht
    obtain ⟨body₂', hfold₂, htree₂⟩ := Tree.fold_function_inv he
    have hmem : body ∈ (Tree.node (.leaf (.lambda id arg result)) body).args := by
      simp [Tree.args]
    have hbody' := ih body hmem (hfits.of_mem_args hmem).1 hannt.2.forget hanne.2.forget hbody
      body' body₂' hfold hfold₂
    rw [htree, htree₂]
    simpa [Tree.alphaEqUnder, Tree.binder?, Binders.standard, Symbol.lambda?, Tree.signature,
      Tree.head, Symbol.signature] using hbody'
  · obtain ⟨test₂, a₂, b₂, rfl, _⟩ := Tree.alphaEqUnder_choice h
    exact foldAlike_choice h hannt hanne (hargs (.inl rfl) (.inl rfl))
  · intro t' e' ht he
    have hplain' : e.isFull = true → e.head.hasRule = false := by
      rw [← Tree.isFull_eq_of_alphaEqUnder h, ← Tree.hasRule_congr h]
      exact hplain
    obtain ⟨u, i, j, hu, hr⟩ := Tree.fold_plain_inv hplain ht
    obtain ⟨w, i', j', hw, hq⟩ := Tree.fold_plain_inv hplain' he
    have hheadt := Tree.head_of_plain hplain
    have hheade := Tree.head_of_plain hplain'
    exact alphaEqUnder_of_rebuilds hu hr hw hq h hannt hanne hheadt hheade
      (hargs hheadt.2 hheade.2)

end

end FoldRules

/-! ## Results -/

theorem Folded.Simplifies.vars_eq_of_alphaEq {t e : Tree} {t' e' : Folded} (ht : t'.Simplifies t)
    (he : e'.Simplifies e) (h : Tree.alphaEq .standard t'.tree e'.tree = true) :
    t'.vars = e'.vars := by
  rw [ht.vars_eq, he.vars_eq, Tree.freeVars_eq_of_alphaEq h]

/-- Equivalent trees are folded to equivalent ones that depend on the same variables, and a choice
between them is folded as either of them, whatever its test. -/
theorem Tree.fold_alphaEq {t e : Tree} (ht : t.Built) (he : e.Built)
    (hannt : t.BindersAgree .empty) (hanne : e.BindersAgree .empty)
    (h : alphaEq .standard t e = true) :
    ∃ t' e' : Folded, Determines (fun fuel => t.fold ⟨.standard, .literal, fuel⟩) t'
      ∧ Determines (fun fuel => e.fold ⟨.standard, .literal, fuel⟩) e'
      ∧ alphaEq .standard t'.tree e'.tree = true ∧ t'.vars = e'.vars
      ∧ ∀ c u : Tree, c.Built → c.BindersAgree .empty → Build.cond c t e = .ok u →
        ∃ u' : Folded, Determines (fun fuel => u.fold ⟨.standard, .literal, fuel⟩) u'
          ∧ alphaEq .standard u'.tree t'.tree = true ∧ u'.vars = t'.vars := by
  obtain ⟨t', hdett, _⟩ := fold_total Folder.literal_faithful ht hannt
  obtain ⟨e', hdete, _⟩ := fold_total Folder.literal_faithful he hanne
  obtain ⟨fuel, hrunt, hrune⟩ := hdett.reaches.exists_common hdete.reaches
  have hsimplet := FoldRules.simplifies hrunt
  have hsimplee := FoldRules.simplifies hrune
  have halike : alphaEq .standard t'.tree e'.tree = true := by
    rw [alphaEq_eq] at h ⊢
    exact FoldRules.foldAlike ht.fits hannt hanne h t' e' hrunt hrune
  refine ⟨t', e', hdett, hdete, halike, hsimplet.vars_eq_of_alphaEq hsimplee halike, ?_⟩
  intro c u hc hannc hu
  obtain ⟨rfl, hbuilt⟩ := Build.cond_eq_ok hu hc ht he
  have hann : (choice t.resultType c t e).BindersAgree .empty := ⟨⟨⟨trivial, hannc⟩, hannt⟩, hanne⟩
  obtain ⟨u', hdetu, _⟩ := fold_total Folder.literal_faithful hbuilt hann
  obtain ⟨n, hn⟩ := hdetu.1
  have hrunu := hn n (Nat.le_refl n)
  obtain ⟨c', d, hchoice⟩ := fold_choice_inv hrunu
  obtain ⟨branch, hbranch, htree⟩ := hchoice.tree_eq_of_equal h
  have halikeu : alphaEq .standard u'.tree t'.tree = true := by
    rw [htree]
    rcases hbranch with hbranch | hbranch
    · rw [hdett.eq_of_ok hbranch]
      exact alphaEq_self t'.tree
    · rw [hdete.eq_of_ok hbranch]
      exact alphaEq_symm halike
  exact ⟨u', hdetu, halikeu,
    (FoldRules.simplifies hrunu).vars_eq_of_alphaEq hsimplet halikeu⟩

private def threeOrSecond (x y : VarId) : Tree :=
  .node (.leaf (.lambda x .int (.fn .int .int)))
    (.node (.leaf (.lambda y .int .int))
      (.choice .int
        (.node (.node (.leaf (.compare .lt)) (.leaf (.var x .int))) (.leaf (.var y .int)))
        (.node (.node (.leaf (.arith .add)) (.leaf (.int 1))) (.leaf (.int 2)))
        (.leaf (.var y .int))))

private def failingTest : Tree :=
  .node
    (.node (.leaf (.compare .lt))
      (.node (.node (.leaf (.arith .div)) (.leaf (.int 1))) (.leaf (.int 0))))
    (.leaf (.int 1))

theorem Tree.fold_alphaEq_threeOrSecond :
    alphaEq .standard (threeOrSecond 0 1) (threeOrSecond 1 0) = true
      ∧ ∃ t' e' u' : Folded,
        Determines (fun fuel => (threeOrSecond 0 1).fold ⟨.standard, .literal, fuel⟩) t'
        ∧ Determines (fun fuel => (threeOrSecond 1 0).fold ⟨.standard, .literal, fuel⟩) e'
        ∧ alphaEq .standard t'.tree e'.tree = true ∧ t'.vars = e'.vars
        ∧ Determines (fun fuel =>
            (choice (.fn .int (.fn .int .int)) failingTest (threeOrSecond 0 1)
              (threeOrSecond 1 0)).fold ⟨.standard, .literal, fuel⟩) u'
        ∧ alphaEq .standard u'.tree t'.tree = true ∧ u'.vars = t'.vars := by
  have halpha : alphaEq .standard (threeOrSecond 0 1) (threeOrSecond 1 0) = true := by decide
  obtain ⟨t', e', ht, he, halike, hvars, hcond⟩ :=
    Tree.fold_alphaEq (by decide) (by decide) (by decide) (by decide) halpha
  obtain ⟨u', hu, halikeu, hvarsu⟩ := hcond failingTest _ (by decide) (by decide) rfl
  exact ⟨halpha, t', e', u', ht, he, halike, hvars, hu, halikeu, hvarsu⟩

end ExprTree

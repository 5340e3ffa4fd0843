import ExprTree.Hoisting
import ExprTree.Proofs.Adequacy
import ExprTree.Proofs.Replacement
/-!
# What code motion does

`Moves` says what the pass makes of a tree: either it moves code in the arguments
alone, or it takes a part out of the tree, binds it to a new variable and goes on
with the part and with what is left. `Hoists` says which part that is. The pass
does nothing else, unless it runs out of machine words, which only very large
trees, variables and tallies lead to.

What follows for the result is proved about `Moves`: it fits together, it is not
much larger, it is well-annotated and it has the same meaning.
-/

namespace ExprTree

namespace Tree

/-! ## The part that is chosen -/

theorem worthSharing_cases {whole p : Tree} {crossed : VarSet}
    (h : worthSharing .standard whole crossed p = true) :
    p.isFull = true ∧ p.isLeaf = false ∧ (∀ x ∈ crossed, x ∉ p.freeVars .standard)
      ∧ (crossed.isEmpty = true → 1 < count .standard p whole) := by
  simp only [worthSharing, Bool.and_eq_true, Bool.or_eq_true, Bool.not_eq_true',
    decide_eq_true_eq] at h
  obtain ⟨⟨⟨hfull, hleaf⟩, hrefers⟩, hcount⟩ := h
  refine ⟨hfull, hleaf, fun x hx => not_mem_freeVars_of_refersTo hrefers hx, fun hempty => ?_⟩
  rcases hcount with hcount | hcount
  · simp [hempty] at hcount
  · exact hcount

theorem liftable_of_shareableBelow? {whole p t : Tree} {crossed : VarSet}
    (h : shareableBelow? .standard whole crossed t = some p) :
    Liftable p t ∧ p.isFull = true ∧ p.isLeaf = false
      ∧ ∀ x ∈ crossed, x ∉ p.freeVars .standard := by
  induction t generalizing crossed with
  | leaf s => simp [shareableBelow?] at h
  | node f x ihf ihx =>
      rw [shareableBelow?] at h
      cases hf : f.binder? .standard with
      | some id =>
          -- Below the function, its parameter is among the variables to avoid.
          have hparam : (∀ y ∈ crossed.insert id, y ∉ p.freeVars .standard) →
              ∀ y ∈ p.freeVars .standard, f.binder? .standard ≠ some y := by
            intro hcrossed y hy hfy
            obtain rfl : id = y := Option.some.inj (hf.symm.trans hfy)
            exact hcrossed id (by simp) hy
          simp only [hf] at h
          split at h
          · rename_i hworth
            obtain rfl : x = p := Option.some.inj h
            obtain ⟨hfull, hleaf, hcrossed, _⟩ := worthSharing_cases hworth
            exact ⟨.here (hparam hcrossed), hfull, hleaf, fun y hy => hcrossed y (by simp [hy])⟩
          · obtain ⟨hx, hfull, hleaf, hcrossed⟩ := ihx h
            exact ⟨.arg (hparam hcrossed) hx, hfull, hleaf, fun y hy => hcrossed y (by simp [hy])⟩
      | none =>
          have hparam : ∀ y ∈ p.freeVars .standard, f.binder? .standard ≠ some y := by simp [hf]
          simp only [hf] at h
          split at h
          · rename_i q hq
            obtain rfl : q = p := Option.some.inj h
            obtain ⟨hfunc, hfull, hleaf, hcrossed⟩ := ihf hq
            exact ⟨.func hfunc, hfull, hleaf, hcrossed⟩
          · split at h
            · rename_i hworth
              obtain rfl : x = p := Option.some.inj h
              obtain ⟨hfull, hleaf, hcrossed, _⟩ := worthSharing_cases hworth
              exact ⟨.here hparam, hfull, hleaf, hcrossed⟩
            · obtain ⟨hx, hfull, hleaf, hcrossed⟩ := ihx h
              exact ⟨.arg hparam hx, hfull, hleaf, hcrossed⟩

/-- The part that is chosen stands inside the tree: the tree itself occurs once in it. -/
theorem liftable_of_shareable? {p t : Tree} (h : shareable? .standard t = some p) :
    Liftable p t ∧ p.isFull = true ∧ p.isLeaf = false := by
  rw [shareable?] at h
  split at h
  · rename_i hworth
    have hcount := (worthSharing_cases hworth).2.2.2 rfl
    simp [count, t.alphaEq_self] at hcount
  · obtain ⟨hp, hfull, hleaf, _⟩ := liftable_of_shareableBelow? h
    exact ⟨hp, hfull, hleaf⟩

end Tree

/-! ## The result of the pass -/

def LetTypes.bindTree (types : LetTypes) (id : VarId) (bound body : Tree) : Tree :=
  .node (.node (.leaf (.letIn types.bound types.body)) bound)
    (.node (.leaf (.lambda id types.bound types.body)) body)

mutual

/-- With new variables from `next` on, the pass makes `n` bindings and turns the
first tree into the second. -/
inductive Tree.Moves : (next : VarId) → Tree → (n : Nat) → Tree → Prop where
  | args {next : VarId} {t t' : Tree} {n : Nat} :
      Tree.MovesArgs next t n t' → Tree.Moves next t n t'
  | share {next : VarId} {t p bound body body' : Tree} {m n : Nat} :
      Tree.Liftable p t → p.isFull = true → p.isLeaf = false → Tree.Moves next p m bound →
        Tree.Replaces p (next + m) t body → Tree.Moves (next + m + 1) body n body' →
        Tree.Moves next t (m + 1 + n)
          (LetTypes.bindTree ⟨p.resultType, t.resultType⟩ (next + m) bound body')

inductive Tree.MovesArgs : (next : VarId) → Tree → (n : Nat) → Tree → Prop where
  | leaf {next : VarId} (s : Symbol) : Tree.MovesArgs next (.leaf s) 0 (.leaf s)
  | node {next : VarId} {f f' x x' : Tree} {m n : Nat} :
      Tree.MovesArgs next f m f' → Tree.Moves (next + m) x n x' →
        Tree.MovesArgs next (.node f x) (m + n) (.node f' x')

end

namespace Tree

theorem two_le_size {t : Tree} (h : t.isLeaf = false) : 2 ≤ t.size := by
  cases t with
  | leaf s => simp [isLeaf] at h
  | node f x =>
      have hf := f.size_pos
      have hx := x.size_pos
      rw [size_node]
      omega

mutual

/-- There are fewer bindings than symbols, and each of them costs three symbols. -/
theorem Moves.size_le : {next : VarId} → {t t' : Tree} → {n : Nat} → Moves next t n t' →
    n ≤ t.size - 2 ∧ t'.size ≤ t.size + 3 * n
  | _, _, _, _, .args h => h.size_le
  | _, _, _, _, .share hp _ hleaf hbound hbody hrest => by
      have hsize := hbody.size_add_le hp
      have hpart := two_le_size hleaf
      have hleft := two_le_size (hbody.sameSpine.isLeaf_eq.trans hp.isLeaf_eq)
      have hlt := hp.size_lt
      have hb := hbound.size_le
      have hr := hrest.size_le
      simp only [LetTypes.bindTree, size_node, size_leaf]
      omega

theorem MovesArgs.size_le : {next : VarId} → {t t' : Tree} → {n : Nat} → MovesArgs next t n t' →
    n ≤ t.size - 2 ∧ t'.size ≤ t.size + 3 * n
  | _, _, _, _, .leaf s => by simp
  | _, _, _, _, .node hf hx => by
      have hf := hf.size_le
      have hx := hx.size_le
      simp only [size_node]
      omega

end

theorem MovesArgs.sameSpine : {next : VarId} → {t t' : Tree} → {n : Nat} →
    MovesArgs next t n t' → SameSpine t t'
  | _, _, _, _, .leaf s => .leaf s
  | _, _, _, _, .node hf _ => .node hf.sameSpine

theorem Moves.resultType_eq {next : VarId} {t t' : Tree} {n : Nat} (h : Moves next t n t') :
    t'.resultType = t.resultType := by
  cases h with
  | args h => exact h.sameSpine.resultType_eq
  | share => rfl

theorem Moves.isFull {next : VarId} {t t' : Tree} {n : Nat} (h : Moves next t n t')
    (hfull : t.isFull = true) : t'.isFull = true := by
  cases h with
  | args h => exact h.sameSpine.isFull_eq.trans hfull
  | share => rfl

mutual

theorem Moves.fits : {next : VarId} → {t t' : Tree} → {n : Nat} → Moves next t n t' →
    t.Fits → t.isFull = true → t'.Fits
  | _, _, _, _, .args h, hfits, _ => h.fits hfits
  | _, t, _, _, .share hp hpfull _ hbound hbody hrest, hfits, hfull => by
      have hbfits := hbound.fits (hp.fits hfits) hpfull
      have hbfull := hbody.sameSpine.isFull_eq.trans hfull
      have hrfits := hrest.fits (hbody.fits hfits) hbfull
      have hrtype := hrest.resultType_eq.trans hbody.sameSpine.resultType_eq
      refine ⟨⟨trivial, hbfits, hbound.isFull hpfull, ?_⟩,
        ⟨trivial, hrfits, hrest.isFull hbfull, ?_⟩, rfl, rfl⟩
      · rw [hbound.resultType_eq]
        rfl
      · rw [hrtype]
        rfl

theorem MovesArgs.fits : {next : VarId} → {t t' : Tree} → {n : Nat} → MovesArgs next t n t' →
    t.Fits → t'.Fits
  | _, _, _, _, .leaf s, _ => trivial
  | _, _, _, _, .node hf hx, ⟨hfitsf, hfitsx, hfull, hnext⟩ => by
      refine ⟨hf.fits hfitsf, hx.fits hfitsx hfull, hx.isFull hfull, ?_⟩
      rw [hf.sameSpine.nextArg?_eq, hnext, hx.resultType_eq]

end

/-! ## Scopes and annotations -/

theorem NonShadowing.insert {t : Tree} (ht : t.NonShadowing) {next id : VarId}
    (hbelow : t.MentionsBelow next) (hid : next ≤ id) :
    t.BindsOutside ((t.freeVars .standard).insert id) := by
  refine ht.congr fun x hx => ?_
  rcases VarSet.mem_insert.1 hx with rfl | hx
  · exact .inr fun hmentions => Nat.lt_irrefl x (Nat.lt_of_lt_of_le (hbelow x hmentions) hid)
  · exact .inl hx

theorem Replaces.nonShadowing {p t body : Tree} {id next : VarId} (h : Replaces p id t body)
    (ht : t.NonShadowing) (hbelow : t.MentionsBelow next) (hid : next ≤ id) :
    body.NonShadowing := by
  refine (h.bindsOutside (ht.insert hbelow hid)).mono fun x hx => ?_
  exact VarSet.mem_insert.2 (h.mem_freeVars hx).symm

theorem Replaces.mentionsBelow {p t body : Tree} {id next : VarId} (h : Replaces p id t body)
    (hbelow : t.MentionsBelow next) (hid : next ≤ id) : body.MentionsBelow (id + 1) := by
  intro x hx
  rcases h.mentions hx with hx | rfl
  · exact Nat.lt_of_lt_of_le (hbelow x hx) (Nat.le_succ_of_le hid)
  · exact Nat.lt_succ_self x

theorem Liftable.mentionsBelow {p t : Tree} {next : VarId} (h : Liftable p t)
    (hbelow : t.MentionsBelow next) : p.MentionsBelow next :=
  fun x hx => hbelow x (h.mentions hx)

mutual

theorem Moves.wellAnnotated : {next : VarId} → {t t' : Tree} → {n : Nat} → Moves next t n t' →
    t.NonShadowing → t.MentionsBelow next → {Γ : Context} → t.WellAnnotated Γ → t'.WellAnnotated Γ
  | _, _, _, _, .args h, hns, hbelow, _, hann => h.wellAnnotated hns hbelow hann
  | next, t, _, _, .share (p := p) (m := m) hp _ _ hbound hbody hrest, hns, hbelow, Γ, hann => by
      have hid : next ≤ next + m := Nat.le_add_right next m
      have hboundann := hbound.wellAnnotated (hp.nonShadowing hns) (hp.mentionsBelow hbelow)
        (hp.wellAnnotated hann)
      have htann : t.WellAnnotated (Γ.set (next + m) p.resultType) := by
        refine hann.congr fun x hx => Γ.set_other _ ?_
        rintro rfl
        exact hbelow.not_mem_freeVars hid hx
      have hbodyann := hbody.wellAnnotated (hns.insert hbelow hid)
        (VarSet.mem_insert.2 (.inl rfl)) (Γ.set_same _ _) htann
      have hrestann := hrest.wellAnnotated (hbody.nonShadowing hns hbelow hid)
        (hbody.mentionsBelow hbelow hid) hbodyann
      exact ⟨⟨trivial, hboundann⟩, trivial, hrestann⟩

theorem MovesArgs.wellAnnotated : {next : VarId} → {t t' : Tree} → {n : Nat} →
    MovesArgs next t n t' → t.NonShadowing → t.MentionsBelow next → {Γ : Context} →
    t.WellAnnotated Γ → t'.WellAnnotated Γ
  | _, _, _, _, .leaf s, _, _, _, hann => hann
  | _, _, _, _, .node hf hx, hns, hbelow, _, ⟨hannf, hannx⟩ => by
      refine ⟨hf.wellAnnotated hns.func hbelow.func hannf, ?_⟩
      rw [hf.sameSpine.under_eq]
      exact hx.wellAnnotated hns.arg (hbelow.arg.mono (Nat.le_add_right _ _)) hannx

end

/-! ## Meaning -/

theorem value_bindTree (ρ : Valuation) {bound body : Tree} {A B : Ty} (id : VarId)
    (hbound : bound.resultType = A) :
    (LetTypes.bindTree ⟨A, B⟩ id bound body).value ρ B =
      body.value (ρ.set id A (bound.value ρ A)) B := by
  rw [LetTypes.bindTree, value_letIn ρ hbound rfl, value_lambda]
  rfl

/-- Binding a part to a new variable keeps the meaning. -/
theorem Replaces.value_eq {p t body : Tree} {id next : VarId} (h : Replaces p id t body)
    (hp : Liftable p t) (hfits : t.Fits) (hns : t.NonShadowing) (hbelow : t.MentionsBelow next)
    (hid : next ≤ id) (ρ : Valuation) :
    body.value (ρ.set id p.resultType (p.value ρ p.resultType)) t.resultType =
      t.value ρ t.resultType := by
  have hsame : ∀ {s : Tree}, (∀ x ∈ s.freeVars .standard, x ∈ t.freeVars .standard) → ∀ ty,
      s.value (ρ.set id p.resultType (p.value ρ p.resultType)) ty = s.value ρ ty := by
    intro s hs ty
    refine meaning_congr (fun x hx ty' => ρ.set_other id _ ?_ ty') [] ty
    rintro rfl
    exact hbelow.not_mem_freeVars hid (hs x hx)
  have hnames : Names p id (ρ.set id p.resultType (p.value ρ p.resultType)) := by
    rw [Names, ρ.set_same, hsame fun x hx => hp.mem_freeVars hx]
  rw [value, h.meaning_eq hfits (hns.insert hbelow hid) (VarSet.mem_insert.2 (.inl rfl))
    (fun x hx => VarSet.mem_insert.2 (.inr (hp.mem_freeVars hx))) hnames]
  exact hsame (fun x hx => hx) t.resultType

mutual

theorem Moves.value_eq : {next : VarId} → {t t' : Tree} → {n : Nat} → Moves next t n t' →
    t.Fits → t.isFull = true → t.NonShadowing → t.MentionsBelow next → (ρ : Valuation) →
    t'.value ρ t.resultType = t.value ρ t.resultType
  | _, _, _, _, .args h, hfits, _, hns, hbelow, ρ => h.meaning_eq hfits hns hbelow ρ []
  | next, t, _, _, .share (p := p) (m := m) hp hpfull _ hbound hbody hrest, hfits, hfull, hns,
      hbelow, ρ => by
      have hid : next ≤ next + m := Nat.le_add_right next m
      have hboundvalue := hbound.value_eq (hp.fits hfits) hpfull (hp.nonShadowing hns)
        (hp.mentionsBelow hbelow) ρ
      have hrestvalue := hrest.value_eq (hbody.fits hfits) (hbody.sameSpine.isFull_eq.trans hfull)
        (hbody.nonShadowing hns hbelow hid) (hbody.mentionsBelow hbelow hid)
      rw [hbody.sameSpine.resultType_eq] at hrestvalue
      rw [value_bindTree ρ _ hbound.resultType_eq, hboundvalue, hrestvalue]
      exact hbody.value_eq hp hfits hns hbelow hid ρ

theorem MovesArgs.meaning_eq : {next : VarId} → {t t' : Tree} → {n : Nat} →
    MovesArgs next t n t' → t.Fits → t.NonShadowing → t.MentionsBelow next → (ρ : Valuation) →
    (args : List Ty) → t'.meaning ρ args t.resultType = t.meaning ρ args t.resultType
  | _, _, _, _, .leaf s, _, _, _, _, _ => rfl
  | next, _, _, _, .node (f := f) (x := x) (m := m) hf hx, ⟨hfitsf, hfitsx, hfull, hnext⟩, hns,
      hbelow, ρ, args => by
      have hxvalue := hx.value_eq hfitsx hfull hns.arg
        (hbelow.arg.mono (Nat.le_add_right next m))
      cases hbinder : f.binder? .standard with
      | none =>
          have hbinder' := hf.sameSpine.binder?_eq.trans hbinder
          rw [meaning_node hbinder, meaning_node hbinder', hx.resultType_eq, hxvalue]
          exact congrFun (hf.meaning_eq hfitsf hns.func hbelow.func ρ _) _
      | some y =>
          rw [hf.sameSpine.eq_of_binder? hbinder]
          exact meaning_function_congr hbinder hnext (fun ty m => hxvalue _) args

end

end Tree

/-! ## Derivations -/

mutual

/-- With new variables from `next` on, the pass makes `n` bindings and turns the first tree into
the second. -/
inductive Tree.Hoists (policy : SharePolicy) : (next : VarId) → Tree → (n : Nat) → Tree → Prop where
  | args {next : VarId} {t t' : Tree} {n : Nat} :
      (∀ p, t.shareable? .standard = some p → policy p t = none) →
        Tree.HoistsArgs policy next t n t' → Tree.Hoists policy next t n t'
  | share {next : VarId} {t p bound body body' : Tree} {m n : Nat} :
      t.shareable? .standard = some p → policy p t = some ⟨p.resultType, t.resultType⟩ →
        Tree.Hoists policy next p m bound → Tree.Replaces p (next + m) t body →
        Tree.Hoists policy (next + m + 1) body n body' →
        Tree.Hoists policy next t (m + 1 + n)
          (LetTypes.bindTree ⟨p.resultType, t.resultType⟩ (next + m) bound body')

inductive Tree.HoistsArgs (policy : SharePolicy) :
    (next : VarId) → Tree → (n : Nat) → Tree → Prop where
  | leaf {next : VarId} (s : Symbol) : Tree.HoistsArgs policy next (.leaf s) 0 (.leaf s)
  | node {next : VarId} {f f' x x' : Tree} {m n : Nat} :
      Tree.HoistsArgs policy next f m f' → Tree.Hoists policy (next + m) x n x' →
        Tree.HoistsArgs policy next (.node f x) (m + n) (.node f' x')

end

namespace Tree

variable {policy : SharePolicy}

mutual

theorem Hoists.moves : {next : VarId} → {t t' : Tree} → {n : Nat} → Hoists policy next t n t' →
    Moves next t n t'
  | _, _, _, _, .args _ h => .args h.moves
  | _, _, _, _, .share hshare _ hbound hbody hrest =>
      have hp := liftable_of_shareable? hshare
      .share hp.1 hp.2.1 hp.2.2 hbound.moves hbody hrest.moves

theorem HoistsArgs.moves : {next : VarId} → {t t' : Tree} → {n : Nat} →
    HoistsArgs policy next t n t' → MovesArgs next t n t'
  | _, _, _, _, .leaf s => .leaf s
  | _, _, _, _, .node hf hx => .node hf.moves hx.moves

end

end Tree

/-! ## The pass -/

/-- The policy refuses to bind full trees or binds them with their own types. -/
def SharePolicy.OwnTypes (policy : SharePolicy) : Prop :=
  ∀ bound body : Tree, bound.isFull = true → body.isFull = true →
    policy bound body = none ∨ policy bound body = some ⟨bound.resultType, body.resultType⟩

/-- Machine words may run out. -/
def Tree.Crowded (t : Tree) (next : VarId) : Prop :=
  wordLimit ≤ 4 * t.size ∨ wordLimit < next + t.size

theorem LetTypes.letIn_yields (types : LetTypes) {bound body : Tree} (id : VarId)
    (hbound : bound.isFull = true) (hboundty : bound.resultType = types.bound)
    (hbody : body.isFull = true) (hbodyty : body.resultType = types.body) :
    Yields (wordLimit ≤ bound.size + body.size + 2) (· = types.bindTree id bound body)
      (types.letIn id bound body) := by
  have hlambda : Yields (wordLimit ≤ bound.size + body.size + 2)
      (· = .node (.leaf (.lambda id types.bound types.body)) body)
      (Tree.reassemble (.lambda id types.bound types.body) [body]) := by
    simp only [Tree.reassemble, List.foldlM_cons, List.foldlM_nil, bind_pure]
    refine (Tree.reapply_yields hbody (hbodyty ▸ rfl)).mono (fun hw => ?_) fun _ h => h
    rw [Tree.size_leaf] at hw
    omega
  refine hlambda.bind ?_
  rintro _ rfl
  simp only [Tree.reassemble, List.foldlM_cons, List.foldlM_nil, bind_pure]
  refine ((Tree.reapply_yields hbound (hboundty ▸ rfl)).mono (fun hw => ?_) fun _ h => h).bind ?_
  · rw [Tree.size_leaf] at hw
    omega
  · rintro _ rfl
    refine (Tree.reapply_yields rfl rfl).mono (fun hw => ?_) fun _ h => h
    simp only [Tree.size_node, Tree.size_leaf] at hw
    omega

theorem Tally.update_yields (tally : Tally) (n : Nat) :
    Yields (wordLimit ≤ tally.total + n) (· = ⟨tally.total + n⟩) (tally.update n) := by
  have hupdate : tally.update n = word (tally.total + n) >>= fun total => pure ⟨total⟩ := rfl
  rw [hupdate, word]
  split
  · rfl
  · rename_i hlt
    exact ⟨rfl, Nat.le_of_not_lt hlt⟩

/-- The state after `n` more bindings, each of which takes a variable and is reported. -/
def HoistState.advance (st : HoistState) (n : Nat) : HoistState :=
  ⟨⟨st.supply.next + n⟩, st.lets + n, ⟨st.progress.total + n⟩⟩

theorem HoistState.advance_advance (st : HoistState) (m n : Nat) :
    (st.advance m).advance n = st.advance (m + n) := by
  simp only [advance, Nat.add_assoc]

/-- From any state, the step has a derivation for `t` or runs out of machine words. -/
def HoistM.HoistsIn (policy : SharePolicy) (t : Tree) (step : HoistM Tree) : Prop :=
  ∀ st : HoistState, Yields (t.Crowded (max st.supply.next st.progress.total))
    (fun p => ∃ n, t.Hoists policy st.supply.next n p.1 ∧ p.2 = st.advance n) (step st)

namespace HoistM

variable {policy : SharePolicy} {step : Tree → HoistM Tree} {part t : Tree}

theorem fresh_yields (st : HoistState) :
    Yields (wordLimit ≤ st.supply.next + 1)
      (· = (st.supply.next, { st with supply := ⟨st.supply.next + 1⟩ })) (fresh st) := by
  refine (st.supply.fresh_yields.pair st).bind ?_
  rintro ⟨_, st'⟩ ⟨rfl, hst⟩
  obtain rfl : st' = st := hst
  rfl

theorem report_yields (st : HoistState) :
    Yields (wordLimit ≤ st.progress.total + 1)
      (· = ((), { st with lets := st.lets + 1, progress := ⟨st.progress.total + 1⟩ }))
      ((do record; report 1 : HoistM Unit) st) := by
  refine ((st.progress.update_yields 1).pair { st with lets := st.lets + 1 }).bind ?_
  rintro ⟨_, st'⟩ ⟨rfl, hst⟩
  obtain rfl : st' = { st with lets := st.lets + 1 } := hst
  rfl

theorem onArgs_yields {size : Nat}
    (hstep : ∀ x : Tree, x.size < size → x.Fits → x.isFull = true → HoistsIn policy x (step x))
    (hsize : t.size ≤ size) (hfits : t.Fits) (st : HoistState) :
    Yields (t.Crowded (max st.supply.next st.progress.total))
      (fun p => ∃ n, t.HoistsArgs policy st.supply.next n p.1 ∧ p.2 = st.advance n)
      (onArgs step t st) := by
  induction t generalizing st with
  | leaf s => exact ⟨0, .leaf s, rfl⟩
  | node f x ihf _ =>
      obtain ⟨hfitsf, hfitsx, hfull, hnext⟩ := hfits
      have hposf := f.size_pos
      have hposx := x.size_pos
      rw [Tree.size_node] at hsize
      show Yields _ _ (onArgs step f st >>= fun p => step x p.2 >>= fun q =>
        Tree.reapply p.1 q.1 >>= fun t => pure (t, q.2))
      refine ((ihf (by omega) hfitsf st).mono ?_ fun _ h => h).bind ?_
      · simp only [Tree.Crowded, Tree.size_node]
        omega
      rintro ⟨f', _⟩ ⟨m, hf, rfl⟩
      have hm : m ≤ f.size - 2 ∧ f'.size ≤ f.size + 3 * m := hf.moves.size_le
      refine ((hstep x (by omega) hfitsx hfull (st.advance m)).mono ?_ fun _ h => h).bind ?_
      · simp only [Tree.Crowded, Tree.size_node, HoistState.advance]
        omega
      rintro ⟨x', _⟩ ⟨n, hx, rfl⟩
      have hn : n ≤ x.size - 2 ∧ x'.size ≤ x.size + 3 * n := hx.moves.size_le
      have hnext' : f'.nextArg? = some x'.resultType := by
        rw [hf.moves.sameSpine.nextArg?_eq, hnext, hx.moves.resultType_eq]
      refine Yields.mono ((Tree.reapply_yields (hx.moves.isFull hfull) hnext').pair _) ?_ ?_
      · simp only [Tree.Crowded, Tree.size_node]
        omega
      · rintro ⟨_, _⟩ ⟨rfl, rfl⟩
        exact ⟨m + n, .node hf hx, st.advance_advance m n⟩

theorem share_hoistsIn (hshare : t.shareable? .standard = some part)
    (htypes : policy part t = some ⟨part.resultType, t.resultType⟩) (hfits : t.Fits)
    (hfull : t.isFull = true) (hpart : HoistsIn policy part (step part))
    (hrest : ∀ id body, part.Replaces id t body → HoistsIn policy body (step body)) :
    HoistsIn policy t (do
      let bound ← step part
      let id ← fresh
      let body ← Tree.replace .standard part (.leaf (.var id part.resultType)) t
      let body ← step body
      record
      report 1
      LetTypes.letIn ⟨part.resultType, t.resultType⟩ id bound body) := by
  intro st
  obtain ⟨hp, hpfull, hleaf⟩ := Tree.liftable_of_shareable? hshare
  have hlt := hp.size_lt
  have htwo := Tree.two_le_size hleaf
  show Yields _ _ (step part st >>= fun p => fresh p.2 >>= fun q =>
    (Tree.replace .standard part (.leaf (.var q.1 part.resultType)) t >>= fun b =>
      pure (b, q.2)) >>= fun b =>
    step b.1 b.2 >>= fun r =>
      (do record; report 1 : HoistM Unit) r.2 >>= fun v =>
        LetTypes.letIn ⟨part.resultType, t.resultType⟩ q.1 p.1 r.1 >>= fun u => pure (u, v.2))
  refine ((hpart st).mono ?_ fun _ h => h).bind ?_
  · simp only [Tree.Crowded]
    omega
  rintro ⟨bound, _⟩ ⟨m, hbound, rfl⟩
  have hm : m ≤ part.size - 2 ∧ bound.size ≤ part.size + 3 * m := hbound.moves.size_le
  refine ((fresh_yields (st.advance m)).mono ?_ fun _ h => h).bind ?_
  · simp only [Tree.Crowded, HoistState.advance]
    omega
  rintro _ rfl
  have hreplace := (Tree.replace_yields (st.supply.next + m) hp hfits).pair
    { st.advance m with supply := ⟨st.supply.next + m + 1⟩ }
  refine (Yields.mono hreplace ?_ fun _ h => h).bind ?_
  · simp only [Tree.Crowded]
    omega
  rintro ⟨body, _⟩ ⟨hbody, rfl⟩
  have hsize : body.size + part.size ≤ t.size + 1 := hbody.size_add_le hp
  refine ((hrest _ body hbody _).mono ?_ fun _ h => h).bind ?_
  · simp only [Tree.Crowded, HoistState.advance]
    omega
  rintro ⟨body', _⟩ ⟨n, hmoved, rfl⟩
  have hn : n ≤ body.size - 2 ∧ body'.size ≤ body.size + 3 * n := hmoved.moves.size_le
  have hbodytwo : 2 ≤ body.size := Tree.two_le_size (hbody.sameSpine.isLeaf_eq.trans hp.isLeaf_eq)
  refine ((report_yields _).mono ?_ fun _ h => h).bind ?_
  · simp only [Tree.Crowded, HoistState.advance]
    omega
  rintro _ rfl
  have hlet := LetTypes.letIn_yields ⟨part.resultType, t.resultType⟩ (st.supply.next + m)
    (hbound.moves.isFull hpfull) hbound.moves.resultType_eq
    (hmoved.moves.isFull (hbody.sameSpine.isFull_eq.trans hfull))
    (hmoved.moves.resultType_eq.trans hbody.sameSpine.resultType_eq)
  refine Yields.mono (hlet.pair _) ?_ ?_
  · simp only [Tree.Crowded]
    omega
  · rintro ⟨_, _⟩ ⟨rfl, rfl⟩
    refine ⟨m + 1 + n, .share hshare htypes hbound hbody hmoved, ?_⟩
    have hids (id : Nat) : id + m + 1 + n = id + (m + 1 + n) := by omega
    have hcounts (count : Nat) : count + m + n + 1 = count + (m + 1 + n) := by omega
    simp only [HoistState.advance, hids, hcounts]

end HoistM

theorem HoistRules.hoist_hoistsIn {policy : SharePolicy} (hpolicy : policy.OwnTypes) (fuel : Nat)
    {t : Tree} (hsize : t.size ≤ fuel) (hfits : t.Fits) (hfull : t.isFull = true) :
    HoistM.HoistsIn policy t (HoistRules.hoist ⟨.standard, policy⟩ fuel t) := by
  induction fuel generalizing t with
  | zero =>
      have hpos := t.size_pos
      omega
  | succ fuel ih =>
      have hargs : (∀ p, t.shareable? .standard = some p → policy p t = none) →
          HoistM.HoistsIn policy t
            (HoistM.onArgs (HoistRules.hoist ⟨.standard, policy⟩ fuel) t) := by
        intro hrefuse st
        have hstep : ∀ x : Tree, x.size < fuel + 1 → x.Fits → x.isFull = true →
            HoistM.HoistsIn policy x (HoistRules.hoist ⟨.standard, policy⟩ fuel x) :=
          fun x hx => ih (by omega)
        refine (HoistM.onArgs_yields hstep hsize hfits st).mono (fun h => h) ?_
        rintro p ⟨n, hn, hp⟩
        exact ⟨n, .args hrefuse hn, hp⟩
      rw [HoistRules.hoist]
      cases hshare : t.shareable? .standard with
      | none => exact hargs (by simp [hshare])
      | some part =>
          obtain ⟨hp, hpfull, hleaf⟩ := Tree.liftable_of_shareable? hshare
          rcases hpolicy part t hpfull hfull with hrefuse | htypes
          · simp only [hrefuse]
            refine hargs fun q hq => ?_
            obtain rfl : part = q := Option.some.inj (hshare.symm.trans hq)
            exact hrefuse
          · simp only [htypes]
            have hlt := hp.size_lt
            have htwo := Tree.two_le_size hleaf
            refine HoistM.share_hoistsIn hshare htypes hfits hfull
              (ih (by omega) (hp.fits hfits) hpfull) fun id body hbody => ?_
            have hbodysize := hbody.size_add_le hp
            exact ih (by omega) (hbody.fits hfits) (hbody.sameSpine.isFull_eq.trans hfull)

namespace Tree

variable {policy : SharePolicy} {t : Tree}

/-- Code motion has a derivation and reports every binding, or else runs out of machine words. -/
theorem hoistFrom_reports (hpolicy : policy.OwnTypes) (hfits : t.Fits) (hfull : t.isFull = true)
    (start : VarId) (progress : Tally) :
    Yields (t.Crowded (max start progress.total))
      (fun hoisted => t.Hoists policy start hoisted.lets hoisted.tree
        ∧ hoisted.progress.total = progress.total + hoisted.lets)
      (t.hoistFrom ⟨.standard, policy⟩ start progress) := by
  refine (HoistRules.hoist_hoistsIn hpolicy t.size (Nat.le_refl _) hfits hfull
    ⟨⟨start⟩, 0, progress⟩).bind ?_
  rintro ⟨tree, _⟩ ⟨n, hhoists, rfl⟩
  show t.Hoists policy start (0 + n) tree ∧ progress.total + n = progress.total + (0 + n)
  rw [Nat.zero_add]
  exact ⟨hhoists, rfl⟩

theorem hoistFrom_hoists (hpolicy : policy.OwnTypes) (hfits : t.Fits) (hfull : t.isFull = true)
    (start : VarId) :
    Yields (t.Crowded start) (fun hoisted => t.Hoists policy start hoisted.lets hoisted.tree)
      (t.hoistFrom ⟨.standard, policy⟩ start) := by
  refine (hoistFrom_reports hpolicy hfits hfull start ⟨0⟩).mono (fun h => ?_) fun _ h => h.1
  rwa [Nat.max_zero] at h

theorem hoistFrom_yields (hpolicy : policy.OwnTypes) (hfits : t.Fits) (hfull : t.isFull = true)
    (start : VarId) :
    Yields (t.Crowded start) (fun hoisted => t.Moves start hoisted.lets hoisted.tree)
      (t.hoistFrom ⟨.standard, policy⟩ start) :=
  (hoistFrom_hoists hpolicy hfits hfull start).mono (fun h => h) fun _ h => h.moves

theorem hoist_hoists (hpolicy : policy.OwnTypes) (hfits : t.Fits) (hfull : t.isFull = true)
    {start : VarId} (hstart : t.firstUnused .standard = .ok start) :
    Yields (t.Crowded start) (fun hoisted => t.Hoists policy start hoisted.lets hoisted.tree)
      (t.hoist ⟨.standard, policy⟩) := by
  have hrun : t.hoist ⟨.standard, policy⟩ = t.hoistFrom ⟨.standard, policy⟩ start := by
    simp only [hoist, hstart]
    rfl
  rw [hrun]
  exact hoistFrom_hoists hpolicy hfits hfull start

end Tree

/-! ## Results -/

theorem SharePolicy.standard_ownTypes : SharePolicy.standard.OwnTypes := by
  intro bound body _ _
  unfold SharePolicy.standard
  split
  · exact .inr rfl
  · exact .inl rfl

theorem Tree.Moves.evaluatesMarked {next : VarId} {t t' : Tree} {n : Nat} (h : t.Moves next n t')
    (hfits : t.Fits) (hfull : t.isFull = true) (hty : t.resultType.isFn = false) {Γ : Context}
    {env : Env} (hann : t.WellAnnotated (env.context Γ)) (hns : t.NonShadowing)
    (hbelow : t.MentionsBelow next) {vars : VarSet} (henv : env.Assigns Γ vars) :
    ∃ r, ∀ s, t.EvaluatesMarked env s r ∧ t'.EvaluatesMarked env s r := by
  have htyped := hfits.typed hann hfull
  have htyped' := (h.fits hfits hfull).typed (h.wellAnnotated hns hbelow hann) (h.isFull hfull)
  rw [h.resultType_eq] at htyped'
  obtain ⟨r, hr, hstands⟩ := htyped.evaluatesMarked_ground hty henv
  obtain ⟨r', hr', hstands'⟩ := htyped'.evaluatesMarked_ground hty henv
  rw [h.value_eq hfits hfull hns hbelow] at hstands'
  obtain rfl := hstands.left_unique hstands' fun _ _ _ => Value.Stands.unique hty
  exact ⟨r, fun s => ⟨hr s, hr' s⟩⟩

/-- Code motion keeps the results of a tree, values and failures alike. The pass itself
fails only where machine words run out. -/
theorem Tree.evaluates_hoistFrom {policy : SharePolicy} (hpolicy : policy.OwnTypes) {t : Tree}
    (hbuilt : t.Built) (hfull : t.isFull = true) (hty : t.resultType.isFn = false) {Γ : Context}
    (hann : t.WellAnnotated Γ) (hns : t.NonShadowing) (start : VarId)
    (hstart : t.MentionsBelow start) :
    Yields (t.Crowded start)
      (fun hoisted => ∀ env : Env, env.Assigns Γ (t.freeVars .standard) →
        ∃ r, ∀ h : Heap, t.Evaluates env h r ∧ hoisted.tree.Evaluates env h r)
      (t.hoistFrom ⟨.standard, policy⟩ start) := by
  refine (t.hoistFrom_yields hpolicy hbuilt.fits hfull start).mono (fun h => h) ?_
  intro hoisted hmoves env henv
  obtain ⟨r, hr⟩ := hmoves.evaluatesMarked hbuilt.fits hfull hty (hann.of_assigns henv) hns hstart
    henv
  refine ⟨r.mapError Failure.error, fun h => ?_⟩
  obtain ⟨ht, hhoisted⟩ := hr ⟨h, fun _ => false⟩
  exact ⟨ht.evaluates, hhoisted.evaluates⟩

private def third : Tree :=
  .node (.node (.leaf (.arith .div)) (.leaf (.var 0 .int))) (.leaf (.int 3))

private def twoThirds : Tree :=
  .node
    (.node (.leaf (.call .int .int))
      (.node (.leaf (.lambda 1 .int .int))
        (.node (.node (.leaf (.arith .add)) (.leaf (.var 1 .int))) third)))
    third

theorem Tree.evaluates_hoistFrom_twoThirds :
    ∃ hoisted, twoThirds.hoistFrom ⟨.standard, .standard⟩ 2 = .ok hoisted ∧ hoisted.lets = 1 ∧
      ∃ r, ∀ h, twoThirds.Evaluates (.bind 0 (.ready (.int 7)) .empty) h r
        ∧ hoisted.tree.Evaluates (.bind 0 (.ready (.int 7)) .empty) h r := by
  have hann : twoThirds.WellAnnotated fun _ => .int := by decide
  have hbelow : twoThirds.MentionsBelow 2 := Tree.mentionsBelow_of_firstUnused rfl
  have h := Tree.evaluates_hoistFrom SharePolicy.standard_ownTypes (by decide) rfl rfl hann
    (by decide) 2 hbelow
  refine ⟨⟨_, 1, ⟨1⟩⟩, rfl, rfl, ?_⟩
  exact h _ (.bind (.empty _ _) rfl fun _ => rfl)

end ExprTree

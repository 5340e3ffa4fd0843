import ExprTree.Proofs.GeneratorGrammar
import ExprTree.Proofs.Replacement
/-!
# Runs of the generator

Whatever is drawn, the generator makes a tree that its depth allows, or runs out
of machine words.
-/

namespace ExprTree

/-! ## Builders -/

theorem Tree.app_yields {func arg : Tree} (hnext : func.nextArg? = some arg.resultType)
    (hfull : arg.isFull = true) :
    Yields (wordLimit ≤ func.size + arg.size) (fun t => t = node func arg ∧ t.size < wordLimit)
      (app func arg) := by
  by_cases hsize : func.size + arg.size < wordLimit
  · rw [app_eq_ok_iff.2 ⟨rfl, hnext, hfull, hsize⟩]
    exact ⟨rfl, hsize⟩
  · have happ : app func arg = .error .overflow := by simp [app, join, hnext, hfull, hsize]
    rw [happ]
    exact ⟨rfl, Nat.le_of_not_lt hsize⟩

namespace Build

/-- The builder makes `t`, if its size is in range. -/
def Gives (t : Tree) (e : Except Fault Tree) : Prop :=
  Yields (wordLimit ≤ t.size) (fun u => u = t ∧ u.size < wordLimit) e

theorem construct_gives {t : Tree} (hfits : t.Fits) : Gives t (construct t.head t.args) := by
  have happly : Yields (wordLimit ≤ t.size) (fun u => u = t ∧ u.size < wordLimit)
      (Tree.apply t.head t.args) := by
    unfold Tree.apply
    induction t with
    | leaf s => exact ⟨rfl, Tree.size_leaf_lt s⟩
    | node f x ihf _ =>
        obtain ⟨hf, _, hfull, hnext⟩ := hfits
        rw [Tree.head_node, Tree.args, List.foldlM_append]
        have hsize : f.size ≤ (Tree.node f x).size := by
          rw [Tree.size_node]
          omega
        refine ((ihf hf).mono (fun h => Nat.le_trans h hsize) fun _ h => h).bind fun u hu => ?_
        obtain ⟨rfl, _⟩ := hu
        rw [List.foldlM_cons]
        refine (Tree.app_yields hnext hfull).bind fun v hv => ?_
        exact hv
  unfold construct
  cases hrun : Tree.apply t.head t.args with
  | ok u =>
      rw [hrun] at happly
      exact happly
  | error e =>
      rw [hrun] at happly
      obtain ⟨rfl, hsize⟩ := happly
      exact ⟨rfl, hsize⟩

theorem cond_gives {ty : Ty} {test a b : Tree}
    (hfits : (Tree.node (.node (.node (.leaf (.cond ty)) test) a) b).Fits) :
    Gives (.node (.node (.node (.leaf (.cond ty)) test) a) b) (cond test a b) := by
  obtain rfl : ty = a.resultType := Option.some.inj hfits.1.2.2.2
  exact construct_gives hfits

theorem lambda_gives {id : VarId} {A B : Ty} {b : Tree}
    (hfits : (Tree.node (.leaf (.lambda id A B)) b).Fits) :
    Gives (.node (.leaf (.lambda id A B)) b) (lambda id A b) := by
  obtain rfl : B = b.resultType := Option.some.inj hfits.2.2.2
  exact construct_gives hfits

theorem letIn_gives {id : VarId} {A B : Ty} {a b : Tree}
    (hfits : (Tree.node (.node (.leaf (.letIn A B)) a) (.node (.leaf (.lambda id A B)) b)).Fits) :
    Gives (.node (.node (.leaf (.letIn A B)) a) (.node (.leaf (.lambda id A B)) b))
      (letIn id a b) := by
  obtain rfl : A = a.resultType := Option.some.inj hfits.1.2.2.2
  obtain rfl : B = b.resultType := Option.some.inj hfits.2.1.2.2.2
  refine ((lambda_gives hfits.2.1).mono (fun h => Nat.le_trans h ?_) fun _ h => h).bind ?_
  · rw [Tree.size_node (.node _ a)]
    omega
  · rintro _ ⟨rfl, _⟩
    exact construct_gives hfits

theorem call_gives {id : VarId} {A B : Ty} {a b : Tree}
    (hfits : (Tree.node (.node (.leaf (.call A B)) (.node (.leaf (.lambda id A B)) b)) a).Fits) :
    Gives (.node (.node (.leaf (.call A B)) (.node (.leaf (.lambda id A B)) b)) a)
      (lambda id A b >>= fun func => call func a) := by
  refine ((lambda_gives hfits.1.2.1).mono (fun h => Nat.le_trans h ?_) fun _ h => h).bind ?_
  · rw [Tree.size_node (.node _ _) a, Tree.size_node (.leaf (.call A B))]
    omega
  · rintro _ ⟨rfl, _⟩
    exact construct_gives hfits

end Build

/-! ## Steps -/

section

variable {σ : Type}

/-- From `g`, the step comes to a result and a state in `P`. It fails only where words run out, and
then `short` holds. -/
def GrowthM.Runs {α : Type} (short : Prop) (g : Growth σ) (P : α → Growth Unit → Prop)
    (m : GrowthM σ α) : Prop :=
  Outcome.From (fun f => f = .overflow ∧ short) g (fun x g' => P x g'.bare) m

def GrowthM.Follows (depth : Nat) (mayFail : Bool) (ty : Ty) (m : GrowthM σ Tree) : Prop :=
  ∀ g first level, g.bare.Stocked first level →
    m.Runs (Short first (level + Growth.cost depth)) g (Growth.Makes depth mayFail ty g.bare)

def GrowthM.Builds (depth : Nat) (mayFail : Bool) (ty : Ty) (m : GrowthM σ Tree) : Prop :=
  ∀ g first level, g.bare.Stocked first level →
    m.Runs (Short first (level + (3 * Growth.cost depth + 2))) g fun t g' =>
      t.size < wordLimit ∧ Growth.Compound (Growth.Makes depth) mayFail ty g.bare t g'

namespace GrowthM.Runs

variable {α β : Type} {short : Prop} {g : Growth σ} {P P' : α → Growth Unit → Prop}
  {Q : β → Growth Unit → Prop}

theorem bind {m : GrowthM σ α} {f : α → GrowthM σ β} (hm : m.Runs short g P)
    (hf : ∀ a g', P a g'.bare → (f a).Runs short g' Q) : (m >>= f).Runs short g Q :=
  Outcome.From.bind hm hf

theorem mono {m : GrowthM σ α} (hm : m.Runs short g P) (hP : ∀ a g', P a g' → P' a g') :
    m.Runs short g P' :=
  Outcome.From.mono hm (fun _ h => h) fun _ _ => hP _ _

theorem pure {a : α} (ha : P a g.bare) : (Pure.pure a : GrowthM σ α).Runs short g P :=
  ha

theorem part {first level total depth : Nat} {mayFail : Bool} {ty : Ty} {m : GrowthM σ Tree}
    {f : Tree → GrowthM σ β} (hm : m.Follows depth mayFail ty) (hg : g.bare.Stocked first level)
    (hle : level + Growth.cost depth ≤ total)
    (hf : ∀ t g', g'.bare.Stocked first (level + Growth.cost depth) →
      Growth.Makes depth mayFail ty g.bare t g'.bare → (f t).Runs (Short first total) g' Q) :
    (m >>= f).Runs (Short first total) g Q := by
  have hpart := Yields.mono (hm g first level hg) (fun h => h.mono hle) fun _ h => h
  refine Outcome.bind hpart fun p hp => ?_
  exact hf p.1 p.2 (Growth.Makes.costs depth hp hg).stocked hp

theorem build {first level depth : Nat} {mayFail : Bool} {ty : Ty} {g₀ : Growth Unit} {t : Tree}
    {e : Except Fault Tree} (hg₀ : g₀.Stocked first level)
    (ht : Growth.Compound (Growth.Makes depth) mayFail ty g₀ t g.bare)
    (he : t.Fits → Build.Gives t e) :
    (liftM e : GrowthM σ Tree).Runs (Short first (level + (3 * Growth.cost depth + 2))) g
      fun t g' => t.size < wordLimit
        ∧ Growth.Compound (Growth.Makes depth) mayFail ty g₀ t g' := by
  have hproduct := (Growth.Compound.costs (Growth.Makes.costs depth) ht hg₀).product
  refine Outcome.bind ((he hproduct.made.typed.fits).mono (fun hsize => ?_) fun _ h => h) ?_
  · exact .inl (Nat.le_trans hsize hproduct.size_le)
  · rintro _ ⟨rfl, hsize⟩
    exact ⟨hsize, ht⟩

end GrowthM.Runs

namespace Growth

open GrowthM

variable {short : Prop} {g : Growth σ} (src : Source σ)

theorem get_runs : (get : GrowthM σ (Growth σ)).Runs short g fun s g' => s = g ∧ g' = g.bare :=
  ⟨rfl, rfl⟩

theorem coin_runs (chance : Chance) : (coin src chance).Runs short g fun _ g' => g' = g.bare :=
  rfl

theorem kind_runs (n : Nat) (hn : 0 < n) : (kind src n hn).Runs short g fun _ g' => g' = g.bare :=
  rfl

theorem pick_runs {α : Type} (xs : List α) (hxs : xs ≠ []) :
    (pick src xs hxs).Runs short g fun x g' => x ∈ xs ∧ g' = g.bare :=
  (kind_runs src _ _).bind fun i _ h => .pure ⟨xs.get_mem i, h⟩

theorem literal_runs (low : Int) (n : Nat) (hn : 0 < n) :
    (literal src low n hn).Runs short g
      fun t g' => (∃ i : Fin n, t = .leaf (.int (Int64.ofInt (low + i.val)))) ∧ g' = g.bare :=
  ⟨⟨_, rfl⟩, rfl⟩

theorem enter_runs {first level total : Nat} (hg : g.bare.Stocked first level)
    (hle : level + 1 ≤ total) :
    enter.Runs (Short first total) g fun id g' => id = g.supply.next ∧ g' = g.bare.entered := by
  have hnext : g.supply.next + 1 ≤ first + total :=
    Nat.le_trans (Nat.succ_le_succ hg.next_le) (Nat.add_le_add_left hle first)
  have hshort (h : wordLimit ≤ g.supply.next + 1) : Short first total := .inr (Nat.le_trans h hnext)
  refine ((g.supply.fresh_yields.mono hshort fun _ h => h).pair g).bind fun p hp => ?_
  obtain ⟨⟨id, supply⟩, st⟩ := p
  obtain ⟨rfl, rfl⟩ := Prod.mk.inj hp.1
  obtain rfl : st = _ := hp.2
  exact ⟨rfl, rfl⟩

theorem leave_runs : (leave : GrowthM σ Unit).Runs short g fun _ g' => g' = g.bare.left :=
  rfl

theorem keep_runs (mayFail : Bool) (t : Tree) :
    (keep mayFail t).Runs short g fun _ g' => g' = g.bare.kept mayFail t :=
  rfl

theorem intLiteral_runs (mayFail : Bool) :
    (intLiteral src).Runs short g (Leaf mayFail .int g.bare) := by
  refine (literal_runs src _ _ _).mono ?_
  rintro _ _ ⟨⟨i, rfl⟩, rfl⟩
  exact .int _ _

theorem intLeaf_runs (mayFail : Bool) : (intLeaf src).Runs short g (Leaf mayFail .int g.bare) := by
  refine get_runs.bind fun s g₀ h₀ => ?_
  obtain ⟨rfl, h₀⟩ := h₀
  rw [← h₀]
  dsimp only
  split
  · refine (coin_runs src _).bind fun answer g₁ h₁ => ?_
    rw [← h₁]
    cases answer with
    | true =>
        refine (pick_runs src _ _).bind fun id g₂ h₂ => .pure ?_
        have hscope : s.bare.scope = g₁.bare.scope := by rw [h₁, h₀]
        rw [h₂.2]
        exact .var (hscope ▸ h₂.1)
    | false => exact intLiteral_runs src mayFail
  · exact intLiteral_runs src mayFail

theorem reuse?_runs (mayFail : Bool) :
    (reuse? src mayFail).Runs short g fun found g' => g' = g.bare
      ∧ ∀ t ∈ found, ∃ r ∈ g.pool, (r.mayFail = true → mayFail = true) ∧ t = r.tree := by
  refine get_runs.bind fun s g₀ h₀ => ?_
  obtain ⟨rfl, h₀⟩ := h₀
  dsimp only
  split
  · refine (coin_runs src _).bind fun answer g₁ h₁ => ?_
    cases answer with
    | true =>
        refine (pick_runs src _ _).bind fun t g₂ h₂ => .pure ?_
        obtain ⟨r, hr, rfl⟩ := List.mem_map.1 h₂.1
        obtain ⟨hpool, hrisk⟩ := List.mem_filter.1 hr
        refine ⟨h₂.2.trans (h₁.trans h₀), fun u hu => ⟨r, hpool, fun hfail => ?_, ?_⟩⟩
        · simpa [hfail] using hrisk
        · exact (Option.some.inj hu).symm
    | false => exact .pure ⟨h₁.trans h₀, by simp⟩
  · exact .pure ⟨h₀, by simp⟩

section

variable {depth : Nat} {src}
  (hint : ∀ mayFail, (int src depth mayFail).Follows depth mayFail .int)
  (hbool : ∀ mayFail, (bool src depth mayFail).Follows depth mayFail .bool) (mayFail : Bool)

include hint

theorem arith_builds {op : ArithOp} (hop : op ≠ .div) :
    (arith (int src depth) mayFail op).Builds depth mayFail .int := by
  intro g first level hg
  refine .part (hint mayFail) hg (by omega) fun a g₁ hg₁ ha => ?_
  refine .part (hint mayFail) hg₁ (by omega) fun b g₂ _ hb => ?_
  exact .build hg (.arith hop ha hb) Build.construct_gives

theorem compare_builds (op : CompareOp) :
    (compare (int src depth) mayFail op).Builds depth mayFail .bool := by
  intro g first level hg
  refine .part (hint mayFail) hg (by omega) fun a g₁ hg₁ ha => ?_
  refine .part (hint mayFail) hg₁ (by omega) fun b g₂ _ hb => ?_
  exact .build hg (.compare op ha hb) Build.construct_gives

theorem divisor_runs {first level total : Nat} (hg : g.bare.Stocked first level)
    (hle : level + cost depth ≤ total) :
    (divisor src (int src depth) mayFail).Runs (Short first total) g fun t g' =>
      mayFail = true ∧ Makes depth mayFail .int g.bare t g'
        ∨ (∃ n : Int64, n ≠ 0 ∧ t = .leaf (.int n)) ∧ g' = g.bare := by
  have hpositive {g : Growth σ} :
      (positiveLiteral src).Runs (Short first total) g fun t g' =>
        mayFail = true ∧ Makes depth mayFail .int g.bare t g'
          ∨ (∃ n : Int64, n ≠ 0 ∧ t = .leaf (.int n)) ∧ g' = g.bare := by
    refine (literal_runs src 1 4 (by decide)).mono ?_
    rintro _ _ ⟨⟨i, rfl⟩, h⟩
    have hne : ∀ i : Fin 4, Int64.ofInt (1 + i.val) ≠ 0 := by decide
    exact .inr ⟨⟨_, hne i, rfl⟩, h⟩
  unfold divisor
  split
  · rename_i hrisk
    refine (coin_runs src _).bind fun answer g₁ h₁ => ?_
    rw [← h₁] at hg ⊢
    split
    · exact Yields.mono (hint mayFail g₁ first level hg) (fun h => h.mono hle)
        fun _ ht => .inl ⟨hrisk, ht⟩
    · exact hpositive
  · exact hpositive

theorem quotient_builds : (quotient src (int src depth) mayFail).Builds depth mayFail .int := by
  intro g first level hg
  refine .part (hint mayFail) hg (by omega) fun a g₁ hg₁ ha => ?_
  refine (divisor_runs hint mayFail hg₁ (by omega)).bind fun b g₂ hb => ?_
  have ht : Compound (Makes depth) mayFail .int g.bare
      (.node (.node (.leaf (.arith .div)) a) b) g₂.bare := by
    rcases hb with ⟨hrisk, hb⟩ | ⟨⟨n, hn, rfl⟩, h₂⟩
    · exact .divide hrisk ha hb
    · rw [h₂]
      exact .divideBy hn ha
  exact .build hg ht Build.construct_gives

omit hint in
include hbool in
theorem choice_builds {ty : Ty} {branch : (mayFail : Bool) → GrowthM σ Tree}
    (hbranch : ∀ mayFail, (branch mayFail).Follows depth mayFail ty) :
    (choice (bool src depth) mayFail branch).Builds depth mayFail ty := by
  intro g first level hg
  refine .part (hbool false) hg (by omega) fun test g₁ hg₁ htest => ?_
  refine .part (hbranch mayFail) hg₁ (by omega) fun a g₂ hg₂ ha => ?_
  refine .part (hbranch mayFail) hg₂ (by omega) fun b g₃ _ hb => ?_
  exact .build hg (.cond htest ha hb) Build.cond_gives

theorem binding_builds : (binding (int src depth) mayFail).Builds depth mayFail .int := by
  intro g first level hg
  refine .part (hint mayFail) hg (by omega) fun a g₁ hg₁ ha => ?_
  refine (enter_runs hg₁ (by omega)).bind fun id g₂ h₂ => ?_
  obtain ⟨rfl, h₂⟩ := h₂
  refine .part (hint mayFail) (h₂ ▸ hg₁.entered) (by omega) fun b g₃ _ hb => ?_
  refine leave_runs.bind fun _ g₄ h₄ => ?_
  have ht := Compound.letIn ha (h₂ ▸ hb)
  rw [← h₄] at ht
  exact .build hg ht Build.letIn_gives

theorem immediateCall_builds :
    (immediateCall (int src depth) mayFail).Builds depth mayFail .int := by
  intro g first level hg
  refine (enter_runs hg (by omega)).bind fun id g₁ h₁ => ?_
  obtain ⟨rfl, h₁⟩ := h₁
  refine .part (hint mayFail) (h₁ ▸ hg.entered) (by omega) fun b g₂ hg₂ hb => ?_
  refine leave_runs.bind fun _ g₃ h₃ => ?_
  refine .part (hint mayFail) (h₃ ▸ hg₂.left) (by omega) fun a g₄ _ ha => ?_
  have hbuild := Runs.build hg (.call (h₁ ▸ hb) (h₃ ▸ ha)) Build.call_gives
  rwa [liftM_bind] at hbuild

include hbool

theorem compoundInt_builds :
    (compoundInt src (int src depth) (bool src depth) mayFail).Builds depth mayFail .int := by
  intro g first level hg
  refine (kind_runs src _ _).bind fun k g₁ h₁ => ?_
  rw [← h₁] at hg ⊢
  split
  · exact arith_builds hint mayFail (by decide) g₁ first level hg
  · exact arith_builds hint mayFail (by decide) g₁ first level hg
  · exact arith_builds hint mayFail (by decide) g₁ first level hg
  · exact arith_builds hint mayFail (by decide) g₁ first level hg
  · exact arith_builds hint mayFail (by decide) g₁ first level hg
  · exact quotient_builds hint mayFail g₁ first level hg
  · exact choice_builds hbool mayFail hint g₁ first level hg
  · exact binding_builds hint mayFail g₁ first level hg
  · exact immediateCall_builds hint mayFail g₁ first level hg
  · refine (intLeaf_runs src mayFail).mono fun t g' ht => ⟨?_, .leaf ht⟩
    cases ht <;> exact Tree.size_leaf_lt _

theorem compoundBool_builds :
    (compoundBool src (int src depth) (bool src depth) mayFail).Builds depth mayFail .bool := by
  intro g first level hg
  refine (kind_runs src _ _).bind fun k g₁ h₁ => ?_
  rw [← h₁] at hg ⊢
  split
  · exact compare_builds hint mayFail _ g₁ first level hg
  · exact compare_builds hint mayFail _ g₁ first level hg
  · exact compare_builds hint mayFail _ g₁ first level hg
  · refine .part (hbool mayFail) hg (by omega) fun a g₂ _ ha => ?_
    exact .build hg (.negation ha) Build.construct_gives
  · refine .part (hbool mayFail) hg (by omega) fun a g₂ hg₂ ha => ?_
    refine .part (hbool mayFail) hg₂ (by omega) fun b g₃ _ hb => ?_
    exact .build hg (.conjunction ha hb) Build.construct_gives
  · exact choice_builds hbool mayFail hbool g₁ first level hg

end

/-- A generation makes what its depth allows, whatever is drawn. -/
theorem int_bool_follows (depth : Nat) :
    (∀ mayFail, (int src depth mayFail).Follows depth mayFail .int)
      ∧ ∀ mayFail, (bool src depth mayFail).Follows depth mayFail .bool := by
  induction depth with
  | zero =>
      refine ⟨fun mayFail g first level hg => ?_, fun mayFail g first level hg => ?_⟩
      · rw [int]
        exact intLeaf_runs src mayFail
      · rw [bool]
        refine (coin_runs src _).bind fun b g₁ h₁ => .pure ?_
        rw [h₁]
        exact .bool _ b
  | succ depth ih =>
      obtain ⟨hint, hbool⟩ := ih
      refine ⟨fun mayFail g first level hg => ?_, fun mayFail g first level hg => ?_⟩
      · rw [int, cost_succ]
        refine (reuse?_runs src mayFail).bind fun found g₁ hfound => ?_
        obtain ⟨h₁, hfound⟩ := hfound
        cases found with
        | some t =>
            obtain ⟨r, hr, hrisk, rfl⟩ := hfound t rfl
            refine .pure ?_
            rw [h₁]
            exact .reuse hr hrisk
        | none =>
            rw [← h₁] at hg ⊢
            have hbuilds := compoundInt_builds hint hbool mayFail g₁ first level hg
            refine hbuilds.bind fun t g₂ ht => ?_
            refine (keep_runs mayFail t).bind fun _ g₃ h₃ => .pure ?_
            rw [h₃]
            exact .int ht.1 ht.2
      · rw [bool, cost_succ]
        exact (compoundBool_builds hint hbool mayFail g first level hg).mono
          fun _ _ ht => .bool ht.1 ht.2

end Growth

end

end ExprTree

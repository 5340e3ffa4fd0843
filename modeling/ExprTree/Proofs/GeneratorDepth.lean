import ExprTree.Draws.Permuted
import ExprTree.Proofs.GeneratorCalls
/-!
# How deep generated trees are

The depth that is asked for bounds the recursion of the generator, but not the
trees it gives: a tree that was kept may be used again wherever its variables are
in scope, also where less depth is left than the tree has. So from depth three
on, a tree can come out deeper than what was asked for.

There is still a bound, `Growth.nestingBound`. The parts of a tree are made one
after the other, and each can be built on the deepest tree that the part before
it has left behind. A tree has at most three parts, so what is gained in depth
is at most tripled from one level to the next; up to two levels nothing is
gained.
-/

namespace ExprTree

/-! ## Depth -/

namespace Tree

/-- How many levels a tree has above its deepest leaf. The symbol of a function makes none, so that
a binding or a call is one level together with its function. -/
def nesting : Tree → Nat
  | leaf _ => 0
  | node func arg =>
      match func.binder? .standard with
      | some _ => arg.nesting
      | none => max func.nesting (arg.nesting + 1)

@[simp]
theorem nesting_leaf (s : Symbol) : (leaf s).nesting = 0 :=
  rfl

@[simp]
theorem nesting_lambda (id : VarId) (A B : Ty) (b : Tree) :
    (node (leaf (.lambda id A B)) b).nesting = b.nesting :=
  rfl

theorem nesting_one {s : Symbol} (hs : s.lambda? = none) (a : Tree) :
    (node (leaf s) a).nesting = a.nesting + 1 := by
  simp [nesting, binder?, Binders.standard, hs]

theorem nesting_two {s : Symbol} (hs : s.lambda? = none) (a b : Tree) :
    (node (node (leaf s) a) b).nesting = max a.nesting b.nesting + 1 := by
  rw [nesting, nesting_one hs]
  exact Nat.add_max_add_right ..

theorem nesting_three {s : Symbol} (hs : s.lambda? = none) (a b c : Tree) :
    (node (node (node (leaf s) a) b) c).nesting = max (max a.nesting b.nesting) c.nesting + 1 := by
  rw [nesting, nesting_two hs]
  exact Nat.add_max_add_right ..

end Tree

/-! ## One level of a generation -/

namespace Growth

def Shallow (top : Nat) (g : Growth Unit) : Prop :=
  ∀ r ∈ g.pool, r.tree.nesting ≤ top

namespace Shallow

variable {top : Nat} {g : Growth Unit}

theorem mono {top' : Nat} (hg : g.Shallow top) (hle : top ≤ top') : g.Shallow top' :=
  fun r hr => Nat.le_trans (hg r hr) hle

theorem entered (hg : g.Shallow top) : g.entered.Shallow top :=
  hg

theorem left (hg : g.Shallow top) : g.left.Shallow top :=
  fun r hr => hg r (List.mem_filter.1 hr).1

theorem kept (hg : g.Shallow top) (mayFail : Bool) {t : Tree} (ht : t.nesting ≤ top) :
    (g.kept mayFail t).Shallow top := by
  intro r hr
  rcases List.mem_append.1 hr with hr | hr
  · exact hg r hr
  · obtain rfl := List.mem_singleton.1 hr
    exact ht

end Shallow

/-- How much deeper the kept trees get while a tree with fewer than `bound` levels more than them is
made. A truth value is not kept itself. -/
def gain (ty : Ty) (bound : Nat) : Nat :=
  if ty = .int then bound - 1 else bound - 2

@[simp]
theorem gain_int (bound : Nat) : gain .int bound = bound - 1 :=
  rfl

@[simp]
theorem gain_bool (bound : Nat) : gain .bool bound = bound - 2 :=
  rfl

/-- Where no kept tree has more than `top` levels, the tree has fewer than `bound` levels more. -/
structure Deepens (top bound : Nat) (ty : Ty) (t : Tree) (g' : Growth Unit) : Prop where
  nesting_lt : t.nesting < top + bound
  shallow : g'.Shallow (top + gain ty bound)

def Rule.Deepens (R : Rule) (bound : Nat) : Prop :=
  ∀ {mayFail : Bool} {ty : Ty} {g g' : Growth Unit} {t : Tree} {top : Nat}, 0 < top →
    R mayFail ty g t g' → g.Shallow top → Growth.Deepens top bound ty t g'

theorem Leaf.deepens (bound : Nat) : Rule.Deepens Leaf bound := by
  intro mayFail ty g g' t top htop h hg
  have hg' := hg.mono (Nat.le_add_right top (gain ty bound))
  cases h with
  | int | bool | var => exact ⟨Nat.add_pos_left htop bound, hg'⟩

/-- The bound for trees whose parts are within `bound`: with three parts, the first of them a test,
each can be built on what the part before it has left behind. -/
def nextBound (bound : Nat) : Nat :=
  max (bound + 1) (3 * bound - 2)

theorem gain_nextBound (ty : Ty) (bound : Nat) :
    bound - 2 + (gain ty bound + gain ty bound) ≤ gain ty (nextBound bound) := by
  unfold gain nextBound
  by_cases hty : ty = .int
  · rw [if_pos hty, if_pos hty]
    omega
  · rw [if_neg hty, if_neg hty]
    omega

theorem Deepens.ints {top bound : Nat} {a b : Tree} {g₁ g₂ : Growth Unit} (ty : Ty)
    (ha : Deepens top bound .int a g₁) (hb : Deepens (top + (bound - 1)) bound .int b g₂) :
    max a.nesting b.nesting + 1 < top + nextBound bound
      ∧ g₂.Shallow (top + gain ty (nextBound bound)) := by
  have hdepths := And.intro ha.nesting_lt hb.nesting_lt
  refine ⟨?_, hb.shallow.mono ?_⟩
  · unfold nextBound
    omega
  · rw [gain_int]
    unfold gain nextBound
    split <;> omega

theorem Compound.deepens {below : Rule} {bound : Nat} (hbelow : below.Deepens bound) :
    Rule.Deepens (Compound below) (nextBound bound) := by
  intro mayFail ty g g' t top htop h hg
  have htop' (n : Nat) : 0 < top + n := Nat.add_pos_left htop n
  cases h with
  | leaf h => exact Leaf.deepens _ htop h hg
  | arith _ ha hb | divide _ ha hb =>
      have h₁ := hbelow htop ha hg
      obtain ⟨hdepth, hpool⟩ := h₁.ints .int (hbelow (htop' _) hb h₁.shallow)
      exact ⟨by rwa [Tree.nesting_two rfl], hpool⟩
  | compare _ ha hb =>
      have h₁ := hbelow htop ha hg
      obtain ⟨hdepth, hpool⟩ := h₁.ints .bool (hbelow (htop' _) hb h₁.shallow)
      exact ⟨by rwa [Tree.nesting_two rfl], hpool⟩
  | letIn ha hb =>
      have h₁ := hbelow htop ha hg
      obtain ⟨hdepth, hpool⟩ := h₁.ints .int (hbelow (htop' _) hb h₁.shallow.entered)
      exact ⟨by rwa [Tree.nesting_two rfl, Tree.nesting_lambda], hpool.left⟩
  | call hb ha =>
      have h₁ := hbelow htop hb hg.entered
      obtain ⟨hdepth, hpool⟩ := h₁.ints .int (hbelow (htop' _) ha h₁.shallow.left)
      exact ⟨by rwa [Tree.nesting_two rfl, Tree.nesting_lambda], hpool⟩
  | divideBy _ ha =>
      have h₁ := hbelow htop ha hg
      have hdepth := h₁.nesting_lt
      refine ⟨?_, h₁.shallow.mono ?_⟩
      · rw [Tree.nesting_two rfl, Tree.nesting_leaf]
        unfold nextBound
        omega
      · rw [gain_int, gain_int]
        unfold nextBound
        omega
  | negation ha =>
      have h₁ := hbelow htop ha hg
      have hdepth := h₁.nesting_lt
      refine ⟨?_, h₁.shallow.mono ?_⟩
      · rw [Tree.nesting_one rfl]
        unfold nextBound
        omega
      · rw [gain_bool, gain_bool]
        unfold nextBound
        omega
  | conjunction ha hb =>
      have h₁ := hbelow htop ha hg
      have h₂ := hbelow (htop' _) hb h₁.shallow
      have hdepths := And.intro h₁.nesting_lt h₂.nesting_lt
      rw [gain_bool] at hdepths
      refine ⟨?_, h₂.shallow.mono ?_⟩
      · rw [Tree.nesting_two rfl]
        unfold nextBound
        omega
      · rw [gain_bool, gain_bool]
        unfold nextBound
        omega
  | cond htest ha hb =>
      have h₁ := hbelow htop htest hg
      have h₂ := hbelow (htop' _) ha h₁.shallow
      have h₃ := hbelow (Nat.add_pos_left (htop' _) _) hb h₂.shallow
      have hdepths := And.intro h₁.nesting_lt (And.intro h₂.nesting_lt h₃.nesting_lt)
      rw [gain_bool] at hdepths
      refine ⟨?_, h₃.shallow.mono ?_⟩
      · have hgain : gain ty bound ≤ bound - 1 := by
          unfold gain
          split <;> omega
        rw [Tree.nesting_three rfl]
        unfold nextBound
        omega
      · have hgain := gain_nextBound ty bound
        rw [gain_bool]
        omega

theorem Step.deepens {below : Rule} {bound : Nat} (hbelow : below.Deepens bound) :
    Rule.Deepens (Step below) (nextBound bound) := by
  intro mayFail ty g g' t top htop h hg
  cases h with
  | reuse hr _ =>
      have hdepth := hg _ hr
      refine ⟨?_, hg.mono (Nat.le_add_right _ _)⟩
      unfold nextBound
      omega
  | int _ h =>
      have h' := Compound.deepens hbelow htop h hg
      have hdepth := h'.nesting_lt
      refine ⟨hdepth, h'.shallow.kept mayFail ?_⟩
      rw [gain_int]
      omega
  | bool _ h => exact Compound.deepens hbelow htop h hg

/-! ## All levels -/

def nestingBound : (depth : Nat) → Nat
  | 0 => 0
  | 1 => 1
  | depth + 2 => 3 ^ depth + 1

theorem nestingBound_succ (depth : Nat) :
    nestingBound (depth + 1) = nextBound (nestingBound depth) := by
  rcases depth with _ | _ | depth
  · rfl
  · rfl
  · have hpos : 1 ≤ 3 ^ depth := Nat.one_le_pow _ _ (by decide)
    simp only [nestingBound, nextBound, Nat.pow_succ]
    omega

theorem nestingBound_eq_self {depth : Nat} (h : depth ≤ 2) : nestingBound depth = depth := by
  obtain rfl | rfl | rfl : depth = 0 ∨ depth = 1 ∨ depth = 2 := by omega
  all_goals rfl

theorem Makes.deepens (depth : Nat) : Rule.Deepens (Makes depth) (nestingBound depth) := by
  induction depth with
  | zero => exact Leaf.deepens 0
  | succ depth ih =>
      rw [nestingBound_succ]
      exact Step.deepens ih

end Growth

/-! ## Generated trees -/

def Request.depth : Request → Nat
  | int depth => depth
  | bool depth => depth

namespace Generator

variable {σ : Type}

theorem grow_nesting_le (g : Generator σ) {depth : Nat} {ty : Ty} {step : GrowthM σ Tree}
    (hstep : step.Follows depth true ty) :
    Yields (Short g.supply.next (Growth.cost depth))
      (fun p => p.1.nesting ≤ Growth.nestingBound depth) (grow step g) := by
  have hshallow : Growth.Shallow 1 ⟨(), g.supply, g.free, []⟩ :=
    fun _ hr => absurd hr List.not_mem_nil
  refine (g.grow_makes hstep).mono (fun h => h) ?_
  rintro ⟨t, g'⟩ ⟨after, hmakes, _⟩
  have hdepth := (Growth.Makes.deepens depth Nat.one_pos hmakes hshallow).nesting_lt
  exact Nat.lt_one_add_iff.1 hdepth

/-- Whatever is drawn, a generated tree is within the bound for the depth that was asked for. Up to
depth two, that depth itself is the bound. -/
theorem answer_nesting_le (src : Source σ) (g : Generator σ) (request : Request) :
    Yields (Short g.supply.next request.steps)
      (fun p => p.1.nesting ≤ Growth.nestingBound request.depth
        ∧ (request.depth ≤ 2 → p.1.nesting ≤ request.depth))
      (g.answer src request) := by
  have hbound : Yields (Short g.supply.next request.steps)
      (fun p => p.1.nesting ≤ Growth.nestingBound request.depth) (g.answer src request) := by
    cases request with
    | int depth => exact g.grow_nesting_le ((Growth.int_bool_follows src depth).1 true)
    | bool depth => exact g.grow_nesting_le ((Growth.int_bool_follows src depth).2 true)
  refine hbound.mono (fun h => h) fun p hp => ⟨hp, fun hdepth => ?_⟩
  rwa [Growth.nestingBound_eq_self hdepth] at hp

private def twoLevels : Tree :=
  .node (.node (.leaf (.arith .sub)) (.leaf (.int (-3))))
    (.node (.node (.leaf (.arith .sub)) (.leaf (.int 3))) (.leaf (.int 5)))

private def usedTooDeep : Tree :=
  .node (.node (.leaf (.arith .mul)) twoLevels)
    (.node (.node (.leaf (.arith .mul)) (.leaf (.int (-3)))) twoLevels)

/-- At depth three the bound is reached, and it is more than what was asked for. -/
theorem exists_deeper_than_requested :
    ∃ t g', (new (Permuted.ofSeed 1759) 0).intTree Permuted.source 3 = .ok (t, g')
      ∧ 3 < t.nesting ∧ t.nesting = Growth.nestingBound 3 := by
  have htree : ((new (Permuted.ofSeed 1759) 0).intTree Permuted.source 3).toOption.map Prod.fst =
      some usedTooDeep := by
    decide +kernel
  cases hrun : (new (Permuted.ofSeed 1759) 0).intTree Permuted.source 3 with
  | error e =>
      rw [hrun] at htree
      cases htree
  | ok p =>
      obtain ⟨t, g'⟩ := p
      rw [hrun] at htree
      obtain rfl : t = usedTooDeep := Option.some.inj htree
      exact ⟨_, g', rfl, by decide, by decide⟩

end Generator

end ExprTree

import Mathlib.Algebra.Order.Ring.Nat
import ExprTree.Generation
import ExprTree.Proofs.Scope
/-!
# What a generation can make

`Growth.Makes` lists the trees that a generation of some depth can make from a
state, and the state after each, with one constructor for each production and
with the draws left out. What holds of all generated trees follows from it by
cases, without another look at the generator.

Here it follows that the trees are of a grammar, `Tree.Made`, which says which
constructs they use, where they may divide by anything, and which variables
their functions bind. It also follows that generation gets by with few words: a
step makes a tree of at most four times the size of the largest one so far, or
takes one variable from the supply, and the depth bounds the number of steps.
-/

namespace ExprTree

theorem Typed.intLambda {id : VarId} {b : Tree} (hb : Typed (fun _ => .int) b .int) :
    Typed (fun _ => .int) (.node (.leaf (.lambda id .int .int)) b) (.fn .int .int) := by
  have hset : Context.set (fun _ => .int) id .int = fun _ => .int := by
    funext x
    unfold Context.set
    split <;> rfl
  exact .lambda (by rwa [hset])

/-! ## The grammar -/

/-- Generated trees whose functions bind variables from `first` up to `next`. Where nothing may
fail, a divisor is a literal. -/
inductive Tree.Made (first next : Nat) : (mayFail : Bool) → Ty → Tree → Prop where
  | int {mayFail : Bool} (n : Int64) : Made first next mayFail .int (.leaf (.int n))
  | bool {mayFail : Bool} (b : Bool) : Made first next mayFail .bool (.leaf (.bool b))
  | var {mayFail : Bool} (id : VarId) : Made first next mayFail .int (.leaf (.var id .int))
  | arith {mayFail : Bool} {op : ArithOp} {a b : Tree} (hop : op ≠ .div) :
      Made first next mayFail .int a → Made first next mayFail .int b →
        Made first next mayFail .int (.node (.node (.leaf (.arith op)) a) b)
  | divide {a b : Tree} : Made first next true .int a → Made first next true .int b →
      Made first next true .int (.node (.node (.leaf (.arith .div)) a) b)
  | divideBy {mayFail : Bool} {n : Int64} {a : Tree} (hn : n ≠ 0) : Made first next mayFail .int a →
      Made first next mayFail .int (.node (.node (.leaf (.arith .div)) a) (.leaf (.int n)))
  | compare {mayFail : Bool} {a b : Tree} (op : CompareOp) :
      Made first next mayFail .int a → Made first next mayFail .int b →
        Made first next mayFail .bool (.node (.node (.leaf (.compare op)) a) b)
  | negation {mayFail : Bool} {a : Tree} : Made first next mayFail .bool a →
      Made first next mayFail .bool (.node (.leaf .negation) a)
  | conjunction {mayFail : Bool} {a b : Tree} :
      Made first next mayFail .bool a → Made first next mayFail .bool b →
        Made first next mayFail .bool (.node (.node (.leaf .conjunction) a) b)
  | cond {mayFail : Bool} {ty : Ty} {test a b : Tree} :
      Made first next false .bool test → Made first next mayFail ty a →
        Made first next mayFail ty b →
        Made first next mayFail ty (.node (.node (.node (.leaf (.cond ty)) test) a) b)
  | letIn {mayFail : Bool} {id : Nat} {a b : Tree} (hfirst : first ≤ id) (hnext : id < next) :
      Made first next mayFail .int a → Made first next mayFail .int b →
        Made first next mayFail .int
          (.node (.node (.leaf (.letIn .int .int)) a) (.node (.leaf (.lambda id .int .int)) b))
  | call {mayFail : Bool} {id : Nat} {a b : Tree} (hfirst : first ≤ id) (hnext : id < next) :
      Made first next mayFail .int a → Made first next mayFail .int b →
        Made first next mayFail .int
          (.node (.node (.leaf (.call .int .int)) (.node (.leaf (.lambda id .int .int)) b)) a)

namespace Tree.Made

variable {first next : Nat} {mayFail : Bool} {ty : Ty} {t : Tree}

/-- A tree stays of the grammar when more variables are taken, and what cannot fail may stand
where failure is allowed. -/
theorem weaken {next' : Nat} {mayFail' : Bool} (h : t.Made first next mayFail ty)
    (hnext : next ≤ next') (hrisk : mayFail = true → mayFail' = true) :
    t.Made first next' mayFail' ty := by
  induction h generalizing mayFail' with
  | int n => exact .int n
  | bool b => exact .bool b
  | var id => exact .var id
  | arith hop _ _ iha ihb => exact .arith hop (iha hrisk) (ihb hrisk)
  | divide _ _ iha ihb =>
      obtain rfl := hrisk rfl
      exact .divide (iha hrisk) (ihb hrisk)
  | divideBy hn _ iha => exact .divideBy hn (iha hrisk)
  | compare op _ _ iha ihb => exact .compare op (iha hrisk) (ihb hrisk)
  | negation _ iha => exact .negation (iha hrisk)
  | conjunction _ _ iha ihb => exact .conjunction (iha hrisk) (ihb hrisk)
  | cond _ _ _ ihtest iha ihb => exact .cond (ihtest (by simp)) (iha hrisk) (ihb hrisk)
  | letIn hfirst hid _ _ iha ihb => exact .letIn hfirst (by omega) (iha hrisk) (ihb hrisk)
  | call hfirst hid _ _ iha ihb => exact .call hfirst (by omega) (iha hrisk) (ihb hrisk)

theorem typed (h : t.Made first next mayFail ty) : Typed (fun _ => .int) t ty := by
  induction h with
  | int n => exact .int n
  | bool b => exact .bool b
  | var id => exact .var id
  | arith _ _ _ iha ihb => exact .arith _ iha ihb
  | divide _ _ iha ihb => exact .arith .div iha ihb
  | divideBy _ _ iha => exact .arith .div iha (.int _)
  | compare op _ _ iha ihb => exact .compare op iha ihb
  | negation _ iha => exact .negation iha
  | conjunction _ _ iha ihb => exact .conjunction iha ihb
  | cond _ _ _ ihtest iha ihb => exact .cond ihtest iha ihb
  | letIn _ _ _ _ iha ihb => exact .letIn iha (.intLambda ihb)
  | call _ _ _ _ iha ihb => exact .call (.intLambda ihb) iha

theorem mem_binders (h : t.Made first next mayFail ty) {id : Nat} (hid : id ∈ t.binders) :
    first ≤ id ∧ id < next := by
  induction h with
  | int | bool | var => simp [binders, Symbol.lambda?] at hid
  | arith _ _ _ iha ihb | divide _ _ iha ihb | compare _ _ _ iha ihb | conjunction _ _ iha ihb =>
      simp only [binders, Symbol.lambda?, Option.toList_none, List.nil_append,
        List.mem_append] at hid
      exact hid.elim iha ihb
  | divideBy _ _ iha | negation _ iha =>
      simp only [binders, Symbol.lambda?, Option.toList_none, List.nil_append,
        List.append_nil] at hid
      exact iha hid
  | cond _ _ _ ihtest iha ihb =>
      simp only [binders, Symbol.lambda?, Option.toList_none, List.nil_append,
        List.mem_append] at hid
      exact hid.elim (fun h => h.elim ihtest iha) ihb
  | letIn hfirst hnext _ _ iha ihb =>
      simp only [binders, Symbol.lambda?, Option.toList_none, Option.toList_some,
        List.nil_append, List.mem_append, List.mem_singleton] at hid
      rcases hid with hid | rfl | hid
      · exact iha hid
      · exact ⟨hfirst, hnext⟩
      · exact ihb hid
  | call hfirst hnext _ _ iha ihb =>
      simp only [binders, Symbol.lambda?, Option.toList_none, Option.toList_some,
        List.nil_append, List.mem_append, List.mem_singleton] at hid
      rcases hid with (rfl | hid) | hid
      · exact ⟨hfirst, hnext⟩
      · exact ihb hid
      · exact iha hid

end Tree.Made

/-! ## Runs -/

/-- The trees that a generation can make: whether failure is allowed, the type, the state before,
the tree and the state after it. -/
abbrev Growth.Rule :=
  (mayFail : Bool) → Ty → Growth Unit → Tree → Growth Unit → Prop

namespace Growth

section

variable {σ : Type}

def bare (g : Growth σ) : Growth Unit :=
  ⟨(), g.supply, g.scope, g.pool⟩

def entered (g : Growth σ) : Growth σ :=
  { g with supply := ⟨g.supply.next + 1⟩, scope := g.scope ++ [g.supply.next] }

def left (g : Growth σ) : Growth σ :=
  { g with
    scope := g.scope.dropLast
    pool := g.pool.filter (·.depth ≤ g.scope.dropLast.length) }

def kept (mayFail : Bool) (t : Tree) (g : Growth σ) : Growth σ :=
  { g with pool := g.pool ++ [⟨g.scope.length, mayFail, t⟩] }

end

inductive Leaf (mayFail : Bool) : Ty → Growth Unit → Tree → Growth Unit → Prop where
  | int (g : Growth Unit) (n : Int64) : Leaf mayFail .int g (.leaf (.int n)) g
  | bool (g : Growth Unit) (b : Bool) : Leaf mayFail .bool g (.leaf (.bool b)) g
  | var {g : Growth Unit} {id : VarId} (hid : id ∈ g.scope) :
      Leaf mayFail .int g (.leaf (.var id .int)) g

/-- Trees over parts that `below` makes, one after the other. A test is made where nothing may
fail, and there a divisor is a literal. -/
inductive Compound (below : Rule) (mayFail : Bool) :
    Ty → Growth Unit → Tree → Growth Unit → Prop where
  | leaf {g g' : Growth Unit} {t : Tree} :
      Leaf mayFail .int g t g' → Compound below mayFail .int g t g'
  | arith {g g₁ g₂ : Growth Unit} {op : ArithOp} {a b : Tree} (hop : op ≠ .div) :
      below mayFail .int g a g₁ → below mayFail .int g₁ b g₂ →
        Compound below mayFail .int g (.node (.node (.leaf (.arith op)) a) b) g₂
  | divide {g g₁ g₂ : Growth Unit} {a b : Tree} (hrisk : mayFail = true) :
      below mayFail .int g a g₁ → below mayFail .int g₁ b g₂ →
        Compound below mayFail .int g (.node (.node (.leaf (.arith .div)) a) b) g₂
  | divideBy {g g₁ : Growth Unit} {a : Tree} {n : Int64} (hn : n ≠ 0) :
      below mayFail .int g a g₁ →
        Compound below mayFail .int g (.node (.node (.leaf (.arith .div)) a) (.leaf (.int n))) g₁
  | compare {g g₁ g₂ : Growth Unit} {a b : Tree} (op : CompareOp) :
      below mayFail .int g a g₁ → below mayFail .int g₁ b g₂ →
        Compound below mayFail .bool g (.node (.node (.leaf (.compare op)) a) b) g₂
  | negation {g g₁ : Growth Unit} {a : Tree} :
      below mayFail .bool g a g₁ → Compound below mayFail .bool g (.node (.leaf .negation) a) g₁
  | conjunction {g g₁ g₂ : Growth Unit} {a b : Tree} :
      below mayFail .bool g a g₁ → below mayFail .bool g₁ b g₂ →
        Compound below mayFail .bool g (.node (.node (.leaf .conjunction) a) b) g₂
  | cond {g g₁ g₂ g₃ : Growth Unit} {ty : Ty} {test a b : Tree} :
      below false .bool g test g₁ → below mayFail ty g₁ a g₂ → below mayFail ty g₂ b g₃ →
        Compound below mayFail ty g (.node (.node (.node (.leaf (.cond ty)) test) a) b) g₃
  | letIn {g g₁ g₂ : Growth Unit} {a b : Tree} :
      below mayFail .int g a g₁ → below mayFail .int g₁.entered b g₂ →
        Compound below mayFail .int g (.node (.node (.leaf (.letIn .int .int)) a)
          (.node (.leaf (.lambda g₁.supply.next .int .int)) b)) g₂.left
  | call {g g₁ g₂ : Growth Unit} {a b : Tree} :
      below mayFail .int g.entered b g₁ → below mayFail .int g₁.left a g₂ →
        Compound below mayFail .int g (.node (.node (.leaf (.call .int .int))
          (.node (.leaf (.lambda g.supply.next .int .int)) b)) a) g₂

/-- The trees of one level more. An integer tree is kept, and may be one that was kept before. -/
inductive Step (below : Rule) (mayFail : Bool) :
    Ty → Growth Unit → Tree → Growth Unit → Prop where
  | reuse {g : Growth Unit} {r : Reusable} (hr : r ∈ g.pool)
      (hrisk : r.mayFail = true → mayFail = true) : Step below mayFail .int g r.tree g
  | int {g g' : Growth Unit} {t : Tree} (hsize : t.size < wordLimit) :
      Compound below mayFail .int g t g' → Step below mayFail .int g t (g'.kept mayFail t)
  | bool {g g' : Growth Unit} {t : Tree} (hsize : t.size < wordLimit) :
      Compound below mayFail .bool g t g' → Step below mayFail .bool g t g'

def Makes : (depth : Nat) → Rule
  | 0 => Leaf
  | depth + 1 => Step (Makes depth)

end Growth

/-! ## Words -/

/-- After `level` steps of a generation whose first variable is `first`, machine words may have
run out. -/
def Short (first level : Nat) : Prop :=
  wordLimit ≤ 4 ^ level ∨ wordLimit ≤ first + level

theorem Short.mono {first level level' : Nat} (h : Short first level) (hle : level ≤ level') :
    Short first level' := by
  have hpow : 4 ^ level ≤ 4 ^ level' := Nat.pow_le_pow_right (by decide) hle
  unfold Short at h ⊢
  omega

structure Tree.Product (first next level : Nat) (mayFail : Bool) (ty : Ty) (t : Tree) : Prop where
  made : t.Made first next mayFail ty
  size_le : t.size ≤ 4 ^ level

theorem Tree.Product.mono {first next next' level level' : Nat} {mayFail : Bool} {ty : Ty}
    {t : Tree} (h : t.Product first next level mayFail ty) (hnext : next ≤ next')
    (hlevel : level ≤ level') : t.Product first next' level' mayFail ty :=
  ⟨h.made.weaken hnext fun h => h,
    Nat.le_trans h.size_le (Nat.pow_le_pow_right (by decide) hlevel)⟩

private theorem le_pow_succ {m k l level : Nat} (hk : k ≤ 4 ^ level) (hl : l ≤ 4 ^ level)
    (hm : m ≤ 2 + k + l) : m ≤ 4 ^ (level + 1) := by
  have hpos : 1 ≤ 4 ^ level := Nat.one_le_pow _ _ (by decide)
  rw [Nat.pow_succ]
  omega

namespace Growth

/-- A state that `level` steps have led to, where all that is kept is of the grammar. -/
structure Stocked (first level : Nat) (g : Growth Unit) : Prop where
  first_le : first ≤ g.supply.next
  next_le : g.supply.next ≤ first + level
  pool : ∀ r ∈ g.pool, r.tree.Product first g.supply.next level r.mayFail .int

structure Advance (first level : Nat) (mayFail : Bool) (ty : Ty) (g : Growth Unit) (t : Tree)
    (g' : Growth Unit) : Prop where
  stocked : g'.Stocked first level
  next_le : g.supply.next ≤ g'.supply.next
  product : t.Product first g'.supply.next level mayFail ty

namespace Stocked

variable {first level : Nat} {g : Growth Unit}

theorem mono {level' : Nat} (hg : g.Stocked first level) (hle : level ≤ level') :
    g.Stocked first level' where
  first_le := hg.first_le
  next_le := Nat.le_trans hg.next_le (Nat.add_le_add_left hle first)
  pool := fun r hr => (hg.pool r hr).mono (Nat.le_refl _) hle

theorem entered (hg : g.Stocked first level) : g.entered.Stocked first (level + 1) where
  first_le := Nat.le_succ_of_le hg.first_le
  next_le := Nat.succ_le_succ hg.next_le
  pool := fun r hr => (hg.pool r hr).mono (Nat.le_succ _) (Nat.le_succ _)

theorem left (hg : g.Stocked first level) : g.left.Stocked first level where
  first_le := hg.first_le
  next_le := hg.next_le
  pool := fun r hr => hg.pool r (List.mem_filter.1 hr).1

theorem kept (hg : g.Stocked first level) {mayFail : Bool} {t : Tree}
    (ht : t.Product first g.supply.next level mayFail .int) :
    (g.kept mayFail t).Stocked first level where
  first_le := hg.first_le
  next_le := hg.next_le
  pool := by
    intro r hr
    rcases List.mem_append.1 hr with hr | hr
    · exact hg.pool r hr
    · obtain rfl := List.mem_singleton.1 hr
      exact ht

end Stocked

def Rule.Costs (R : Rule) (cost : Nat) : Prop :=
  ∀ {mayFail : Bool} {ty : Ty} {g g' : Growth Unit} {t : Tree} {first level : Nat},
    R mayFail ty g t g' → g.Stocked first level →
      Advance first (level + cost) mayFail ty g t g'

theorem Leaf.costs (cost : Nat) : Rule.Costs Leaf cost := by
  intro mayFail ty g g' t first level h hg
  have hsize : 1 ≤ 4 ^ (level + cost) := Nat.one_le_pow _ _ (by decide)
  have hg' := hg.mono (Nat.le_add_right level cost)
  cases h with
  | int _ n => exact ⟨hg', Nat.le_refl _, .int n, hsize⟩
  | bool _ b => exact ⟨hg', Nat.le_refl _, .bool b, hsize⟩
  | var _ => exact ⟨hg', Nat.le_refl _, .var _, hsize⟩

/-- A tree over parts that are there in state `g'` is one step more. -/
theorem Advance.build {first level level' : Nat} {mayFail : Bool} {ty : Ty} {g g' : Growth Unit}
    {t : Tree} (hg' : g'.Stocked first level) (hle : g.supply.next ≤ g'.supply.next)
    (hmade : t.Made first g'.supply.next mayFail ty) (hsize : t.size ≤ 4 ^ (level + 1))
    (hlevel : level + 1 ≤ level') : Advance first level' mayFail ty g t g' where
  stocked := hg'.mono (Nat.le_of_succ_le hlevel)
  next_le := hle
  product := Tree.Product.mono ⟨hmade, hsize⟩ (Nat.le_refl _) hlevel

/-- There are at most three parts; a variable and the tree itself are a step each. -/
theorem Compound.costs {below : Rule} {cost : Nat} (hbelow : below.Costs cost) :
    Rule.Costs (Compound below) (3 * cost + 2) := by
  intro mayFail ty g g' t first level h hg
  -- A symbol over two parts.
  have hpair {g₁ g₂ : Growth Unit} {s : Symbol} {a b : Tree} {A B ty : Ty}
      (ha : below mayFail A g a g₁) (hb : below mayFail B g₁ b g₂)
      (hmade : a.Made first g₂.supply.next mayFail A → b.Made first g₂.supply.next mayFail B →
        Tree.Made first g₂.supply.next mayFail ty (.node (.node (.leaf s) a) b)) :
      Advance first (level + (3 * cost + 2)) mayFail ty g (.node (.node (.leaf s) a) b) g₂ := by
    have h₁ := hbelow ha hg
    have h₂ := hbelow hb h₁.stocked
    have ha := h₁.product.mono h₂.next_le (Nat.le_add_right _ cost)
    refine .build h₂.stocked (Nat.le_trans h₁.next_le h₂.next_le)
      (hmade ha.made h₂.product.made) (le_pow_succ ha.size_le h₂.product.size_le ?_) (by omega)
    simp only [Tree.size_node, Tree.size_leaf]
    omega
  cases h with
  | leaf h => exact Leaf.costs _ h hg
  | arith hop ha hb => exact hpair ha hb (.arith hop)
  | divide hrisk ha hb =>
      subst hrisk
      exact hpair ha hb .divide
  | compare op ha hb => exact hpair ha hb (.compare op)
  | conjunction ha hb => exact hpair ha hb .conjunction
  | divideBy hn ha =>
      have h₁ := hbelow ha hg
      refine .build h₁.stocked h₁.next_le (.divideBy hn h₁.product.made)
        (le_pow_succ h₁.product.size_le h₁.product.size_le ?_) (by omega)
      simp only [Tree.size_node, Tree.size_leaf]
      omega
  | negation ha =>
      have h₁ := hbelow ha hg
      refine .build h₁.stocked h₁.next_le (.negation h₁.product.made)
        (le_pow_succ h₁.product.size_le h₁.product.size_le ?_) (by omega)
      simp only [Tree.size_node, Tree.size_leaf]
      omega
  | cond htest ha hb =>
      have h₁ := hbelow htest hg
      have h₂ := hbelow ha h₁.stocked
      have h₃ := hbelow hb h₂.stocked
      have htest := h₁.product.mono (Nat.le_trans h₂.next_le h₃.next_le)
        (Nat.le_trans (Nat.le_add_right _ cost) (Nat.le_add_right _ cost))
      have ha := h₂.product.mono h₃.next_le (Nat.le_add_right _ cost)
      refine .build h₃.stocked (Nat.le_trans h₁.next_le (Nat.le_trans h₂.next_le h₃.next_le))
        (.cond htest.made ha.made h₃.product.made) ?_ (by omega)
      have hsizes := And.intro htest.size_le (And.intro ha.size_le h₃.product.size_le)
      have hpos : 1 ≤ 4 ^ (level + cost + cost + cost) := Nat.one_le_pow _ _ (by decide)
      simp only [Tree.size_node, Tree.size_leaf, Nat.pow_succ _ (_ + cost)]
      omega
  | @letIn _ g₁ g₂ _ _ ha hb =>
      have h₁ := hbelow ha hg
      have h₂ := hbelow hb h₁.stocked.entered
      have hnext : g₁.supply.next < g₂.supply.next := h₂.next_le
      have ha := h₁.product.mono (Nat.le_of_lt hnext)
        (Nat.le_trans (Nat.le_succ _) (Nat.le_add_right _ cost))
      refine .build h₂.stocked.left (Nat.le_trans h₁.next_le (Nat.le_of_lt hnext))
        (.letIn h₁.stocked.first_le hnext ha.made h₂.product.made)
        (le_pow_succ ha.size_le h₂.product.size_le ?_) (by omega)
      simp only [Tree.size_node, Tree.size_leaf]
      omega
  | call hb ha =>
      have h₁ := hbelow hb hg.entered
      have h₂ := hbelow ha h₁.stocked.left
      have hb := h₁.product.mono h₂.next_le (Nat.le_add_right _ cost)
      have hnext : g.supply.next < g'.supply.next := Nat.le_trans h₁.next_le h₂.next_le
      refine .build h₂.stocked (Nat.le_of_lt hnext)
        (.call hg.first_le hnext h₂.product.made hb.made)
        (le_pow_succ h₂.product.size_le hb.size_le ?_) (by omega)
      simp only [Tree.size_node, Tree.size_leaf]
      omega

theorem Step.costs {below : Rule} {cost : Nat} (hbelow : below.Costs cost) :
    Rule.Costs (Step below) (3 * cost + 2) := by
  intro mayFail ty g g' t first level h hg
  cases h with
  | reuse hr hrisk =>
      have ht := (hg.pool _ hr).mono (Nat.le_refl _) (Nat.le_add_right level (3 * cost + 2))
      exact ⟨hg.mono (Nat.le_add_right _ _), Nat.le_refl _,
        ht.made.weaken (Nat.le_refl _) hrisk, ht.size_le⟩
  | int _ h =>
      have h' := Compound.costs hbelow h hg
      exact ⟨h'.stocked.kept h'.product, h'.next_le, h'.product⟩
  | bool _ h => exact Compound.costs hbelow h hg

def cost (depth : Nat) : Nat :=
  3 ^ depth - 1

theorem cost_succ (depth : Nat) : cost (depth + 1) = 3 * cost depth + 2 := by
  have hpos : 1 ≤ 3 ^ depth := Nat.one_le_pow _ _ (by decide)
  unfold cost
  rw [Nat.pow_succ]
  omega

/-- Every tree that is made is of the grammar, and the steps triple with each level of depth. -/
theorem Makes.costs (depth : Nat) : Rule.Costs (Makes depth) (cost depth) := by
  induction depth with
  | zero => exact Leaf.costs _
  | succ depth ih =>
      rw [cost_succ]
      exact Step.costs ih

end Growth

end ExprTree

import ExprTree.Proofs.GeneratorRuns
import ExprTree.Proofs.Soundness
/-!
# What the generator makes

All variables of generated trees are integers, so every tree is well-annotated
where all variables are taken to be. It refers to variables in scope and binds
none of them: new variables are above all that are in scope or in a tree made
before, and a tree is used again only where its variables are in scope.

Generation fails only where machine words run out.
-/

namespace ExprTree

/-! ## Scopes of generated trees -/

/-- The tree refers to `visible` variables, binds none that are `taken`, and has all its
variables below `next`. -/
structure Tree.Scoped (visible taken : List VarId) (next : VarId) (t : Tree) : Prop where
  visible : ∀ x ∈ t.freeVars .standard, x ∈ visible
  bindsOutside : t.BindsOutside (.ofList taken)
  below : t.MentionsBelow next

namespace Tree.Scoped

variable {visible taken : List VarId} {next : VarId} {f x : Tree}

theorem leaf {s : Symbol} (href : s.reference? = none) (hlambda : s.lambda? = none) :
    Scoped visible taken next (.leaf s) where
  visible := by
    intro x hx
    simp [freeVars, Binders.standard, href] at hx
  bindsOutside := trivial
  below := by
    intro x hx
    simp [Mentions, href, hlambda] at hx

theorem var {id : VarId} (hid : id ∈ visible) (hnext : id < next) (ty : Ty) :
    Scoped visible taken next (.leaf (.var id ty)) where
  visible := by
    intro x hx
    obtain rfl : x = id := by simpa using hx
    exact hid
  bindsOutside := trivial
  below := by
    intro x hx
    obtain rfl : id = x := by simpa [Mentions, Symbol.reference?, Symbol.lambda?] using hx
    exact hnext

theorem node (hf : f.Scoped visible taken next) (hx : x.Scoped visible taken next)
    (hbinder : f.binder? .standard = none) : Scoped visible taken next (.node f x) where
  visible := by
    intro y hy
    rcases mem_freeVars_node.1 hy with hy | hy
    · exact hf.visible y hy
    · exact hx.visible y hy.1
  bindsOutside := by
    unfold BindsOutside
    rw [hbinder]
    exact ⟨hf.bindsOutside, hx.bindsOutside⟩
  below := fun y hy => hy.elim (hf.below y) (hx.below y)

theorem lambda {id : VarId} (hid : id ∉ taken) (hnext : id < next) (A B : Ty)
    (hx : x.Scoped (visible ++ [id]) (taken ++ [id]) next) :
    Scoped visible taken next (.node (.leaf (.lambda id A B)) x) where
  visible := by
    intro y hy
    rw [freeVars_lambda, VarSet.mem_erase] at hy
    have hmem := hx.visible y hy.1
    rw [List.mem_append, List.mem_singleton] at hmem
    exact hmem.resolve_right hy.2
  bindsOutside := by
    refine ⟨by simpa using hid, hx.bindsOutside.mono fun y hy => ?_⟩
    simp only [VarSet.mem_insert, VarSet.mem_ofList] at hy
    simp only [VarSet.mem_ofList, List.mem_append, List.mem_singleton]
    exact hy.symm
  below := by
    intro y hy
    rcases hy with hy | hy
    · obtain rfl : id = y := by simpa [Mentions, Symbol.reference?, Symbol.lambda?] using hy
      exact hnext
    · exact hx.below y hy

theorem mono {t : Tree} {visible' taken' : List VarId} {next' : VarId}
    (h : t.Scoped visible taken next) (hvisible : ∀ x ∈ visible, x ∈ visible')
    (htaken : ∀ x ∈ taken', x ∈ taken ∨ next ≤ x) (hnext : next ≤ next') :
    t.Scoped visible' taken' next' where
  visible := fun x hx => hvisible x (h.visible x hx)
  bindsOutside := by
    refine h.bindsOutside.congr fun x hx => ?_
    rw [VarSet.mem_ofList] at hx ⊢
    refine (htaken x hx).imp_right fun hle hmentions => ?_
    exact Nat.lt_irrefl x (Nat.lt_of_lt_of_le (h.below x hmentions) hle)
  below := h.below.mono hnext

theorem nonShadowing {t : Tree} (h : t.Scoped visible taken next)
    (hsub : ∀ x ∈ visible, x ∈ taken) : t.NonShadowing := by
  refine h.bindsOutside.mono fun x hx => ?_
  rw [VarSet.mem_ofList]
  exact hsub x (h.visible x hx)

end Tree.Scoped

structure Tree.Grown (visible taken : List VarId) (next : VarId) (ty : Ty) (t : Tree) : Prop where
  typed : Typed (fun _ => .int) t ty
  size_lt : t.size < wordLimit
  inScope : t.Scoped visible taken next

theorem Tree.Grown.mono {visible visible' taken taken' : List VarId} {next next' : VarId} {ty : Ty}
    {t : Tree} (h : t.Grown visible taken next ty) (hvisible : ∀ x ∈ visible, x ∈ visible')
    (htaken : ∀ x ∈ taken', x ∈ taken ∨ next ≤ x) (hnext : next ≤ next') :
    t.Grown visible' taken' next' ty :=
  ⟨h.typed, h.size_lt, h.inScope.mono hvisible htaken hnext⟩

/-! ## States of a generation -/

section

variable {σ : Type}

/-- Variables in scope were taken from the supply, and a tree to use again may stand
where as many variables are in scope as when it was made. -/
structure Growth.Good (g : Growth σ) : Prop where
  scope_lt : ∀ x ∈ g.scope, x < g.supply.next
  pool : ∀ r ∈ g.pool, r.tree.Grown (g.scope.take r.depth) g.scope g.supply.next .int

structure Growth.Later (g g' : Growth σ) : Prop where
  good : g'.Good
  scope_eq : g'.scope = g.scope
  next_le : g.supply.next ≤ g'.supply.next

def Growth.Fitting (ty : Ty) (g : Growth σ) (t : Tree) : Prop :=
  t.Grown g.scope g.scope g.supply.next ty

namespace Growth

variable {g g' g'' : Growth σ}

theorem Later.refl (hg : g.Good) : g.Later g :=
  ⟨hg, rfl, Nat.le_refl _⟩

theorem Later.trans (h : g.Later g') (h' : g'.Later g'') : g.Later g'' :=
  ⟨h'.good, h'.scope_eq.trans h.scope_eq, Nat.le_trans h.next_le h'.next_le⟩

theorem Later.inScope {t : Tree} (h : g.Later g')
    (ht : t.Scoped g.scope g.scope g.supply.next) : t.Scoped g'.scope g'.scope g'.supply.next := by
  rw [h.scope_eq]
  exact ht.mono (fun _ hx => hx) (fun _ hx => .inl hx) h.next_le

theorem Fitting.later {ty : Ty} {t : Tree} (ht : g.Fitting ty t) (h : g.Later g') :
    g'.Fitting ty t :=
  ⟨ht.typed, ht.size_lt, h.inScope ht.inScope⟩

theorem Good.fitting_of_mem (hg : g.Good) {r : Reusable} (hr : r ∈ g.pool) :
    g.Fitting .int r.tree :=
  (hg.pool r hr).mono (fun _ hx => List.mem_of_mem_take hx) (fun _ hx => .inl hx) (Nat.le_refl _)

theorem Good.kept (hg : g.Good) (mayFail : Bool) {t : Tree} (ht : g.Fitting .int t) :
    g.Later (g.kept mayFail t) := by
  refine ⟨⟨hg.scope_lt, fun r hr => ?_⟩, rfl, Nat.le_refl _⟩
  rcases List.mem_append.1 hr with hr | hr
  · exact hg.pool r hr
  · obtain rfl := List.mem_singleton.1 hr
    show t.Grown (g.scope.take g.scope.length) _ _ _
    rw [List.take_length]
    exact ht

/-- A new variable is not one of those in scope, nor in a tree made before. -/
theorem Good.entered (hg : g.Good) : g.entered.Good where
  scope_lt := by
    intro x hx
    rcases List.mem_append.1 hx with hx | hx
    · exact Nat.lt_succ_of_lt (hg.scope_lt x hx)
    · obtain rfl := List.mem_singleton.1 hx
      exact Nat.lt_succ_self _
  pool := by
    intro r hr
    refine (hg.pool r hr).mono (fun x hx => ?_) (fun x hx => ?_) (Nat.le_succ _)
    · show x ∈ (g.scope ++ [g.supply.next]).take r.depth
      rw [List.take_append]
      exact List.mem_append_left _ hx
    · exact (List.mem_append.1 hx).imp_right fun hx => Nat.le_of_eq (List.mem_singleton.1 hx).symm

/-- What stays in the pool refers to no variable that goes out of scope. -/
theorem Later.left (h : g.entered.Later g') : g.Later g'.left := by
  have hscope : g'.scope = g.scope ++ [g.supply.next] := h.scope_eq
  have hdrop : g'.left.scope = g.scope := by
    show g'.scope.dropLast = _
    rw [hscope, List.dropLast_concat]
  refine ⟨⟨fun x hx => h.good.scope_lt x ?_, fun r hr => ?_⟩, hdrop, Nat.le_of_succ_le h.next_le⟩
  · rw [hdrop] at hx
    rw [hscope]
    exact List.mem_append_left _ hx
  · have hr := List.mem_filter.1 hr
    have hdepth : r.depth ≤ g'.left.scope.length := of_decide_eq_true hr.2
    have hgrown := h.good.pool r hr.1
    rw [hdrop] at hdepth ⊢
    rw [hscope, List.take_append_of_le_length hdepth] at hgrown
    exact hgrown.mono (fun _ hx => hx) (fun _ hx => .inl (List.mem_append_left _ hx))
      (Nat.le_refl _)

theorem Later.lambda_inScope (hg : g.Good) (h : g.entered.Later g') {b : Tree}
    (hb : b.Scoped g'.scope g'.scope g'.supply.next) :
    (Tree.node (.leaf (.lambda g.supply.next .int .int)) b).Scoped g'.left.scope g'.left.scope
      g'.left.supply.next := by
  have hscope : g'.scope = g.scope ++ [g.supply.next] := h.scope_eq
  rw [hscope] at hb
  rw [h.left.scope_eq]
  refine .lambda (fun hmem => ?_) h.next_le .int .int hb
  exact Nat.lt_irrefl _ (hg.scope_lt _ hmem)

end Growth

/-! ## Runs -/

namespace Growth

/-- The rule makes trees that may stand where they are made. -/
def Rule.Places (R : Rule) : Prop :=
  ∀ {mayFail : Bool} {ty : Ty} {g g' : Growth Unit} {t : Tree},
    R mayFail ty g t g' → g.Good → g.Later g' ∧ g'.Fitting ty t

theorem Leaf.places : Rule.Places Leaf := by
  intro mayFail ty g g' t h hg
  cases h with
  | int _ n => exact ⟨.refl hg, .int n, Tree.size_leaf_lt _, .leaf rfl rfl⟩
  | bool _ b => exact ⟨.refl hg, .bool b, Tree.size_leaf_lt _, .leaf rfl rfl⟩
  | var hid =>
      exact ⟨.refl hg, .var _, Tree.size_leaf_lt _, .var hid (hg.scope_lt _ hid) .int⟩

theorem Compound.places {below : Rule} (hbelow : below.Places) {mayFail : Bool} {ty : Ty}
    {g g' : Growth Unit} {t : Tree} (h : Compound below mayFail ty g t g') (hg : g.Good) :
    g.Later g' ∧ Typed (fun _ => .int) t ty ∧ t.Scoped g'.scope g'.scope g'.supply.next := by
  have hleaf {s : Symbol} (href : s.reference? = none) (hlambda : s.lambda? = none) :
      (Tree.leaf s).Scoped g'.scope g'.scope g'.supply.next := .leaf href hlambda
  cases h with
  | leaf h =>
      obtain ⟨hlater, ht⟩ := Leaf.places h hg
      exact ⟨hlater, ht.typed, ht.inScope⟩
  | arith _ ha hb | divide _ ha hb =>
      obtain ⟨h₁, ha⟩ := hbelow ha hg
      obtain ⟨h₂, hb⟩ := hbelow hb h₁.good
      exact ⟨h₁.trans h₂, .arith _ ha.typed hb.typed,
        ((hleaf rfl rfl).node (ha.later h₂).inScope rfl).node hb.inScope rfl⟩
  | divideBy _ ha =>
      obtain ⟨h₁, ha⟩ := hbelow ha hg
      exact ⟨h₁, .arith _ ha.typed (.int _),
        ((hleaf rfl rfl).node ha.inScope rfl).node (hleaf rfl rfl) rfl⟩
  | compare op ha hb =>
      obtain ⟨h₁, ha⟩ := hbelow ha hg
      obtain ⟨h₂, hb⟩ := hbelow hb h₁.good
      exact ⟨h₁.trans h₂, .compare op ha.typed hb.typed,
        ((hleaf rfl rfl).node (ha.later h₂).inScope rfl).node hb.inScope rfl⟩
  | negation ha =>
      obtain ⟨h₁, ha⟩ := hbelow ha hg
      exact ⟨h₁, .negation ha.typed, (hleaf rfl rfl).node ha.inScope rfl⟩
  | conjunction ha hb =>
      obtain ⟨h₁, ha⟩ := hbelow ha hg
      obtain ⟨h₂, hb⟩ := hbelow hb h₁.good
      exact ⟨h₁.trans h₂, .conjunction ha.typed hb.typed,
        ((hleaf rfl rfl).node (ha.later h₂).inScope rfl).node hb.inScope rfl⟩
  | cond htest ha hb =>
      obtain ⟨h₁, htest⟩ := hbelow htest hg
      obtain ⟨h₂, ha⟩ := hbelow ha h₁.good
      obtain ⟨h₃, hb⟩ := hbelow hb h₂.good
      have htest := htest.later (h₂.trans h₃)
      exact ⟨h₁.trans (h₂.trans h₃), .cond htest.typed ha.typed hb.typed,
        (((hleaf rfl rfl).node htest.inScope rfl).node (ha.later h₃).inScope rfl).node
          hb.inScope rfl⟩
  | letIn ha hb =>
      obtain ⟨h₁, ha⟩ := hbelow ha hg
      obtain ⟨h₂, hb⟩ := hbelow hb h₁.good.entered
      have hfunc := h₂.lambda_inScope h₁.good hb.inScope
      exact ⟨h₁.trans h₂.left, .letIn ha.typed (.intLambda hb.typed),
        ((hleaf rfl rfl).node (ha.later h₂.left).inScope rfl).node hfunc rfl⟩
  | call hb ha =>
      obtain ⟨h₁, hb⟩ := hbelow hb hg.entered
      obtain ⟨h₂, ha⟩ := hbelow ha h₁.left.good
      have hfunc := h₂.inScope (h₁.lambda_inScope hg hb.inScope)
      exact ⟨h₁.left.trans h₂, .call (.intLambda hb.typed) ha.typed,
        ((hleaf rfl rfl).node hfunc rfl).node ha.inScope rfl⟩

theorem Step.places {below : Rule} (hbelow : below.Places) : Rule.Places (Step below) := by
  intro mayFail ty g g' t h hg
  cases h with
  | reuse hr _ => exact ⟨.refl hg, hg.fitting_of_mem hr⟩
  | int hsize h =>
      obtain ⟨hlater, htyped, hscope⟩ := Compound.places hbelow h hg
      have ht : Fitting .int _ t := ⟨htyped, hsize, hscope⟩
      have hkept := hlater.good.kept mayFail ht
      exact ⟨hlater.trans hkept, ht.later hkept⟩
  | bool hsize h =>
      obtain ⟨hlater, htyped, hscope⟩ := Compound.places hbelow h hg
      exact ⟨hlater, htyped, hsize, hscope⟩

/-- Every tree that is made may stand where it is made. -/
theorem Makes.places (depth : Nat) : Rule.Places (Makes depth) := by
  induction depth with
  | zero => exact Leaf.places
  | succ depth ih => exact Step.places ih

end Growth

namespace Generator

def Good (g : Generator σ) : Prop :=
  g.freeVars ≤ g.supply.next

theorem new_good (draws : σ) (freeVars : Nat) : (new draws freeVars).Good :=
  Nat.le_refl freeVars

theorem stocked_start (g : Generator σ) :
    Growth.Stocked g.supply.next 0 ⟨(), g.supply, g.free, []⟩ :=
  ⟨Nat.le_refl _, Nat.le_refl _, fun _ hr => absurd hr List.not_mem_nil⟩

theorem grow_makes (g : Generator σ) {depth : Nat} {ty : Ty} {step : GrowthM σ Tree}
    (hstep : step.Follows depth true ty) :
    Yields (Short g.supply.next (Growth.cost depth))
      (fun p => ∃ after, Growth.Makes depth true ty ⟨(), g.supply, g.free, []⟩ p.1 after
        ∧ p.2.supply = after.supply ∧ p.2.freeVars = g.freeVars)
      (grow step g) := by
  have hrun := hstep ⟨g.draws, g.supply, g.free, []⟩ g.supply.next 0 g.stocked_start
  rw [Nat.zero_add] at hrun
  exact Outcome.bind hrun fun p hp => ⟨p.2.bare, hp, rfl, rfl⟩

/-- What one call gives: a tree that may stand where the free variables are in scope, of the
grammar, with new variables. -/
theorem grow_yields {g : Generator σ} (hg : g.Good) {depth : Nat} {ty : Ty} {step : GrowthM σ Tree}
    (hstep : step.Follows depth true ty) :
    Yields (Short g.supply.next (Growth.cost depth))
      (fun p => p.2.Good ∧ p.2.free = g.free ∧ p.1.Grown g.free g.free p.2.supply.next ty
        ∧ p.1.Made g.supply.next p.2.supply.next true ty
        ∧ g.supply.next ≤ p.2.supply.next ∧ p.2.supply.next ≤ g.supply.next + Growth.cost depth)
      (grow step g) := by
  have hgood : Growth.Good (⟨(), g.supply, g.free, []⟩ : Growth Unit) := by
    refine ⟨fun x hx => ?_, fun r hr => absurd hr List.not_mem_nil⟩
    exact Nat.lt_of_lt_of_le (List.mem_range.1 hx) hg
  refine (g.grow_makes hstep).mono (fun h => h) ?_
  rintro ⟨t, g'⟩ ⟨after, hmakes, hsupply, hfreeVars⟩
  obtain ⟨hlater, ht⟩ := Growth.Makes.places depth hmakes hgood
  have hcosts := Growth.Makes.costs depth hmakes g.stocked_start
  rw [Nat.zero_add] at hcosts
  unfold Growth.Fitting at ht
  rw [hlater.scope_eq] at ht
  have hgood' : g'.Good := by
    unfold Good
    rw [hsupply, hfreeVars]
    exact Nat.le_trans hg hlater.next_le
  rw [hsupply]
  exact ⟨hgood', congrArg List.range hfreeVars, ht, hcosts.product.made, hcosts.next_le,
    hcosts.stocked.next_le⟩

theorem intTree_yields {g : Generator σ} (hg : g.Good) (src : Source σ) (depth : Nat) :
    Yields True
      (fun p => p.2.Good ∧ p.2.free = g.free ∧ p.1.Grown g.free g.free p.2.supply.next .int)
      (g.intTree src depth) :=
  (grow_yields hg ((Growth.int_bool_follows src depth).1 true)).mono (fun _ => trivial)
    fun _ h => ⟨h.1, h.2.1, h.2.2.1⟩

/-! ## The environment of a generator -/

theorem get?_env (g : Generator σ) (id : VarId) :
    g.env.get? id =
      if id < g.freeVars then some (.ready (.int (Int64.ofNat (id + 1)))) else none := by
  unfold env free
  induction g.freeVars with
  | zero => rfl
  | succ n ih =>
      rw [List.range_succ, List.map_append, Env.bindAll, List.foldl_append]
      show (if n = id then _ else (Env.empty.bindAll _).get? id) = _
      rw [ih]
      by_cases hid : n = id
      · rw [if_pos hid, hid, if_pos (Nat.lt_succ_self id)]
      · have hlt : id < n + 1 ↔ id < n :=
          Nat.lt_succ_iff_lt_or_eq.trans (or_iff_left (Ne.symm hid))
        rw [if_neg hid, if_congr hlt rfl rfl]

theorem env_assigns (g : Generator σ) (vars : VarSet) : g.env.Assigns (fun _ => .int) vars := by
  intro id slot hslot
  rw [g.get?_env] at hslot
  split at hslot
  · obtain rfl := Option.some.inj hslot
    exact ⟨.int, rfl, fun _ => rfl⟩
  · cases hslot

theorem env_context (g : Generator σ) : g.env.context (fun _ => .int) = fun _ => .int := by
  funext id
  unfold Env.context
  rw [g.get?_env]
  split <;> rfl

/-- A generated tree gives a value of its type or fails in a division by zero, on every heap. -/
theorem sound (g : Generator σ) {t : Tree} {taken : List VarId} {next : VarId} {ty : Ty}
    (ht : t.Grown g.free taken next ty) (h : Heap) :
    EvalM.Sound (Value.OfType ty) (fun k => eval k t g.env) h := by
  have hreads := (g.env_assigns (t.freeVars .standard)).reads []
  have hgrounded : g.env.Grounded h := hreads.grounded fun e he => absurd he List.not_mem_nil
  refine ht.typed.sound hgrounded fun id hid => ?_
  have hlt := List.mem_range.1 (ht.inScope.visible id hid)
  exact ⟨_, by rw [g.get?_env, if_pos hlt], rfl⟩

theorem divideByZero_of_evaluatesMarked (g : Generator σ) {t : Tree} {taken : List VarId}
    {next : VarId} {ty : Ty} (ht : t.Grown g.free taken next ty) {s : MarkedHeap} {f : Failure}
    (hf : t.EvaluatesMarked g.env s (.error f)) : f.error = .divideByZero := by
  obtain ⟨r, h', hsettles, hr⟩ := g.sound ht s.heap
  obtain ⟨h'', hsettles'⟩ := hf.evaluates
  obtain rfl : r = .error f.error := congrArg Prod.fst (hsettles.unique hsettles')
  exact hr

end Generator

end

end ExprTree

import ExprTree.Proofs.AnyEnvironment
import ExprTree.Proofs.GeneratedTrees
/-!
# Calls of the generator, one after another

Whatever a generator is asked for, and whatever is drawn, the trees that it gives
are such that the passes can work on them: they are full and of the type asked
for, all their variables are integers, bound by a function around them or among
the free variables of the generator, and no function hides a variable. Different
trees of one generator bind different variables.
-/

namespace ExprTree

/-! ## What is asked for -/

inductive Request where
  | int (depth : Nat)
  | bool (depth : Nat)

namespace Request

def ty : Request → Ty
  | int _ => .int
  | bool _ => .bool

def steps : Request → Nat
  | int depth => 3 ^ depth - 1
  | bool depth => 3 ^ depth - 1

end Request

namespace Generator

variable {σ : Type} (src : Source σ)

def answer (g : Generator σ) : Request → Except Fault (Tree × Generator σ)
  | .int depth => g.intTree src depth
  | .bool depth => g.boolTree src depth

def answerAll : List Request → Generator σ → Except Fault (List Tree × Generator σ)
  | [], g => return ([], g)
  | request :: rest, g => do
      let (tree, g) ← g.answer src request
      let (trees, g) ← answerAll rest g
      return (tree :: trees, g)

end Generator

/-! ## What is given -/

namespace Tree

/-- Every reference is to an integer, which a function around it binds as an integer or which is
one of the first `n` variables. -/
def IntegerVariables (n : Nat) : Tree → BoundTypes → Prop
  | leaf (.var id ty), Δ => ty = .int ∧ (Δ id = some .int ∨ Δ id = none ∧ id < n)
  | leaf _, _ => True
  | node func arg, Δ => func.IntegerVariables n Δ ∧ arg.IntegerVariables n (Δ.under func)

structure Suits (n : Nat) (ty : Ty) (env : Env) (t : Tree) : Prop where
  built : t.Built
  full : t.isFull = true
  type : t.resultType = ty
  integers : t.IntegerVariables n .empty
  binders_ge : ∀ id ∈ t.binders, n ≤ id
  /-- No function binds what a function around it binds. -/
  bindsOutside : t.BindsOutside .empty
  /-- Evaluation ends with a value of the type or with a division by zero. -/
  sound : ∀ h, EvalM.Sound (Value.OfType ty) (fun k => eval k t env) h

theorem Made.integerVariables {first next n : Nat} {mayFail : Bool} {ty : Ty} {t : Tree}
    (h : t.Made first next mayFail ty) {Δ : BoundTypes}
    (hΔ : ∀ x ∈ t.freeVars .standard, Δ x = some .int ∨ Δ x = none ∧ x < n) :
    t.IntegerVariables n Δ := by
  have hinner {f x : Tree} {Δ : BoundTypes}
      (h : ∀ y ∈ (node f x).freeVars .standard, Δ y = some .int ∨ Δ y = none ∧ y < n) :
      (∀ y ∈ f.freeVars .standard, Δ y = some .int ∨ Δ y = none ∧ y < n)
        ∧ (f.binder? .standard = none →
          ∀ y ∈ x.freeVars .standard, Δ y = some .int ∨ Δ y = none ∧ y < n) :=
    ⟨fun y hy => h y (mem_freeVars_node.2 (.inl hy)),
      fun hf y hy => h y (mem_freeVars_node.2 (.inr ⟨hy, by simp [hf]⟩))⟩
  have hlambda {id : VarId} {b : Tree} {Δ : BoundTypes}
      (h : ∀ y ∈ (node (leaf (.lambda id .int .int)) b).freeVars .standard,
        Δ y = some .int ∨ Δ y = none ∧ y < n) :
      ∀ y ∈ b.freeVars .standard, Δ.under (leaf (.lambda id .int .int)) y = some .int
        ∨ Δ.under (leaf (.lambda id .int .int)) y = none ∧ y < n := by
    intro y hy
    by_cases hid : y = id
    · exact .inl (by simp [BoundTypes.under, hid])
    · simp only [BoundTypes.under, if_neg hid]
      exact h y (by rw [freeVars_lambda, VarSet.mem_erase]; exact ⟨hy, hid⟩)
  induction h generalizing Δ with
  | int | bool => trivial
  | var id => exact ⟨rfl, hΔ id (by simp)⟩
  | arith _ _ _ iha ihb | divide _ _ iha ihb | compare _ _ _ iha ihb | conjunction _ _ iha ihb =>
      exact ⟨⟨trivial, iha ((hinner (hinner hΔ).1).2 rfl)⟩, ihb ((hinner hΔ).2 rfl)⟩
  | divideBy _ _ iha => exact ⟨⟨trivial, iha ((hinner (hinner hΔ).1).2 rfl)⟩, trivial⟩
  | negation _ iha => exact ⟨trivial, iha ((hinner hΔ).2 rfl)⟩
  | cond _ _ _ ihtest iha ihb =>
      exact ⟨⟨⟨trivial, ihtest ((hinner (hinner (hinner hΔ).1).1).2 rfl)⟩,
        iha ((hinner (hinner hΔ).1).2 rfl)⟩, ihb ((hinner hΔ).2 rfl)⟩
  | letIn _ _ _ _ iha ihb =>
      exact ⟨⟨trivial, iha ((hinner (hinner hΔ).1).2 rfl)⟩,
        trivial, ihb (hlambda ((hinner hΔ).2 rfl))⟩
  | call _ _ _ _ iha ihb =>
      exact ⟨⟨trivial, trivial, ihb (hlambda ((hinner (hinner hΔ).1).2 rfl))⟩,
        iha ((hinner hΔ).2 rfl)⟩

end Tree

/-! ## One call -/

namespace Generator

variable {σ : Type} (src : Source σ) {g : Generator σ}

structure Answered (g : Generator σ) (request : Request) (t : Tree) (g' : Generator σ) : Prop where
  good : g'.Good
  freeVars_eq : g'.freeVars = g.freeVars
  grown : t.Grown g.free g.free g'.supply.next request.ty
  made : t.Made g.supply.next g'.supply.next true request.ty
  next_ge : g.supply.next ≤ g'.supply.next
  next_le : g'.supply.next ≤ g.supply.next + request.steps

theorem Answered.suits {request : Request} {t : Tree} {g' : Generator σ}
    (h : g.Answered request t g') (hg : g.Good) : t.Suits g.freeVars request.ty g.env where
  built := h.grown.typed.fits.built h.grown.size_lt
  full := h.grown.typed.isFull
  type := h.grown.typed.resultType_eq
  integers := h.made.integerVariables fun x hx =>
    .inr ⟨rfl, List.mem_range.1 (h.grown.inScope.visible x hx)⟩
  binders_ge := fun _ hid => Nat.le_trans hg (h.made.mem_binders hid).1
  bindsOutside := h.grown.inScope.bindsOutside.mono fun x hx => absurd hx (VarSet.not_mem_empty x)
  sound := g.sound h.grown

theorem grow_answered (hg : g.Good) (request : Request) {depth : Nat} {step : GrowthM σ Tree}
    (hstep : step.Follows depth true request.ty) (hsteps : request.steps = Growth.cost depth) :
    Yields (Short g.supply.next request.steps) (fun p => g.Answered request p.1 p.2)
      (grow step g) := by
  rw [hsteps]
  refine (grow_yields hg hstep).mono (fun h => h) fun p hp => ?_
  obtain ⟨hgood, hfree, hgrown, hmade, hge, hle⟩ := hp
  have hfreeVars : p.2.freeVars = g.freeVars := by
    simpa [free] using congrArg List.length hfree
  exact ⟨hgood, hfreeVars, hgrown, hmade, hge, hsteps ▸ hle⟩

theorem answer_yields (hg : g.Good) (request : Request) :
    Yields (Short g.supply.next request.steps) (fun p => g.Answered request p.1 p.2)
      (g.answer src request) := by
  cases request with
  | int depth =>
      exact grow_answered hg (.int depth) ((Growth.int_bool_follows src depth).1 true) rfl
  | bool depth =>
      exact grow_answered hg (.bool depth) ((Growth.int_bool_follows src depth).2 true) rfl

/-! ## All calls -/

/-- Machine words may run out in one of the calls, or because of the variables of all of them. -/
def ShortFor (next : Nat) (requests : List Request) : Prop :=
  (∃ request ∈ requests, wordLimit ≤ 4 ^ request.steps)
    ∨ wordLimit ≤ next + (requests.map Request.steps).sum

instance (next : Nat) (requests : List Request) : Decidable (ShortFor next requests) :=
  inferInstanceAs (Decidable (_ ∨ _))

theorem ShortFor.of_head {next : Nat} {request : Request} {rest : List Request}
    (h : Short next request.steps) : ShortFor next (request :: rest) := by
  refine h.imp (fun h => ⟨request, by simp, h⟩) fun h => ?_
  rw [List.map_cons, List.sum_cons]
  omega

theorem ShortFor.of_tail {next next' : Nat} {request : Request} {rest : List Request}
    (h : ShortFor next' rest) (hle : next' ≤ next + request.steps) :
    ShortFor next (request :: rest) := by
  refine h.imp (fun ⟨r, hr, h⟩ => ⟨r, by simp [hr], h⟩) fun h => ?_
  rw [List.map_cons, List.sum_cons]
  omega

/-- What holds of every answer over `n` variables holds of a run of calls, and the answers bind
different variables. -/
theorem answerAll_yields_of_answered {n : Nat} {Q : Request → Tree → Prop}
    (hQ : ∀ {g g' : Generator σ} {request : Request} {t : Tree}, g.Good → g.freeVars = n →
      g.Answered request t g' → Q request t)
    (hg : g.Good) (hn : g.freeVars = n) (requests : List Request) :
    Yields (ShortFor g.supply.next requests)
      (fun p => List.Forall₂ Q requests p.1
        ∧ p.1.Pairwise (fun t u => t.binders.Disjoint u.binders)
        ∧ ∀ t ∈ p.1, ∀ id ∈ t.binders, g.supply.next ≤ id)
      (g.answerAll src requests) := by
  induction requests generalizing g with
  | nil => exact ⟨.nil, .nil, fun t ht => absurd ht List.not_mem_nil⟩
  | cons request rest ih =>
      refine ((answer_yields src hg request).mono .of_head fun _ h => h).bind fun p hp => ?_
      obtain ⟨t, g'⟩ := p
      have hrest := ih hp.good (hp.freeVars_eq.trans hn)
      refine (hrest.mono (fun h => h.of_tail hp.next_le) fun _ h => h).bind fun q hq => ?_
      obtain ⟨hall, hdisjoint, hge⟩ := hq
      refine ⟨.cons (hQ hg hn hp) hall, .cons (fun u hu id hid hid' => ?_) hdisjoint, ?_⟩
      · have hlt := (hp.made.mem_binders hid).2
        exact Nat.lt_irrefl id (Nat.lt_of_lt_of_le hlt (hge u hu id hid'))
      · intro u hu id hid
        rcases List.mem_cons.1 hu with rfl | hu
        · exact (hp.made.mem_binders hid).1
        · exact Nat.le_trans hp.next_ge (hge u hu id hid)

/-- Whatever a generator is asked for and whatever is drawn, the trees suit the passes, and no two
of them bind the same variable. Generation fails only where machine words run out. -/
theorem answerAll_yields (draws : σ) (n : Nat) (requests : List Request) :
    Yields (ShortFor n requests)
      (fun p => List.Forall₂ (fun request t => t.Suits n request.ty (new draws n).env) requests p.1
        ∧ p.1.Pairwise fun t u => t.binders.Disjoint u.binders)
      ((new draws n).answerAll src requests) := by
  have hsuits {g g' : Generator σ} {request : Request} {t : Tree} (hg : g.Good)
      (hn : g.freeVars = n) (h : g.Answered request t g') :
      t.Suits n request.ty (new draws n).env := by
    subst hn
    exact h.suits hg
  exact (answerAll_yields_of_answered src hsuits (new_good draws n) rfl requests).mono
    (fun h => h) fun _ hp => ⟨hp.1, hp.2.1⟩

/-- Words do not run out up to depth three. -/
example : ¬ShortFor 2 [.int 3, .bool 3, .int 1] := by decide

end Generator

end ExprTree

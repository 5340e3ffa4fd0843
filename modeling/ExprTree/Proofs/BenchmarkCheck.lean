import ExprTree.Benchmark
import ExprTree.Proofs.CodeMotion
import ExprTree.Proofs.ConstantFolding
import ExprTree.Proofs.GeneratedTrees
/-!
# The check of a benchmark

Generated trees are such that both passes keep their results, up to failures
inside tests, which folding may remove. So a difference is found only where the
generated tree divides by zero inside a test, and none without folding.
-/

namespace ExprTree

/-! ## Passes on generated trees -/

theorem Tree.firstUnused_yields (t : Tree) :
    Yields True (fun start => t.MentionsBelow start) (t.firstUnused .standard) := by
  cases hstart : t.firstUnused .standard with
  | ok start => exact mentionsBelow_of_firstUnused hstart
  | error f =>
      refine ⟨?_, trivial⟩
      simp only [firstUnused, word] at hstart
      split at hstart
      · split at hstart
        · cases hstart
        · exact (Except.error.inj hstart).symm
      · cases hstart

/-- Both trees evaluate alike from every heap. After folding, the second one may have any
result where the first one fails inside a test. -/
def Tree.Keeps (choice : PassChoice) (env : Env) (t t' : Tree) : Prop :=
  ∃ r r', (∀ s, t.EvaluatesMarked env s r) ∧ (∀ s, t'.EvaluatesMarked env s r')
    ∧ (r' = r ∨ choice.folding = true ∧ ∃ e, r = .error ⟨e, true⟩)

section

variable {σ : Type} (g : Generator σ) (choice : PassChoice) {t : Tree} {next : VarId}

theorem Tree.foldIf_concludes (ht : t.Grown g.free g.free next .int) :
    Concludes .outOfFuel
      (Yields True fun p => Typed (fun _ => .int) p.1 .int ∧ p.1.NonShadowing
        ∧ t.Keeps choice g.env p.1)
      (fun fuel => t.foldIf (.standard fuel) choice) := by
  have htyped : Typed (g.env.context fun _ => .int) t .int := by
    rw [g.env_context]
    exact ht.typed
  have henv := g.env_assigns (t.freeVars .standard)
  unfold foldIf
  cases hfolding : choice.folding with
  | false =>
      obtain ⟨r, hr, _⟩ := htyped.evaluatesMarked_ground rfl henv
      exact .const ⟨ht.typed, ht.inScope.nonShadowing fun _ hx => hx, r, r, hr, hr, .inl rfl⟩
  | true =>
      obtain ⟨folded, hdet, himproves⟩ :=
        t.fold_determines Folder.literal_faithful htyped ht.size_lt
      obtain ⟨r, r', hr, hr', hkept⟩ := himproves.evaluatesMarked rfl henv
      have hkeeps : t.Keeps choice g.env folded.tree := by
        refine ⟨r, r', hr, hr', ?_⟩
        cases hkept with
        | ok h => exact .inl (congrArg Except.ok h.symm)
        | error f => exact .inl rfl
        | test _ htest => exact .inr ⟨hfolding, _, by rw [← htest]⟩
      have hnonShadowing : folded.tree.NonShadowing :=
        himproves.simpler.nonShadowing (ht.inScope.nonShadowing fun _ hx => hx)
      have htyped' := himproves.typed'
      rw [g.env_context] at htyped'
      refine Concludes.bind (P := (· = .ok folded)) ⟨_, rfl, hdet⟩ (fun u hu => ?_) ?_
      · obtain rfl := Except.ok.inj hu
        exact .const ⟨htyped', hnonShadowing, hkeeps⟩
      · intro e he
        cases he

theorem Tree.hoistIf_concludes (htyped : Typed (fun _ => .int) t .int) (hns : t.NonShadowing) :
    Concludes .outOfFuel
      (Yields True fun p => ∃ r, ∀ s, t.EvaluatesMarked g.env s r ∧ p.1.EvaluatesMarked g.env s r)
      (fun fuel => t.hoistIf (.standard fuel) choice) := by
  have htyped' : Typed (g.env.context fun _ => .int) t .int := by
    rw [g.env_context]
    exact htyped
  have henv := g.env_assigns (t.freeVars .standard)
  have hty : t.resultType.isFn = false := by
    rw [htyped.resultType_eq]
    rfl
  have hhoist : Yields True
      (fun hoisted =>
        ∃ r, ∀ s, t.EvaluatesMarked g.env s r ∧ hoisted.tree.EvaluatesMarked g.env s r)
      (t.hoist ⟨.standard, .standard⟩) := by
    refine t.firstUnused_yields.bind fun start hstart => ?_
    refine (t.hoistFrom_yields SharePolicy.standard_ownTypes htyped.fits htyped.isFull start).mono
      (fun _ => trivial) fun hoisted hmoves => ?_
    exact hmoves.evaluatesMarked htyped.fits htyped.isFull hty htyped'.wellAnnotated hns hstart henv
  -- Code motion takes no fuel.
  show Concludes .outOfFuel _ fun _ => t.hoistIf (.standard 0) choice
  refine .const ?_
  unfold hoistIf
  split
  · exact hhoist.bind fun hoisted h => h
  · obtain ⟨r, hr, _⟩ := htyped'.evaluatesMarked_ground rfl henv
    exact ⟨r, fun s => ⟨hr s, hr s⟩⟩

theorem Tree.transform_concludes (ht : t.Grown g.free g.free next .int) :
    Concludes .outOfFuel (Yields True fun p => t.Keeps choice g.env p.1)
      (fun fuel => t.transform (.standard fuel) choice) := by
  refine (t.foldIf_concludes g choice ht).bind (fun p hp => ?_) fun e he => he
  obtain ⟨htyped, hns, r, r', hr, hr', hkept⟩ := hp
  refine (Tree.hoistIf_concludes g choice htyped hns).bind (fun q hq => ?_) fun e he => he
  obtain ⟨r'', hr''⟩ := hq
  obtain rfl := (hr' ⟨.empty, fun _ => false⟩).unique (hr'' _).1
  exact .const ⟨r, r', hr, fun s => (hr'' s).2, hkept⟩

end

/-! ## The check -/

theorem compareMeanings_run' (fuel index : Nat) (env : Env) (before after : Tree) :
    (compareMeanings fuel index env before after).run' .empty =
      (eval fuel before env .empty).bind fun p => (eval fuel after env p.2).map fun q =>
        if sameResult q.1 p.1 then none
        else some ⟨index, before.render, after.render, resultText p.1, resultText q.1⟩ := by
  show ((eval fuel before env .empty).bind fun p =>
    (eval fuel after env p.2).bind fun q => _).map _ = _
  cases eval fuel before env .empty with
  | none => rfl
  | some p =>
      show ((eval fuel after env p.2).bind fun q => _).map _ = (eval fuel after env p.2).map _
      cases eval fuel after env p.2 with
      | none => rfl
      | some q =>
          show Option.map _ ((if sameResult q.1 p.1 then pure none else pure (some _) :
            StateT Heap Option (Option Mismatch)) q.2) = some (if sameResult q.1 p.1 then _ else _)
          split <;> rfl

theorem sameResult_self (r : Except EvalError Value) : sameResult r r = true := by
  cases r with
  | error e => exact beq_self_eq_true e
  | ok v =>
      cases v with
      | bool b => exact beq_self_eq_true b
      | int n => exact beq_self_eq_true n
      | closure tag _ _ _ => exact beq_self_eq_true tag

/-- A mismatch that is to be expected: `t` was folded, and its evaluation divides by zero
inside a test. -/
structure Mismatch.Expected (choice : PassChoice) (env : Env) (t : Tree) (m : Mismatch) : Prop where
  folding : choice.folding = true
  before : m.before = t.render
  divides : t.Evaluates env .empty (.error .divideByZero)
  inTest : t.EvaluatesMarked env ⟨.empty, fun _ => false⟩ (.error ⟨.divideByZero, true⟩)

/-- A result without a mismatch outside `P`, and with no fault but a number out of range. -/
def BenchError.Only {α : Type} (P : Mismatch → Prop) : Except BenchError α → Prop
  | .ok _ => True
  | .error (.mismatch m) => P m
  | .error (.fault f) => f = .overflow
  | .error (.notWritten _ _) => False

theorem BenchError.Only.error {α β : Type} {P P' : Mismatch → Prop} {e : BenchError}
    (h : Only P (.error e : Except BenchError α)) (hP : ∀ m, P m → P' m) :
    Only P' (.error e : Except BenchError β) := by
  cases e with
  | mismatch m => exact hP m h
  | notWritten => exact h
  | fault f => exact h

theorem Concludes.bind_fault {α β : Type} {P : α → Prop} {Q : Mismatch → Prop}
    {m : Nat → Except Fault α} {f : Nat → α → Except BenchError β}
    (hm : Concludes .outOfFuel (Yields True P) m)
    (hf : ∀ a, P a → Concludes (.fault .outOfFuel) (BenchError.Only Q) fun fuel => f fuel a) :
    Concludes (.fault .outOfFuel) (BenchError.Only Q)
      fun fuel => (m fuel).mapError BenchError.fault >>= f fuel := by
  have hmapped : Concludes (.fault .outOfFuel)
      (fun x => ∃ y, Yields True P y ∧ y.mapError BenchError.fault = x)
      (fun fuel => (m fuel).mapError BenchError.fault) :=
    hm.mapError BenchError.fault fun y hy => ⟨y, hy, rfl⟩
  refine hmapped.bind (fun a ha => ?_) fun e he => ?_
  · obtain ⟨y, hy, hya⟩ := ha
    cases y with
    | error f => cases hya
    | ok b =>
        obtain rfl := Except.ok.inj hya
        exact hf _ hy
  · obtain ⟨y, hy, hye⟩ := he
    cases y with
    | ok b => cases hye
    | error f =>
        obtain rfl := Except.error.inj hye
        exact hy.1

theorem compareMeanings_concludes {α : Type} {P : Mismatch → Prop} {env : Env} {before after : Tree}
    {r r' : Except EvalError Value} (hbefore : before.Evaluates env .empty r)
    (hafter : ∀ h, after.Evaluates env h r') {index : Nat}
    (hP : sameResult r' r = false →
      P ⟨index, before.render, after.render, resultText r, resultText r'⟩) (entry : α) :
    Concludes (.fault .outOfFuel) (BenchError.Only P) fun fuel =>
      match (compareMeanings fuel index env before after).run' .empty with
      | none => .error (.fault .outOfFuel)
      | some (some m) => .error (.mismatch m)
      | some none => .ok entry := by
  obtain ⟨h, hsettles⟩ := hbefore
  obtain ⟨h', hsettles'⟩ := hafter h
  let found : Option Mismatch :=
    if sameResult r' r then none
    else some ⟨index, before.render, after.render, resultText r, resultText r'⟩
  have hfound : ∀ fuel, eval fuel before env .empty = some (r, h) →
      eval fuel after env h = some (r', h') →
      (compareMeanings fuel index env before after).run' .empty = some found := by
    intro fuel hb ha
    rw [compareMeanings_run', hb]
    show (eval fuel after env h).map _ = _
    rw [ha]
    rfl
  let conclude : Option (Option Mismatch) → Except BenchError α
    | none => .error (.fault .outOfFuel)
    | some (some m) => .error (.mismatch m)
    | some none => .ok entry
  show Concludes _ _ fun fuel =>
    conclude ((compareMeanings fuel index env before after).run' .empty)
  refine ⟨conclude (some found), ?_, ?_, fun fuel => ?_⟩
  · unfold found
    cases hsame : sameResult r' r with
    | true => trivial
    | false => exact hP hsame
  · obtain ⟨n, hn⟩ := hsettles
    obtain ⟨k, hk⟩ := hsettles'
    refine ⟨max n k, fun fuel hfuel => ?_⟩
    exact congrArg conclude (hfound fuel (hn fuel (by omega)) (hk fuel (by omega)))
  · have hnone : ∀ found', found' = none → conclude found' = .error (.fault .outOfFuel) :=
      fun _ h => congrArg conclude h
    rcases hsettles.eval_cases fuel with hb | hb
    · rcases hsettles'.eval_cases fuel with ha | ha
      · exact .inl (congrArg conclude (hfound fuel hb ha))
      · refine .inr (hnone _ ?_)
        rw [compareMeanings_run', hb]
        show (eval fuel after env h).map _ = none
        rw [ha]
        rfl
    · refine .inr (hnone _ ?_)
      rw [compareMeanings_run', hb]
      rfl

/-- A generated tree passes the check, or divides by zero inside a test. -/
theorem benchTree_concludes {σ : Type} (g : Generator σ) (choice : PassChoice) {t : Tree}
    {next : VarId} (ht : t.Grown g.free g.free next .int) (index : Nat) :
    Concludes (.fault .outOfFuel)
      (BenchError.Only fun m => m.index = index ∧ m.Expected choice g.env t)
      (fun fuel => benchTree fuel choice g.env index t) := by
  refine (t.transform_concludes g choice ht).bind_fault fun p hp => ?_
  obtain ⟨after, passes⟩ := p
  obtain ⟨r, r', hr, hr', hkept⟩ := hp
  have hbefore := (hr ⟨.empty, fun _ => false⟩).evaluates
  refine compareMeanings_concludes hbefore (fun h => (hr' ⟨h, fun _ => false⟩).evaluates)
    (fun hdiffer => ⟨rfl, ?_⟩) _
  rcases hkept with rfl | ⟨hfolding, e, rfl⟩
  · rw [sameResult_self] at hdiffer
    cases hdiffer
  · obtain rfl : e = .divideByZero :=
      g.divideByZero_of_evaluatesMarked ht (hr ⟨.empty, fun _ => false⟩)
    exact ⟨hfolding, rfl, hbefore, hr _⟩

/-! ## Whole benchmarks -/

def Generator.treeAt {σ : Type} (src : Source σ) (depth : Nat) :
    (k : Nat) → Generator σ → Except Fault Tree
  | 0, g => do
      let (t, _) ← g.intTree src depth
      return t
  | k + 1, g => do
      let (_, g) ← g.intTree src depth
      g.treeAt src depth k

def Generator.Explains {σ : Type} (g : Generator σ) (src : Source σ) (depth : Nat)
    (choice : PassChoice) (k : Nat) (m : Mismatch) : Prop :=
  ∃ t, g.treeAt src depth k = .ok t ∧ m.Expected choice g.env t

theorem benchFrom_concludes {σ : Type} (src : Source σ) (depth : Nat) (choice : PassChoice)
    (n index : Nat) {g : Generator σ} (hg : g.Good) :
    Concludes (.fault .outOfFuel)
      (BenchError.Only fun m => ∃ k, m.index = index + k ∧ g.Explains src depth choice k m)
      (fun fuel => benchFrom src fuel depth choice g.env n index g) := by
  induction n generalizing index g with
  | zero => exact .const trivial
  | succ n ih =>
      refine (Concludes.const (g.intTree_yields hg src depth).with_eq).bind_fault fun p hp => ?_
      obtain ⟨t, g'⟩ := p
      obtain ⟨⟨hg', hfree, ht⟩, hrun⟩ := hp
      have henv : g'.env = g.env := by
        unfold Generator.env
        rw [show g'.free = g.free from hfree]
      have hhere : g.treeAt src depth 0 = .ok t := by
        rw [Generator.treeAt, hrun]
        rfl
      have hlater : ∀ k, g.treeAt src depth (k + 1) = g'.treeAt src depth k := by
        intro k
        rw [Generator.treeAt, hrun]
        rfl
      refine (benchTree_concludes g choice ht index).bind (fun entry _ => ?_) fun e he => ?_
      · have hrest := ih (index + 1) hg'
        rw [henv] at hrest
        refine hrest.bind (fun _ _ => .const trivial) fun e he => he.error fun m hm => ?_
        obtain ⟨k, hk, u, hu, hexpected⟩ := hm
        rw [henv] at hexpected
        exact ⟨k + 1, by omega, u, (hlater k).trans hu, hexpected⟩
      · exact he.error fun m hm => ⟨0, hm.1, t, hhere, hm.2⟩

def benchWith {σ : Type} (src : Source σ) (draws : σ) (fuel : Nat) (config : BenchConfig) :
    Except BenchError BenchSummary := do
  let g := Generator.new draws config.freeVars
  let trees ← benchFrom src fuel config.depth config.passes g.env config.trees 0 g
  return ⟨config.seed, config.depth, config.freeVars, trees⟩

/-- Whatever is drawn, a mismatch is found only where a generated tree is folded and divides by
zero inside a test. -/
theorem bench_mismatch_expected {σ : Type} (src : Source σ) (draws : σ) (config : BenchConfig) :
    Concludes (.fault .outOfFuel)
        (BenchError.Only fun m =>
          (Generator.new draws config.freeVars).Explains src config.depth config.passes m.index m)
        (fun fuel => benchWith src draws fuel config)
      ∧ ∀ fuel, bench fuel config =
        benchWith Permuted.source (Permuted.ofSeed (BitVec.ofNat 64 config.seed)) fuel config := by
  refine ⟨?_, fun fuel => rfl⟩
  have htrees := benchFrom_concludes src config.depth config.passes config.trees 0
    (Generator.new_good draws config.freeVars)
  refine htrees.bind (fun _ _ => .const trivial) fun e he => he.error fun m hm => ?_
  obtain ⟨k, hk, hexplains⟩ := hm
  rw [Nat.zero_add] at hk
  rw [hk]
  exact hexplains

private def listed : Source (List Nat) where
  coin _ draws := (draws.headD 0 != 0, draws.tail)
  position n hn draws := (⟨draws.headD 0 % n, Nat.mod_lt _ hn⟩, draws.tail)
  distance n hn draws := (⟨draws.headD 0 % n, Nat.mod_lt _ hn⟩, draws.tail)

private def literalThenChoice : List Nat :=
  [9, 4] ++ [7, 5, 9, 4, 1, 0, 9, 3, 0, 6, 1, 1, 0, 0, 4, 0, 9, 0, 8, 0, 9, 0, 8]

private def mismatchIndex? : Except BenchError BenchSummary → Option Nat
  | .error (.mismatch m) => some m.index
  | _ => none

theorem bench_mismatch_expected_literalThenChoice :
    ∃ m, benchWith listed literalThenChoice 50 ⟨0, 2, 3, 0, .both⟩ = .error (.mismatch m)
      ∧ m.index = 1 ∧ (Generator.new literalThenChoice 0).Explains listed 3 .both 1 m := by
  have hindex :
      mismatchIndex? (benchWith listed literalThenChoice 50 ⟨0, 2, 3, 0, .both⟩) = some 1 := by
    decide +kernel
  obtain ⟨⟨x, hx, _, hany⟩, _⟩ :=
    bench_mismatch_expected listed literalThenChoice ⟨0, 2, 3, 0, .both⟩
  rcases hany 50 with hrun | hrun
  · rw [hrun] at hindex ⊢
    cases x with
    | ok _ => cases hindex
    | error e =>
        cases e with
        | mismatch m =>
            have hm : m.index = 1 := Option.some.inj hindex
            refine ⟨m, rfl, hm, ?_⟩
            rw [← hm]
            exact hx
        | fault f => cases hindex
        | notWritten _ _ => cases hindex
  · rw [hrun] at hindex
    cases hindex

end ExprTree

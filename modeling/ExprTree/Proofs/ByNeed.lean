import ExprTree.Proofs.AnyEnvironment
/-!
# Delayed computations cannot be observed

The heap keeps the result of a delayed computation after its first reading, and
refuses a reading that comes from inside the computation. Neither shows: a full
tree whose bound variables are annotated well gives what it gives by name, and
no reading ever finds a computation that is running.

`evalGuarded` is evaluation with an observer that stops, without any result, once
a running computation is read. Nothing catches a failure, so a run of `eval` that
does not end with the failure of such a reading never makes one.
-/

namespace ExprTree

/-! ## Evaluation without readings of running computations -/

def Observer.guard : Observer EvalError Heap where
  error e := e
  heap h := h
  raise e := e
  leaveTest e := e
  move _ h := h
  finish h loc r := h.finish loc r
  kept _ _ r := r
  stops := true
  error_raise _ := rfl
  error_leaveTest _ := rfl
  heap_move _ _ := rfl
  heap_finish _ _ r := by rw [mapError_self]
  mapError_kept _ _ r := mapError_self r

/-- Evaluate a tree as `eval` does, with no result once a running computation is read. -/
abbrev evalGuarded : (fuel : Nat) → Tree → Env → EvalM Value :=
  Observer.guard.eval

theorem evalGuarded_of_eval {fuel : Nat} {t : Tree} {env : Env} {h h' : Heap}
    {r : Except EvalError Value} (heval : eval fuel t env h = some (r, h'))
    (hr : r ≠ .error .cyclicBinding) : evalGuarded fuel t env h = some (r, h') := by
  obtain ⟨r₀, s', hguarded, rfl, rfl⟩ :=
    (Observer.guard.eval_tracks fuel t env).exists_answer heval hr
  rw [show r₀.mapError Observer.guard.error = r₀ from mapError_self r₀]
  exact hguarded

/-! ## Comparison with evaluation by name -/

def Env.Ground (env : Env) : Prop :=
  ∀ id slot, env.get? id = some slot → slot.groundType?.isSome

namespace Env.Ground

variable {env : Env}

theorem empty : Env.empty.Ground := by
  intro id slot hget
  cases hget

theorem bind (h : env.Ground) {id : VarId} {slot : Slot} (hslot : slot.groundType?.isSome) :
    (Env.bind id slot env).Ground := by
  intro x slot' hx
  rw [Env.get?] at hx
  split at hx
  · obtain rfl := Option.some.inj hx
    exact hslot
  · exact h x slot' hx

theorem reads (h : env.Ground) (w : World) : env.Reads w env.byName := by
  have hassigns : env.Assigns (fun _ => .int) (.ofList []) := by
    intro id slot hget
    obtain ⟨ty, hty⟩ := Option.isSome_iff_exists.1 (h id slot hget)
    exact ⟨ty, hty, fun hmem => by simp at hmem⟩
  exact hassigns.reads w

theorem tame (h : env.Ground) (Δ : BoundTypes) : env.byName.Tame Δ := by
  intro id slot' hget' ty _
  rw [env.get?_byName, Option.map_eq_some_iff] at hget'
  obtain ⟨slot, hget, rfl⟩ := hget'
  obtain ⟨ty', hslot⟩ := Option.isSome_iff_exists.1 (h id slot hget)
  rcases Slot.groundType?_cases hslot with ⟨b, rfl, _⟩ | ⟨n, rfl, _⟩
  · exact .pure (NameValue.tame_bool ty b)
  · exact .pure (NameValue.tame_int ty n)

end Env.Ground

inductive SameOutcome : Except EvalError Value → Except Failure NameValue → Prop where
  | bool (b : Bool) : SameOutcome (.ok (.bool b)) (.ok (.bool b))
  | int (n : Int64) : SameOutcome (.ok (.int n)) (.ok (.int n))
  | error (f : Failure) : SameOutcome (.error f.error) (.error f)

theorem SameOutcome.of_tame {ty : Ty} (hty : ty.isFn = false) {r' : Except Failure NameValue}
    (h : Outcome (fun f => NotCyclic f.error) (NameValue.Tame ty) r') :
    ∃ r, SameOutcome r r' ∧ r ≠ .error .cyclicBinding := by
  cases r' with
  | error f => exact ⟨_, .error f, fun heq => h (Except.error.inj heq)⟩
  | ok v =>
      cases v with
      | bool b => exact ⟨_, .bool b, by simp⟩
      | int n => exact ⟨_, .int n, by simp⟩
      | closure =>
          cases ty with
          | fn => simp [Ty.isFn] at hty
          | bool => exact absurd h id
          | int => exact absurd h id

theorem SameOutcome.of_related {w : World} {r : Except Failure Value}
    {r₀ : Except EvalError Value} {r' : Except Failure NameValue}
    (h : Related (Value.Reads w) r r') (h₀ : SameOutcome r₀ r') :
    r.mapError Failure.error = r₀ := by
  cases h₀ with
  | bool b =>
      cases h with
      | ok hv =>
        cases hv
        rfl
  | int n =>
      cases h with
      | ok hv =>
        cases hv
        rfl
  | error f =>
      cases h
      rfl

/-- What a tree gives by name it gives on every heap. -/
theorem Settles.evaluates {t : Tree} {env : Env} {r : Except EvalError Value}
    {r' : Except Failure NameValue} (hname : Settles (fun k => evalByName k t env.byName) r')
    (henv : env.Ground) (hsame : SameOutcome r r') (h : Heap) : t.Evaluates env h r := by
  obtain ⟨n, hn⟩ := hname
  have hcompletes : Completes .name n (fun k => evalMarked k t env) ⟨h, fun _ => false⟩
      (fun k => evalByName k t env.byName) := by
    intro hnone
    exact Option.some_ne_none r' ((hn n (Nat.le_refl n)).symm.trans hnone)
  obtain ⟨⟨r₁, s'⟩, r₂, hgiven, hheap, _, w, _, _, hrelated⟩ :=
    eval_linked .name n [] t env env.byName (henv.reads []) _ trivial hcompletes
  obtain rfl : r' = r₂ := Option.some.inj ((hn n (Nat.le_refl n)).symm.trans hgiven)
  have hmarked : t.EvaluatesMarked env ⟨h, fun _ => false⟩ r₁ := ⟨s', hheap⟩
  exact SameOutcome.of_related hrelated hsame ▸ hmarked.evaluates

/-- A full tree whose bound variables are annotated well gives the same integer, truth value or
error as by name, from every heap. No reading finds a computation that is running. -/
theorem Tree.sharing_unobservable {t : Tree} (hbuilt : t.Built) (hfull : t.isFull = true)
    (hty : t.resultType.isFn = false) (hann : t.BindersAgree .empty) {env : Env}
    (henv : env.Ground) :
    ∃ r r', SameOutcome r r' ∧ r ≠ .error .cyclicBinding
      ∧ Settles (fun k => evalByName k t env.byName) r'
      ∧ ∀ h, ∃ h', Settles (fun k => eval k t env h) (r, h')
        ∧ Settles (fun k => evalGuarded k t env h) (r, h') := by
  obtain ⟨r', hname, hwithin⟩ := hbuilt.fits.tame hfull hann (henv.tame .empty)
  obtain ⟨r, hsame, hacyclic⟩ := SameOutcome.of_tame hty hwithin
  refine ⟨r, r', hsame, hacyclic, hname, fun h => ?_⟩
  obtain ⟨h', heval⟩ := hname.evaluates henv hsame h
  refine ⟨h', heval, ?_⟩
  obtain ⟨n, hn⟩ := heval
  exact ⟨n, fun k hk => evalGuarded_of_eval (hn k hk) hacyclic⟩

private def twiceScaled : Tree :=
  .node
    (.node (.leaf (.letIn .int .int))
      (.node (.node (.leaf (.arith .add)) (.leaf (.var 0 .int))) (.leaf (.int 1))))
    (.node (.leaf (.lambda 1 .int .int))
      (.node
        (.node (.leaf (.letIn (.fn .int .int) .int))
          (.node (.leaf (.lambda 2 .int .int))
            (.node (.node (.leaf (.arith .mul)) (.leaf (.var 2 .int))) (.leaf (.var 1 .int)))))
        (.node (.leaf (.lambda 3 (.fn .int .int) .int))
          (.node (.node (.leaf (.call .int .int)) (.leaf (.var 3 (.fn .int .int))))
            (.node (.node (.leaf (.call .int .int)) (.leaf (.var 3 (.fn .int .int))))
              (.leaf (.var 1 .int)))))))

theorem Tree.sharing_unobservable_twiceScaled :
    ∃ r r', SameOutcome r r' ∧ r ≠ .error .cyclicBinding
      ∧ Settles (fun k => evalByName k twiceScaled
          (.bind 0 (.ready (.int 2)) .empty : Env).byName) r'
      ∧ ∀ h, ∃ h', Settles (fun k => eval k twiceScaled (.bind 0 (.ready (.int 2)) .empty) h)
          (r, h')
        ∧ Settles (fun k => evalGuarded k twiceScaled (.bind 0 (.ready (.int 2)) .empty) h)
          (r, h') := by
  have hann : twiceScaled.BindersAgree .empty := by decide
  exact Tree.sharing_unobservable (by decide) rfl rfl hann (Env.Ground.empty.bind rfl)

end ExprTree

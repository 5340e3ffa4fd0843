import ExprTree.Proofs.ByName
import ExprTree.Proofs.Typing
/-!
# Termination of evaluation by name

A function is *reducible* when it ends on every argument that ends, with a result
that is reducible again. Every full well-annotated tree gives a reducible result
where its variables stand for reducible slots. There is one lemma for each
construct, and `Typed.reducible` puts them together.

Failures are limited to a set `E` of errors, which has to hold what the
variables and the operators can fail with.
-/

namespace ExprTree

/-- With enough fuel, `m` gives a value in `P` or fails with an error in `E`. -/
def Ends {α : Type} (E : EvalError → Prop) (P : α → Prop) (m : Nat → NameM α) : Prop :=
  ∃ r, Settles m r ∧ Outcome (fun f => E f.error) P r

/-- Values of a type that end wherever the type says so. -/
def NameValue.Reducible (E : EvalError → Prop) : Ty → NameValue → Prop
  | .bool, v => ∃ b, v = .bool b
  | .int, v => ∃ n, v = .int n
  | .fn a r, v =>
      ∃ param body env, v = .closure param body env
        ∧ ∀ slot : NameSlot, Ends E (Reducible E a) (fun k => slot.force (evalByName k)) →
          Ends E (Reducible E r) (fun k => evalByName k body (.bind param slot env))

def NameSlot.Reducible (E : EvalError → Prop) (ty : Ty) (slot : NameSlot) : Prop :=
  Ends E (NameValue.Reducible E ty) (fun k => slot.force (evalByName k))

def Tree.Reducible (E : EvalError → Prop) (env : NameEnv) (ty : Ty) (t : Tree) : Prop :=
  Ends E (NameValue.Reducible E ty) (fun k => evalByName k t env)

/-- The listed variables stand for reducible slots, and may be unbound only if
that is among the errors allowed. -/
def NameEnv.Reducible (E : EvalError → Prop) (Γ : Context) (vars : VarSet) (env : NameEnv) : Prop :=
  ∀ id ∈ vars,
    match env.get? id with
    | some slot => slot.Reducible E (Γ id)
    | none => E (.unboundVariable id)

namespace Ends

variable {E : EvalError → Prop} {α β : Type} {P : α → Prop} {Q : β → Prop}

theorem pure {x : α} (hx : P x) : Ends E P (fun _ => pure x) :=
  ⟨.ok x, Reaches.const _, hx⟩

theorem throw {f : Failure} (hf : E f.error) : Ends E P (fun _ => throw f) :=
  ⟨.error f, Reaches.const _, hf⟩

theorem bind {m : Nat → NameM α} {f : Nat → α → NameM β} (hm : Ends E P m)
    (hf : ∀ x, P x → Ends E Q (fun k => f k x)) : Ends E Q (fun k => m k >>= f k) := by
  obtain ⟨r, hsettles, hr⟩ := hm
  cases r with
  | error e => exact ⟨.error e, hsettles.map fun _ hk => NameM.bind_error hk _, hr⟩
  | ok x =>
      obtain ⟨q, hsettles', hq⟩ := hf x hr
      exact ⟨q, hsettles.both hsettles' fun _ hk => (NameM.bind_ok hk _).trans, hq⟩

theorem test {m : Nat → NameM α} (hm : Ends E P m) : Ends E P (fun k => (m k).test) := by
  obtain ⟨r, hsettles, hr⟩ := hm
  refine ⟨markTest r, hsettles.map fun k hk => by simp [NameM.test, hk], ?_⟩
  cases r with
  | ok x => exact hr
  | error f => exact hr

theorem eval {P : NameValue → Prop} {t : Tree} {env : NameEnv}
    (h : Ends E P (fun k => t.form.stepByName (evalByName k) env)) :
    Ends E P (fun k => evalByName k t env) := by
  obtain ⟨r, ⟨i, hi⟩, hr⟩ := h
  refine ⟨r, ⟨i + 1, fun k hk => ?_⟩, hr⟩
  obtain ⟨k, rfl⟩ : ∃ k', k = k' + 1 := ⟨k - 1, by omega⟩
  exact hi k (by omega)

end Ends

/-! ## Constructs -/

theorem ArithOp.eval_error {op : ArithOp} {m n : Int64} {e : EvalError}
    (h : op.eval m n = .error e) : e = .divideByZero := by
  cases op with
  | div =>
      by_cases hn : n = 0
      · simpa [ArithOp.eval, hn] using h.symm
      · simp [ArithOp.eval, hn] at h
  | _ => simp [ArithOp.eval] at h

namespace Tree.Reducible

variable {E : EvalError → Prop} {env : NameEnv} {a b : Tree} {A B ty : Ty}

theorem of_two {s : Symbol} (hform : (node (node (leaf s) a) b).form = .strict s [a, b])
    (ha : a.Reducible E env A) (hb : b.Reducible E env B)
    (hs : ∀ v v', NameValue.Reducible E A v → NameValue.Reducible E B v' →
      Ends E (NameValue.Reducible E ty) (fun k => s.denoteByName (evalByName k) [v, v'])) :
    (node (node (leaf s) a) b).Reducible E env ty := by
  apply Ends.eval
  rw [hform]
  simp only [Form.stepByName_two]
  exact ha.bind fun v hv => hb.bind fun v' hv' => hs v v' hv hv'

theorem arith (hE : E .divideByZero) (op : ArithOp) (ha : a.Reducible E env .int)
    (hb : b.Reducible E env .int) : (node (node (leaf (.arith op)) a) b).Reducible E env .int := by
  refine of_two rfl ha hb ?_
  rintro _ _ ⟨m, rfl⟩ ⟨n, rfl⟩
  change Ends E _ fun _ => (do
    let x ← (op.eval m n).mapError Failure.plain
    return NameValue.int x : NameM NameValue)
  cases hop : op.eval m n with
  | ok x => exact .pure ⟨x, rfl⟩
  | error e => exact .throw (f := .plain e) (ArithOp.eval_error hop ▸ hE)

theorem compare (op : CompareOp) (ha : a.Reducible E env .int) (hb : b.Reducible E env .int) :
    (node (node (leaf (.compare op)) a) b).Reducible E env .bool := by
  refine of_two rfl ha hb ?_
  rintro _ _ ⟨m, rfl⟩ ⟨n, rfl⟩
  exact .pure ⟨op.eval m n, rfl⟩

theorem negation (ha : a.Reducible E env .bool) :
    (node (leaf .negation) a).Reducible E env .bool := by
  apply Ends.eval
  change Ends E _ fun k => [a].mapM (fun arg => evalByName k arg env)
    >>= Symbol.denoteByName (evalByName k) .negation
  simp only [List.mapM_cons, List.mapM_nil, bind_assoc, pure_bind]
  refine ha.bind ?_
  rintro _ ⟨p, rfl⟩
  exact .pure ⟨!p, rfl⟩

theorem conjunction (ha : a.Reducible E env .bool) (hb : b.Reducible E env .bool) :
    (node (node (leaf .conjunction) a) b).Reducible E env .bool := by
  refine of_two rfl ha hb ?_
  rintro _ _ ⟨p, rfl⟩ ⟨q, rfl⟩
  cases p with
  | true => exact .pure ⟨q, rfl⟩
  | false => exact .pure ⟨false, rfl⟩

theorem cond {test : Tree} (htest : test.Reducible E env .bool) (ha : a.Reducible E env ty)
    (hb : b.Reducible E env ty) :
    (node (node (node (leaf (.cond ty)) test) a) b).Reducible E env ty := by
  apply Ends.eval
  refine htest.test.bind ?_
  rintro _ ⟨p, rfl⟩
  cases p with
  | true => exact ha
  | false => exact hb

theorem lambda {id : VarId} {body : Tree}
    (hbody : ∀ slot, NameSlot.Reducible E A slot → body.Reducible E (.bind id slot env) B) :
    (node (leaf (.lambda id A B)) body).Reducible E env (.fn A B) := by
  apply Ends.eval
  exact .pure ⟨id, body, env, rfl, hbody⟩

theorem letIn (ha : a.Reducible E env A) (hb : b.Reducible E env (.fn A B)) :
    (node (node (leaf (.letIn A B)) a) b).Reducible E env B := by
  apply Ends.eval
  refine Ends.bind hb ?_
  rintro _ ⟨param, body, env', rfl, hbody⟩
  exact hbody (.delayed a env) ha

theorem call (ha : a.Reducible E env (.fn A B)) (hb : b.Reducible E env A) :
    (node (node (leaf (.call A B)) a) b).Reducible E env B := by
  refine of_two rfl ha hb ?_
  rintro _ v ⟨param, body, env', rfl, hbody⟩ hv
  exact hbody (.ready v) (.pure hv)

end Tree.Reducible

/-! ## The fundamental lemma -/

namespace NameEnv.Reducible

variable {E : EvalError → Prop} {Γ : Context} {env : NameEnv} {f x : Tree}

theorem func (h : env.Reducible E Γ ((Tree.node f x).freeVars .standard)) :
    env.Reducible E Γ (f.freeVars .standard) :=
  fun id hid => h id (Tree.mem_freeVars_node.2 (.inl hid))

theorem arg (h : env.Reducible E Γ ((Tree.node f x).freeVars .standard))
    (hf : f.binder? .standard = none) : env.Reducible E Γ (x.freeVars .standard) :=
  fun id hid => h id (Tree.mem_freeVars_node.2 (.inr ⟨hid, by simp [hf]⟩))

theorem bind {vars : VarSet} {id : VarId} {ty : Ty} {slot : NameSlot}
    (h : env.Reducible E Γ (vars.erase id)) (hslot : slot.Reducible E ty) :
    (NameEnv.bind id slot env).Reducible E (Γ.set id ty) vars := by
  intro x hx
  by_cases hxid : x = id
  · subst hxid
    simpa [NameEnv.get?, Context.set] using hslot
  · have hx' := h x (VarSet.mem_erase.2 ⟨hx, hxid⟩)
    simpa [NameEnv.get?, Context.set, hxid, Ne.symm hxid] using hx'

end NameEnv.Reducible

theorem Typed.reducible {E : EvalError → Prop} (hE : E .divideByZero) {Γ : Context} {t : Tree}
    {ty : Ty} (h : Typed Γ t ty) {env : NameEnv} (henv : env.Reducible E Γ (t.freeVars .standard)) :
    t.Reducible E env ty := by
  induction h generalizing env with
  | int n => exact .eval (.pure ⟨n, rfl⟩)
  | bool b => exact .eval (.pure ⟨b, rfl⟩)
  | @var Γ id =>
      have hid := henv id (by simp)
      apply Ends.eval
      change Ends E _ fun k => Form.stepByName (evalByName k) env (.read id)
      simp only [Form.stepByName]
      cases hget : env.get? id with
      | some slot =>
          rw [hget] at hid
          exact hid
      | none =>
          rw [hget] at hid
          exact .throw hid
  | arith op _ _ iha ihb =>
      exact .arith hE op (iha (henv.func.arg rfl)) (ihb (henv.arg rfl))
  | compare op _ _ iha ihb =>
      exact .compare op (iha (henv.func.arg rfl)) (ihb (henv.arg rfl))
  | negation _ iha => exact .negation (iha (henv.arg rfl))
  | conjunction _ _ iha ihb =>
      exact .conjunction (iha (henv.func.arg rfl)) (ihb (henv.arg rfl))
  | cond _ _ _ iht iha ihb =>
      exact .cond (iht (henv.func.func.arg rfl)) (iha (henv.func.arg rfl))
        (ihb (henv.arg rfl))
  | lambda _ ih => exact .lambda fun slot hslot => ih (NameEnv.Reducible.bind henv hslot)
  | letIn _ _ iha ihb => exact .letIn (iha (henv.func.arg rfl)) (ihb (henv.arg rfl))
  | call _ _ iha ihb => exact .call (iha (henv.func.arg rfl)) (ihb (henv.arg rfl))

end ExprTree

import ExprTree.Proofs.Outcomes
import ExprTree.Proofs.TestFailure
/-!
# Evaluation by name

The reference for evaluation: a binding keeps the tree it binds together with
its environment, and every reading of the variable evaluates that tree again.
There is no heap, so values and environments are trees themselves.
-/

namespace ExprTree

mutual

inductive NameValue where
  | bool (b : Bool)
  | int (n : Int64)
  | closure (param : VarId) (body : Tree) (env : NameEnv)

inductive NameSlot where
  | ready (value : NameValue)
  /-- A computation that is known to fail. -/
  | failed (failure : Failure)
  /-- A tree to be evaluated at every reading. -/
  | delayed (tree : Tree) (env : NameEnv)

inductive NameEnv where
  | empty
  | bind (id : VarId) (slot : NameSlot) (rest : NameEnv)

end

def NameEnv.get? (id : VarId) : NameEnv → Option NameSlot
  | empty => none
  | bind x slot rest => if x = id then some slot else rest.get? id

/-- A computation that gives a result, fails, or runs out of fuel (`none`). -/
abbrev NameM := ExceptT Failure Option

def NameM.test {α : Type} (m : NameM α) : NameM α :=
  Option.map markTest m

namespace NameValue

def text : NameValue → String
  | bool b => boolText b
  | int n => intText n
  | closure .. => "<function>"

def asBool : NameValue → Except Failure Bool
  | bool b => .ok b
  | v => .error (.plain (.valueMismatch .bool v.text))

def asInt : NameValue → Except Failure Int64
  | int n => .ok n
  | v => .error (.plain (.valueMismatch .int v.text))

end NameValue

section

variable (run : Tree → NameEnv → NameM NameValue)

def NameSlot.force : NameSlot → NameM NameValue
  | ready v => pure v
  | failed f => throw f
  | delayed t env => run t env

def NameValue.call (arg : NameSlot) : NameValue → NameM NameValue
  | closure param body env => run body (.bind param arg env)
  | v => throw (.plain (.notAFunction v.text))

def Symbol.denoteByName (s : Symbol) (args : List NameValue) : NameM NameValue :=
  match s, args with
  | .int n, [] => pure (.int n)
  | .bool b, [] => pure (.bool b)
  | .arith op, [a, b] => do
      let m ← a.asInt
      let n ← b.asInt
      return .int (← (op.eval m n).mapError Failure.plain)
  | .compare op, [a, b] => do
      let m ← a.asInt
      let n ← b.asInt
      return .bool (op.eval m n)
  | .negation, [a] => do
      let p ← a.asBool
      return .bool (!p)
  | .conjunction, [a, b] => do
      if ← a.asBool then
        let q ← b.asBool
        return .bool q
      else
        return .bool false
  | .cond _, [test, thenValue, elseValue] => do
      if ← test.asBool then return thenValue else return elseValue
  | .letIn _ _, [bound, func] => func.call run (.ready bound)
  | .call _ _, [func, arg] => func.call run (.ready arg)
  | s, _ => throw (.plain (.needsEnvironment s.name))

def Form.stepByName (env : NameEnv) : Form → NameM NameValue
  | incomplete s => throw (.plain (.unsaturated s.name))
  | read id =>
      match env.get? id with
      | some slot => slot.force run
      | none => throw (.plain (.unboundVariable id))
  | function id body => pure (.closure id body env)
  | bind bound func => do
      let f ← run func env
      f.call run (.delayed bound env)
  | choose test thenBranch elseBranch => do
      let v ← (run test env).test
      if ← v.asBool then run thenBranch env else run elseBranch env
  | strict s args => do
      let values ← args.mapM fun arg => run arg env
      s.denoteByName run values

end

theorem Form.stepByName_two (run : Tree → NameEnv → NameM NameValue) (env : NameEnv) (s : Symbol)
    (a b : Tree) :
    (strict s [a, b]).stepByName run env = (do
      let v ← run a env
      let w ← run b env
      s.denoteByName run [v, w] : NameM NameValue) := by
  simp only [stepByName, List.mapM_cons, List.mapM_nil, bind_assoc, pure_bind]

def evalByName : (fuel : Nat) → Tree → NameEnv → NameM NameValue
  | 0, _, _ => none
  | fuel + 1, t, env => t.form.stepByName (evalByName fuel) env

/-! ## Fuel -/

namespace NameM

variable {α β : Type}

theorem bind_eq (m : NameM α) (f : α → NameM β) :
    (m >>= f) =
      match (m : Option (Except Failure α)) with
      | none => none
      | some (.ok x) => f x
      | some (.error e) => some (.error e) := by
  show ExceptT.bind m f = _
  simp only [ExceptT.bind]
  show Option.bind m _ = _
  cases m with
  | none => rfl
  | some r => cases r <;> rfl

theorem bind_ok {m : NameM α} {x : α} (h : m = some (.ok x)) (f : α → NameM β) :
    (m >>= f) = f x := by
  rw [bind_eq, h]

theorem bind_error {m : NameM α} {e : Failure} (h : m = some (.error e))
    (f : α → NameM β) : (m >>= f) = some (.error e) := by
  rw [bind_eq, h]

def Le (m m' : NameM α) : Prop :=
  ∀ ⦃r : Except Failure α⦄, m = some r → m' = some r

theorem Le.refl (m : NameM α) : m.Le m :=
  fun _ hm => hm

theorem Le.bind {m m' : NameM α} {f f' : α → NameM β} (hm : m.Le m') (hf : ∀ x, (f x).Le (f' x)) :
    (m >>= f).Le (m' >>= f') := by
  intro r hr
  rw [bind_eq] at hr ⊢
  cases hm' : (m : Option (Except Failure α)) with
  | none => simp [hm'] at hr
  | some x =>
      rw [hm'] at hr
      rw [hm hm']
      cases x with
      | ok x => exact hf x hr
      | error e => exact hr

theorem Le.mapM {γ : Type} {f f' : γ → NameM α} (hf : ∀ x, (f x).Le (f' x)) (xs : List γ) :
    (xs.mapM f).Le (xs.mapM f') := by
  induction xs with
  | nil => exact Le.refl _
  | cons x xs ih =>
      simp only [List.mapM_cons]
      exact (hf x).bind fun _ => ih.bind fun _ => Le.refl _

end NameM

section

variable {run run' : Tree → NameEnv → NameM NameValue}

theorem NameSlot.force_le (hrun : ∀ t env, (run t env).Le (run' t env)) (slot : NameSlot) :
    (slot.force run).Le (slot.force run') := by
  cases slot with
  | ready v => exact NameM.Le.refl _
  | failed f => exact NameM.Le.refl _
  | delayed t env => exact hrun t env

theorem NameValue.call_le (hrun : ∀ t env, (run t env).Le (run' t env)) (arg : NameSlot)
    (v : NameValue) : (v.call run arg).Le (v.call run' arg) := by
  cases v with
  | closure param body env => exact hrun _ _
  | bool b => exact NameM.Le.refl _
  | int n => exact NameM.Le.refl _

theorem Symbol.denoteByName_le (hrun : ∀ t env, (run t env).Le (run' t env)) (s : Symbol)
    (args : List NameValue) : (s.denoteByName run args).Le (s.denoteByName run' args) := by
  unfold Symbol.denoteByName
  split
  case h_8 => exact NameValue.call_le hrun _ _
  case h_9 => exact NameValue.call_le hrun _ _
  all_goals exact NameM.Le.refl _

theorem Form.stepByName_le (hrun : ∀ t env, (run t env).Le (run' t env)) (env : NameEnv)
    (form : Form) : (form.stepByName run env).Le (form.stepByName run' env) := by
  cases form with
  | incomplete s => exact NameM.Le.refl _
  | read id =>
      simp only [Form.stepByName]
      cases env.get? id with
      | none => exact NameM.Le.refl _
      | some slot => exact NameSlot.force_le hrun slot
  | function id body => exact NameM.Le.refl _
  | bind bound func => exact (hrun _ _).bind fun _ => NameValue.call_le hrun _ _
  | choose test thenBranch elseBranch =>
      refine NameM.Le.bind ?_ fun _ => (NameM.Le.refl _).bind fun b => ?_
      · intro r hr
        obtain ⟨x, hx, rfl⟩ := Option.map_eq_some_iff.1 hr
        exact Option.map_eq_some_iff.2 ⟨x, hrun _ _ hx, rfl⟩
      · cases b
        · exact hrun _ _
        · exact hrun _ _
  | strict s args =>
      exact (NameM.Le.mapM (fun _ => hrun _ _) _).bind fun _ => Symbol.denoteByName_le hrun _ _

end

theorem evalByName_le_succ (fuel : Nat) (t : Tree) (env : NameEnv) :
    (evalByName fuel t env).Le (evalByName (fuel + 1) t env) := by
  induction fuel generalizing t env with
  | zero =>
      intro r hr
      simp [evalByName] at hr
  | succ fuel ih => exact Form.stepByName_le ih env t.form

theorem evalByName_mono {fuel fuel' : Nat} (h : fuel ≤ fuel') (t : Tree) (env : NameEnv) :
    (evalByName fuel t env).Le (evalByName fuel' t env) := by
  induction h with
  | refl => exact NameM.Le.refl _
  | step _ ih => exact fun _ hr => evalByName_le_succ _ t env (ih hr)

/-! ## Settling -/

theorem NameSlot.settles_force {slot : NameSlot} {n : Nat} {r : Except Failure NameValue}
    (h : slot.force (evalByName n) = some r) :
    Settles (fun k => slot.force (evalByName k)) r :=
  ⟨n, fun _ hk => slot.force_le (fun t env => evalByName_mono hk t env) h⟩

end ExprTree

import ExprTree.Value
/-!
# Evaluation

Evaluation of a tree in an environment. Arguments are evaluated from left to
right before their symbol acts, with three exceptions: a condition evaluates
only the branch it takes, a function keeps its body, and a binding delays what
it binds until it is read, which happens at most once.

Evaluation of ill-annotated trees need not end, so `eval` takes an amount of
fuel: the greatest depth of nested evaluations. Running out of fuel is told
apart from all results, and more fuel never changes a result.
-/

namespace ExprTree

/-- A computation on the heap that gives a result, fails, or runs out of fuel
(`none`). What it did to the heap stays when it fails. -/
abbrev EvalM := ExceptT EvalError (StateT Heap Option)

namespace EvalM

def outOfFuel {α : Type} : EvalM α :=
  fun _ => none

def closure (param : VarId) (body : Tree) (env : Env) : EvalM Value :=
  fun h => some (.ok (.closure h.nextTag param body env), { h with nextTag := h.nextTag + 1 })

def delay (tree : Tree) (env : Env) : EvalM Slot :=
  fun h =>
    let (slot, h) := h.delay tree env
    some (.ok slot, h)

end EvalM

section

variable (run : Tree → Env → EvalM Value)

/-- Read a slot, with `run` to evaluate a delayed tree. The first reading runs
it, later ones get the same result, and a reading from inside it fails. -/
def Slot.force : Slot → EvalM Value
  | .ready v => pure v
  | .delayed loc => fun h =>
      match h.cells[loc]?.map Cell.progress with
      | some (.pending tree env) => do
          let (result, h) ← run tree env (h.start loc)
          return (result, h.finish loc result)
      | some (.finished result) => some (result, h)
      | some .running => some (.error .cyclicBinding, h)
      | none => some (.error .cyclicBinding, h)

def Value.call (arg : Slot) : Value → EvalM Value
  | .closure _ param body env => run body (.bind param arg env)
  | v => throw (.notAFunction v.text)

/-- Arithmetic wraps around; division goes toward zero. -/
def ArithOp.eval (op : ArithOp) (m n : Int64) : Except EvalError Int64 :=
  match op with
  | .add => .ok (m + n)
  | .sub => .ok (m - n)
  | .mul => .ok (m * n)
  | .div => if n = 0 then .error .divideByZero else .ok (m / n)

def CompareOp.eval (op : CompareOp) (m n : Int64) : Bool :=
  match op with
  | .eq => m == n
  | .lt => decide (m < n)

/-- The meaning of a symbol on evaluated arguments. Variables and functions have
none. -/
def Symbol.denote (s : Symbol) (args : List Value) : EvalM Value :=
  match s, args with
  | .int n, [] => pure (.int n)
  | .bool b, [] => pure (.bool b)
  | .arith op, [a, b] => do
      let m ← a.asInt
      let n ← b.asInt
      return .int (← op.eval m n)
  | .compare op, [a, b] => do
      let m ← a.asInt
      let n ← b.asInt
      return .bool (op.eval m n)
  | .negation, [a] => do
      let p ← a.asBool
      return .bool (!p)
  | .conjunction, [a, b] => do
      if ← a.asBool then
        let q ← b.asBool
        return .bool q
      else
        return .bool false
  | .cond _, [test, thenValue, elseValue] => do
      if ← test.asBool then return thenValue else return elseValue
  | .letIn _ _, [bound, func] => func.call run (.ready bound)
  | .call _ _, [func, arg] => func.call run (.ready arg)
  | s, _ => throw (.needsEnvironment s.name)

end

def eval : (fuel : Nat) → Tree → Env → EvalM Value
  | 0, _, _ => EvalM.outOfFuel
  | fuel + 1, t, env =>
      if t.isFull then
        match t.head, t.args with
        | .var id _, _ =>
            match env.get? id with
            | some slot => slot.force (eval fuel)
            | none => throw (.unboundVariable id)
        | .lambda id _ _, [body] => EvalM.closure id body env
        | .letIn _ _, [bound, func] => do
            let slot ← EvalM.delay bound env
            let f ← eval fuel func env
            f.call (eval fuel) slot
        | .cond _, [test, thenBranch, elseBranch] => do
            let v ← eval fuel test env
            if ← v.asBool then eval fuel thenBranch env else eval fuel elseBranch env
        | s, args => do
            let values ← args.mapM fun arg => eval fuel arg env
            s.denote (eval fuel) values
      else
        throw (.unsaturated t.head.name)

/-- Fuel that no evaluation uses up before it has filled the memory of a machine. -/
def ampleFuel : Nat := 4611686018427387904

def evalClosed (fuel : Nat) (t : Tree) : Option (Except EvalError Value) :=
  (eval fuel t .empty .empty).map Prod.fst

end ExprTree

import ExprTree.Tree
/-!
# Values

What expressions evaluate to, what variables are bound to, and why evaluation
fails. A variable is bound to a value or to a delayed computation, which lives
in a `Heap` and is run when the variable is first read.
-/

namespace ExprTree

mutual

inductive Value where
  | bool (b : Bool)
  | int (n : Int64)
  /-- A function with the environment it was made in. Every evaluation of a
  function expression makes a new one, told apart by `tag`. -/
  | closure (tag : Nat) (param : VarId) (body : Tree) (env : Env)

inductive Slot where
  | ready (value : Value)
  /-- The delayed computation at a location of the heap. -/
  | delayed (loc : Nat)

inductive Env where
  | empty
  | bind (id : VarId) (slot : Slot) (rest : Env)

end

instance : Inhabited Value := ⟨.bool false⟩
instance : Inhabited Slot := ⟨.ready default⟩
instance : Inhabited Env := ⟨.empty⟩

inductive EvalError where
  | unboundVariable (id : VarId)
  | divideByZero
  /-- The symbol misses arguments. -/
  | unsaturated (name : String)
  /-- The symbol has no meaning apart from an environment. -/
  | needsEnvironment (name : String)
  | notAFunction (found : String)
  /-- A delayed computation needs its own result. -/
  | cyclicBinding
  | valueMismatch (expected : Ty) (found : String)
deriving DecidableEq

def EvalError.message : EvalError → String
  | unboundVariable id =>
      "variable VarId(" ++ toString id ++ ") is not bound in the evaluation environment"
  | divideByZero => "division by zero"
  | unsaturated name => "cannot evaluate `" ++ name ++ "`, which is missing arguments"
  | needsEnvironment name => "cannot evaluate `" ++ name ++ "` without an environment"
  | notAFunction found => "cannot apply non-function value " ++ found
  | cyclicBinding => "a let-bound value was read while it was being computed"
  | valueMismatch expected found =>
      "expected a value of type " ++ expected.text ++ ", found " ++ found

namespace Value

/-- Written form; functions have none of their own. -/
def text : Value → String
  | bool b => boolText b
  | int n => intText n
  | closure .. => "<function>"

def asBool : Value → Except EvalError Bool
  | bool b => .ok b
  | v => .error (.valueMismatch .bool v.text)

def asInt : Value → Except EvalError Int64
  | int n => .ok n
  | v => .error (.valueMismatch .int v.text)

/-- The literal that denotes the value; functions have none. -/
def literal? : Value → Option Symbol
  | bool b => some (.bool b)
  | int n => some (.int n)
  | closure .. => none

/-- Equality of values. A function is equal to itself only. -/
def same : Value → Value → Bool
  | bool a, bool b => a == b
  | int m, int n => m == n
  | closure i .., closure j .. => i == j
  | _, _ => false

end Value

def sameResult : Except EvalError Value → Except EvalError Value → Bool
  | .ok v, .ok w => v.same w
  | .error d, .error e => d == e
  | _, _ => false

namespace Env

def get? (id : VarId) : Env → Option Slot
  | empty => none
  | bind x slot rest => if x = id then some slot else rest.get? id

def bindAll (env : Env) (bindings : List (VarId × Slot)) : Env :=
  bindings.foldl (fun env binding => .bind binding.1 binding.2 env) env

def insertBinding (id : VarId) (slot : Slot) : List (VarId × Slot) → List (VarId × Slot)
  | [] => [(id, slot)]
  | (x, other) :: rest =>
      if id < x then (id, slot) :: (x, other) :: rest
      else if id = x then (id, slot) :: rest
      else (x, other) :: insertBinding id slot rest

/-- The bindings in force, in the order of their variables. -/
def toList : Env → List (VarId × Slot)
  | empty => []
  | bind id slot rest => insertBinding id slot rest.toList

end Env

/-! ## Delayed computations -/

inductive Progress where
  | pending (tree : Tree) (env : Env)
  | running
  | finished (result : Except EvalError Value)

/-- A delayed computation and the number of times it was started. -/
structure Cell where
  progress : Progress
  runs : Nat

structure Heap where
  cells : Array Cell
  nextTag : Nat

namespace Heap

def empty : Heap := ⟨#[], 0⟩

instance : Inhabited Heap := ⟨empty⟩

def delay (h : Heap) (tree : Tree) (env : Env) : Slot × Heap :=
  (.delayed h.cells.size, { h with cells := h.cells.push ⟨.pending tree env, 0⟩ })

/-- Delay an evaluation in which variable `id` stands for its own result. -/
def delayRec (h : Heap) (id : VarId) (tree : Tree) (env : Env) : Slot × Heap :=
  h.delay tree (.bind id (.delayed h.cells.size) env)

def start (h : Heap) (loc : Nat) : Heap :=
  { h with cells := h.cells.modify loc fun cell => ⟨.running, cell.runs + 1⟩ }

def finish (h : Heap) (loc : Nat) (result : Except EvalError Value) : Heap :=
  { h with cells := h.cells.modify loc fun cell => ⟨.finished result, cell.runs⟩ }

def runs (h : Heap) : Slot → Nat
  | .ready _ => 0
  | .delayed loc => (h.cells[loc]?.map Cell.runs).getD 0

def slotText (h : Heap) : Slot → String
  | .ready v => v.text
  | .delayed loc =>
      match h.cells[loc]?.map Cell.progress with
      | some (.finished (.ok v)) => v.text
      | some (.finished (.error e)) => "<failed: " ++ e.message ++ ">"
      | _ => "<delayed>"

end Heap

end ExprTree

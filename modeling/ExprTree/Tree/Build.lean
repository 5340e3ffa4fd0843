import ExprTree.Tree
/-!
# Builders

One builder for each construct of the language. The types that a symbol carries
are read off its arguments, and arguments that do not fit are a fault.
-/

namespace ExprTree.Build

/-- The symbol `s` over `args`; a type error becomes a fault of the builder. -/
def construct (s : Symbol) (args : List Tree) : Except Fault Tree :=
  match Tree.apply s args with
  | .error (.typeError cause) => .error (.illTyped cause)
  | result => result

def int (n : Int64) : Tree :=
  .leaf (.int n)

def bool (b : Bool) : Tree :=
  .leaf (.bool b)

def var (id : VarId) (ty : Ty) : Tree :=
  .leaf (.var id ty)

def arith (op : ArithOp) (a b : Tree) : Except Fault Tree :=
  construct (.arith op) [a, b]

def compare (op : CompareOp) (a b : Tree) : Except Fault Tree :=
  construct (.compare op) [a, b]

def negation (a : Tree) : Except Fault Tree :=
  construct .negation [a]

def conjunction (a b : Tree) : Except Fault Tree :=
  construct .conjunction [a, b]

/-- Choice between two expressions; the first of them fixes the type. -/
def cond (test thenBranch elseBranch : Tree) : Except Fault Tree :=
  construct (.cond thenBranch.resultType) [test, thenBranch, elseBranch]

def lambda (id : VarId) (arg : Ty) (body : Tree) : Except Fault Tree :=
  construct (.lambda id arg body.resultType) [body]

def letIn (id : VarId) (bound body : Tree) : Except Fault Tree := do
  let func ← lambda id bound.resultType body
  construct (.letIn bound.resultType body.resultType) [bound, func]

def call (func arg : Tree) : Except Fault Tree :=
  match func.resultType with
  | .fn argTy resultTy => construct (.call argTy resultTy) [func, arg]
  | ty => .error (.notCallable ty)

end ExprTree.Build

/-!
# Types

The types of expressions: truth values, integers, and functions between them,
with their written form and their order.
-/

namespace ExprTree

inductive Ty where
  | bool
  | int
  | fn (arg result : Ty)
deriving DecidableEq, Inhabited

namespace Ty

def isFn : Ty → Bool
  | bool => false
  | int => false
  | fn _ _ => true

/-- Written form. Arrows associate to the right, so only a function that stands
as an argument is put in parentheses. -/
def text : Ty → String
  | bool => "Bool"
  | int => "Int"
  | fn arg result =>
      (if arg.isFn then "(" ++ arg.text ++ ")" else arg.text) ++ " -> " ++ result.text

/-- Truth values come before integers and integers before functions; functions
are ordered by argument, then by result. -/
def order : Ty → Ty → Ordering
  | bool, bool => .eq
  | bool, _ => .lt
  | int, bool => .gt
  | int, int => .eq
  | int, fn _ _ => .lt
  | fn a r, fn b s => (a.order b).then (r.order s)
  | fn _ _, _ => .gt

end Ty

structure Signature where
  args : List Ty
  result : Ty
deriving DecidableEq, Inhabited

def Signature.arity (sig : Signature) : Nat :=
  sig.args.length

end ExprTree

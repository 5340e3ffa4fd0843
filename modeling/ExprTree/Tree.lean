import ExprTree.Symbol
/-!
# Trees

An expression is a symbol applied to arguments one at a time. The chain of
applications from a tree to its head is its *spine*; a tree whose head still
misses arguments is *partial*, otherwise it is *full*.

`Tree.app` is the checked way to extend a tree by an argument. `Tree.reapply`
is for passes that put back together what they took apart.
-/

namespace ExprTree

/-- An expression. Its number of symbols is kept at every node, since a tree
that shares its parts can be far larger than the memory it takes. -/
inductive Tree where
  | leaf (symbol : Symbol)
  | node (func arg : Tree)
with
  /-- Number of symbols. -/
  @[computed_field] size : Tree → Nat
    | .leaf _ => 1
    | .node func arg => func.size + arg.size

namespace Tree

instance : Inhabited Tree := ⟨.leaf default⟩

/-- Equality of trees. Shared trees and trees of different size are told apart
without a walk. -/
def decEq (a b : Tree) : Decidable (a = b) :=
  withPtrEqDecEq a b fun _ =>
    if hsize : a.size = b.size then
      match a, b with
      | .leaf s, .leaf t =>
          if h : s = t then isTrue (by rw [h]) else isFalse (by simp [h])
      | .node f x, .node g y =>
          match decEq f g with
          | isFalse h => isFalse (by simp [h])
          | isTrue hfunc =>
              match decEq x y with
              | isFalse h => isFalse (by simp [h])
              | isTrue harg => isTrue (by rw [hfunc, harg])
      | .leaf _, .node _ _ => isFalse (by simp)
      | .node _ _, .leaf _ => isFalse (by simp)
    else
      isFalse fun h => hsize (by rw [h])

instance : DecidableEq Tree := decEq

/-! ## The spine -/

def head : Tree → Symbol
  | leaf s => s
  | node func _ => func.head

def applied : Tree → Nat
  | leaf _ => 0
  | node func _ => func.applied + 1

def args : Tree → List Tree
  | leaf _ => []
  | node func arg => func.args ++ [arg]

def signature (t : Tree) : Signature :=
  t.head.signature

def resultType (t : Tree) : Ty :=
  t.signature.result

def nextArg? (t : Tree) : Option Ty :=
  t.signature.args[t.applied]?

def missing (t : Tree) : Nat :=
  t.signature.arity - t.applied

def isFull (t : Tree) : Bool :=
  t.nextArg?.isNone

def isLeaf : Tree → Bool
  | leaf _ => true
  | node _ _ => false

def isLiteral : Tree → Bool
  | leaf s => s.isLiteral
  | node _ _ => false

end Tree

/-! ## Construction -/

inductive TypeError where
  /-- All arguments of `head` are there already. -/
  | tooManyArgs (head : Symbol)
  /-- The argument itself misses arguments. -/
  | partialArg (head : Symbol) (index missing : Nat)
  | argMismatch (head : Symbol) (index : Nat) (found expected : Ty)
deriving DecidableEq

def TypeError.message : TypeError → String
  | tooManyArgs head =>
      "`" ++ head.name ++ "` takes " ++ toString head.signature.arity
        ++ " argument(s) but was applied to more"
  | partialArg head index missing =>
      "argument " ++ toString index ++ " of `" ++ head.name
        ++ "` is a partial application still missing " ++ toString missing ++ " argument(s)"
  | argMismatch head index found expected =>
      "argument " ++ toString index ++ " of `" ++ head.name ++ "` has type " ++ found.text
        ++ ", expected " ++ expected.text

inductive Fault where
  /-- A checked application was refused. -/
  | typeError (cause : TypeError)
  /-- A builder of whole expressions was given parts that do not fit. -/
  | illTyped (cause : TypeError)
  /-- A call was built of an expression that is no function. -/
  | notCallable (ty : Ty)
  /-- A pass put together parts that do not fit. -/
  | misfit (head : Symbol)
  /-- A size, a count or a variable id left the range of machine words. -/
  | overflow
  /-- Evaluation inside a pass was cut off. -/
  | outOfFuel
deriving DecidableEq

def Fault.message : Fault → String
  | typeError cause => cause.message
  | illTyped cause => "ill-typed tree: " ++ cause.message
  | notCallable ty => "cannot apply a tree of type " ++ ty.text
  | misfit head => "ill-typed rebuild of `" ++ head.name ++ "`"
  | overflow => "a number left the range of machine words"
  | outOfFuel => "evaluation was cut off"

/-- A machine word, unless it is too large for one. -/
def word (n : Nat) : Except Fault Nat :=
  if n < wordLimit then .ok n else .error .overflow

namespace Tree

/-- Application without a look at types; only the size is checked. -/
def join (func arg : Tree) : Except Fault Tree :=
  if func.size + arg.size < wordLimit then .ok (node func arg) else .error .overflow

/-- Extend `func` by one argument, which has to be full and of the expected type. -/
def app (func arg : Tree) : Except Fault Tree :=
  match func.nextArg? with
  | none => .error (.typeError (.tooManyArgs func.head))
  | some expected =>
      if !arg.isFull then
        .error (.typeError (.partialArg func.head func.applied arg.missing))
      else if arg.resultType ≠ expected then
        .error (.typeError (.argMismatch func.head func.applied arg.resultType expected))
      else
        join func arg

/-- Extend `func` by an argument that a pass knows to fit. -/
def reapply (func arg : Tree) : Except Fault Tree :=
  if arg.isFull && func.nextArg? == some arg.resultType then
    join func arg
  else
    .error (.misfit func.head)

def apply (s : Symbol) (args : List Tree) : Except Fault Tree :=
  args.foldlM app (leaf s)

def reassemble (s : Symbol) (args : List Tree) : Except Fault Tree :=
  args.foldlM reapply (leaf s)

end Tree

end ExprTree

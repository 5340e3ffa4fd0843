import ExprTree.Tree
import ExprTree.VarSet
/-!
# Variables of a tree

Which symbols refer to variables and which bind them is decided by a `Binders`
value, so that analyses can be run on a language with other binding symbols.
A binding symbol binds its variable in its argument, and only there.
-/

namespace ExprTree

/-- Recognition of variable references and of binding symbols. -/
structure Binders where
  reference? : Symbol → Option VarId
  lambda? : Symbol → Option VarId

def Symbol.reference? : Symbol → Option VarId
  | var id _ => some id
  | _ => none

def Symbol.lambda? : Symbol → Option VarId
  | lambda id _ _ => some id
  | _ => none

def Binders.standard : Binders :=
  ⟨Symbol.reference?, Symbol.lambda?⟩

namespace Tree

variable (b : Binders)

/-- The variable that is bound in an argument of this tree: there is one only
for a bare binding symbol. -/
def binder? : Tree → Option VarId
  | leaf s => b.lambda? s
  | node _ _ => none

def freeVars : Tree → VarSet
  | leaf s =>
      match b.reference? s with
      | some id => .singleton id
      | none => .empty
  | node func arg =>
      match func.binder? b with
      | some id => (arg.freeVars).erase id
      | none => func.freeVars ∪ arg.freeVars

/-- Whether a variable of `vars` is referred to, free or bound. -/
def refersTo (vars : VarSet) : Tree → Bool
  | leaf s =>
      match b.reference? s with
      | some id => decide (id ∈ vars)
      | none => false
  | node func arg => func.refersTo vars || arg.refersTo vars

def largestVar? : Tree → Option VarId
  | leaf s => b.reference? s <|> b.lambda? s
  | node func arg =>
      match func.largestVar?, arg.largestVar? with
      | some x, some y => some (max x y)
      | some x, none => some x
      | none, y => y

def firstUnused (t : Tree) : Except Fault VarId :=
  match t.largestVar? b with
  | some id => word (id + 1)
  | none => .ok 0

end Tree

structure Supply where
  next : VarId
deriving DecidableEq, Inhabited

/-- Take the next variable. The source has to be able to move past it. -/
def Supply.fresh (s : Supply) : Except Fault (VarId × Supply) := do
  let next ← word (s.next + 1)
  return (s.next, ⟨next⟩)

/-- Take `n` variables; if they run out, those taken before are gone. -/
def Supply.freshMany (s : Supply) : Nat → Except Fault (List VarId) × Supply
  | 0 => (.ok [], s)
  | n + 1 =>
      match s.fresh with
      | .error fault => (.error fault, s)
      | .ok (id, s) =>
          let (rest, s) := s.freshMany n
          (rest.map (id :: ·), s)

end ExprTree

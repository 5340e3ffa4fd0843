import ExprTree.Ty
/-!
# Symbols

The symbols that stand at the head of expressions: literals, operators,
conditions, variables and the binding constructs. Symbols carry the types that
their position needs, so each has one signature.
-/

namespace ExprTree

abbrev VarId := Nat

/-- Variable ids and tree sizes are machine words: they stay below this limit,
the 64th power of two. -/
def wordLimit : Nat := 18446744073709551616

inductive ArithOp where
  | add
  | sub
  | mul
  | div
deriving DecidableEq, Inhabited

inductive CompareOp where
  | eq
  | lt
deriving DecidableEq, Inhabited

inductive Symbol where
  | int (n : Int64)
  | bool (b : Bool)
  | arith (op : ArithOp)
  | compare (op : CompareOp)
  | negation
  | conjunction
  /-- Choice between two expressions of type `ty`. -/
  | cond (ty : Ty)
  /-- A reference to variable `id`, taken to have type `ty`. -/
  | var (id : VarId) (ty : Ty)
  /-- A function whose parameter is variable `id`. -/
  | lambda (id : VarId) (arg result : Ty)
  /-- Binding of a delayed expression, handed to a function. -/
  | letIn (bound body : Ty)
  /-- Call of a function with an evaluated argument. -/
  | call (arg result : Ty)
deriving DecidableEq, Inhabited

def ArithOp.name : ArithOp → String
  | add => "+"
  | sub => "-"
  | mul => "*"
  | div => "/"

def CompareOp.name : CompareOp → String
  | eq => "=="
  | lt => "<"

def boolText (b : Bool) : String :=
  if b then "true" else "false"

def intText (n : Int64) : String :=
  toString n.toInt

namespace Symbol

def name : Symbol → String
  | int n => intText n
  | bool b => boolText b
  | arith op => op.name
  | compare op => op.name
  | negation => "not"
  | conjunction => "and"
  | cond _ => "if"
  | var id _ => "v" ++ toString id
  | lambda id _ _ => "\\v" ++ toString id ++ " ->"
  | letIn _ _ => "let"
  | call _ _ => "$"

/-- The types that the symbol carries, after its name; nothing for symbols
whose signature is fixed. -/
def annotation? : Symbol → Option String
  | cond ty => some ("if " ++ ty.text)
  | var id ty => some ("v" ++ toString id ++ " " ++ ty.text)
  | lambda id arg result =>
      some ("\\v" ++ toString id ++ " " ++ arg.text ++ ", " ++ result.text)
  | letIn bound body => some ("let " ++ bound.text ++ ", " ++ body.text)
  | call arg result => some ("$ " ++ arg.text ++ ", " ++ result.text)
  | _ => none

def signature : Symbol → Signature
  | int _ => ⟨[], .int⟩
  | bool _ => ⟨[], .bool⟩
  | arith _ => ⟨[.int, .int], .int⟩
  | compare _ => ⟨[.int, .int], .bool⟩
  | negation => ⟨[.bool], .bool⟩
  | conjunction => ⟨[.bool, .bool], .bool⟩
  | cond ty => ⟨[.bool, ty, ty], ty⟩
  | var _ ty => ⟨[], ty⟩
  | lambda _ arg result => ⟨[result], .fn arg result⟩
  | letIn bound body => ⟨[bound, .fn bound body], body⟩
  | call arg result => ⟨[.fn arg result, arg], result⟩

def isLiteral : Symbol → Bool
  | int _ => true
  | bool _ => true
  | _ => false

end Symbol

end ExprTree

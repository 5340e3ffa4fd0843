import ExprTree.Proofs.TestFailure
import ExprTree.Proofs.Typing
/-!
# The meaning of trees

The value of a tree as a mathematical object: an integer, a truth value or a
function of delayed arguments, or else a failure with its mark. Well-annotated
full trees have a meaning at their type, by recursion on the tree and without
evaluation: one equation for each construct.
-/

namespace ExprTree

/-- What a value of a type is. Functions take delayed arguments, which may fail. -/
def Ty.Carrier : Ty → Type
  | bool => Bool
  | int => Int64
  | fn arg result => Except Failure arg.Carrier → Except Failure result.Carrier

abbrev Meaning (ty : Ty) := Except Failure ty.Carrier

def Curried : List Ty → Ty → Type
  | [], ty => Meaning ty
  | arg :: args, ty => Meaning arg → Curried args ty

/-- The meaning given to trees at types they do not have. -/
def Curried.stuck : (args : List Ty) → (ty : Ty) → Curried args ty
  | [], _ => .error (.plain (.unsaturated ""))
  | _ :: args, ty => fun _ => stuck args ty

abbrev Valuation := VarId → (ty : Ty) → Meaning ty

def Valuation.set (ρ : Valuation) (id : VarId) (ty : Ty) (m : Meaning ty) : Valuation :=
  fun x ty' =>
    if x = id then
      if h : ty = ty' then h ▸ m else Curried.stuck [] ty'
    else
      ρ x ty'

/-- What a symbol stands for. A condition marks the failures of its test. A
function symbol without its body stands for nothing. -/
def Symbol.denotation (ρ : Valuation) : (s : Symbol) → Curried s.signature.args s.signature.result
  | int n => (.ok n : Meaning .int)
  | bool b => (.ok b : Meaning .bool)
  | arith op => fun (a b : Meaning .int) => (do
      let m ← a
      let n ← b
      (op.eval m n).mapError Failure.plain : Meaning .int)
  | compare op => fun (a b : Meaning .int) => (do
      let m ← a
      let n ← b
      return op.eval m n : Meaning .bool)
  | negation => fun (a : Meaning .bool) => (do
      let p : Bool ← a
      return !p : Meaning .bool)
  | conjunction => fun (a b : Meaning .bool) => (do
      let p : Bool ← a
      let q : Bool ← b
      return p && q : Meaning .bool)
  | cond ty => fun (test : Meaning .bool) (a b : Meaning ty) => (do
      let p : Bool ← markTest test
      if p then a else b : Meaning ty)
  | var id ty => ρ id ty
  | lambda _ arg result => Curried.stuck [result] (.fn arg result)
  | letIn bound body => fun (x : Meaning bound) (func : Meaning (.fn bound body)) => (do
      let f ← func
      f x : Meaning body)
  | call arg result => fun (func : Meaning (.fn arg result)) (x : Meaning arg) => (do
      let f ← func
      let y ← x
      f (.ok y) : Meaning result)

def Symbol.meaning (ρ : Valuation) (s : Symbol) (args : List Ty) (ty : Ty) : Curried args ty :=
  if h : s.signature = ⟨args, ty⟩ then
    cast (by rw [h]) (s.denotation ρ)
  else
    Curried.stuck args ty

def Curried.function : (args : List Ty) → (ty : Ty) →
    ((arg result : Ty) → Meaning arg → Meaning result) → Curried args ty
  | [], .fn arg result, body => (.ok (body arg result) : Meaning (.fn arg result))
  | args, ty, _ => stuck args ty

theorem Curried.function_congr {args : List Ty} {A B : Ty}
    {f g : (arg result : Ty) → Meaning arg → Meaning result} (h : ∀ m, f A B m = g A B m) :
    function args (.fn A B) f = function args (.fn A B) g := by
  cases args with
  | nil => exact congrArg Except.ok (funext h)
  | cons a args => rfl

/-- What a tree stands for, at the types of its missing arguments and of its result. -/
def Tree.meaning : Tree → Valuation → (args : List Ty) → (ty : Ty) → Curried args ty
  | leaf s, ρ, args, ty => s.meaning ρ args ty
  | node func arg, ρ, args, ty =>
      match func.binder? .standard with
      | some id =>
          Curried.function args ty fun a r m => arg.meaning (ρ.set id a m) [] r
      | none =>
          func.meaning ρ (arg.resultType :: args) ty (arg.meaning ρ [] arg.resultType)

def Tree.value (t : Tree) (ρ : Valuation) (ty : Ty) : Meaning ty :=
  t.meaning ρ [] ty

namespace Valuation

variable (ρ : Valuation) (id : VarId) {ty : Ty} (m : Meaning ty)

@[simp] theorem set_same : ρ.set id ty m id ty = m := by
  simp [set]

theorem set_other {x : VarId} (h : x ≠ id) (ty' : Ty) : ρ.set id ty m x ty' = ρ x ty' := by
  simp [set, h]

end Valuation

namespace Tree

theorem meaning_node {func arg : Tree} (h : func.binder? .standard = none) (ρ : Valuation)
    (args : List Ty) (ty : Ty) :
    (node func arg).meaning ρ args ty =
      func.meaning ρ (arg.resultType :: args) ty (arg.value ρ arg.resultType) := by
  simp only [meaning, h]
  rfl

theorem meaning_binder {func body : Tree} {id : VarId} (h : func.binder? .standard = some id)
    (ρ : Valuation) (args : List Ty) (ty : Ty) :
    (node func body).meaning ρ args ty =
      Curried.function args ty fun a r m => body.value (ρ.set id a m) r := by
  simp only [meaning, h]
  rfl

theorem meaning_function_congr {func body body' : Tree} {id : VarId} {ρ : Valuation}
    (hfunc : func.binder? .standard = some id) (hnext : func.nextArg? = some body.resultType)
    (h : ∀ ty m, body'.value (ρ.set id ty m) body.resultType =
      body.value (ρ.set id ty m) body.resultType) (args : List Ty) :
    (node func body').meaning ρ args func.resultType =
      (node func body).meaning ρ args func.resultType := by
  obtain ⟨A, B, rfl⟩ := binder?_eq_some hfunc
  obtain rfl : B = body.resultType := Option.some.inj hnext
  rw [meaning_binder hfunc, meaning_binder hfunc]
  exact Curried.function_congr (h A)

end Tree

/-! ## The meaning of each construct -/

theorem Symbol.meaning_self (ρ : Valuation) (s : Symbol) :
    s.meaning ρ s.signature.args s.signature.result = s.denotation ρ := by
  simp [Symbol.meaning]

namespace Tree

variable (ρ : Valuation) {test a b : Tree} {A B ty : Ty}

theorem value_int (n : Int64) : (leaf (.int n)).value ρ .int = .ok n :=
  Symbol.meaning_self ρ (.int n)

theorem value_bool (p : Bool) : (leaf (.bool p)).value ρ .bool = .ok p :=
  Symbol.meaning_self ρ (.bool p)

theorem value_var (id : VarId) (ty : Ty) : (leaf (.var id ty)).value ρ ty = ρ id ty :=
  Symbol.meaning_self ρ (.var id ty)

theorem value_lambda {body : Tree} (id : VarId) (A B : Ty) :
    (node (leaf (.lambda id A B)) body).value ρ (.fn A B) =
      .ok fun m => body.value (ρ.set id A m) B :=
  rfl

theorem value_two {s : Symbol} (hs : s.lambda? = none) (ha : a.resultType = A)
    (hb : b.resultType = B) :
    (node (node (leaf s) a) b).value ρ ty =
      s.meaning ρ [A, B] ty (a.value ρ A) (b.value ρ B) := by
  subst ha hb
  have hleaf : (leaf s).binder? .standard = none := hs
  rw [value, meaning_node rfl, meaning_node hleaf, meaning]

theorem value_arith (op : ArithOp) (ha : a.resultType = .int) (hb : b.resultType = .int) :
    (node (node (leaf (.arith op)) a) b).value ρ .int = (do
      let m ← a.value ρ .int
      let n ← b.value ρ .int
      (op.eval m n).mapError Failure.plain : Meaning .int) := by
  rw [value_two ρ rfl ha hb]
  exact congrFun (congrFun (Symbol.meaning_self ρ (.arith op)) _) _

theorem value_compare (op : CompareOp) (ha : a.resultType = .int) (hb : b.resultType = .int) :
    (node (node (leaf (.compare op)) a) b).value ρ .bool = (do
      let m ← a.value ρ .int
      let n ← b.value ρ .int
      return op.eval m n : Meaning .bool) := by
  rw [value_two ρ rfl ha hb]
  exact congrFun (congrFun (Symbol.meaning_self ρ (.compare op)) _) _

theorem value_negation (ha : a.resultType = .bool) :
    (node (leaf .negation) a).value ρ .bool = (do
      let p : Bool ← a.value ρ .bool
      return !p : Meaning .bool) := by
  rw [value, meaning_node rfl, ha]
  exact congrFun (Symbol.meaning_self ρ .negation) _

theorem value_conjunction (ha : a.resultType = .bool) (hb : b.resultType = .bool) :
    (node (node (leaf .conjunction) a) b).value ρ .bool = (do
      let p : Bool ← a.value ρ .bool
      let q : Bool ← b.value ρ .bool
      return p && q : Meaning .bool) := by
  rw [value_two ρ rfl ha hb]
  exact congrFun (congrFun (Symbol.meaning_self ρ .conjunction) _) _

theorem value_cond (htest : test.resultType = .bool) (ha : a.resultType = ty)
    (hb : b.resultType = ty) :
    (node (node (node (leaf (.cond ty)) test) a) b).value ρ ty = (do
      let p : Bool ← markTest (test.value ρ .bool)
      if p then a.value ρ ty else b.value ρ ty : Meaning ty) := by
  subst ha
  rw [value, meaning_node rfl, meaning_node rfl, meaning_node rfl, htest, hb]
  exact congrFun (congrFun (congrFun (Symbol.meaning_self ρ (.cond _)) _) _) _

theorem value_letIn (ha : a.resultType = A) (hb : b.resultType = .fn A B) :
    (node (node (leaf (.letIn A B)) a) b).value ρ B = (do
      let f ← b.value ρ (.fn A B)
      f (a.value ρ A) : Meaning B) := by
  rw [value_two ρ rfl ha hb]
  exact congrFun (congrFun (Symbol.meaning_self ρ (.letIn A B)) _) _

theorem value_call (ha : a.resultType = .fn A B) (hb : b.resultType = A) :
    (node (node (leaf (.call A B)) a) b).value ρ B = (do
      let f ← a.value ρ (.fn A B)
      let x ← b.value ρ A
      f (.ok x) : Meaning B) := by
  rw [value_two ρ rfl ha hb]
  exact congrFun (congrFun (Symbol.meaning_self ρ (.call A B)) _) _

end Tree

end ExprTree

import ExprTree.Evaluation.Fuel
/-!
# The forms that evaluation tells apart

An evaluator looks at the head of a tree and at its arguments. `Tree.form` is
what it finds there, `Form.step` is what `eval` does with it, and `eval_succ`
says so.
-/

namespace ExprTree

inductive Form where
  /-- Nothing: an argument is missing. -/
  | incomplete (head : Symbol)
  /-- Read a variable. -/
  | read (id : VarId)
  /-- Make a function. -/
  | function (id : VarId) (body : Tree)
  /-- Delay a tree and hand it to a function. -/
  | bind (bound func : Tree)
  /-- Choose between two trees. -/
  | choose (test thenBranch elseBranch : Tree)
  /-- Evaluate all arguments. -/
  | strict (head : Symbol) (args : List Tree)

def Tree.form (t : Tree) : Form :=
  if t.isFull then
    match t.head, t.args with
    | .var id _, _ => .read id
    | .lambda id _ _, [body] => .function id body
    | .letIn _ _, [bound, func] => .bind bound func
    | .cond _, [test, thenBranch, elseBranch] => .choose test thenBranch elseBranch
    | s, args => .strict s args
  else
    .incomplete t.head

/-- Evaluation of a form, with `run` to evaluate trees. -/
def Form.step (run : Tree → Env → EvalM Value) (env : Env) : Form → EvalM Value
  | incomplete s => throw (.unsaturated s.name)
  | read id =>
      match env.get? id with
      | some slot => slot.force run
      | none => throw (.unboundVariable id)
  | function id body => EvalM.closure id body env
  | bind bound func => do
      let slot ← EvalM.delay bound env
      let f ← run func env
      f.call run slot
  | choose test thenBranch elseBranch => do
      let v ← run test env
      if ← v.asBool then run thenBranch env else run elseBranch env
  | strict s args => do
      let values ← args.mapM fun arg => run arg env
      s.denote run values

theorem eval_succ (fuel : Nat) (t : Tree) (env : Env) :
    eval (fuel + 1) t env = t.form.step (eval fuel) env := by
  rw [eval]
  unfold Tree.form
  cases t.isFull with
  | false => rfl
  | true =>
      generalize t.head = s
      generalize t.args = args
      cases s with
      | lambda id a r =>
          rcases args with _ | ⟨_, _ | _⟩ <;> rfl
      | letIn a r =>
          rcases args with _ | ⟨_, _ | ⟨_, _ | _⟩⟩ <;> rfl
      | cond ty =>
          rcases args with _ | ⟨_, _ | ⟨_, _ | ⟨_, _ | _⟩⟩⟩ <;> rfl
      | _ => rfl

end ExprTree

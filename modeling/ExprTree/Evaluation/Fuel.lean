import ExprTree.Evaluation
/-!
# Fuel

More fuel never changes a result: what an evaluation gives with some fuel, it
gives with any larger amount. Every step of the evaluator keeps the order
`EvalM.Le` between computations, and so does the evaluator.
-/

namespace ExprTree

/-- One computation after another: a failure ends both, with the state it left. -/
theorem stateful_bind_apply {ε σ α β : Type} (m : ExceptT ε (StateT σ Option) α)
    (f : α → ExceptT ε (StateT σ Option) β) (s : σ) :
    (m >>= f) s =
      match m s with
      | none => none
      | some (.ok x, s') => f x s'
      | some (.error e, s') => some (.error e, s') := by
  show StateT.bind (m := Option) m (ExceptT.bindCont f) s = _
  simp only [StateT.bind]
  show Option.bind (m s) _ = _
  cases hm : m s with
  | none => rfl
  | some r =>
      obtain ⟨x, s'⟩ := r
      cases x <;> rfl

namespace EvalM

variable {α β : Type}

theorem bind_apply (m : EvalM α) (f : α → EvalM β) (h : Heap) :
    (m >>= f) h =
      match m h with
      | none => none
      | some (.ok x, h') => f x h'
      | some (.error e, h') => some (.error e, h') := by
  rw [stateful_bind_apply]
  rcases m h with _ | ⟨_ | _, _⟩ <;> rfl

/-- Every result of `m` is a result of `m'`. -/
def Le (m m' : EvalM α) : Prop :=
  ∀ ⦃h r⦄, m h = some r → m' h = some r

theorem Le.refl (m : EvalM α) : m.Le m :=
  fun _ _ hm => hm

theorem Le.trans {m m' m'' : EvalM α} (hm : m.Le m') (hm' : m'.Le m'') : m.Le m'' :=
  fun _ _ h => hm' (hm h)

theorem outOfFuel_le (m : EvalM α) : outOfFuel.Le m := by
  intro h r hr
  simp [outOfFuel] at hr

theorem Le.bind {m m' : EvalM α} {f f' : α → EvalM β} (hm : m.Le m') (hf : ∀ x, (f x).Le (f' x)) :
    (m >>= f).Le (m' >>= f') := by
  intro h r hr
  rw [bind_apply] at hr ⊢
  cases hmh : m h with
  | none => simp [hmh] at hr
  | some p =>
      obtain ⟨x, h'⟩ := p
      rw [hmh] at hr
      rw [hm hmh]
      cases x with
      | ok x => exact hf x hr
      | error e => exact hr

theorem Le.mapM {γ : Type} {f f' : γ → EvalM α} (hf : ∀ x, (f x).Le (f' x)) (xs : List γ) :
    (xs.mapM f).Le (xs.mapM f') := by
  induction xs with
  | nil => exact Le.refl _
  | cons x xs ih =>
      simp only [List.mapM_cons]
      exact (hf x).bind fun _ => ih.bind fun _ => Le.refl _

end EvalM

/-! ## Steps of the evaluator -/

variable {run run' : Tree → Env → EvalM Value}

theorem Slot.force_le (hrun : ∀ t env, (run t env).Le (run' t env)) (slot : Slot) :
    (slot.force run).Le (slot.force run') := by
  cases slot with
  | ready v => exact EvalM.Le.refl _
  | delayed loc =>
      intro h r hr
      simp only [Slot.force] at hr ⊢
      split at hr
      · simp only [Option.bind_eq_bind, Option.bind_eq_some_iff] at hr
        obtain ⟨p, hp, hr⟩ := hr
        simp only [Option.bind_eq_bind, hrun _ _ hp, Option.bind_some]
        exact hr
      all_goals exact hr

theorem Value.call_le (hrun : ∀ t env, (run t env).Le (run' t env)) (arg : Slot) (v : Value) :
    (v.call run arg).Le (v.call run' arg) := by
  cases v with
  | closure tag param body env => exact hrun _ _
  | bool b => exact EvalM.Le.refl _
  | int n => exact EvalM.Le.refl _

theorem Symbol.denote_le (hrun : ∀ t env, (run t env).Le (run' t env)) (s : Symbol)
    (args : List Value) : (s.denote run args).Le (s.denote run' args) := by
  unfold Symbol.denote
  split
  case h_8 => exact Value.call_le hrun _ _
  case h_9 => exact Value.call_le hrun _ _
  all_goals exact EvalM.Le.refl _

/-! ## The evaluator -/

theorem eval_le_succ (fuel : Nat) (t : Tree) (env : Env) :
    (eval fuel t env).Le (eval (fuel + 1) t env) := by
  induction fuel generalizing t env with
  | zero => exact EvalM.outOfFuel_le _
  | succ fuel ih =>
      rw [eval, eval]
      split
      · split
        · split
          · exact Slot.force_le ih _
          · exact EvalM.Le.refl _
        · exact EvalM.Le.refl _
        · exact (EvalM.Le.refl _).bind fun _ => (ih _ _).bind fun _ => Value.call_le ih _ _
        · refine (ih _ _).bind fun _ => (EvalM.Le.refl _).bind fun b => ?_
          cases b
          · exact ih _ _
          · exact ih _ _
        · exact (EvalM.Le.mapM (fun _ => ih _ _) _).bind fun _ => Symbol.denote_le ih _ _
      · exact EvalM.Le.refl _

theorem eval_mono {fuel fuel' : Nat} (h : fuel ≤ fuel') (t : Tree) (env : Env) :
    (eval fuel t env).Le (eval fuel' t env) := by
  induction h with
  | refl => exact EvalM.Le.refl _
  | step _ ih => exact ih.trans (eval_le_succ _ t env)

end ExprTree

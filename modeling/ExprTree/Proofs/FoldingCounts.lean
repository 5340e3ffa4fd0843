import ExprTree.Proofs.ConstantFolding
/-!
# Counting the changes of a fold

A folding step carries a count of the changes made so far. It only adds to that
count: what it gives, and how much it adds, do not depend on what was counted
before. So a run is known by its result and the number of its changes.
-/

namespace ExprTree

/-! ## Steps -/

namespace FoldM

variable {α β : Type}

/-- The step gives `x` and makes `k` changes, whatever was counted before. -/
def Yields (m : FoldM α) (x : α) (k : Nat) : Prop :=
  ∀ count, m count = .ok (x, count + k)

/-- What the step gives does not depend on the count, which it only adds to. -/
def Counts (m : FoldM α) : Prop :=
  ∀ ⦃count x count'⦄, m count = .ok (x, count') → ∃ k, count' = count + k ∧ m.Yields x k

theorem bind_eq_ok {m : FoldM α} {f : α → FoldM β} {count : Nat} {p : β × Nat}
    (h : (m >>= f) count = .ok p) : ∃ x i, m count = .ok (x, i) ∧ f x i = .ok p := by
  change (m count >>= fun q => f q.1 q.2) = .ok p at h
  cases hm : m count with
  | error e =>
      rw [hm] at h
      cases h
  | ok q =>
      rw [hm] at h
      exact ⟨q.1, q.2, rfl, h⟩

theorem Yields.unique {m : FoldM α} {x y : α} {i j : Nat} (hx : m.Yields x i) (hy : m.Yields y j) :
    x = y ∧ i = j := by
  have h := (hx 0).symm.trans (hy 0)
  simpa using h

theorem Yields.pure (x : α) : (Pure.pure x : FoldM α).Yields x 0 :=
  fun _ => rfl

theorem Yields.bind {m : FoldM α} {f : α → FoldM β} {x : α} {y : β} {i j : Nat}
    (hm : m.Yields x i) (hf : (f x).Yields y j) : (m >>= f).Yields y (i + j) := by
  intro count
  show (m count >>= fun q => f q.1 q.2) = _
  rw [hm count, ← Nat.add_assoc]
  exact hf (count + i)

namespace Counts

theorem pure (x : α) : (Pure.pure x : FoldM α).Counts := by
  intro count y count' h
  obtain ⟨rfl, rfl⟩ : x = y ∧ count = count' := by simpa using Except.ok.inj h
  exact ⟨0, rfl, fun _ => rfl⟩

theorem lift (m : Except Fault α) : (liftM m : FoldM α).Counts := by
  intro count y count' h
  cases m with
  | error e => cases h
  | ok x =>
      obtain ⟨rfl, rfl⟩ : x = y ∧ count = count' := by simpa using Except.ok.inj h
      exact ⟨0, rfl, fun _ => rfl⟩

theorem record : FoldM.record.Counts := by
  intro count y count' h
  obtain ⟨_, rfl⟩ : () = y ∧ count + 1 = count' := by simpa using Except.ok.inj h
  exact ⟨1, rfl, fun _ => rfl⟩

theorem bind {m : FoldM α} {f : α → FoldM β} (hm : m.Counts) (hf : ∀ x, (f x).Counts) :
    (m >>= f).Counts := by
  intro count y count' h
  obtain ⟨x, _, hx, hy⟩ := bind_eq_ok h
  obtain ⟨i, rfl, hi⟩ := hm hx
  obtain ⟨j, rfl, hj⟩ := hf x hy
  exact ⟨i + j, Nat.add_assoc count i j, hi.bind hj⟩

theorem ite {c : Prop} [Decidable c] {m m' : FoldM α} (hm : m.Counts) (hm' : m'.Counts) :
    (if c then m else m').Counts := by
  split
  · exact hm
  · exact hm'

end Counts

theorem yields_bind_iff {m : FoldM α} {f : α → FoldM β} (hm : m.Counts) (hf : ∀ x, (f x).Counts)
    {y : β} {k : Nat} :
    (m >>= f).Yields y k ↔ ∃ x i j, m.Yields x i ∧ (f x).Yields y j ∧ k = i + j := by
  constructor
  · intro h
    obtain ⟨x, _, hx, hy⟩ := bind_eq_ok (h 0)
    obtain ⟨i, rfl, hi⟩ := hm hx
    obtain ⟨j, hk, hj⟩ := hf x hy
    exact ⟨x, i, j, hi, hj, by omega⟩
  · rintro ⟨x, i, j, hi, hj, rfl⟩
    exact hi.bind hj

theorem yields_pure_iff {x y : α} {k : Nat} : (pure x : FoldM α).Yields y k ↔ y = x ∧ k = 0 := by
  constructor
  · intro h
    obtain ⟨rfl, hk⟩ : x = y ∧ 0 = 0 + k := by simpa using Except.ok.inj (h 0)
    exact ⟨rfl, by omega⟩
  · rintro ⟨rfl, rfl⟩ count
    rfl

theorem yields_lift_bind_iff {m : Except Fault α} {f : α → FoldM β} {y : β} {k : Nat} :
    ((liftM m : FoldM α) >>= f).Yields y k ↔ ∃ x, m = .ok x ∧ (f x).Yields y k := by
  cases m with
  | error e =>
      constructor
      · intro h
        cases h 0
      · rintro ⟨x, hx, _⟩
        cases hx
  | ok x =>
      constructor
      · exact fun h => ⟨x, rfl, h⟩
      · rintro ⟨y, hy, h⟩
        obtain rfl := Except.ok.inj hy
        exact h

theorem yields_record_bind_iff {m : FoldM α} (hm : m.Counts) {y : α} {k : Nat} :
    (record >>= fun _ => m).Yields y k ↔ ∃ j, m.Yields y j ∧ k = 1 + j := by
  have hone : record.Yields () 1 := fun _ => rfl
  rw [yields_bind_iff .record fun _ => hm]
  constructor
  · rintro ⟨_, i, j, hi, hj, rfl⟩
    obtain rfl := (hi.unique hone).2
    exact ⟨j, hj, rfl⟩
  · rintro ⟨j, hj, rfl⟩
    exact ⟨(), 1, j, hone, hj, rfl⟩

theorem yields_record_unless_iff {c : Bool} {x y : α} {k : Nat} :
    (if !c then do record; pure x else pure x : FoldM α).Yields y k
      ↔ y = x ∧ k = if c then 0 else 1 := by
  cases c with
  | true => exact yields_pure_iff
  | false =>
      refine (yields_record_bind_iff (.pure x)).trans ?_
      simp [yields_pure_iff]

end FoldM

/-! ## The pass -/

namespace FoldRules

variable (rules : FoldRules)

theorem finish_counts (head : Symbol) (args : List Tree) (vars : VarSet) :
    (rules.finish head args vars).Counts := by
  unfold finish
  refine (FoldM.Counts.lift _).bind fun rebuilt => .ite ?_ (.pure _)
  refine (FoldM.Counts.lift _).bind fun o => ?_
  cases o with
  | none => exact .pure _
  | some v =>
      simp only
      cases rules.folder rebuilt v with
      | none => exact .pure _
      | some folded => exact .ite (FoldM.Counts.record.bind fun _ => .pure _) (.pure _)

/-- The end of the rule for conditions: folded branches are merged if they are equal. -/
def mergeOrFinish (ty : Ty) (test a b : Tree × VarSet) : FoldM (Tree × VarSet) := do
  if Tree.alphaEq rules.binders a.1 b.1 then
    FoldM.record
    return (a.1, a.2 ∪ b.2)
  else
    rules.finish (.cond ty) [test.1, a.1, b.1] (test.2 ∪ (a.2 ∪ b.2))

def foldBranches (ty : Ty) (test : Tree × VarSet) (a b : Tree) : FoldM (Tree × VarSet) := do
  match ← rules.decided? test.1 test.2 with
  | some taken =>
      FoldM.record
      if taken then rules.fold a else rules.fold b
  | none =>
      if Tree.alphaEq rules.binders a b then
        FoldM.record
        rules.fold a
      else
        let a ← rules.fold a
        let b ← rules.fold b
        rules.mergeOrFinish ty test a b

theorem fold_choice (ty : Ty) (test a b : Tree) :
    rules.fold (.node (.node (.node (.leaf (.cond ty)) test) a) b) = (do
      let test ← rules.fold test
      rules.foldBranches ty test a b : FoldM (Tree × VarSet)) := by
  simp only [fold]
  rfl

theorem mergeOrFinish_counts (ty : Ty) (test a b : Tree × VarSet) :
    (rules.mergeOrFinish ty test a b).Counts :=
  .ite (FoldM.Counts.record.bind fun _ => .pure _) (rules.finish_counts _ _ _)

theorem foldBranches_counts (ty : Ty) (test : Tree × VarSet) {a b : Tree}
    (ha : (rules.fold a).Counts) (hb : (rules.fold b).Counts) :
    (rules.foldBranches ty test a b).Counts := by
  unfold foldBranches
  refine (FoldM.Counts.lift _).bind fun o => ?_
  cases o with
  | some taken => exact FoldM.Counts.record.bind fun _ => .ite ha hb
  | none =>
      refine .ite (FoldM.Counts.record.bind fun _ => ha) ?_
      exact ha.bind fun _ => hb.bind fun _ => rules.mergeOrFinish_counts _ _ _ _

theorem fold_foldArgs_counts :
    (∀ t, (rules.fold t).Counts) ∧ ∀ t, (rules.foldArgs t).Counts := by
  apply fold.mutual_induct
  · intro id ty
    simp only [fold]
    exact .pure _
  · intro s hs
    rw [fold]
    · exact rules.finish_counts _ _ _
    · exact hs
  · intro id arg result body ih
    simp only [fold]
    exact ih.bind fun _ => (FoldM.Counts.lift _).bind fun _ => .pure _
  · intro ty test a b iht iha ihb
    rw [fold_choice]
    exact iht.bind fun _ => rules.foldBranches_counts ty _ iha ihb
  · intro func arg hlambda hcond ihf iha
    rw [fold]
    · exact ihf.bind fun _ => iha.bind fun _ => rules.finish_counts _ _ _
    · exact hlambda
    · exact hcond
  · intro s
    simp only [foldArgs]
    exact .pure _
  · intro func arg ihf iha
    simp only [foldArgs]
    exact ihf.bind fun _ => iha.bind fun _ => .pure _

theorem fold_counts (t : Tree) : (rules.fold t).Counts :=
  rules.fold_foldArgs_counts.1 t

theorem foldArgs_counts (t : Tree) : (rules.foldArgs t).Counts :=
  rules.fold_foldArgs_counts.2 t

end FoldRules

end ExprTree

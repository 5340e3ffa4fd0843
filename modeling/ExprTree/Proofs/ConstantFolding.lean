import ExprTree.Folding
import ExprTree.Proofs.Alpha
import ExprTree.Proofs.Outcomes
import ExprTree.Proofs.Refinement
/-!
# What folding does

Folding takes fuel for the evaluations it makes. Of a full well-annotated tree
these all end, so that one result is given with all fuel from some amount on,
and with less fuel the pass gives either the same result or none.

The result may stand in the place of the tree: values are kept, and failures as
well, unless they are raised in a test.
-/

namespace ExprTree

/-- The folder keeps an expression or puts the literal of its value. -/
def Folder.Faithful (folder : Folder) : Prop :=
  ∀ t v, folder t v = none ∨ folder t v = some t
    ∨ ∃ s, v.literal? = some s ∧ folder t v = some (.leaf s)

/-! ## Steps -/

/-- From every count of changes the step has one result, and it satisfies `P`. -/
def FoldM.Gives {α : Type} (m : Nat → FoldM α) (P : α → Prop) : Prop :=
  ∀ count, Concludes .outOfFuel (Yields False fun p => P p.1) fun fuel => m fuel count

namespace FoldM.Gives

variable {α β : Type} {P : α → Prop} {Q : β → Prop}

theorem pure {x : α} (hx : P x) : FoldM.Gives (fun _ => pure x) P :=
  fun _ => .const hx

theorem bind {m : Nat → FoldM α} {f : Nat → α → FoldM β} (hm : FoldM.Gives m P)
    (hf : ∀ x, P x → FoldM.Gives (fun fuel => f fuel x) Q) :
    FoldM.Gives (fun fuel => m fuel >>= f fuel) Q :=
  fun count => (hm count).bind (fun p hp => hf p.1 hp p.2) fun _ he => he

theorem lift {m : Nat → Except Fault α} {x : α} (hm : Determines m x) :
    FoldM.Gives (fun fuel => liftM (m fuel)) (· = x) :=
  fun count => ⟨.ok (x, count), rfl, hm.bind (.of_eq fun _ => rfl)⟩

theorem mono {P' : α → Prop} {m : Nat → FoldM α} (hm : FoldM.Gives m P) (hP : ∀ x, P x → P' x) :
    FoldM.Gives m P' :=
  fun count => (hm count).mono fun _ hr => Yields.mono hr id fun p => hP p.1

theorem record {m : Nat → FoldM α} (hm : FoldM.Gives m P) :
    FoldM.Gives (fun fuel => FoldM.record >>= fun _ => m fuel) P :=
  fun count => hm (count + 1)

theorem ite {c : Prop} [Decidable c] {m m' : Nat → FoldM α} (hm : c → FoldM.Gives m P)
    (hm' : ¬c → FoldM.Gives m' P) : FoldM.Gives (fun fuel => if c then m fuel else m' fuel) P := by
  by_cases hc : c
  · simpa only [hc, if_true] using hm hc
  · simpa only [hc, if_false] using hm' hc

theorem exists_determines {m : Nat → FoldM α} (hm : FoldM.Gives m P) (count : Nat) :
    ∃ x count', P x ∧ Determines (fun fuel => m fuel count) (x, count') := by
  obtain ⟨r, hr, hdet⟩ := hm count
  obtain ⟨p, rfl, hp⟩ := Yields.exists_ok hr id
  exact ⟨p.1, p.2, hp, hdet⟩

end FoldM.Gives

/-! ## Closed trees -/

theorem Tree.reassemble_args {t : Tree} (hfits : t.Fits) (hsize : t.size < wordLimit) :
    reassemble t.head t.args = .ok t := by
  induction t with
  | leaf s => rfl
  | node f x ihf _ =>
      obtain ⟨hf, _, hfull, hnext⟩ := hfits
      rw [size_node] at hsize
      have hrest : reassemble f.head f.args = .ok f := ihf hf (by omega)
      have hfit : (x.isFull && f.nextArg? == some x.resultType) = true := by simp [hfull, hnext]
      unfold reassemble at hrest ⊢
      rw [head_node, args, List.foldlM_append, hrest]
      show (List.foldlM reapply f [x]) = _
      rw [List.foldlM_cons, reapply, if_pos hfit, join, if_pos hsize]
      rfl

theorem Value.Stands.of_literal {v : Value} {s : Symbol} {ty : Ty} {x : ty.Carrier}
    (hv : v.Stands ty x) (hs : v.literal? = some s) (Γ : Context) :
    Typed Γ (.leaf s) ty ∧ s.reference? = none ∧ ∀ ρ, (Tree.leaf s).value ρ ty = .ok x := by
  obtain ⟨w, v', hread, hv'⟩ := hv
  cases hv' with
  | bool b =>
      cases hread
      obtain rfl : .bool b = s := Option.some.inj hs
      exact ⟨.bool b, rfl, fun ρ => Tree.value_bool ρ b⟩
  | int n =>
      cases hread
      obtain rfl : .int n = s := Option.some.inj hs
      exact ⟨.int n, rfl, fun ρ => Tree.value_int ρ n⟩
  | closure =>
      cases hread
      cases hs

def Tree.DependsOn (t : Tree) (vars : VarSet) : Prop :=
  ∀ x ∈ t.freeVars .standard, x ∈ vars

namespace Tree.DependsOn

variable {t f a : Tree} {vars vars' : VarSet}

theorem leaf {s : Symbol} (hs : s.reference? = none) (vars : VarSet) :
    DependsOn (.leaf s) vars := by
  intro x hx
  simp [freeVars, Binders.standard, hs] at hx

theorem node (hf : f.DependsOn vars) (ha : a.DependsOn vars') :
    DependsOn (.node f a) (vars ∪ vars') := by
  intro x hx
  rw [VarSet.mem_union]
  exact (mem_freeVars_node.1 hx).imp (hf x) fun h => ha x h.1

theorem mono (h : t.DependsOn vars) (hvars : ∀ x ∈ vars, x ∈ vars') : t.DependsOn vars' :=
  fun x hx => hvars x (h x hx)

theorem closed (h : t.DependsOn vars) (hempty : vars.isEmpty = true) (x : VarId) :
    x ∉ t.freeVars .standard :=
  fun hx => VarSet.isEmpty_iff.1 hempty x (h x hx)

end Tree.DependsOn

namespace FoldRules

variable (folder : Folder) {Γ : Context} {t : Tree} {ty : Ty}

theorem value?_of_eval {fuel : Nat} {r : Except Failure Value} {h : Heap}
    (heval : eval fuel t .empty .empty = some (r.mapError Failure.error, h)) :
    value? ⟨.standard, folder, fuel⟩ t = .ok r.toOption := by
  unfold value? evalClosed
  rw [heval]
  cases r <;> rfl

/-- Evaluation of a closed tree ends, with the value or the failure that it stands for, whatever
the variables do. -/
theorem value?_related (ht : Typed Γ t ty) (hclosed : ∀ x, x ∉ t.freeVars .standard) :
    ∃ r : Except Failure Value,
      Determines (fun fuel => value? ⟨.standard, folder, fuel⟩ t) r.toOption
        ∧ ∀ ρ, Related (Value.Stands ty) r (t.value ρ ty) := by
  have ht' : Typed (Env.empty.context Γ) t ty := ht
  obtain ⟨r, hmarked, hstands⟩ := ht'.evaluatesMarked (.empty Γ .empty) ⟨.empty, fun _ => false⟩
  obtain ⟨h', hsettles⟩ := hmarked.evaluates
  refine ⟨r, ⟨?_, fun fuel => ?_⟩, fun ρ => ?_⟩
  · obtain ⟨n, hn⟩ := hsettles
    exact ⟨n, fun fuel hfuel => value?_of_eval folder (hn fuel hfuel)⟩
  · rcases hsettles.eval_cases fuel with heval | heval
    · exact .inl (value?_of_eval folder heval)
    · refine .inr ?_
      show value? _ t = _
      unfold value? evalClosed
      rw [heval]
      rfl
  · have hvalue : t.value ρ ty = t.value Env.empty.valuation ty :=
      Tree.meaning_congr (fun x hx => absurd hx (hclosed x)) [] ty
    rw [hvalue]
    exact hstands

/-- The value found for a closed tree is what it stands for, whatever the variables do. -/
theorem value?_determines (ht : Typed Γ t ty) (hclosed : ∀ x, x ∉ t.freeVars .standard) :
    ∃ o, Determines (fun fuel => value? ⟨.standard, folder, fuel⟩ t) o
      ∧ ∀ v, o = some v → ∃ x, v.Stands ty x ∧ ∀ ρ, t.value ρ ty = .ok x := by
  obtain ⟨r, hdet, hstands⟩ := value?_related folder ht hclosed
  refine ⟨r.toOption, hdet, fun v hv => ?_⟩
  have hvalue : ∀ ρ, t.value ρ ty = t.value Env.empty.valuation ty := fun ρ =>
    Tree.meaning_congr (fun x hx => absurd hx (hclosed x)) [] ty
  have hempty := hstands Env.empty.valuation
  generalize t.value Env.empty.valuation ty = m at hempty hvalue
  cases hempty with
  | error f => cases hv
  | @ok v' x hx =>
      obtain rfl : v' = v := Option.some.inj hv
      exact ⟨x, hx, hvalue⟩

theorem decided?_determines {test : Tree} {vars : VarSet} (ht : Typed Γ test .bool)
    (hvars : test.DependsOn vars) :
    ∃ o, Determines (fun fuel => decided? ⟨.standard, folder, fuel⟩ test vars) o
      ∧ ∀ p, o = some p → ∀ ρ, test.value ρ .bool = .ok p := by
  unfold decided?
  cases hempty : vars.isEmpty with
  | false => exact ⟨none, .of_eq fun _ => rfl, fun p hp => by cases hp⟩
  | true =>
      obtain ⟨o, hdet, hvalue⟩ := value?_determines folder ht (hvars.closed hempty)
      cases o with
      | none => exact ⟨none, hdet.bind (.of_eq fun _ => rfl), fun p hp => by cases hp⟩
      | some v =>
          cases v with
          | bool b =>
              obtain ⟨x, hx, htest⟩ := hvalue _ rfl
              obtain ⟨_, _, hlit⟩ := hx.of_literal rfl Γ
              refine ⟨some b, hdet.bind (.of_eq fun _ => rfl), fun p hp ρ => ?_⟩
              obtain rfl : b = p := Option.some.inj hp
              rw [htest ρ, ← hlit ρ, Tree.value_bool]
          | int n => exact ⟨none, hdet.bind (.of_eq fun _ => rfl), fun p hp => by cases hp⟩
          | closure => exact ⟨none, hdet.bind (.of_eq fun _ => rfl), fun p hp => by cases hp⟩

/-- The tree may stand in the place of `t`, and depends on no other variables than given. -/
def FoldsTo (Γ : Context) (ty : Ty) (t : Tree) (p : Tree × VarSet) : Prop :=
  t.Improves Γ ty p.1 ∧ p.1.DependsOn p.2

theorem FoldsTo.of_literal {u : Tree} (h : t.Improves Γ ty u) {v : Value} {x : ty.Carrier}
    (hv : v.Stands ty x) (hu : ∀ ρ, u.value ρ ty = .ok x) {s : Symbol} (hs : v.literal? = some s)
    (vars : VarSet) : FoldsTo Γ ty t (.leaf s, vars) := by
  obtain ⟨htyped, href, hvalue⟩ := hv.of_literal hs Γ
  have hnone := Tree.DependsOn.leaf href
  refine ⟨⟨h.typed, htyped, ⟨t.size_pos, ?_, fun _ _ => trivial⟩, fun ρ ρ' hρ => ?_⟩, hnone vars⟩
  · exact fun x hx => absurd (hnone .empty x hx) (VarSet.not_mem_empty x)
  · rw [hvalue ρ', ← hu ρ']
    exact h.refines ρ ρ' hρ

theorem finish_gives {folder : Folder} (hfolder : folder.Faithful) {u : Tree} {vars : VarSet}
    (h : t.Improves Γ ty u) (hsize : t.size < wordLimit)
    (hvars : u.DependsOn vars) :
    FoldM.Gives (fun fuel => finish ⟨.standard, folder, fuel⟩ u.head u.args vars)
      (FoldsTo Γ ty t) := by
  have hrebuilt : Tree.reassemble u.head u.args = .ok u :=
    Tree.reassemble_args h.typed'.fits (Nat.lt_of_le_of_lt h.simpler.size_le hsize)
  unfold finish
  refine (FoldM.Gives.lift (.of_eq fun _ => hrebuilt)).bind fun rebuilt hu => ?_
  obtain rfl : u = rebuilt := hu.symm
  cases hempty : vars.isEmpty with
  | false => exact .pure ⟨h, hvars⟩
  | true =>
      obtain ⟨o, hdet, hvalue⟩ := value?_determines folder h.typed' (hvars.closed hempty)
      refine (FoldM.Gives.lift hdet).bind fun o' ho => ?_
      obtain rfl : o = o' := ho.symm
      cases o with
      | none => exact .pure ⟨h, hvars⟩
      | some v =>
          rcases hfolder u v with hkeep | hsame | ⟨s, hs, hput⟩
          · simp only [hkeep]
            exact .pure ⟨h, hvars⟩
          · simp only [hsame]
            exact .ite (fun _ => .record (.pure ⟨h, hvars⟩)) fun _ => .pure ⟨h, hvars⟩
          · simp only [hput]
            obtain ⟨x, hx, hux⟩ := hvalue v rfl
            have hfolds := FoldsTo.of_literal h hx hux hs vars
            exact .ite (fun _ => .record (.pure hfolds)) fun _ => .pure hfolds

theorem fold_one (rules : FoldRules) {s : Symbol} (hs : s.lambda? = none) (a : Tree) :
    rules.fold (.node (.leaf s) a) = (do
      let (a, vars) ← rules.fold a
      rules.finish s [a] (.empty ∪ vars) : FoldM (Tree × VarSet)) := by
  cases s with
  | lambda id arg result => cases hs
  | _ => simp only [fold, foldArgs, Tree.head, pure_bind, List.nil_append]

theorem fold_two (rules : FoldRules) (s : Symbol) (a b : Tree) :
    rules.fold (.node (.node (.leaf s) a) b) = (do
      let (a, vars) ← rules.fold a
      let (b, vars') ← rules.fold b
      rules.finish s [a, b] (.empty ∪ vars ∪ vars') : FoldM (Tree × VarSet)) := by
  simp only [fold, foldArgs, Tree.head, pure_bind, bind_assoc, List.nil_append, List.cons_append]

section

variable {folder : Folder} {s : Symbol} {a b test : Tree} {A B : Ty}

theorem fold_one_gives (hfolder : folder.Faithful) (hs : s.lambda? = none)
    (href : s.reference? = none) (hsize : (Tree.node (.leaf s) a).size < wordLimit)
    (ha : FoldM.Gives (fun fuel => fold ⟨.standard, folder, fuel⟩ a) (FoldsTo Γ A a))
    (hnode : ∀ a', a.Improves Γ A a' →
      (Tree.node (.leaf s) a).Improves Γ ty (.node (.leaf s) a')) :
    FoldM.Gives (fun fuel => fold ⟨.standard, folder, fuel⟩ (.node (.leaf s) a))
      (FoldsTo Γ ty (.node (.leaf s) a)) := by
  simp only [fold_one _ hs]
  refine ha.bind fun ⟨a', vars⟩ ⟨ha', hvars⟩ => ?_
  exact finish_gives hfolder (hnode a' ha') hsize ((Tree.DependsOn.leaf href _).node hvars)

theorem fold_two_gives (hfolder : folder.Faithful) (href : s.reference? = none)
    (hsize : (Tree.node (.node (.leaf s) a) b).size < wordLimit)
    (ha : FoldM.Gives (fun fuel => fold ⟨.standard, folder, fuel⟩ a) (FoldsTo Γ A a))
    (hb : FoldM.Gives (fun fuel => fold ⟨.standard, folder, fuel⟩ b) (FoldsTo Γ B b))
    (hnode : ∀ a' b', a.Improves Γ A a' → b.Improves Γ B b' →
      (Tree.node (.node (.leaf s) a) b).Improves Γ ty (.node (.node (.leaf s) a') b')) :
    FoldM.Gives (fun fuel => fold ⟨.standard, folder, fuel⟩ (.node (.node (.leaf s) a) b))
      (FoldsTo Γ ty (.node (.node (.leaf s) a) b)) := by
  simp only [fold_two]
  refine ha.bind fun ⟨a', vars⟩ ⟨ha', hvars⟩ => hb.bind fun ⟨b', vars'⟩ ⟨hb', hvars'⟩ => ?_
  exact finish_gives hfolder (hnode a' b' ha' hb') hsize
    (((Tree.DependsOn.leaf href _).node hvars).node hvars')

theorem fold_lambda_gives {id : VarId}
    (hsize : (Tree.node (.leaf (.lambda id A B)) a).size < wordLimit)
    (ha : FoldM.Gives (fun fuel => fold ⟨.standard, folder, fuel⟩ a) (FoldsTo (Γ.set id A) B a)) :
    FoldM.Gives (fun fuel => fold ⟨.standard, folder, fuel⟩ (.node (.leaf (.lambda id A B)) a))
      (FoldsTo Γ (.fn A B) (.node (.leaf (.lambda id A B)) a)) := by
  simp only [fold]
  refine ha.bind fun ⟨a', vars⟩ ⟨ha', hvars⟩ => ?_
  have h := ha'.lambda
  have hrebuilt := Tree.reassemble_args h.typed'.fits (Nat.lt_of_le_of_lt h.simpler.size_le hsize)
  refine (FoldM.Gives.lift (.of_eq fun _ => hrebuilt)).bind fun rebuilt hu => ?_
  obtain rfl := hu
  refine .pure ⟨h, fun x hx => ?_⟩
  rw [Tree.freeVars_lambda, VarSet.mem_erase] at hx
  exact VarSet.mem_erase.2 ⟨hvars x hx.1, hx.2⟩

/-- A condition is decided, or its branches are merged before or after they are folded,
or it is rebuilt. -/
theorem fold_cond_gives (hfolder : folder.Faithful) (htest : Typed Γ test .bool)
    (hta : Typed Γ a ty) (htb : Typed Γ b ty)
    (hsize : (Tree.node (.node (.node (.leaf (.cond ty)) test) a) b).size < wordLimit)
    (ht : FoldM.Gives (fun fuel => fold ⟨.standard, folder, fuel⟩ test) (FoldsTo Γ .bool test))
    (ha : FoldM.Gives (fun fuel => fold ⟨.standard, folder, fuel⟩ a) (FoldsTo Γ ty a))
    (hb : FoldM.Gives (fun fuel => fold ⟨.standard, folder, fuel⟩ b) (FoldsTo Γ ty b)) :
    FoldM.Gives
      (fun fuel =>
        fold ⟨.standard, folder, fuel⟩ (.node (.node (.node (.leaf (.cond ty)) test) a) b))
      (FoldsTo Γ ty (.node (.node (.node (.leaf (.cond ty)) test) a) b)) := by
  simp only [fold]
  refine ht.bind fun ⟨test', testVars⟩ ⟨htest', htestVars⟩ => ?_
  obtain ⟨o, hdet, hvalue⟩ := decided?_determines folder htest'.typed' htestVars
  refine (FoldM.Gives.lift hdet).bind fun o' ho => ?_
  obtain rfl : o = o' := ho.symm
  cases o with
  | some p =>
      have hdecided : ∀ c, Tree.Improves Γ ty (if p then a else b) c →
          (Tree.node (.node (.node (.leaf (.cond ty)) test) a) b).Improves Γ ty c :=
        fun c hc => .cond_of_decided htest' (hvalue p rfl) hta htb hc
      refine FoldM.Gives.record ?_
      cases p with
      | true => exact ha.mono fun p hp => ⟨hdecided p.1 hp.1, hp.2⟩
      | false => exact hb.mono fun p hp => ⟨hdecided p.1 hp.1, hp.2⟩
  | none =>
      refine FoldM.Gives.ite (fun hmerge => ?_) fun _ => ?_
      · have hsame : ∀ ρ, b.value ρ ty = a.value ρ ty :=
          fun ρ => (Tree.meaning_eq_of_alphaEq hmerge ρ [] ty).symm
        refine FoldM.Gives.record (ha.mono fun p hp => ⟨?_, hp.2⟩)
        refine .cond_of_branches htest hp.1 htb fun ρ ρ' hρ => ?_
        rw [hsame ρ]
        exact hp.1.refines ρ ρ' hρ
      refine ha.bind fun ⟨a', vars⟩ ⟨ha', hvars⟩ => hb.bind fun ⟨b', vars'⟩ ⟨hb', hvars'⟩ => ?_
      refine FoldM.Gives.ite (c := Tree.alphaEq .standard a' b' = true) (fun hmerge => ?_)
        fun _ => ?_
      · have hsame : ∀ ρ, a'.value ρ ty = b'.value ρ ty :=
          fun ρ => Tree.meaning_eq_of_alphaEq hmerge ρ [] ty
        refine FoldM.Gives.record (.pure ⟨?_, ?_⟩)
        · refine .cond_of_branches htest ha' htb fun ρ ρ' hρ => ?_
          show Refined _ _ (a'.value ρ' ty)
          rw [hsame ρ']
          exact hb'.refines ρ ρ' hρ
        · exact hvars.mono fun x hx => VarSet.mem_union.2 (.inl hx)
      · refine finish_gives hfolder (htest'.cond ha' hb') hsize ?_
        have hhead : (Tree.leaf (.cond ty)).DependsOn .empty := .leaf rfl _
        have hdeps := ((hhead.node htestVars).node hvars).node hvars'
        refine hdeps.mono fun x hx => ?_
        simp only [VarSet.mem_union, VarSet.not_mem_empty, false_or] at hx ⊢
        exact or_assoc.1 hx

end

theorem fold_gives {folder : Folder} (hfolder : folder.Faithful) (ht : Typed Γ t ty)
    (hsize : t.size < wordLimit) :
    FoldM.Gives (fun fuel => fold ⟨.standard, folder, fuel⟩ t) (FoldsTo Γ ty t) := by
  induction ht with
  | int n => exact finish_gives hfolder (.int n) hsize (.leaf rfl _)
  | bool p => exact finish_gives hfolder (.bool p) hsize (.leaf rfl _)
  | var id => exact .pure ⟨.var id, fun x hx => hx⟩
  | negation _ iha =>
      have hs := hsize
      simp only [Tree.size_node] at hs
      exact fold_one_gives hfolder rfl rfl hsize (iha (by omega)) fun _ h => h.negation
  | lambda _ iha =>
      have hs := hsize
      simp only [Tree.size_node] at hs
      exact fold_lambda_gives hsize (iha (by omega))
  | arith op _ _ iha ihb =>
      have hs := hsize
      simp only [Tree.size_node] at hs
      exact fold_two_gives hfolder rfl hsize (iha (by omega)) (ihb (by omega))
        fun _ _ h h' => .arith op h h'
  | compare op _ _ iha ihb =>
      have hs := hsize
      simp only [Tree.size_node] at hs
      exact fold_two_gives hfolder rfl hsize (iha (by omega)) (ihb (by omega))
        fun _ _ h h' => .compare op h h'
  | conjunction _ _ iha ihb =>
      have hs := hsize
      simp only [Tree.size_node] at hs
      exact fold_two_gives hfolder rfl hsize (iha (by omega)) (ihb (by omega))
        fun _ _ h h' => h.conjunction h'
  | letIn _ _ iha ihb =>
      have hs := hsize
      simp only [Tree.size_node] at hs
      exact fold_two_gives hfolder rfl hsize (iha (by omega)) (ihb (by omega))
        fun _ _ h h' => h.letIn h'
  | call _ _ iha ihb =>
      have hs := hsize
      simp only [Tree.size_node] at hs
      exact fold_two_gives hfolder rfl hsize (iha (by omega)) (ihb (by omega))
        fun _ _ h h' => h.call h'
  | cond htest hta htb iht iha ihb =>
      have hs := hsize
      simp only [Tree.size_node] at hs
      exact fold_cond_gives hfolder htest hta htb hsize (iht (by omega)) (iha (by omega))
        (ihb (by omega))

end FoldRules

/-! ## Results -/

/-- Folding has one result, and it may stand in the place of the tree. -/
theorem Tree.fold_determines {folder : Folder} (hfolder : folder.Faithful) {Γ : Context} {t : Tree}
    {ty : Ty} (ht : Typed Γ t ty) (hsize : t.size < wordLimit) :
    ∃ folded : Folded, Determines (fun fuel => t.fold ⟨.standard, folder, fuel⟩) folded
      ∧ t.Improves Γ ty folded.tree := by
  obtain ⟨⟨tree, vars⟩, changes, ⟨himproves, _⟩, hdet⟩ :=
    (FoldRules.fold_gives hfolder ht hsize).exists_determines 0
  exact ⟨⟨tree, vars, changes⟩, hdet.bind (.of_eq fun _ => rfl), himproves⟩

theorem Ty.Refines.eq_of_isFn {ty : Ty} (hty : ty.isFn = false) {x y : ty.Carrier}
    (h : ty.Refines x y) : x = y := by
  cases ty with
  | bool => exact h
  | int => exact h
  | fn A B => cases hty

theorem Tree.Improves.evaluatesMarked {Γ : Context} {ty : Ty} {t t' : Tree} {env : Env}
    {vars : VarSet} (h : t.Improves (env.context Γ) ty t') (hty : ty.isFn = false)
    (henv : env.Assigns Γ vars) :
    ∃ r r', (∀ s, t.EvaluatesMarked env s r) ∧ (∀ s, t'.EvaluatesMarked env s r')
      ∧ Refined Eq r r' := by
  obtain ⟨r, hr, hstands⟩ := h.typed.evaluatesMarked_ground hty henv
  obtain ⟨r', hr', hstands'⟩ := h.typed'.evaluatesMarked_ground hty henv
  refine ⟨r, r', hr, hr', ?_⟩
  have hkept := h.refines _ _ henv.valuation_refines
  generalize t.value env.valuation ty = m at hstands hkept
  generalize t'.value env.valuation ty = m' at hstands' hkept
  cases hkept with
  | ok hxy =>
      obtain rfl := hxy.eq_of_isFn hty
      cases hstands with
      | ok hv =>
          cases hstands' with
          | ok hv' => exact .ok (hv.unique hty hv')
  | error f =>
      cases hstands
      cases hstands'
      exact .error f
  | test m' hf =>
      cases hstands
      exact .test r' hf

theorem Folder.literal_faithful : Folder.literal.Faithful := by
  intro t v
  unfold Folder.literal
  cases v.literal? with
  | none => exact .inl rfl
  | some s => exact .inr (.inr ⟨s, rfl, rfl⟩)

/-- Folding keeps the value of a tree, and its failure unless it is raised in a test. -/
theorem Tree.evaluates_fold {folder : Folder} (hfolder : folder.Faithful) {t : Tree}
    (hbuilt : t.Built) (hfull : t.isFull = true) (hty : t.resultType.isFn = false) {Γ : Context}
    (hann : t.WellAnnotated Γ) :
    ∃ folded : Folded, Determines (fun fuel => t.fold ⟨.standard, folder, fuel⟩) folded
      ∧ ∀ env : Env, env.Assigns Γ (t.freeVars .standard) →
        ∃ r : Except Failure Value, ∀ h : Heap, t.EvaluatesMarked env ⟨h, fun _ => false⟩ r
          ∧ t.Evaluates env h (r.mapError Failure.error)
          ∧ (∀ v, r = .ok v → folded.tree.Evaluates env h (.ok v))
          ∧ ∀ e, r = .error ⟨e, false⟩ → folded.tree.Evaluates env h (.error e) := by
  have htyped := hbuilt.fits.typed hann hfull
  obtain ⟨folded, hdet, _⟩ := t.fold_determines hfolder htyped hbuilt.size_lt
  refine ⟨folded, hdet, fun env henv => ?_⟩
  -- The result does not depend on the context, so it improves the tree in the one of `env`.
  have htyped' := hbuilt.fits.typed (hann.of_assigns henv) hfull
  obtain ⟨folded', hdet', himproves⟩ := t.fold_determines hfolder htyped' hbuilt.size_lt
  obtain rfl := Except.ok.inj (hdet.reaches.unique hdet'.reaches)
  obtain ⟨r, r', hr, hr', hkept⟩ := himproves.evaluatesMarked hty henv
  refine ⟨r, fun h => ⟨hr _, (hr ⟨h, fun _ => false⟩).evaluates, ?_⟩⟩
  have hfolded := (hr' ⟨h, fun _ => false⟩).evaluates
  refine ⟨fun v hv => ?_, fun e he => ?_⟩
  · subst hv
    cases hkept with
    | ok hvw =>
        obtain rfl := hvw
        exact hfolded
  · subst he
    cases hkept with
    | error => exact hfolded
    | test _ htest => cases htest

private def equalBranches : Tree :=
  .node
    (.node
      (.node (.leaf (.cond .int))
        (.node (.node (.leaf (.compare .lt)) (.leaf (.var 0 .int))) (.leaf (.int 1))))
      (.node (.node (.leaf (.arith .add)) (.leaf (.int 1))) (.leaf (.int 2))))
    (.leaf (.int 3))

theorem Tree.evaluates_fold_equalBranches :
    ∃ folded : Folded, folded.tree = .leaf (.int 3)
      ∧ Determines (fun fuel => equalBranches.fold ⟨.standard, .literal, fuel⟩) folded
      ∧ ∃ r : Except Failure Value, ∀ h,
        equalBranches.EvaluatesMarked (.bind 0 (.ready (.int 7)) .empty) ⟨h, fun _ => false⟩ r
          ∧ equalBranches.Evaluates (.bind 0 (.ready (.int 7)) .empty) h
            (r.mapError Failure.error)
          ∧ (∀ v, r = .ok v →
            folded.tree.Evaluates (.bind 0 (.ready (.int 7)) .empty) h (.ok v))
          ∧ ∀ e, r = .error ⟨e, false⟩ →
            folded.tree.Evaluates (.bind 0 (.ready (.int 7)) .empty) h (.error e) := by
  have hann : equalBranches.WellAnnotated fun _ => .int := by decide
  obtain ⟨folded, hdet, hkeeps⟩ :=
    Tree.evaluates_fold Folder.literal_faithful (by decide) rfl rfl hann
  refine ⟨folded, ?_, hdet, hkeeps _ (.bind (.empty _ _) rfl fun _ => rfl)⟩
  have hrun : equalBranches.fold ⟨.standard, .literal, 2⟩ = .ok ⟨.leaf (.int 3), .empty, 2⟩ := rfl
  rcases hdet.2 2 with hok | hout
  · rw [← Except.ok.inj (hrun.symm.trans hok)]
  · exact absurd (hrun.symm.trans hout) (by simp)

end ExprTree

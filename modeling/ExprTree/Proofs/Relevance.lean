import ExprTree.Proofs.ByNeed
import ExprTree.Proofs.FoldingRuns
import ExprTree.Proofs.Interchange
/-!
# What evaluation reads

Evaluation depends on the environment only through the free variables of the
tree: from environments that agree on these variables, two runs of one tree go
the same way. A binding whose variable is not read is one more location on the
heap, and otherwise no step at all.
-/

namespace ExprTree

/-! ## Trees that read only some variables -/

/-- Evaluation of the tree reads only variables of `vars`: they are all variables, or the free ones
are among them. -/
def Tree.ReadsOnly (vars : VarId → Prop) (t : Tree) : Prop :=
  (∀ x, vars x) ∨ t.Fits ∧ ∀ x ∈ t.freeVars .standard, vars x

theorem Tree.ReadsOnly.renamed {vars : VarId → Prop} {t : Tree} (h : t.ReadsOnly vars) :
    t.Renamed (.only vars) t := by
  rcases h with hall | ⟨hfits, hvars⟩
  · exact .same t fun x => ⟨rfl, hall x⟩
  · have hself := alphaEqUnder_self .standard (List.forall_mem_nil _) t
    refine .alpha hfits hfits (fun _ => rfl) hself fun x hx y hxy => ?_
    exact ⟨by simpa [matchVars] using hxy, hvars x hx⟩

/-- Evaluation goes alike in environments that agree on the variables that the tree reads. -/
theorem eval_alike (c : Comparison) (fuel : Nat) {vars : VarId → Prop} {t : Tree} {env env' : Env}
    (ht : t.ReadsOnly vars) (henv : env.Alike c (.only vars) env') :
    (eval fuel t env).Alike c (Value.Alike c) (eval fuel t env') :=
  eval_renamed c fuel ht.renamed henv

/-! ## Environments and heaps to compare -/

def Env.AgreesOn (vars : VarSet) (env env' : Env) : Prop :=
  ∀ id ∈ vars, (∃ v, env.get? id = some (.ready v) ∧ env'.get? id = some (.ready v))
    ∨ env.get? id = none ∧ env'.get? id = none

theorem Env.AgreesOn.alike {vars : VarSet} {env env' : Env} (h : env.AgreesOn vars env') :
    env.Alike .same (.only (· ∈ vars)) env' := by
  refine .intro ?_ ?_ ?_
  · rintro id _ ⟨rfl, hid⟩
    rcases h id hid with ⟨v, hget, hget'⟩ | ⟨hget, hget'⟩
    · rw [hget, hget']
    · rw [hget, hget']
  · rintro id _ ⟨rfl, _⟩ _
    exact ⟨rfl, trivial⟩
  · rintro id _ s s' ⟨rfl, hid⟩ hs hs'
    rcases h id hid with ⟨v, hget, hget'⟩ | ⟨hget, _⟩
    · obtain rfl : .ready v = s := Option.some.inj (hget.symm.trans hs)
      obtain rfl : .ready v = s' := Option.some.inj (hget'.symm.trans hs')
      exact .ready (v.lives_all.alike Comparison.same_fixes)
    · rw [hget] at hs
      cases hs

/-- A heap beside itself, with only new locations compared. -/
def Comparison.fresh (h : Heap) (vars : VarSet) : Comparison :=
  ⟨h.cells.size, 0, fun _ => False, (· ∈ vars)⟩

theorem Heap.progress?_eq_none {h : Heap} {loc : Nat} (hloc : h.cells.size ≤ loc) :
    h.progress? loc = none := by
  cases hp : h.progress? loc with
  | none => rfl
  | some p => exact absurd (lt_size_of_progress? hp) (Nat.not_lt_of_le hloc)

theorem Heap.alike_fresh (h : Heap) (vars : VarSet) : h.Alike (.fresh h vars) h := by
  refine ⟨Nat.le_refl _, rfl, fun loc hloc => ?_⟩
  have hle : h.cells.size ≤ loc := hloc.resolve_right id
  rw [Comparison.place_of_le hle, progress?_eq_none hle,
    progress?_eq_none (Nat.le_add_right_of_le hle)]
  exact .missing

theorem Env.Ground.ready_of_get? {env : Env} (henv : env.Ground) {id : VarId} {slot : Slot}
    (hslot : env.get? id = some slot) :
    (∃ b, slot = .ready (.bool b)) ∨ ∃ n, slot = .ready (.int n) := by
  obtain ⟨ty, hty⟩ := Option.isSome_iff_exists.1 (henv id slot hslot)
  rcases Slot.groundType?_cases hty with ⟨b, hb, _⟩ | ⟨n, hn, _⟩
  · exact .inl ⟨b, hb⟩
  · exact .inr ⟨n, hn⟩

theorem Env.Ground.alike {env : Env} (henv : env.Ground) (h : Heap) (vars : VarSet) :
    env.Alike (.fresh h vars) (.only (· ∈ vars)) env := by
  refine .intro ?_ ?_ ?_
  · rintro id _ ⟨rfl, _⟩
    rfl
  · rintro id _ ⟨rfl, hid⟩ _
    exact ⟨rfl, hid⟩
  · rintro id _ s s' ⟨rfl, _⟩ hs hs'
    obtain rfl : s = s' := Option.some.inj (hs.symm.trans hs')
    rcases henv.ready_of_get? hs with ⟨b, rfl⟩ | ⟨n, rfl⟩
    · exact .ready (.bool b)
    · exact .ready (.int n)

/-- A heap beside the same one with one location more. -/
def Comparison.oneMore (h : Heap) (live : Nat → Prop) : Comparison :=
  ⟨h.cells.size, 1, live, fun _ => True⟩

theorem Heap.Holds.lt_size {h : Heap} {live : Nat → Prop} (hlive : h.Holds live) {loc : Nat}
    (hloc : live loc) : loc < h.cells.size := by
  obtain ⟨p, hp, _⟩ := hlive loc hloc
  exact lt_size_of_progress? hp

theorem Comparison.oneMore_fixes {h : Heap} {live : Nat → Prop} (hlive : h.Holds live) :
    (Comparison.oneMore h live).Fixes live :=
  ⟨fun _ => trivial, fun _ hloc => .inr hloc, fun _ hloc => if_pos (hlive.lt_size hloc)⟩

theorem Heap.Holds.alike_add {h : Heap} {live : Nat → Prop} (hlive : h.Holds live) (p : Progress) :
    h.Alike (.oneMore h live) (h.add p) := by
  refine ⟨Nat.le_refl _, size_add h p, fun loc hloc => ?_⟩
  rw [progress?_add]
  rcases hloc with hle | hloc
  · have hle : h.cells.size ≤ loc := hle
    have hne : loc + 1 ≠ h.cells.size := by omega
    rw [Comparison.place_of_le hle, progress?_eq_none hle]
    show Progress.Alike _ none (if loc + 1 = h.cells.size then some p else h.progress? (loc + 1))
    rw [if_neg hne, progress?_eq_none (Nat.le_succ_of_le hle)]
    exact .missing
  · have hlt := hlive.lt_size hloc
    obtain ⟨q, hq, hqlive⟩ := hlive loc hloc
    rw [(Comparison.oneMore_fixes hlive).place_eq loc hloc, if_neg (Nat.ne_of_lt hlt), hq]
    exact hqlive.alike (Comparison.oneMore_fixes hlive)

/-! ## Bindings that are not read -/

theorem Build.eq_of_letIn {id : VarId} {bound body u : Tree}
    (h : Build.letIn id bound body = .ok u) :
    u = .node (.node (.leaf (.letIn bound.resultType body.resultType)) bound)
      (.node (.leaf (.lambda id bound.resultType body.resultType)) body) := by
  unfold letIn at h
  cases hfunc : Build.lambda id bound.resultType body with
  | error e =>
      rw [hfunc] at h
      cases h
  | ok func =>
      rw [hfunc] at h
      obtain ⟨rfl, _⟩ := eq_of_construct hfunc
      exact (eq_of_construct h).1

def Env.Stored (env : Env) (h : Heap) : Prop :=
  ∃ live, h.Holds live ∧ env.Lives live

theorem Env.Ground.stored {env : Env} (henv : env.Ground) (h : Heap) : env.Stored h := by
  refine ⟨fun _ => False, fun _ => False.elim, .intro fun id slot hslot => ?_⟩
  rcases henv.ready_of_get? hslot with ⟨b, rfl⟩ | ⟨n, rfl⟩
  · exact .ready (.bool b)
  · exact .ready (.int n)

theorem eval_letIn (fuel : Nat) (id : VarId) (A B : Ty) (bound body : Tree) (env : Env) (h : Heap) :
    eval (fuel + 1) (.node (.node (.leaf (.letIn A B)) bound) (.node (.leaf (.lambda id A B)) body))
        env h =
      eval fuel body (.bind id (.delayed h.cells.size) env)
        { h.add (.pending bound env) with nextTag := h.nextTag + 1 } := by
  rw [eval_succ]
  cases fuel with
  | zero => rfl
  | succ fuel => rfl

theorem EvaluateAlike.letIn {t bound u : Tree} {id : VarId} (hfits : t.Fits)
    (hid : id ∉ t.freeVars .standard) (hu : Build.letIn id bound t = .ok u) {env : Env} {h : Heap}
    (henv : env.Stored h) : EvaluateAlike t env h u env h := by
  obtain ⟨live, hlive, henv⟩ := henv
  obtain rfl := Build.eq_of_letIn hu
  refine .of_runs (c := .oneMore h live) 1 fun fuel => ?_
  rw [eval_letIn]
  have hself := henv.alike (Comparison.oneMore_fixes hlive) (· ∈ t.freeVars .standard)
  have hunread : ∀ x, ¬Renaming.only (· ∈ t.freeVars .standard) x id := by
    rintro _ ⟨rfl, hx⟩
    exact hid hx
  exact eval_alike _ fuel (.inr ⟨hfits, fun _ hx => hx⟩)
    (hself.bind_unread hunread (.delayed h.cells.size)) _ _
    ((hlive.alike_add (.pending bound env)).withTags h.nextTag _)

/-! ## Results -/

/-- Evaluation reads nothing but the free variables. What other variables are bound to changes
neither whether it ends nor its result, only a free variable is ever found unbound, and the binding
of a variable that is not free may be left out, whatever it binds. -/
theorem Tree.evaluation_reads_freeVars {t : Tree} (hbuilt : t.Built) :
    (∀ (env env' : Env) (h : Heap), env.AgreesOn (t.freeVars .standard) env' →
      EvaluateAlike t env h t env' h)
    ∧ (∀ (env : Env) (h : Heap) (id : VarId), env.Ground →
      t.Evaluates env h (.error (.unboundVariable id)) → id ∈ t.freeVars .standard)
    ∧ ∀ (id : VarId) (bound u : Tree) (env : Env) (h : Heap), id ∉ t.freeVars .standard →
      Build.letIn id bound t = .ok u → env.Stored h → EvaluateAlike t env h u env h := by
  have hreads : t.ReadsOnly (· ∈ t.freeVars .standard) := .inr ⟨hbuilt.fits, fun _ hx => hx⟩
  refine ⟨fun env env' h hagree => ?_, fun env h id henv hfails => ?_,
    fun id bound u env h hid hu henv => .letIn hbuilt.fits hid hu henv⟩
  · exact .of_runs 0 fun fuel => eval_alike .same fuel hreads hagree.alike h h h.alike_same
  · obtain ⟨h', fuel, heval⟩ := hfails.exists_eval
    have hrun := eval_alike (.fresh h (t.freeVars .standard)) fuel hreads (henv.alike h _) h h
      (h.alike_fresh _)
    rw [heval fuel (Nat.le_refl fuel)] at hrun
    cases hrun with
    | result hr _ =>
        cases hr with
        | error hunbound => exact hunbound id rfl

private def innerSum : Tree :=
  .node (.node (.leaf (.letIn .int .int)) (.leaf (.var 0 .int)))
    (.node (.leaf (.lambda 7 .int .int))
      (.node
        (.node (.leaf (.call .int .int))
          (.node (.leaf (.lambda 1 .int .int))
            (.node (.node (.leaf (.arith .add)) (.leaf (.var 1 .int))) (.leaf (.var 7 .int)))))
        (.leaf (.int 4))))

private def oneByZero : Tree :=
  .node (.node (.leaf (.arith .div)) (.leaf (.int 1))) (.leaf (.int 0))

theorem Tree.evaluation_reads_freeVars_innerSum :
    innerSum.freeVars .standard = .singleton 0
      ∧ innerSum.Evaluates (.bind 0 (.ready (.int 3)) .empty) .empty (.ok (.int 7))
      ∧ EvaluateAlike innerSum (.bind 0 (.ready (.int 3)) .empty) .empty
          innerSum (.bind 7 (.ready (.bool true)) (.bind 0 (.ready (.int 3)) .empty)) .empty
      ∧ innerSum.Evaluates .empty .empty (.error (.unboundVariable 0))
      ∧ (0 : VarId) ∈ innerSum.freeVars .standard
      ∧ oneByZero.Evaluates .empty .empty (.error .divideByZero)
      ∧ ∃ u, Build.letIn 7 oneByZero innerSum = .ok u
        ∧ EvaluateAlike innerSum (.bind 0 (.ready (.int 3)) .empty) .empty
            u (.bind 0 (.ready (.int 3)) .empty) .empty := by
  have hfree : innerSum.freeVars .standard = .singleton 0 := by decide
  have hunbound : innerSum.Evaluates .empty .empty (.error (.unboundVariable 0)) :=
    .of_eval (show eval 6 _ _ _ = _ from rfl)
  obtain ⟨hagree, hfails, hlet⟩ := Tree.evaluation_reads_freeVars (t := innerSum) (by decide)
  refine ⟨hfree, .of_eval (show eval 6 _ _ _ = _ from rfl), hagree _ _ _ fun id hid => ?_,
    hunbound, hfails _ _ _ .empty hunbound, .of_eval (show eval 3 _ _ _ = _ from rfl), _, rfl,
    hlet 7 oneByZero _ _ _ ?_ rfl ?_⟩
  · rw [hfree, VarSet.mem_singleton] at hid
    subst hid
    exact .inl ⟨.int 3, rfl, rfl⟩
  · rw [hfree]
    decide
  · exact (Env.Ground.empty.bind rfl).stored _

end ExprTree

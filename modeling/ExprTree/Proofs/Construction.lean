import Mathlib.Algebra.Order.Ring.Nat
import Mathlib.Data.List.Induction
import ExprTree.Proofs.CodeMotion
import ExprTree.Proofs.FirstOrder
import ExprTree.Proofs.FoldingResults
/-!
# Construction and decomposition

`Tree.apply` puts a symbol over arguments, and `Tree.head` and `Tree.args` take a
tree apart. The checks on the way accept exactly the arguments that fit the
signature, and blame the first one that does not. All trees that operations on
trees give are accepted again when they are taken apart and put together.
-/

namespace ExprTree

/-! ## Arguments that fit -/

/-- The arguments are full and have the first types of the signature. -/
structure Symbol.Accepts (s : Symbol) (args : List Tree) : Prop where
  length_le : args.length ≤ s.signature.arity
  full : ∀ arg ∈ args, arg.isFull = true
  types : ∀ (i : Nat) (arg : Tree), args[i]? = some arg → s.signature.args[i]? = some arg.resultType

/-- Why `s` does not take `arg` as the argument at position `index`: none is left to take, else the
argument is partial, else it has another type. -/
inductive Symbol.Refuses (s : Symbol) (index : Nat) (arg : Tree) : TypeError → Prop where
  | tooManyArgs : s.signature.arity ≤ index → Refuses s index arg (.tooManyArgs s)
  | partialArg : index < s.signature.arity → arg.isFull = false →
      Refuses s index arg (.partialArg s index arg.missing)
  | argMismatch {expected : Ty} : s.signature.args[index]? = some expected → arg.isFull = true →
      arg.resultType ≠ expected →
      Refuses s index arg (.argMismatch s index arg.resultType expected)

theorem Symbol.accepts_nil (s : Symbol) : s.Accepts [] where
  length_le := Nat.zero_le _
  full := by simp
  types := by simp

theorem Symbol.accepts_concat_iff {s : Symbol} {args : List Tree} {a : Tree} :
    s.Accepts (args ++ [a])
      ↔ s.Accepts args ∧ a.isFull = true
        ∧ s.signature.args[args.length]? = some a.resultType := by
  constructor
  · rintro ⟨hlength, hfull, htypes⟩
    rw [List.length_append, List.length_singleton] at hlength
    refine ⟨⟨by omega, fun x hx => hfull x (by simp [hx]), fun i x hx => ?_⟩, hfull a (by simp), ?_⟩
    · have hi := (List.getElem?_eq_some_iff.1 hx).1
      exact htypes i x (by rwa [List.getElem?_append_left hi])
    · exact htypes args.length a (by simp)
  · rintro ⟨⟨_, hfull, htypes⟩, hafull, hatype⟩
    have hlt : args.length < s.signature.args.length := (List.getElem?_eq_some_iff.1 hatype).1
    refine ⟨?_, fun x hx => ?_, fun i x hx => ?_⟩
    · rw [List.length_append, List.length_singleton]
      exact hlt
    · rcases List.mem_append.1 hx with hx | hx
      · exact hfull x hx
      · obtain rfl := List.mem_singleton.1 hx
        exact hafull
    · by_cases hi : i < args.length
      · exact htypes i x (by rwa [List.getElem?_append_left hi] at hx)
      · have hlast : i = args.length := by
          have hi' := (List.getElem?_eq_some_iff.1 hx).1
          rw [List.length_append, List.length_singleton] at hi'
          omega
        subst hlast
        obtain rfl : a = x := by simpa using hx
        exact hatype

namespace Tree

/-! ## Spines -/

def spine (s : Symbol) (args : List Tree) : Tree :=
  args.foldl node (leaf s)

def spineSize (args : List Tree) : Nat :=
  1 + (args.map size).sum

theorem spine_concat (s : Symbol) (args : List Tree) (a : Tree) :
    spine s (args ++ [a]) = node (spine s args) a := by
  rw [spine, List.foldl_append]
  rfl

theorem spineSize_append (args rest : List Tree) :
    spineSize (args ++ rest) = spineSize args + (rest.map size).sum := by
  rw [spineSize, spineSize, List.map_append, List.sum_append]
  omega

@[simp] theorem head_spine (s : Symbol) (args : List Tree) : (spine s args).head = s := by
  induction args using List.reverseRecOn with
  | nil => rfl
  | append_singleton args a ih => rw [spine_concat, head_node, ih]

@[simp] theorem args_spine (s : Symbol) (args : List Tree) : (spine s args).args = args := by
  induction args using List.reverseRecOn with
  | nil => rfl
  | append_singleton args a ih => rw [spine_concat, Tree.args, ih]

theorem applied_eq_length (t : Tree) : t.applied = t.args.length := by
  induction t with
  | leaf s => rfl
  | node f x ihf _ => rw [applied_node, args, List.length_append, ihf, List.length_singleton]

theorem size_eq_spineSize (t : Tree) : t.size = spineSize t.args := by
  induction t with
  | leaf s => rfl
  | node f x ihf _ => rw [size_node, args, spineSize_append, ihf, List.map_singleton,
      List.sum_singleton]

theorem size_spine (s : Symbol) (args : List Tree) : (spine s args).size = spineSize args := by
  rw [size_eq_spineSize, args_spine]

theorem nextArg?_spine (s : Symbol) (args : List Tree) :
    (spine s args).nextArg? = s.signature.args[args.length]? := by
  rw [nextArg?, signature, head_spine, applied_eq_length, args_spine]

/-! ## Application -/

/-- A checked application fails for the reason of its first failing check. -/
theorem app_eq_error_iff {func arg : Tree} {fault : Fault} :
    app func arg = .error fault
      ↔ (∃ e, fault = .typeError e ∧ func.head.Refuses func.applied arg e)
        ∨ fault = .overflow ∧ func.nextArg? = some arg.resultType ∧ arg.isFull = true
          ∧ wordLimit ≤ func.size + arg.size := by
  constructor
  · intro h
    unfold app join at h
    split at h
    · rename_i hnone
      obtain rfl := Except.error.inj h
      exact .inl ⟨_, rfl, .tooManyArgs (List.getElem?_eq_none_iff.1 hnone)⟩
    · rename_i expected hnext
      split at h
      · rename_i hpartial
        obtain rfl := Except.error.inj h
        have hlt := (List.getElem?_eq_some_iff.1 hnext).1
        exact .inl ⟨_, rfl, .partialArg hlt (by simpa using hpartial)⟩
      · rename_i hfull
        split at h
        · rename_i hty
          obtain rfl := Except.error.inj h
          exact .inl ⟨_, rfl, .argMismatch hnext (by simpa using hfull) hty⟩
        · rename_i hty
          split at h
          · cases h
          · rename_i hsize
            obtain rfl := Except.error.inj h
            obtain rfl : arg.resultType = expected := by simpa using hty
            exact .inr ⟨rfl, hnext, by simpa using hfull, Nat.le_of_not_lt hsize⟩
  · rintro (⟨e, rfl, hrefuses⟩ | ⟨rfl, hnext, hfull, hsize⟩)
    · cases hrefuses with
      | tooManyArgs harity =>
          have hnext : func.nextArg? = none := List.getElem?_eq_none_iff.2 harity
          simp [app, hnext]
      | partialArg hlt hpartial =>
          have hnext : func.nextArg? = some _ := List.getElem?_eq_getElem hlt
          simp [app, hnext, hpartial]
      | argMismatch hget hfull hty =>
          have hnext : func.nextArg? = some _ := hget
          simp [app, hnext, hfull, hty]
    · simp [app, join, hnext, hfull, hsize]

theorem apply_concat (s : Symbol) (args : List Tree) (a : Tree) :
    apply s (args ++ [a]) = apply s args >>= fun f => app f a := by
  simp [apply, List.foldlM_append]

theorem apply_eq_ok_iff {s : Symbol} {args : List Tree} {t : Tree} :
    apply s args = .ok t ↔ s.Accepts args ∧ spineSize args < wordLimit ∧ t = spine s args := by
  induction args using List.reverseRecOn generalizing t with
  | nil =>
      have hsize : spineSize [] < wordLimit := size_leaf_lt s
      constructor
      · intro h
        exact ⟨s.accepts_nil, hsize, (Except.ok.inj h).symm⟩
      · rintro ⟨_, _, rfl⟩
        rfl
  | append_singleton args a ih =>
      have hbind : apply s (args ++ [a]) = .ok t
          ↔ ∃ f, apply s args = .ok f ∧ app f a = .ok t := by
        rw [apply_concat]
        cases apply s args with
        | error e => simp [bind, Except.bind]
        | ok f => simp [bind, Except.bind]
      have hsizes : spineSize (args ++ [a]) = spineSize args + a.size := by
        simp [spineSize_append]
      rw [hbind, Symbol.accepts_concat_iff, spine_concat, hsizes]
      constructor
      · rintro ⟨f, hf, happ⟩
        obtain ⟨haccepts, _, rfl⟩ := ih.1 hf
        obtain ⟨ht, hnext, hfull, hsize⟩ := app_eq_ok_iff.1 happ
        rw [nextArg?_spine] at hnext
        rw [size_spine] at hsize
        exact ⟨⟨haccepts, hfull, hnext⟩, hsize, ht⟩
      · rintro ⟨⟨haccepts, hfull, hnext⟩, hsize, ht⟩
        refine ⟨spine s args, ih.2 ⟨haccepts, by omega, rfl⟩, app_eq_ok_iff.2 ⟨ht, ?_, hfull, ?_⟩⟩
        · rwa [nextArg?_spine]
        · rwa [size_spine]

/-- A failing application of several arguments fails at one of them, the ones before it being
applied. -/
theorem apply_eq_error_iff {s : Symbol} {args : List Tree} {fault : Fault} :
    apply s args = .error fault
      ↔ ∃ before a after, args = before ++ a :: after
        ∧ ∃ f, apply s before = .ok f ∧ app f a = .error fault := by
  unfold apply
  generalize leaf s = t
  induction args generalizing t with
  | nil =>
      constructor
      · intro h
        cases h
      · rintro ⟨before, a, after, hargs, _⟩
        simp at hargs
  | cons x args ih =>
      rw [List.foldlM_cons]
      constructor
      · intro h
        cases hx : app t x with
        | error e =>
            rw [hx] at h
            obtain rfl := Except.error.inj h
            exact ⟨[], x, args, rfl, t, rfl, hx⟩
        | ok u =>
            rw [hx] at h
            obtain ⟨before, a, after, rfl, f, hf, happ⟩ := (ih u).1 h
            refine ⟨x :: before, a, after, rfl, f, ?_, happ⟩
            rw [List.foldlM_cons, hx]
            exact hf
      · rintro ⟨before, a, after, hargs, f, hf, happ⟩
        cases before with
        | nil =>
            obtain ⟨rfl, rfl⟩ := List.cons.inj hargs
            obtain rfl := Except.ok.inj hf
            rw [happ]
            rfl
        | cons y before =>
            obtain ⟨rfl, rfl⟩ := List.cons.inj hargs
            rw [List.foldlM_cons] at hf
            cases hx : app t x with
            | error e =>
                rw [hx] at hf
                cases hf
            | ok u =>
                rw [hx] at hf
                exact (ih u).2 ⟨before, a, after, rfl, f, hf, happ⟩

structure Constructs (s : Symbol) (args : List Tree) : Prop where
  succeeds_iff : (∃ t, apply s args = .ok t) ↔ s.Accepts args ∧ spineSize args < wordLimit
  decomposes : ∀ t, apply s args = .ok t →
    t.head = s ∧ t.args = args ∧ t.applied = args.length ∧ t.size = spineSize args
  /-- The arguments before the one to blame are applied. -/
  refused_iff : ∀ e, apply s args = .error (.typeError e)
    ↔ ∃ before arg after, args = before ++ arg :: after ∧ s.Accepts before
      ∧ spineSize before < wordLimit ∧ s.Refuses before.length arg e
  fault_cases : ∀ fault, apply s args = .error fault →
    (∃ e, fault = .typeError e) ∨ fault = .overflow ∧ wordLimit ≤ spineSize args

theorem constructs (s : Symbol) (args : List Tree) : Constructs s args where
  succeeds_iff := by
    constructor
    · rintro ⟨t, ht⟩
      obtain ⟨haccepts, hsize, _⟩ := apply_eq_ok_iff.1 ht
      exact ⟨haccepts, hsize⟩
    · rintro ⟨haccepts, hsize⟩
      exact ⟨_, apply_eq_ok_iff.2 ⟨haccepts, hsize, rfl⟩⟩
  decomposes := by
    intro t ht
    obtain ⟨_, _, rfl⟩ := apply_eq_ok_iff.1 ht
    refine ⟨head_spine s args, args_spine s args, ?_, size_spine s args⟩
    rw [applied_eq_length, args_spine]
  refused_iff := by
    intro e
    rw [apply_eq_error_iff]
    constructor
    · rintro ⟨before, a, after, hargs, f, hf, happ⟩
      obtain ⟨haccepts, hsize, rfl⟩ := apply_eq_ok_iff.1 hf
      rcases app_eq_error_iff.1 happ with ⟨e', he, hrefuses⟩ | ⟨he, _⟩
      · obtain rfl := Fault.typeError.inj he
        rw [head_spine, applied_eq_length, args_spine] at hrefuses
        exact ⟨before, a, after, hargs, haccepts, hsize, hrefuses⟩
      · cases he
    · rintro ⟨before, a, after, hargs, haccepts, hsize, hrefuses⟩
      refine ⟨before, a, after, hargs, spine s before, ?_, ?_⟩
      · exact apply_eq_ok_iff.2 ⟨haccepts, hsize, rfl⟩
      · refine app_eq_error_iff.2 (.inl ⟨e, rfl, ?_⟩)
        rwa [head_spine, applied_eq_length, args_spine]
  fault_cases := by
    intro fault h
    obtain ⟨before, a, after, rfl, f, hf, happ⟩ := apply_eq_error_iff.1 h
    obtain ⟨_, _, rfl⟩ := apply_eq_ok_iff.1 hf
    rcases app_eq_error_iff.1 happ with ⟨e, rfl, _⟩ | ⟨rfl, _, _, hsize⟩
    · exact .inl ⟨e, rfl⟩
    · refine .inr ⟨rfl, ?_⟩
      rw [size_spine] at hsize
      rw [spineSize_append, List.map_cons, List.sum_cons]
      omega

/-- A tree whose applications have been checked passes the checks again. -/
theorem Built.apply_head_args {t : Tree} (h : t.Built) : apply t.head t.args = .ok t := by
  induction t with
  | leaf s => rfl
  | node f x ihf _ =>
      obtain ⟨hf, _, happ⟩ := h
      rw [head_node, args, apply_concat, ihf hf]
      exact happ

theorem Built.missing_add_applied {t : Tree} (h : t.Built) :
    t.missing + t.applied = t.signature.arity := by
  obtain ⟨haccepts, _⟩ := apply_eq_ok_iff.1 h.apply_head_args
  have hle : t.args.length ≤ t.signature.arity := haccepts.length_le
  rw [missing, applied_eq_length]
  omega

end Tree

/-! ## Folding -/

namespace FoldRules

variable {rules : FoldRules}

theorem Rebuilds.built {t u : Tree} {vars : VarSet} {k : Nat} (h : rules.Rebuilds t u vars k)
    (hargs : ∀ a ∈ t.args, ∀ a', a.fold rules = .ok a' → a'.tree.Built) : u.Built := by
  induction h with
  | leaf s => trivial
  | @node f f' x u vars k x' _ hx hu ih =>
      have happ := Tree.reapply_eq_ok_iff.1 hu
      obtain ⟨rfl, _⟩ := Tree.app_eq_ok_iff.1 happ
      exact ⟨ih fun a ha => hargs a (by simp [Tree.args, ha]), hargs x (by simp [Tree.args]) x' hx,
        happ⟩

theorem Finishes.built {u r : Tree} {vars : VarSet} {k : Nat} (h : rules.Finishes u vars r k)
    (hfolder : ∀ t v t', rules.folder t v = some t' → t' ≠ t → t'.Built) (hu : u.Built) :
    r.Built := by
  cases h with
  | free => exact hu
  | failing => exact hu
  | kept => exact hu
  | @computed v _ _ _ hput =>
      by_cases hr : r = u
      · rwa [hr]
      · exact hfolder u v r hput hr

end FoldRules

/-- Folding gives trees of checked applications, whatever it takes for a binder and for a value. -/
theorem Tree.fold_built {rules : FoldRules}
    (hfolder : ∀ t v t', rules.folder t v = some t' → t' ≠ t → t'.Built) {t : Tree}
    {folded : Folded} (h : t.fold rules = .ok folded) : folded.tree.Built := by
  induction t using Tree.induction_args generalizing folded with
  | h t ih =>
  have hargs : ∀ a ∈ t.args, ∀ a', a.fold rules = .ok a' → a'.tree.Built :=
    fun a ha a' ha' => ih a ha ha'
  cases fold_eq_ok_iff.1 h with
  | var id ty => trivial
  | @function id arg result body u body' hbody hu =>
      have happ := reapply_eq_ok_iff.1 hu
      obtain ⟨rfl, _⟩ := app_eq_ok_iff.1 happ
      exact ⟨trivial, hargs body (by simp [args]) body' hbody, happ⟩
  | @picked _ _ _ _ c _ c' _ hpick hc => exact hargs c hpick.mem_args c' hc
  | @merged _ _ a _ _ a' _ _ _ _ ha => exact hargs a (by simp [args]) a' ha
  | choice _ _ _ _ _ _ hu hr => exact hr.built hfolder (hu.built hargs)
  | plain _ hu hr => exact hr.built hfolder (hu.built hargs)

/-! ## Code motion -/

namespace Tree

theorem reapply_built {func arg : Tree} (hfunc : func.Built) (harg : arg.Built) :
    Returns Built (reapply func arg) := by
  refine returns_iff.2 fun t ht => ?_
  have happ := reapply_eq_ok_iff.1 ht
  obtain ⟨rfl, _⟩ := app_eq_ok_iff.1 happ
  exact ⟨hfunc, harg, happ⟩

theorem reassemble_built {s : Symbol} {args : List Tree} (hargs : ∀ a ∈ args, a.Built) :
    Returns Built (reassemble s args) :=
  returns_iff.2 fun _ ht => (eq_of_foldlM (fun _ _ _ => reapply_eq_ok_iff.1) ht).2 trivial hargs

theorem replaceSpine_built {b : Binders} {needle new t : Tree} (hnew : new.Built) (ht : t.Built) :
    Returns Built (replaceSpine b needle new t) := by
  induction t with
  | leaf s => trivial
  | node f x ihf ihx =>
      rw [replaceSpine]
      refine (ihf ht.1).bind fun f' hf' => ?_
      split
      · exact reapply_built hf' hnew
      · exact (ihx ht.2.1).bind fun x' hx' => reapply_built hf' hx'

theorem replace_built {b : Binders} {needle new t : Tree} (hnew : new.Built) (ht : t.Built) :
    Returns Built (replace b needle new t) := by
  rw [replace]
  split
  · exact hnew
  · exact replaceSpine_built hnew ht

theorem mem_partsBelow_of_shareableBelow? {b : Binders} {whole p t : Tree} {crossed : VarSet}
    (h : shareableBelow? b whole crossed t = some p) : p ∈ t.partsBelow := by
  induction t generalizing crossed with
  | leaf s => cases h
  | node f x ihf ihx =>
      -- The argument itself, or a part below it.
      have harg {crossed : VarSet} (h : (if worthSharing b whole crossed x then some x
          else shareableBelow? b whole crossed x) = some p) : p ∈ x.parts := by
        split at h
        · exact mem_parts.2 (.inl (Option.some.inj h).symm)
        · exact mem_parts.2 (.inr (ihx h))
      rw [mem_partsBelow_node]
      rw [shareableBelow?] at h
      split at h
      · exact .inr (harg h)
      · split at h
        · rename_i q hq
          obtain rfl := Option.some.inj h
          exact .inl (ihf hq)
        · exact .inr (harg h)

theorem mem_parts_of_shareable? {b : Binders} {p t : Tree} (h : shareable? b t = some p) :
    p ∈ t.parts := by
  rw [shareable?] at h
  split at h
  · exact mem_parts.2 (.inl (Option.some.inj h).symm)
  · exact mem_parts.2 (.inr (mem_partsBelow_of_shareableBelow? h))

theorem Built.of_mem_parts {p t : Tree} (ht : t.Built) (hp : p ∈ t.parts) : p.Built :=
  Tree.of_mem_parts (fun _ _ h => ⟨h.1, h.2.1⟩) ht hp

end Tree

theorem LetTypes.letIn_built (types : LetTypes) (id : VarId) {bound body : Tree}
    (hbound : bound.Built) (hbody : body.Built) :
    Returns Tree.Built (types.letIn id bound body) := by
  refine (Tree.reassemble_built (by simpa using hbody)).bind fun func hfunc => ?_
  exact Tree.reassemble_built (by simpa using ⟨hbound, hfunc⟩)

def HoistM.Ensures {α : Type} (P : α → Prop) (m : HoistM α) : Prop :=
  ∀ st, Outcome.From (fun _ => True) st (fun x _ => P x) m

namespace HoistM.Ensures

variable {α β : Type} {P : α → Prop} {Q : β → Prop}

theorem trivial (m : HoistM α) : Ensures (fun _ => True) m :=
  fun _ => returns_iff.2 fun _ _ => True.intro

theorem lift {e : Except Fault α} (h : Returns P e) : Ensures P (liftM e) :=
  fun _ => .lift h

theorem bind {m : HoistM α} {f : α → HoistM β} (hm : Ensures P m)
    (hf : ∀ x, P x → Ensures Q (f x)) : Ensures Q (m >>= f) :=
  fun st => (hm st).bind fun x st' hx => hf x hx st'

end HoistM.Ensures

theorem HoistM.onArgs_built {step : Tree → HoistM Tree}
    (hstep : ∀ x : Tree, x.Built → Ensures Tree.Built (step x)) {t : Tree} (ht : t.Built) :
    Ensures Tree.Built (onArgs step t) := by
  induction t with
  | leaf s => exact fun _ => .pure True.intro
  | node f x ihf _ =>
      refine (ihf ht.1).bind fun f' hf' => (hstep x ht.2.1).bind fun x' hx' => ?_
      exact .lift (Tree.reapply_built hf' hx')

/-- Code motion keeps to checked applications, whatever it takes for a binder and whatever the
policy. -/
theorem HoistRules.hoist_built (rules : HoistRules) (fuel : Nat) {t : Tree} (ht : t.Built) :
    HoistM.Ensures Tree.Built (rules.hoist fuel t) := by
  induction fuel generalizing t with
  | zero => exact fun _ => True.intro
  | succ fuel ih =>
      rw [HoistRules.hoist]
      split
      · exact HoistM.onArgs_built (fun _ => ih) ht
      · rename_i part hpart
        split
        · exact HoistM.onArgs_built (fun _ => ih) ht
        · rename_i types _
          have hpart' : part.Built := ht.of_mem_parts (Tree.mem_parts_of_shareable? hpart)
          refine (ih hpart').bind fun bound hbound => ?_
          refine (HoistM.Ensures.trivial _).bind fun id _ => ?_
          have hvar : (types.reference id).Built := True.intro
          refine (HoistM.Ensures.lift (Tree.replace_built hvar ht)).bind fun body hbody => ?_
          refine (ih hbody).bind fun body' hbody' => ?_
          refine (HoistM.Ensures.trivial _).bind fun _ _ => ?_
          refine (HoistM.Ensures.trivial _).bind fun _ _ => ?_
          exact .lift (LetTypes.letIn_built _ id hbound hbody')

theorem Tree.hoistFrom_built {rules : HoistRules} {start : VarId} {t : Tree} {progress : Tally}
    {hoisted : Hoisted} (ht : t.Built) (h : t.hoistFrom rules start progress = .ok hoisted) :
    hoisted.tree.Built := by
  have hbuilt : Returns (fun hoisted : Hoisted => hoisted.tree.Built)
      (t.hoistFrom rules start progress) :=
    Outcome.bind (rules.hoist_built t.size ht ⟨⟨start⟩, 0, progress⟩) fun _ hp => hp
  exact hbuilt.of_ok h

/-! ## All trees -/

namespace Tree

/-- Trees that operations on trees give. A folder may hand in trees of its own. -/
inductive Reachable : Tree → Prop where
  | leaf (s : Symbol) : Reachable (leaf s)
  | app {func arg t : Tree} : Reachable func → Reachable arg → app func arg = .ok t → Reachable t
  | apply {s : Symbol} {args : List Tree} {t : Tree} :
      (∀ a ∈ args, Reachable a) → apply s args = .ok t → Reachable t
  | reapply {func arg t : Tree} :
      Reachable func → Reachable arg → reapply func arg = .ok t → Reachable t
  | reassemble {s : Symbol} {args : List Tree} {t : Tree} :
      (∀ a ∈ args, Reachable a) → reassemble s args = .ok t → Reachable t
  | fold {rules : FoldRules} {t : Tree} {folded : Folded} :
      (∀ u v u', rules.folder u v = some u' → u' ≠ u → Reachable u') → Reachable t →
        t.fold rules = .ok folded → Reachable folded.tree
  | hoistFrom {rules : HoistRules} {start : VarId} {t : Tree} {progress : Tally}
      {hoisted : Hoisted} :
      Reachable t → t.hoistFrom rules start progress = .ok hoisted → Reachable hoisted.tree

theorem Reachable.built {t : Tree} (h : Reachable t) : t.Built := by
  induction h with
  | leaf s => trivial
  | app _ _ happ ihfunc iharg => exact (reapply_built ihfunc iharg).of_ok (reapply_eq_ok_iff.2 happ)
  | apply _ happly ih => exact (eq_of_foldlM (fun _ _ _ happ => happ) happly).2 trivial ih
  | reapply _ _ hrun ihfunc iharg => exact (reapply_built ihfunc iharg).of_ok hrun
  | reassemble _ hrun ih => exact (reassemble_built ih).of_ok hrun
  | fold _ _ hrun ihfolder _ => exact fold_built ihfolder hrun
  | hoistFrom _ hrun ih => exact hoistFrom_built ih hrun

/-- Construction accepts what fits and blames the first argument that does not. It is undone by
decomposition, and it undoes the decomposition of every tree; no tree has more arguments than its
head takes. -/
theorem construction_undoes_decomposition :
    (∀ s args, Constructs s args)
      ∧ ∀ t, Reachable t →
        apply t.head t.args = .ok t ∧ t.missing + t.applied = t.signature.arity :=
  ⟨constructs, fun _ h => ⟨h.built.apply_head_args, h.built.missing_add_applied⟩⟩

private def nextOfFirst : Tree :=
  node (node (leaf (.arith .add)) (leaf (.var 0 .int))) (leaf (.int 1))

private theorem nextOfFirst_reachable : nextOfFirst.Reachable := by
  have hsum : apply (.arith .add) [leaf (.var 0 .int), leaf (.int 1)] = .ok nextOfFirst := rfl
  exact .apply (by simp [Reachable.leaf]) hsum

theorem construction_undoes_decomposition_square :
    (∃ square hoisted, apply (.arith .mul) [nextOfFirst, nextOfFirst] = .ok square
      ∧ square.hoistFrom ⟨.standard, .standard⟩ 1 = .ok hoisted ∧ hoisted.lets = 1
      ∧ hoisted.tree.Reachable ∧ apply hoisted.tree.head hoisted.tree.args = .ok hoisted.tree
      ∧ hoisted.tree.missing + hoisted.tree.applied = 2)
    ∧ ∃ test, apply (.compare .lt) [nextOfFirst, nextOfFirst] = .ok test
      ∧ Symbol.Refuses (.arith .mul) 1 test (.argMismatch (.arith .mul) 1 .bool .int)
      ∧ apply (.arith .mul) [nextOfFirst, test] =
        .error (.typeError (.argMismatch (.arith .mul) 1 .bool .int)) := by
  obtain ⟨hconstructs, hreachable⟩ := construction_undoes_decomposition
  constructor
  · have hsquare : apply (.arith .mul) [nextOfFirst, nextOfFirst] = .ok _ := rfl
    have hhoisted : (spine (.arith .mul) [nextOfFirst, nextOfFirst]).hoistFrom
        ⟨.standard, .standard⟩ 1 = .ok ⟨_, 1, ⟨1⟩⟩ := rfl
    have hreached : Reachable _ :=
      .hoistFrom (.apply (by simp [nextOfFirst_reachable]) hsquare) hhoisted
    obtain ⟨happly, harity⟩ := hreachable _ hreached
    exact ⟨_, _, hsquare, hhoisted, rfl, hreached, happly, harity⟩
  · have htest : apply (.compare .lt) [nextOfFirst, nextOfFirst] = .ok _ := rfl
    have hrefuses : Symbol.Refuses (.arith .mul) 1 (spine (.compare .lt) [nextOfFirst, nextOfFirst])
        (.argMismatch (.arith .mul) 1 .bool .int) := .argMismatch rfl rfl (by decide)
    have haccepts : Symbol.Accepts (.arith .mul) [nextOfFirst] :=
      Symbol.accepts_concat_iff.2 ⟨Symbol.accepts_nil _, rfl, rfl⟩
    refine ⟨_, htest, hrefuses, ((hconstructs _ _).refused_iff _).2 ?_⟩
    exact ⟨[nextOfFirst], _, [], rfl, haccepts, by decide, hrefuses⟩

end Tree

end ExprTree

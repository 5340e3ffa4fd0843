import Mathlib.Data.List.Forall2
import ExprTree.Proofs.AnyEnvironment
import ExprTree.Proofs.Nameless
/-!
# Two runs side by side

Two evaluations go the same way if the trees differ in the names of variables
only and the environments agree on the variables that stand for each other. At
each step both runs do the same, and the values, failures and heaps that they
leave agree again. Inside functions and delayed computations other variables
stand for each other than outside, so these keep a renaming of their own.

The second heap may hold locations that the first one does not have.
-/

namespace ExprTree

structure Comparison where
  /-- Up to here, locations are the same on both heaps. -/
  low : Nat
  /-- Number of locations that the second heap has there and the first one does not. -/
  extra : Nat
  /-- The locations below `low` that are compared. -/
  live : Nat → Prop
  /-- The variables that may be found unbound. -/
  unbound : VarId → Prop

namespace Comparison

def place (c : Comparison) (loc : Nat) : Nat :=
  if loc < c.low then loc else loc + c.extra

/-- The locations that are compared: live ones and all from `low` on. -/
def Covers (c : Comparison) (loc : Nat) : Prop :=
  c.low ≤ loc ∨ c.live loc

theorem place_inj {c : Comparison} {l l' : Nat} : c.place l = c.place l' ↔ l = l' := by
  unfold place
  split <;> split <;> omega

theorem place_of_le {c : Comparison} {loc : Nat} (h : c.low ≤ loc) :
    c.place loc = loc + c.extra :=
  if_neg (Nat.not_lt_of_le h)

theorem place_lt_iff {c : Comparison} {loc size : Nat} (h : c.low ≤ size) :
    c.place loc < size + c.extra ↔ loc < size := by
  unfold place
  split <;> omega

end Comparison

/-! ## Variables that stand for each other -/

/-- Which variables of the first run stand for which of the second. -/
abbrev Renaming := VarId → VarId → Prop

namespace Renaming

def only (vars : VarId → Prop) : Renaming :=
  fun x y => x = y ∧ vars x

/-- Inside two functions the parameters stand for each other, and hide what has their names
outside. -/
def enter (vars : Renaming) (param param' : VarId) : Renaming :=
  fun x y => x = param ∧ y = param' ∨ x ≠ param ∧ y ≠ param' ∧ vars x y

theorem enter_self {vars : Renaming} (h : ∀ x, vars x x) (param x : VarId) :
    vars.enter param param x x := by
  by_cases hx : x = param
  · exact .inl ⟨hx, hx⟩
  · exact .inr ⟨hx, hx, h x⟩

end Renaming

/-- What the second tree reads stands for what the first one reads. Either they are one tree and
every variable stands for itself, or they are equal up to the names of bound variables and the free
ones stand for each other. The name of a head that misses arguments shows, so there the trees have
to be the same. -/
inductive Tree.Renamed (vars : Renaming) : Tree → Tree → Prop where
  | same (t : Tree) : (∀ x, vars x x) → Tree.Renamed vars t t
  | alpha {t t' : Tree} {pairs : List (VarId × VarId)} : t.Fits → t'.Fits →
      (t.isFull = false → t' = t) → Tree.alphaEqUnder .standard pairs t t' = true →
      (∀ x ∈ t.freeVars .standard, ∀ y, matchVars pairs x y = true → vars x y) →
      Tree.Renamed vars t t'

inductive Form.Renamed (vars : Renaming) : Form → Form → Prop where
  | incomplete (s : Symbol) : Form.Renamed vars (.incomplete s) (.incomplete s)
  | read {x y : VarId} : vars x y → Form.Renamed vars (.read x) (.read y)
  | function {param param' : VarId} {body body' : Tree} :
      body.Renamed (vars.enter param param') body' →
        Form.Renamed vars (.function param body) (.function param' body')
  | bind {bound bound' func func' : Tree} : bound.Renamed vars bound' → func.Renamed vars func' →
      Form.Renamed vars (.bind bound func) (.bind bound' func')
  | choose {test test' a a' b b' : Tree} : test.Renamed vars test' → a.Renamed vars a' →
      b.Renamed vars b' → Form.Renamed vars (.choose test a b) (.choose test' a' b')
  | strict (s : Symbol) {args args' : List Tree} : List.Forall₂ (Tree.Renamed vars) args args' →
      Form.Renamed vars (.strict s args) (.strict s args')

theorem Form.Renamed.self {vars : Renaming} (h : ∀ x, vars x x) (form : Form) :
    form.Renamed vars form := by
  have hsame (t : Tree) : t.Renamed vars t := .same t h
  cases form with
  | incomplete s => exact .incomplete s
  | read id => exact .read (h id)
  | function id body => exact .function (.same body (Renaming.enter_self h id))
  | bind bound func => exact .bind (hsame bound) (hsame func)
  | choose test a b => exact .choose (hsame test) (hsame a) (hsame b)
  | strict s args => exact .strict s (List.forall₂_same.2 fun a _ => hsame a)

namespace Tree

variable {vars : Renaming} {t t' : Tree}

theorem mem_freeVars_of_head {id : VarId} {ty : Ty} (h : t.head = .var id ty) :
    id ∈ t.freeVars .standard := by
  induction t with
  | leaf s =>
      obtain rfl : s = .var id ty := h
      simp
  | node f x ihf _ => exact mem_freeVars_node.2 (.inl (ihf h))

theorem Renamed.args {pairs : List (VarId × VarId)}
    (h : alphaEqUnder .standard pairs t t' = true) (hhead : t.head.lambda? = none)
    (hfits : t.Fits) (hfits' : t'.Fits)
    (hvars : ∀ x ∈ t.freeVars .standard, ∀ y, matchVars pairs x y = true → vars x y) :
    t.head.alphaEqUnder .standard pairs t'.head = true
      ∧ List.Forall₂ (Renamed vars) t.args t'.args := by
  induction t generalizing t' with
  | leaf s =>
      cases t' with
      | leaf s' => exact ⟨h, .nil⟩
      | node g y => simp [alphaEqUnder] at h
  | node f x ihf _ =>
      have hbinder : f.binder? .standard = none := binder?_of_head hhead
      obtain ⟨g, y, rfl, hfg, hxy⟩ := alphaEqUnder_application hbinder h
      obtain ⟨hf, hx, hfull, _⟩ := hfits
      obtain ⟨hg, hy, _⟩ := hfits'
      obtain ⟨hheads, hargs⟩ := ihf hfg hhead hf hg fun z hz =>
        hvars z (mem_freeVars_node.2 (.inl hz))
      have harg : x.Renamed vars y := by
        refine .alpha hx hy (fun hpartial => ?_) hxy fun z hz => ?_
        · simp [hfull] at hpartial
        · exact hvars z (mem_freeVars_node.2 (.inr ⟨hz, by simp [hbinder]⟩))
      exact ⟨hheads, List.rel_append hargs (.cons harg .nil)⟩

theorem Renamed.body {pairs : List (VarId × VarId)} {u v : VarId} {A B A' B' : Ty}
    {body body' : Tree} (h : alphaEqUnder .standard ((u, v) :: pairs) body body' = true)
    (hfits : (node (leaf (.lambda u A B)) body).Fits)
    (hfits' : (node (leaf (.lambda v A' B')) body').Fits)
    (hvars : ∀ x ∈ (node (leaf (.lambda u A B)) body).freeVars .standard, ∀ y,
      matchVars pairs x y = true → vars x y) :
    body.Renamed (vars.enter u v) body' := by
  obtain ⟨_, hbody, hfull, _⟩ := hfits
  refine .alpha hbody hfits'.2.1 (fun hpartial => ?_) h fun x hx y hxy => ?_
  · simp [hfull] at hpartial
  · simp only [matchVars] at hxy
    split at hxy
    · obtain ⟨hux, hvy⟩ : u = x ∧ v = y := by simpa using hxy
      exact .inl ⟨hux.symm, hvy.symm⟩
    · rename_i hne
      obtain ⟨hux, hvy⟩ : ¬u = x ∧ ¬v = y := by simpa using hne
      refine .inr ⟨Ne.symm hux, Ne.symm hvy, hvars x ?_ y hxy⟩
      rw [freeVars_lambda, VarSet.mem_erase]
      exact ⟨hx, Ne.symm hux⟩

/-- A symbol that neither binds nor refers does the same with renamed arguments. -/
theorem form_renamed (hfull : t.isFull = true) (hfull' : t'.isFull = true)
    (hhead : t'.head = t.head) (hlambda : t.head.lambda? = none)
    (hreference : t.head.reference? = none) (hargs : List.Forall₂ (Renamed vars) t.args t'.args) :
    t.form.Renamed vars t'.form := by
  unfold form
  rw [if_pos hfull, if_pos hfull', hhead]
  generalize t.head = s at hlambda hreference
  generalize t.args = args, t'.args = args' at hargs
  cases s with
  | var => cases hreference
  | lambda => cases hlambda
  | letIn A B =>
      rcases hargs with _ | ⟨h₁, _ | ⟨h₂, _ | ⟨h₃, hargs⟩⟩⟩
      · exact .strict _ .nil
      · exact .strict _ (.cons h₁ .nil)
      · exact .bind h₁ h₂
      · exact .strict _ (.cons h₁ (.cons h₂ (.cons h₃ hargs)))
  | cond ty =>
      rcases hargs with _ | ⟨h₁, _ | ⟨h₂, _ | ⟨h₃, _ | ⟨h₄, hargs⟩⟩⟩⟩
      · exact .strict _ .nil
      · exact .strict _ (.cons h₁ .nil)
      · exact .strict _ (.cons h₁ (.cons h₂ .nil))
      · exact .choose h₁ h₂ h₃
      · exact .strict _ (.cons h₁ (.cons h₂ (.cons h₃ (.cons h₄ hargs))))
  | _ => exact .strict _ hargs

theorem Renamed.form (h : t.Renamed vars t') : t.form.Renamed vars t'.form := by
  cases h with
  | same hself => exact .self hself _
  | alpha hfits hfits' hpartial halpha hvars =>
      cases hfull : t.isFull with
      | false =>
          obtain rfl := hpartial hfull
          have hform : t'.form = .incomplete t'.head := by simp [Tree.form, hfull]
          rw [hform]
          exact .incomplete _
      | true =>
          have hfull' : t'.isFull = true := (isFull_eq_of_alphaEqUnder halpha).symm.trans hfull
          cases hlambda : t.head.lambda? with
          | some id =>
              -- A function has its body and nothing else, since the tree fits together.
              obtain ⟨A, B, hhead⟩ := Symbol.lambda?_eq_some hlambda
              have htypes := hfits.args_types_of_isFull hfull
              rw [hhead] at htypes
              obtain ⟨body, hbody, _⟩ := List.map_eq_singleton_iff.1 htypes
              obtain rfl : t = node (leaf (.lambda id A B)) body := hhead ▸ eq_node_of_args hbody
              obtain ⟨id', body', rfl, halpha'⟩ := alphaEqUnder_function halpha
              exact .function (.body halpha' hfits hfits' hvars)
          | none =>
              obtain ⟨hheads, hargs⟩ := Renamed.args halpha hlambda hfits hfits' hvars
              rcases Symbol.alphaEqUnder_cases hheads with
                ⟨x, y, ty, hx, hy, hxy⟩ | ⟨⟨u, hu⟩, _⟩ | ⟨heq, hreference⟩
              · have hform : t.form = .read x := by simp [Tree.form, hfull, hx]
                have hform' : t'.form = .read y := by simp [Tree.form, hfull', hy]
                rw [hform, hform']
                exact .read (hvars x (mem_freeVars_of_head hx) y hxy)
              · simp [hlambda] at hu
              · exact form_renamed hfull hfull' heq.symm hlambda hreference hargs

end Tree

/-! ## Agreement -/

mutual

/-- The same integer or truth value, or functions with renamed bodies in environments that agree. -/
inductive Value.Alike (c : Comparison) : Value → Value → Prop where
  | bool (b : Bool) : Value.Alike c (.bool b) (.bool b)
  | int (n : Int64) : Value.Alike c (.int n) (.int n)
  | closure (tag tag' : Nat) {param param' : VarId} {body body' : Tree} {vars : Renaming}
      {env env' : Env} :
      body.Renamed (vars.enter param param') body' → Env.Alike c vars env env' →
        Value.Alike c (.closure tag param body env) (.closure tag' param' body' env')

inductive Slot.Alike (c : Comparison) : Slot → Slot → Prop where
  | ready {v v' : Value} : Value.Alike c v v' → Slot.Alike c (.ready v) (.ready v')
  | delayed {loc : Nat} : c.Covers loc → Slot.Alike c (.delayed loc) (.delayed (c.place loc))

/-- Variables that stand for each other are bound to slots that agree, or else they are one
variable, which may be unbound. -/
inductive Env.Alike (c : Comparison) : (vars : Renaming) → Env → Env → Prop where
  | intro {vars : Renaming} {env env' : Env} :
      (∀ x y, vars x y → (env.get? x).isSome = (env'.get? y).isSome) →
        (∀ x y, vars x y → env.get? x = none → x = y ∧ c.unbound x) →
        (∀ x y slot slot', vars x y → env.get? x = some slot → env'.get? y = some slot' →
          Slot.Alike c slot slot') →
        Env.Alike c vars env env'

end

inductive ResultAlike (c : Comparison) {α : Type} (R : α → α → Prop) :
    Except EvalError α → Except EvalError α → Prop where
  | ok {x x' : α} : R x x' → ResultAlike c R (.ok x) (.ok x')
  | error {e : EvalError} :
      (∀ id, e = .unboundVariable id → c.unbound id) → ResultAlike c R (.error e) (.error e)

inductive Progress.Alike (c : Comparison) : Option Progress → Option Progress → Prop where
  | missing : Progress.Alike c none none
  | pending {t t' : Tree} {vars : Renaming} {env env' : Env} :
      t.Renamed vars t' → env.Alike c vars env' →
        Progress.Alike c (some (.pending t env)) (some (.pending t' env'))
  | running : Progress.Alike c (some .running) (some .running)
  | finished {r r' : Except EvalError Value} :
      ResultAlike c (Value.Alike c) r r' →
        Progress.Alike c (some (.finished r)) (some (.finished r'))

structure Heap.Alike (c : Comparison) (h h' : Heap) : Prop where
  low_le : c.low ≤ h.cells.size
  size_eq : h'.cells.size = h.cells.size + c.extra
  cells : ∀ loc, c.Covers loc → Progress.Alike c (h.progress? loc) (h'.progress? (c.place loc))

/-- Both runs end, with results and heaps that agree, or both run out of fuel. -/
inductive RunAlike (c : Comparison) {α : Type} (R : α → α → Prop) :
    Option (Except EvalError α × Heap) → Option (Except EvalError α × Heap) → Prop where
  | outOfFuel : RunAlike c R none none
  | result {r r' : Except EvalError α} {h h' : Heap} :
      ResultAlike c R r r' → h.Alike c h' → RunAlike c R (some (r, h)) (some (r', h'))

def EvalM.Alike (c : Comparison) {α : Type} (R : α → α → Prop) (m m' : EvalM α) : Prop :=
  ∀ h h' : Heap, h.Alike c h' → RunAlike c R (m h) (m' h')

variable {c : Comparison}

theorem Env.Alike.bind {vars : Renaming} {env env' : Env} (henv : env.Alike c vars env')
    {slot slot' : Slot} (hslot : slot.Alike c slot') (param param' : VarId) :
    (Env.bind param slot env).Alike c (vars.enter param param') (.bind param' slot' env') := by
  obtain ⟨hbound, hunbound, hslots⟩ := henv
  refine .intro ?_ ?_ ?_
  · rintro x y (⟨rfl, rfl⟩ | ⟨hx, hy, hxy⟩)
    · simp [Env.get?]
    · simpa [Env.get?, Ne.symm hx, Ne.symm hy] using hbound x y hxy
  · rintro x y (⟨rfl, rfl⟩ | ⟨hx, _, hxy⟩) hnone
    · simp [Env.get?] at hnone
    · simp only [Env.get?, Ne.symm hx, if_false] at hnone
      exact hunbound x y hxy hnone
  · rintro x y s s' (⟨rfl, rfl⟩ | ⟨hx, hy, hxy⟩) hs hs'
    · simp only [Env.get?, if_true, Option.some.injEq] at hs hs'
      exact hs ▸ hs' ▸ hslot
    · simp only [Env.get?, Ne.symm hx, Ne.symm hy, if_false] at hs hs'
      exact hslots x y s s' hxy hs hs'

/-- A binding that is not read makes no difference. -/
theorem Env.Alike.bind_unread {vars : Renaming} {env env' : Env} (henv : env.Alike c vars env')
    {id : VarId} (hid : ∀ x, ¬vars x id) (slot : Slot) :
    env.Alike c vars (.bind id slot env') := by
  have hget (x y : VarId) (hxy : vars x y) : (Env.bind id slot env').get? y = env'.get? y := by
    have hne : id ≠ y := fun h => hid x (h ▸ hxy)
    simp only [Env.get?, hne, if_false]
  obtain ⟨hbound, hunbound, hslots⟩ := henv
  refine .intro (fun x y hxy => ?_) hunbound fun x y s s' hxy hs hs' => ?_
  · rw [hget x y hxy]
    exact hbound x y hxy
  · rw [hget x y hxy] at hs'
    exact hslots x y s s' hxy hs hs'

namespace Heap.Alike

variable {h h' : Heap} {loc : Nat}

theorem start (hheap : h.Alike c h') (loc : Nat) :
    (h.start loc).Alike c (h'.start (c.place loc)) := by
  refine ⟨by simpa using hheap.low_le, by simpa using hheap.size_eq, fun l hl => ?_⟩
  simp only [progress?_start, hheap.size_eq, Comparison.place_inj,
    Comparison.place_lt_iff hheap.low_le]
  split
  · exact .running
  · exact hheap.cells l hl

theorem finish (hheap : h.Alike c h') (loc : Nat) {r r' : Except EvalError Value}
    (hr : ResultAlike c (Value.Alike c) r r') :
    (h.finish loc r).Alike c (h'.finish (c.place loc) r') := by
  refine ⟨by simpa using hheap.low_le, by simpa using hheap.size_eq, fun l hl => ?_⟩
  simp only [progress?_finish, hheap.size_eq, Comparison.place_inj,
    Comparison.place_lt_iff hheap.low_le]
  split
  · exact .finished hr
  · exact hheap.cells l hl

theorem place_size (hheap : h.Alike c h') : c.place h.cells.size = h'.cells.size := by
  rw [Comparison.place_of_le hheap.low_le, hheap.size_eq]

theorem add (hheap : h.Alike c h') {p p' : Progress} (hp : Progress.Alike c (some p) (some p')) :
    (h.add p).Alike c (h'.add p') := by
  refine ⟨?_, ?_, fun l hl => ?_⟩
  · rw [size_add]
    exact Nat.le_succ_of_le hheap.low_le
  · rw [size_add, size_add, hheap.size_eq]
    omega
  · simp only [progress?_add, ← hheap.place_size, Comparison.place_inj]
    split
    · exact hp
    · exact hheap.cells l hl

theorem withTags (hheap : h.Alike c h') (tag tag' : Nat) :
    Heap.Alike c { h with nextTag := tag } { h' with nextTag := tag' } :=
  ⟨hheap.low_le, hheap.size_eq, hheap.cells⟩

end Heap.Alike

/-! ## Steps -/

namespace EvalM.Alike

variable {α β : Type} {R : α → α → Prop} {Q : β → β → Prop}

theorem lift {r r' : Except EvalError α} (h : ResultAlike c R r r') :
    EvalM.Alike c R (liftM r : EvalM α) (liftM r' : EvalM α) := by
  intro h₁ h₁' hheap
  cases h with
  | ok hx => exact .result (.ok hx) hheap
  | error he => exact .result (.error he) hheap

theorem pure {x x' : α} (h : R x x') : EvalM.Alike c R (pure x : EvalM α) (pure x') :=
  lift (.ok h)

/-- Failures other than that of a variable are the same on both sides. -/
theorem throw {e : EvalError} (he : ∀ id, e = .unboundVariable id → c.unbound id) :
    EvalM.Alike c R (throw e : EvalM α) (throw e) :=
  lift (.error he)

theorem bind {m m' : EvalM α} {f f' : α → EvalM β} (hm : m.Alike c R m')
    (hf : ∀ x x', R x x' → (f x).Alike c Q (f' x')) : (m >>= f).Alike c Q (m' >>= f') := by
  intro h h' hheap
  have hrun := hm h h' hheap
  rw [bind_apply, bind_apply]
  generalize m h = run, m' h' = run' at hrun ⊢
  cases hrun with
  | outOfFuel => exact .outOfFuel
  | result hr hheap' =>
      cases hr with
      | ok hx => exact hf _ _ hx _ _ hheap'
      | error he => exact .result (.error he) hheap'

theorem mapM {γ : Type} {S : γ → γ → Prop} {f f' : γ → EvalM α} {xs xs' : List γ}
    (hxs : List.Forall₂ S xs xs') (hf : ∀ x x', S x x' → (f x).Alike c R (f' x')) :
    (xs.mapM f).Alike c (List.Forall₂ R) (xs'.mapM f') := by
  induction hxs with
  | nil => exact .pure .nil
  | cons hx _ ih =>
      simp only [List.mapM_cons]
      refine (hf _ _ hx).bind fun y y' hy => ih.bind fun ys ys' hys => ?_
      exact .pure (.cons hy hys)

end EvalM.Alike

theorem Value.Alike.asInt {v v' : Value} (h : v.Alike c v') :
    ResultAlike c Eq v.asInt v'.asInt := by
  cases h with
  | int n => exact .ok rfl
  | bool b => exact .error (by simp)
  | closure => exact .error (by simp)

theorem Value.Alike.asBool {v v' : Value} (h : v.Alike c v') :
    ResultAlike c Eq v.asBool v'.asBool := by
  cases h with
  | bool b => exact .ok rfl
  | int n => exact .error (by simp)
  | closure => exact .error (by simp)

theorem ArithOp.eval_alike (op : ArithOp) (m n : Int64) :
    ResultAlike c Eq (op.eval m n) (op.eval m n) := by
  cases h : op.eval m n with
  | ok k => exact .ok rfl
  | error e =>
      obtain rfl := op.eval_error h
      exact .error (by simp)

theorem EvalM.closure_alike {param param' : VarId} {body body' : Tree} {vars : Renaming}
    {env env' : Env} (hbody : body.Renamed (vars.enter param param') body')
    (henv : env.Alike c vars env') :
    (closure param body env).Alike c (Value.Alike c) (closure param' body' env') :=
  fun _ _ hheap => .result (.ok (.closure _ _ hbody henv)) (hheap.withTags _ _)

theorem EvalM.delay_alike {t t' : Tree} {vars : Renaming} {env env' : Env}
    (ht : t.Renamed vars t') (henv : env.Alike c vars env') :
    (delay t env).Alike c (Slot.Alike c) (delay t' env') := by
  intro h h' hheap
  have hslot : Slot.Alike c (.delayed h.cells.size) (.delayed (c.place h.cells.size)) :=
    .delayed (.inl hheap.low_le)
  rw [hheap.place_size] at hslot
  exact .result (.ok hslot) (hheap.add (.pending ht henv))

def RunsAlike (c : Comparison) (run : Tree → Env → EvalM Value) : Prop :=
  ∀ {vars : Renaming} {t t' : Tree} {env env' : Env}, t.Renamed vars t' →
    env.Alike c vars env' → (run t env).Alike c (Value.Alike c) (run t' env')

section

variable {run : Tree → Env → EvalM Value}

theorem Slot.Alike.force (hrun : RunsAlike c run) {slot slot' : Slot} (hslot : slot.Alike c slot') :
    (slot.force run).Alike c (Value.Alike c) (slot'.force run) := by
  cases hslot with
  | ready hv => exact .pure hv
  | @delayed loc hloc =>
      intro h h' hheap
      have hcell := hheap.cells loc hloc
      rw [Slot.force_delayed, Slot.force_delayed]
      generalize h.progress? loc = p, h'.progress? (c.place loc) = p' at hcell ⊢
      cases hcell with
      | missing => exact .result (.error (by simp)) hheap
      | running => exact .result (.error (by simp)) hheap
      | finished hr => exact .result hr hheap
      | @pending t t' vars env env' ht henv =>
          have hresult := hrun ht henv _ _ (hheap.start loc)
          dsimp only
          generalize run t env (h.start loc) = q, run t' env' (h'.start (c.place loc)) = q'
            at hresult ⊢
          cases hresult with
          | outOfFuel => exact .outOfFuel
          | result hr hheap' => exact .result hr (hheap'.finish loc hr)

theorem Value.Alike.call (hrun : RunsAlike c run) {v v' : Value} (hv : v.Alike c v')
    {slot slot' : Slot} (hslot : slot.Alike c slot') :
    (v.call run slot).Alike c (Value.Alike c) (v'.call run slot') := by
  cases hv with
  | bool b => exact .throw (by simp)
  | int n => exact .throw (by simp)
  | closure tag tag' hbody henv => exact hrun hbody (henv.bind hslot _ _)

theorem Symbol.denote_alike (hrun : RunsAlike c run) (s : Symbol) {args args' : List Value}
    (hargs : List.Forall₂ (Value.Alike c) args args') :
    (s.denote run args).Alike c (Value.Alike c) (s.denote run args') := by
  have hmisplaced : ∀ s : Symbol, EvalM.Alike c (Value.Alike c) (throw (.needsEnvironment s.name))
      (throw (.needsEnvironment s.name)) := fun s => .throw (by simp)
  rcases hargs with _ | ⟨h₁, _ | ⟨h₂, _ | ⟨h₃, _ | ⟨h₄, hargs⟩⟩⟩⟩
  · cases s with
    | int m => exact .pure (.int m)
    | bool b => exact .pure (.bool b)
    | _ => exact hmisplaced _
  · cases s with
    | negation =>
        refine (EvalM.Alike.lift h₁.asBool).bind ?_
        rintro p _ rfl
        exact .pure (.bool _)
    | _ => exact hmisplaced _
  · cases s with
    | arith op =>
        refine (EvalM.Alike.lift h₁.asInt).bind ?_
        rintro m _ rfl
        refine (EvalM.Alike.lift h₂.asInt).bind ?_
        rintro n _ rfl
        refine (EvalM.Alike.lift (op.eval_alike m n)).bind ?_
        rintro k _ rfl
        exact .pure (.int k)
    | compare op =>
        refine (EvalM.Alike.lift h₁.asInt).bind ?_
        rintro m _ rfl
        refine (EvalM.Alike.lift h₂.asInt).bind ?_
        rintro n _ rfl
        exact .pure (.bool _)
    | conjunction =>
        refine (EvalM.Alike.lift h₁.asBool).bind ?_
        rintro p _ rfl
        cases p with
        | false => exact .pure (.bool false)
        | true =>
            refine (EvalM.Alike.lift h₂.asBool).bind ?_
            rintro q _ rfl
            exact .pure (.bool q)
    | letIn a r => exact h₂.call hrun (.ready h₁)
    | call a r => exact h₁.call hrun (.ready h₂)
    | _ => exact hmisplaced _
  · cases s with
    | cond ty =>
        refine (EvalM.Alike.lift h₁.asBool).bind ?_
        rintro p _ rfl
        cases p with
        | false => exact .pure h₃
        | true => exact .pure h₂
    | _ => exact hmisplaced _
  · cases s with
    | _ => exact hmisplaced _

theorem Form.Renamed.step_alike (hrun : RunsAlike c run) {form form' : Form} {vars : Renaming}
    {env env' : Env} (hform : form.Renamed vars form') (henv : env.Alike c vars env') :
    (form.step run env).Alike c (Value.Alike c) (form'.step run env') := by
  cases hform with
  | incomplete s => exact .throw (by simp)
  | @read x y hxy =>
      obtain ⟨hbound, hunbound, hslots⟩ := henv
      have hsome := hbound x y hxy
      simp only [Form.step]
      cases hget : env.get? x with
      | none =>
          obtain ⟨rfl, hmissing⟩ := hunbound x y hxy hget
          have hget' : env'.get? x = none := by
            rw [hget] at hsome
            simpa using hsome.symm
          rw [hget']
          refine .throw fun id hid => ?_
          obtain rfl : x = id := by simpa using hid
          exact hmissing
      | some slot =>
          rw [hget, Option.isSome_some] at hsome
          obtain ⟨slot', hget'⟩ := Option.isSome_iff_exists.1 hsome.symm
          rw [hget']
          exact (hslots x y slot slot' hxy hget hget').force hrun
  | function hbody => exact EvalM.closure_alike hbody henv
  | bind hbound hfunc =>
      refine (EvalM.delay_alike hbound henv).bind fun slot slot' hslot => ?_
      refine (hrun hfunc henv).bind fun f f' hf => ?_
      exact hf.call hrun hslot
  | choose htest ha hb =>
      refine (hrun htest henv).bind fun v v' hv => (EvalM.Alike.lift hv.asBool).bind ?_
      rintro p _ rfl
      cases p with
      | false => exact hrun hb henv
      | true => exact hrun ha henv
  | strict s hargs =>
      refine (EvalM.Alike.mapM hargs fun a a' ha => hrun ha henv).bind fun vs vs' hvs => ?_
      exact s.denote_alike hrun hvs

end

/-- Renamed trees evaluate alike in environments that agree. -/
theorem eval_renamed (c : Comparison) (fuel : Nat) : RunsAlike c (eval fuel) := by
  induction fuel with
  | zero => exact fun _ _ _ _ _ => .outOfFuel
  | succ fuel ih =>
      intro vars t t' env env' ht henv
      rw [eval_succ, eval_succ]
      exact ht.form.step_alike ih henv

end ExprTree

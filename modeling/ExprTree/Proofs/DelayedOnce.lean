import Mathlib.Logic.Relation
import ExprTree.Proofs.Observed
/-!
# Delayed computations run once

A delayed computation goes through a life cycle: it is made, it is started, and
it finishes with a result. No step leads back, and a computation that has
finished stays as it is.

`evalWatched` is evaluation with an observer that keeps all earlier states of the
heap, so that one can speak about what happens in the middle of an evaluation. From
each of these states to the later ones, all computations have gone on in their
life cycles. What is running when an evaluation begins is still running when it
ends: only the reading that started a computation finishes it.
-/

namespace ExprTree

/-! ## The life cycle of a computation -/

namespace Cell

/-- One step of a delayed computation: from nothing to pending, running and finished. -/
inductive Advance : Option Cell → Option Cell → Prop where
  | create (tree : Tree) (env : Env) : Advance none (some ⟨.pending tree env, 0⟩)
  | start (tree : Tree) (env : Env) (runs : Nat) :
      Advance (some ⟨.pending tree env, runs⟩) (some ⟨.running, runs + 1⟩)
  | finish (runs : Nat) (result : Except EvalError Value) :
      Advance (some ⟨.running, runs⟩) (some ⟨.finished result, runs⟩)

def StartedOnce (c : Cell) : Prop :=
  match c.progress with
  | .pending _ _ => c.runs = 0
  | .running => c.runs = 1
  | .finished _ => c.runs = 1

theorem StartedOnce.runs_le_one {c : Cell} (h : c.StartedOnce) : c.runs ≤ 1 := by
  obtain ⟨p, runs⟩ := c
  cases p with
  | pending tree env => exact Nat.le_succ_of_le (Nat.le_of_eq h)
  | running => exact Nat.le_of_eq h
  | finished r => exact Nat.le_of_eq h

open Relation (ReflTransGen)

theorem eq_of_finished {runs : Nat} {result : Except EvalError Value} {c : Option Cell}
    (h : ReflTransGen Advance (some ⟨.finished result, runs⟩) c) :
    c = some ⟨.finished result, runs⟩ := by
  induction h with
  | refl => rfl
  | tail _ hstep ih =>
      subst ih
      cases hstep

theorem cases_of_running {runs : Nat} {c : Option Cell}
    (h : ReflTransGen Advance (some ⟨.running, runs⟩) c) :
    c = some ⟨.running, runs⟩ ∨ ∃ result, c = some ⟨.finished result, runs⟩ := by
  induction h with
  | refl => exact .inl rfl
  | tail _ hstep ih =>
      rcases ih with rfl | ⟨result, rfl⟩
      · cases hstep with
        | finish _ result => exact .inr ⟨result, rfl⟩
      · cases hstep

theorem Advance.startedOnce {c c' : Option Cell} (h : Advance c c')
    (hc : ∀ a ∈ c, a.StartedOnce) : ∀ a ∈ c', a.StartedOnce := by
  rintro a ⟨⟩
  cases h with
  | create tree env => exact (rfl : 0 = 0)
  | start tree env runs => exact congrArg (· + 1) (hc _ rfl)
  | finish runs result => exact hc ⟨.running, runs⟩ rfl

theorem startedOnce_of_reflTransGen {c c' : Option Cell} (h : ReflTransGen Advance c c')
    (hc : ∀ a ∈ c, a.StartedOnce) : ∀ a ∈ c', a.StartedOnce := by
  induction h with
  | refl => exact hc
  | tail _ hstep ih => exact hstep.startedOnce ih

end Cell

namespace Heap

def Precedes (h h' : Heap) : Prop :=
  ∀ loc : Nat, Relation.ReflTransGen Cell.Advance h.cells[loc]? h'.cells[loc]?

/-- What is running goes on, and is not started again. -/
def KeepsRunning (h h' : Heap) : Prop :=
  ∀ (loc : Nat) (c : Cell), h.cells[loc]? = some c → c.progress = .running → h'.cells[loc]? = some c

section

variable {h h' h'' : Heap} {loc : Nat}

theorem Precedes.trans (hh' : h.Precedes h') (hh'' : h'.Precedes h'') : h.Precedes h'' :=
  fun loc => (hh' loc).trans (hh'' loc)

theorem precedes_of_cells (hcells : h'.cells = h.cells) : h.Precedes h' := by
  intro loc
  rw [hcells]

theorem KeepsRunning.trans (hh' : h.KeepsRunning h') (hh'' : h'.KeepsRunning h'') :
    h.KeepsRunning h'' :=
  fun loc c hc hrunning => hh'' loc c (hh' loc c hc hrunning) hrunning

theorem keepsRunning_of_cells (hcells : h'.cells = h.cells) : h.KeepsRunning h' := by
  intro loc c hc _
  rwa [hcells]

theorem exists_cell {p : Progress} (hp : h.progress? loc = some p) :
    ∃ runs, h.cells[loc]? = some ⟨p, runs⟩ := by
  obtain ⟨c, hc, rfl⟩ := Option.map_eq_some_iff.1 hp
  exact ⟨c.runs, hc⟩

theorem progress?_of_cell {c : Cell} (hc : h.cells[loc]? = some c) :
    h.progress? loc = some c.progress := by
  rw [progress?, hc, Option.map_some]

theorem getElem?_start (h : Heap) (loc l : Nat) :
    (h.start loc).cells[l]? =
      if loc = l then h.cells[l]?.map fun c => ⟨.running, c.runs + 1⟩ else h.cells[l]? :=
  Array.getElem?_modify

theorem getElem?_finish (h : Heap) (loc l : Nat) (r : Except EvalError Value) :
    (h.finish loc r).cells[l]? =
      if loc = l then h.cells[l]?.map fun c => ⟨.finished r, c.runs⟩ else h.cells[l]? :=
  Array.getElem?_modify

theorem precedes_delay (h : Heap) (tree : Tree) (env : Env) :
    h.Precedes (h.delay tree env).2 := by
  intro loc
  show Relation.ReflTransGen _ _ (h.cells.push ⟨.pending tree env, 0⟩)[loc]?
  rw [Array.getElem?_push]
  split
  · rename_i hloc
    rw [Array.getElem?_eq_none (Nat.le_of_eq hloc.symm)]
    exact .single (.create tree env)
  · exact .refl

theorem keepsRunning_delay (h : Heap) (tree : Tree) (env : Env) :
    h.KeepsRunning (h.delay tree env).2 := by
  intro loc c hc _
  have hlt : loc < h.cells.size := (Array.getElem?_eq_some_iff.1 hc).1
  show (h.cells.push ⟨.pending tree env, 0⟩)[loc]? = some c
  rw [Array.getElem?_push, if_neg (Nat.ne_of_lt hlt), hc]

theorem precedes_start {tree : Tree} {env : Env}
    (hp : h.progress? loc = some (.pending tree env)) : h.Precedes (h.start loc) := by
  intro l
  rw [getElem?_start]
  split
  · rename_i hl
    subst hl
    obtain ⟨runs, hc⟩ := exists_cell hp
    rw [hc]
    exact .single (.start tree env runs)
  · exact .refl

theorem precedes_finish (hp : h.progress? loc = some .running) (r : Except EvalError Value) :
    h.Precedes (h.finish loc r) := by
  intro l
  rw [getElem?_finish]
  split
  · rename_i hl
    subst hl
    obtain ⟨runs, hc⟩ := exists_cell hp
    rw [hc]
    exact .single (.finish runs r)
  · exact .refl

end

end Heap

/-! ## Evaluation with all earlier heaps -/

/-- A heap, and before it the heaps at all earlier moments, latest first. -/
structure Watched where
  heap : Heap
  past : List Heap

def Watched.trail (s : Watched) : List Heap :=
  s.heap :: s.past

def Watched.next (s : Watched) (h : Heap) : Watched :=
  ⟨h, s.trail⟩

/-- The observer that keeps the heap at all moments. Each reading of a delayed computation is a
moment, and so are its start and its end. -/
def Observer.watch : Observer EvalError Watched where
  error e := e
  heap := Watched.heap
  raise e := e
  leaveTest e := e
  move := Watched.next
  finish s loc r := s.next (s.heap.finish loc r)
  kept _ _ r := r
  stops := false
  error_raise _ := rfl
  error_leaveTest _ := rfl
  heap_move _ _ := rfl
  heap_finish _ _ r := by rw [mapError_self, Watched.next]
  mapError_kept _ _ r := mapError_self r

abbrev WatchedM := ObservedM EvalError Watched

abbrev evalWatched : (fuel : Nat) → Tree → Env → WatchedM Value :=
  Observer.watch.eval

structure Orderly (trail : List Heap) : Prop where
  startedOnce : ∀ h ∈ trail, ∀ loc : Nat, ∀ c ∈ h.cells[loc]?, c.StartedOnce
  ordered : trail.Pairwise fun later earlier => earlier.Precedes later

/-- What comes later is orderly too, and what was running is still running. -/
structure Watched.Leads (s s' : Watched) : Prop where
  orderly : Orderly s.trail → Orderly s'.trail
  running : s.heap.KeepsRunning s'.heap

theorem Orderly.next {s : Watched} {h : Heap} (hs : Orderly s.trail) (hh : s.heap.Precedes h) :
    Orderly (s.next h).trail where
  startedOnce := by
    intro e he
    rcases List.mem_cons.1 he with rfl | he
    · intro loc
      exact Cell.startedOnce_of_reflTransGen (hh loc)
        (hs.startedOnce s.heap List.mem_cons_self loc)
    · exact hs.startedOnce e he
  ordered := by
    refine List.pairwise_cons.2 ⟨fun e he => ?_, hs.ordered⟩
    rcases List.mem_cons.1 he with rfl | he
    · exact hh
    · exact ((List.pairwise_cons.1 hs.ordered).1 e he).trans hh

namespace Watched.Leads

variable {s s' s'' : Watched}

theorem refl (s : Watched) : s.Leads s :=
  ⟨fun hs => hs, fun _ _ hc _ => hc⟩

theorem trans (h : s.Leads s') (h' : s'.Leads s'') : s.Leads s'' :=
  ⟨fun hs => h'.orderly (h.orderly hs), h.running.trans h'.running⟩

theorem next {h : Heap} (hh : s.heap.Precedes h) (hrunning : s.heap.KeepsRunning h) :
    s.Leads (s.next h) :=
  ⟨fun hs => hs.next hh, hrunning⟩

theorem started {loc : Nat} {tree : Tree} {env : Env} {r : Except EvalError Value}
    (hp : s.heap.progress? loc = some (.pending tree env))
    (h : (s.next (s.heap.start loc)).Leads s') : s.Leads (s'.next (s'.heap.finish loc r)) := by
  obtain ⟨runs, hpending⟩ := Heap.exists_cell hp
  have hstart : (s.heap.start loc).cells[loc]? = some ⟨.running, runs + 1⟩ := by
    rw [Heap.getElem?_start, if_pos rfl, hpending, Option.map_some]
  have hrunning : s'.heap.progress? loc = some .running :=
    Heap.progress?_of_cell (h.running loc _ hstart rfl)
  refine ⟨fun hs => ?_, fun l c hc hc' => ?_⟩
  · exact (h.orderly (hs.next (Heap.precedes_start hp))).next (Heap.precedes_finish hrunning r)
  · -- What ran before is another computation.
    have hne : loc ≠ l := by
      rintro rfl
      obtain rfl : ⟨.pending tree env, runs⟩ = c := Option.some.inj (hpending.symm.trans hc)
      cases hc'
    show (s'.heap.finish loc r).cells[l]? = some c
    rw [Heap.getElem?_finish, if_neg hne]
    refine h.running l c ?_ hc'
    show (s.heap.start loc).cells[l]? = some c
    rw [Heap.getElem?_start, if_neg hne, hc]

end Watched.Leads

/-! ## The watched evaluator -/

namespace Observer

theorem erases_of_watch {α : Type} {m : WatchedM α} {m' : EvalM α} (h : watch.Tracks m m')
    (s : Watched) : m' s.heap = (m s).map fun p => (p.1, p.2.heap) := by
  refine (h.erases rfl s).trans (congrArg (fun f => (m s).map f) (funext fun p => ?_))
  exact congrArg (fun r => (r, p.2.heap)) (mapError_self p.1)

theorem watch_allows_leads : watch.Allows Watched.Leads where
  refl := .refl
  trans := .trans
  still _ _ hcells := .next (Heap.precedes_of_cells hcells) (Heap.keepsRunning_of_cells hcells)
  delay s t env := .next (s.heap.precedes_delay t env) (s.heap.keepsRunning_delay t env)

theorem watch_force_keeps {n : Nat} (hrun : ∀ t env, (evalWatched n t env).Keeps Watched.Leads)
    (slot : Slot) : (watch.force (evalWatched n) slot).Keeps Watched.Leads := by
  cases slot with
  | ready v => exact watch_allows_leads.keeps_pure v
  | delayed loc =>
      intro s r s' hr
      have hstays : s.Leads (s.next s.heap) := watch_allows_leads.still s s.heap rfl
      simp only [force] at hr
      cases hp : (watch.heap s).progress? loc with
      | none =>
          rw [hp] at hr
          cases hr
          exact hstays
      | some p =>
          rw [hp] at hr
          cases p with
          | running =>
              cases hr
              exact hstays
          | finished r =>
              cases hr
              exact hstays
          | pending t env =>
              obtain ⟨⟨r₁, s₁⟩, hrun', heq⟩ := Option.map_eq_some_iff.1 hr
              obtain ⟨rfl, rfl⟩ := Prod.mk.inj heq
              exact .started hp (hrun t env _ r₁ s₁ hrun')

end Observer

theorem evalWatched_keeps (fuel : Nat) (t : Tree) (env : Env) :
    (evalWatched fuel t env).Keeps Watched.Leads :=
  Observer.watch_allows_leads.eval_keeps (fun _ => Observer.watch_force_keeps) fuel t env

theorem eval_keepsRunning {fuel : Nat} {t : Tree} {env : Env} {h h' : Heap}
    {r : Except EvalError Value} (hrun : eval fuel t env h = some (r, h')) : h.KeepsRunning h' := by
  rw [Observer.erases_of_watch (Observer.watch.eval_tracks fuel t env) ⟨h, []⟩] at hrun
  obtain ⟨⟨r', s'⟩, hs', heq⟩ := Option.map_eq_some_iff.1 hrun
  obtain ⟨rfl, rfl⟩ := Prod.mk.inj heq
  exact (evalWatched_keeps fuel t env _ r' s' hs').running

/-- The reading that starts a computation finishes it with what it returns. -/
theorem Slot.force_pending {fuel loc runs : Nat} {tree : Tree} {env : Env} {h h' : Heap}
    {r : Except EvalError Value} (hc : h.cells[loc]? = some ⟨.pending tree env, runs⟩)
    (hforce : (Slot.delayed loc).force (eval fuel) h = some (r, h')) :
    h'.cells[loc]? = some ⟨.finished r, runs + 1⟩ := by
  rw [Slot.force_delayed, Heap.progress?_of_cell hc] at hforce
  obtain ⟨⟨r₁, h₁⟩, hrun, heq⟩ := Option.map_eq_some_iff.1 hforce
  obtain ⟨rfl, rfl⟩ := Prod.mk.inj heq
  have hstart : (h.start loc).cells[loc]? = some ⟨.running, runs + 1⟩ := by
    rw [Heap.getElem?_start, if_pos rfl, hc, Option.map_some]
  rw [Heap.getElem?_finish, if_pos rfl, eval_keepsRunning hrun loc _ hstart rfl, Option.map_some]

/-! ## Sequences of operations -/

def EvalM.delayRec (id : VarId) (tree : Tree) (env : Env) : EvalM Slot :=
  fun h =>
    let (slot, h) := h.delayRec id tree env
    some (.ok slot, h)

inductive Operation where
  | delay (tree : Tree) (env : Env)
  /-- Delay a tree in which variable `id` stands for the new slot. -/
  | delayRec (id : VarId) (tree : Tree) (env : Env)
  | force (slot : Slot)
  | eval (tree : Tree) (env : Env)
  | call (func : Value) (arg : Slot)

namespace Operation

def perform (fuel : Nat) : Operation → EvalM Slot
  | delay tree env => EvalM.delay tree env
  | delayRec id tree env => EvalM.delayRec id tree env
  | force slot => do return .ready (← slot.force (ExprTree.eval fuel))
  | eval tree env => do return .ready (← ExprTree.eval fuel tree env)
  | call func arg => do return .ready (← func.call (ExprTree.eval fuel) arg)

def watch (fuel : Nat) : Operation → WatchedM Slot
  | delay tree env => Observer.watch.lift (EvalM.delay tree env)
  | delayRec id tree env => Observer.watch.lift (EvalM.delayRec id tree env)
  | force slot => do return .ready (← Observer.watch.force (evalWatched fuel) slot)
  | eval tree env => do return .ready (← evalWatched fuel tree env)
  | call func arg => do return .ready (← Observer.watch.call (evalWatched fuel) arg func)

theorem watch_tracks (fuel : Nat) (op : Operation) :
    Observer.watch.Tracks (op.watch fuel) (op.perform fuel) := by
  have heval := Observer.watch.eval_tracks fuel
  cases op with
  | delay tree env => exact .lift _
  | delayRec id tree env => exact .lift _
  | force slot => exact (Observer.Tracks.force heval slot).bind fun v => .pure (Slot.ready v)
  | eval tree env => exact (heval tree env).bind fun v => .pure (Slot.ready v)
  | call func arg => exact (Observer.Tracks.call heval arg func).bind fun v => .pure (Slot.ready v)

theorem watch_keeps (fuel : Nat) (op : Operation) : (op.watch fuel).Keeps Watched.Leads := by
  have heval := evalWatched_keeps fuel
  have hleads := Observer.watch_allows_leads
  cases op with
  | delay tree env => exact hleads.keeps_delay tree env
  | delayRec id tree env =>
      refine Observer.Allows.keeps_lift ?_
      rintro s r h ⟨⟩
      exact hleads.delay s tree _
  | force slot =>
      exact hleads.keeps_bind (Observer.watch_force_keeps heval slot) fun _ => hleads.keeps_pure _
  | eval tree env => exact hleads.keeps_bind (heval tree env) fun _ => hleads.keeps_pure _
  | call func arg =>
      exact hleads.keeps_bind (hleads.keeps_call heval arg func) fun _ => hleads.keeps_pure _

end Operation

/-- The operations come to an end one after the other, with or without a value, and lead from
nothing to this heap. -/
inductive Performed : List Operation → Heap → Prop where
  | none : Performed [] .empty
  | next {ops : List Operation} {op : Operation} {fuel : Nat} {h h' : Heap}
      {r : Except EvalError Slot} :
      Performed ops h → op.perform fuel h = some (r, h') → Performed (ops ++ [op]) h'

inductive Session : List Operation → Watched → Prop where
  | none : Session [] ⟨.empty, []⟩
  | next {ops : List Operation} {op : Operation} {fuel : Nat} {s s' : Watched}
      {r : Except EvalError Slot} :
      Session ops s → op.watch fuel s = some (r, s') → Session (ops ++ [op]) s'

theorem Session.performed {ops : List Operation} {s : Watched} (h : Session ops s) :
    Performed ops s.heap := by
  induction h with
  | none => exact .none
  | @next ops op fuel s s' r _ hop ih =>
      have herased := Observer.erases_of_watch (op.watch_tracks fuel) s
      rw [hop] at herased
      exact ih.next herased

theorem Performed.exists_session {ops : List Operation} {h : Heap} (hops : Performed ops h) :
    ∃ past, Session ops ⟨h, past⟩ := by
  induction hops with
  | none => exact ⟨[], .none⟩
  | @next ops op fuel h h' r _ hop ih =>
      obtain ⟨past, hsession⟩ := ih
      rw [Observer.erases_of_watch (op.watch_tracks fuel) ⟨h, past⟩] at hop
      obtain ⟨⟨r', s'⟩, hs', heq⟩ := Option.map_eq_some_iff.1 hop
      obtain ⟨_, rfl⟩ := Prod.mk.inj heq
      exact ⟨s'.past, .next hsession hs'⟩

theorem Session.orderly {ops : List Operation} {s : Watched} (h : Session ops s) :
    Orderly s.trail := by
  induction h with
  | none =>
      refine ⟨fun h hh loc c hc => ?_, List.pairwise_singleton _ _⟩
      obtain rfl : h = .empty := List.mem_singleton.1 hh
      simp [Heap.empty] at hc
  | @next ops op fuel s s' r _ hop ih => exact (op.watch_keeps fuel s r s' hop).orderly ih

structure RunOnce (trail : List Heap) : Prop where
  /-- None is started twice. -/
  runs_le_one : ∀ h ∈ trail, ∀ slot, h.runs slot ≤ 1
  /-- The first reading starts it, and returns what it finishes with. -/
  first_reading : ∀ h ∈ trail, ∀ loc tree env, h.progress? loc = some (.pending tree env) →
    ∀ fuel r h', (Slot.delayed loc).force (eval fuel) h = some (r, h') →
      h'.progress? loc = some (.finished r) ∧ h'.runs (.delayed loc) = 1
  /-- Once started it is running or finished. -/
  stays_started : ∀ later h earlier, trail = later ++ h :: earlier → ∀ loc,
    h.progress? loc = some .running → ∀ h' ∈ later,
      h'.progress? loc = some .running ∨ ∃ r, h'.progress? loc = some (.finished r)
  /-- While it is running, each reading fails and does nothing. -/
  inner_reading : ∀ h ∈ trail, ∀ loc, h.progress? loc = some .running →
    ∀ run, (Slot.delayed loc).force run h = some (.error .cyclicBinding, h)
  /-- From when it has finished, each reading returns what it finished with and does nothing. -/
  later_reading : ∀ later h earlier, trail = later ++ h :: earlier → ∀ loc r,
    h.progress? loc = some (.finished r) → ∀ h' ∈ h :: later,
      ∀ run, (Slot.delayed loc).force run h' = some (r, h')

namespace Orderly

variable {trail : List Heap}

theorem precedes (ho : Orderly trail) {later earlier : List Heap} {h h' : Heap}
    (htrail : trail = later ++ h :: earlier) (hh' : h' ∈ later) : h.Precedes h' := by
  subst htrail
  exact (List.pairwise_append.1 ho.ordered).2.2 h' hh' h List.mem_cons_self

theorem runOnce (ho : Orderly trail) : RunOnce trail where
  runs_le_one := by
    intro h hh slot
    cases slot with
    | ready v => exact Nat.zero_le 1
    | delayed loc =>
        rw [Heap.runs]
        cases hc : h.cells[loc]? with
        | none => exact Nat.zero_le 1
        | some c =>
            exact (ho.startedOnce h hh loc c hc).runs_le_one
  first_reading := by
    intro h hh loc tree env hp fuel r h' hforce
    obtain ⟨runs, hc⟩ := Heap.exists_cell hp
    obtain rfl : runs = 0 := ho.startedOnce h hh loc _ hc
    have hc' := Slot.force_pending hc hforce
    exact ⟨Heap.progress?_of_cell hc', by rw [Heap.runs, hc', Option.map_some, Option.getD_some]⟩
  stays_started := by
    intro later h earlier htrail loc hrunning h' hh'
    obtain ⟨runs, hc⟩ := Heap.exists_cell hrunning
    have hlife := ho.precedes htrail hh' loc
    rw [hc] at hlife
    rcases Cell.cases_of_running hlife with hc' | ⟨r, hc'⟩
    · exact .inl (Heap.progress?_of_cell hc')
    · exact .inr ⟨r, Heap.progress?_of_cell hc'⟩
  inner_reading := by
    intro h _ loc hrunning run
    rw [Slot.force_delayed, hrunning]
  later_reading := by
    intro later h earlier htrail loc r hfinished h' hh' run
    have hkept : h'.progress? loc = some (.finished r) := by
      rcases List.mem_cons.1 hh' with rfl | hh'
      · exact hfinished
      · obtain ⟨runs, hc⟩ := Heap.exists_cell hfinished
        have hlife := ho.precedes htrail hh' loc
        rw [hc] at hlife
        exact Heap.progress?_of_cell (Cell.eq_of_finished hlife)
    rw [Slot.force_delayed, hkept]

end Orderly

/-- Delayed computations are started at most once and their results are stable, at every moment of
every sequence of operations: the first reading of a slot runs its computation, readings from
inside fail and do nothing, and all later readings return the same result. -/
theorem Session.delayed_run_once (ops : List Operation) :
    (∀ h, Performed ops h ↔ ∃ past, Session ops ⟨h, past⟩)
      ∧ ∀ s, Session ops s → RunOnce s.trail := by
  refine ⟨fun h => ⟨Performed.exists_session, ?_⟩, fun s hs => hs.orderly.runOnce⟩
  rintro ⟨past, hsession⟩
  exact hsession.performed

private def successorOf (id : VarId) : Tree :=
  .node (.node (.leaf (.arith .add)) (.leaf (.var id .int))) (.leaf (.int 1))

private def selfAndSum : List Operation :=
  [.delayRec 0 (successorOf 0) .empty, .force (.delayed 0),
    .delay (successorOf 1) (.bind 1 (.ready (.int 2)) .empty),
    .eval (successorOf 3) (.bind 3 (.delayed 1) .empty),
    .eval (successorOf 5) (.bind 5 (.delayed 0) .empty)]

theorem Session.delayed_run_once_selfAndSum :
    ∃ h past, h.progress? 0 = some (.finished (.error .cyclicBinding))
      ∧ h.progress? 1 = some (.finished (.ok (.int 3))) ∧ h.runs (.delayed 0) = 1
      ∧ h.runs (.delayed 1) = 1 ∧ Performed selfAndSum h ∧ Session selfAndSum ⟨h, past⟩
      ∧ RunOnce (h :: past) := by
  have hself : (Operation.delayRec 0 (successorOf 0) .empty).perform 0 .empty =
      some (.ok (.delayed 0), _) := rfl
  have hforce := (Performed.none.next hself).next
    (show (Operation.force (.delayed 0)).perform 3 _ = some (.error .cyclicBinding, _) from rfl)
  have hdelay := hforce.next
    (show (Operation.delay (successorOf 1) (.bind 1 (.ready (.int 2)) .empty)).perform 0 _ =
      some (.ok (.delayed 1), _) from rfl)
  have hsum := hdelay.next
    (show (Operation.eval (successorOf 3) (.bind 3 (.delayed 1) .empty)).perform 4 _ =
      some (.ok (.ready (.int 4)), _) from rfl)
  have hagain := hsum.next
    (show (Operation.eval (successorOf 5) (.bind 5 (.delayed 0) .empty)).perform 4 _ =
      some (.error .cyclicBinding, _) from rfl)
  obtain ⟨hiff, honce⟩ := Session.delayed_run_once selfAndSum
  obtain ⟨past, hsession⟩ := (hiff _).1 hagain
  exact ⟨_, past, rfl, rfl, rfl, rfl, hagain, hsession, honce _ hsession⟩

end ExprTree

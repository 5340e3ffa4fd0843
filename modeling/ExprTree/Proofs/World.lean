import ExprTree.Proofs.ByName
/-!
# The heap as evaluation by name sees it

A world lists delayed computations of a heap, each with the slot that evaluation
by name has in its place. It is in order of dependency: what a computation needs
stands behind it. A slot keeps its place in the world when its computation
finishes, so evaluation by name can always begin again where the heap only
looks up.
-/

namespace ExprTree

/-- Locations of the heap and what they stand for, the most dependent one first. -/
abbrev World := List (Nat × NameSlot)

/-! ## Reading -/

mutual

/-- The value `v` stands for `v'` in a world. -/
inductive Value.Reads (w : World) : Value → NameValue → Prop where
  | bool (b : Bool) : Value.Reads w (.bool b) (.bool b)
  | int (n : Int64) : Value.Reads w (.int n) (.int n)
  | closure (tag : Nat) (param : VarId) (body : Tree) {env : Env} {env' : NameEnv} :
      Env.Reads w env env' →
        Value.Reads w (.closure tag param body env) (.closure param body env')

inductive Slot.Reads (w : World) : Slot → NameSlot → Prop where
  | ready {v : Value} {v' : NameValue} : Value.Reads w v v' → Slot.Reads w (.ready v) (.ready v')
  | delayed {loc : Nat} {slot' : NameSlot} : (loc, slot') ∈ w → Slot.Reads w (.delayed loc) slot'

/-- The same variables are bound, to slots that stand for one another. -/
inductive Env.Reads (w : World) : Env → NameEnv → Prop where
  | intro {env : Env} {env' : NameEnv} :
      (∀ id, (env.get? id).isSome = (env'.get? id).isSome) →
        (∀ id slot slot', env.get? id = some slot → env'.get? id = some slot' →
          Slot.Reads w slot slot') →
        Env.Reads w env env'

end

mutual

theorem Value.Reads.mono {w w' : World} (hw : w ⊆ w') {v : Value} {v' : NameValue} :
    v.Reads w v' → v.Reads w' v'
  | .bool b => .bool b
  | .int n => .int n
  | .closure tag param body henv => .closure tag param body (Env.Reads.mono hw henv)

theorem Slot.Reads.mono {w w' : World} (hw : w ⊆ w') {slot : Slot} {slot' : NameSlot} :
    slot.Reads w slot' → slot.Reads w' slot'
  | .ready hv => .ready (Value.Reads.mono hw hv)
  | .delayed hmem => .delayed (hw hmem)

theorem Env.Reads.mono {w w' : World} (hw : w ⊆ w') {env : Env} {env' : NameEnv} :
    env.Reads w env' → env.Reads w' env'
  | .intro hbound hslots =>
      .intro hbound fun id slot slot' h h' => Slot.Reads.mono hw (hslots id slot slot' h h')

end

theorem Env.Reads.get? {w : World} {env : Env} {env' : NameEnv} (h : env.Reads w env') {id : VarId}
    {slot : Slot} (hget : env.get? id = some slot) :
    ∃ slot', env'.get? id = some slot' ∧ slot.Reads w slot' := by
  obtain ⟨hbound, hslots⟩ := h
  have hsome : (env'.get? id).isSome = true := by rw [← hbound id, hget, Option.isSome_some]
  obtain ⟨slot', hget'⟩ := Option.isSome_iff_exists.1 hsome
  exact ⟨slot', hget', hslots id slot slot' hget hget'⟩

theorem Env.Reads.get?_eq_none {w : World} {env : Env} {env' : NameEnv} (h : env.Reads w env')
    {id : VarId} (hget : env.get? id = none) : env'.get? id = none := by
  obtain ⟨hbound, _⟩ := h
  have hid := hbound id
  rw [hget] at hid
  simpa using hid.symm

theorem Env.Reads.bind {w : World} {env : Env} {env' : NameEnv} {slot : Slot} {slot' : NameSlot}
    (henv : env.Reads w env') (hslot : slot.Reads w slot') (id : VarId) :
    (Env.bind id slot env).Reads w (.bind id slot' env') := by
  obtain ⟨hbound, hslots⟩ := henv
  refine .intro (fun x => ?_) fun x s s' hs hs' => ?_
  · by_cases hx : id = x <;> simp [Env.get?, NameEnv.get?, hx, hbound]
  · by_cases hx : id = x
    · simp only [Env.get?, NameEnv.get?, hx, if_true, Option.some.injEq] at hs hs'
      exact hs ▸ hs' ▸ hslot
    · simp only [Env.get?, NameEnv.get?, hx, if_false] at hs hs'
      exact hslots x s s' hs hs'

/-! ## Worlds that a heap upholds -/

theorem Observer.marks_force_delayed (run : Tree → Env → MarkedM Value) (loc : Nat)
    (s : MarkedHeap) :
    marks.force run (.delayed loc) s =
      match s.heap.progress? loc with
      | some (.pending t env) => (run t env (s.start loc)).map fun p => (p.1, p.2.finish loc p.1)
      | some (.finished r) => some (s.marked loc r, s)
      | some .running => some (.error (.plain .cyclicBinding), s)
      | none => some (.error (.plain .cyclicBinding), s) := rfl

def Heap.add (h : Heap) (p : Progress) : Heap :=
  { h with cells := h.cells.push ⟨p, 0⟩ }

/-- The heap upholds the entry of `loc`: the computation there is the delayed one,
or its result is kept. What it needs is in `w`. -/
inductive MarkedHeap.Upholds (s : MarkedHeap) (w : World) (loc : Nat) : NameSlot → Prop where
  | pending {t : Tree} {env : Env} {env' : NameEnv} :
      s.heap.progress? loc = some (.pending t env) → env.Reads w env' →
        MarkedHeap.Upholds s w loc (.delayed t env')
  | finished {r : Except EvalError Value} {slot : NameSlot} {r' : Except Failure NameValue} :
      s.heap.progress? loc = some (.finished r) →
        Settles (fun k => slot.force (evalByName k)) r' →
        Related (Value.Reads w) (s.marked loc r) r' →
        MarkedHeap.Upholds s w loc slot

/-- The heap upholds every entry of a world, and no location has two entries. -/
def World.Holds (s : MarkedHeap) : World → Prop
  | [] => True
  | e :: w => s.Upholds w e.1 e.2 ∧ (∀ e' ∈ w, e'.1 ≠ e.1) ∧ World.Holds s w

def MarkedHeap.SameAt (s s' : MarkedHeap) (loc : Nat) : Prop :=
  s'.heap.progress? loc = s.heap.progress? loc ∧ s'.inTest loc = s.inTest loc

/-- From `s` with world `w` to `s'` with world `w'`: all entries stay, new ones
are of new locations, and locations outside `w` are left alone. -/
structure World.Extends (s : MarkedHeap) (w : World) (s' : MarkedHeap) (w' : World) : Prop where
  subset : w ⊆ w'
  fresh : ∀ e ∈ w', e ∈ w ∨ s.heap.cells.size ≤ e.1
  size_le : s.heap.cells.size ≤ s'.heap.cells.size
  frame : ∀ loc, loc < s.heap.cells.size → (∀ e ∈ w, e.1 ≠ loc) → s.SameAt s' loc

namespace Heap

theorem progress?_start (h : Heap) (loc l : Nat) :
    (h.start loc).progress? l =
      if l = loc ∧ l < h.cells.size then some .running else h.progress? l := by
  by_cases hl : l < h.cells.size
  · by_cases hloc : l = loc
    · subst hloc
      simp [start, progress?, hl, Array.getElem_modify]
    · simp [start, progress?, Array.getElem?_modify, hloc, Ne.symm hloc]
  · simp [start, progress?, hl]

theorem progress?_finish (h : Heap) (loc l : Nat) (r : Except EvalError Value) :
    (h.finish loc r).progress? l =
      if l = loc ∧ l < h.cells.size then some (.finished r) else h.progress? l := by
  by_cases hl : l < h.cells.size
  · by_cases hloc : l = loc
    · subst hloc
      simp [finish, progress?, hl, Array.getElem_modify]
    · simp [finish, progress?, Array.getElem?_modify, hloc, Ne.symm hloc]
  · simp [finish, progress?, hl]

theorem progress?_add (h : Heap) (p : Progress) (l : Nat) :
    (h.add p).progress? l = if l = h.cells.size then some p else h.progress? l := by
  by_cases hl : l = h.cells.size
  · simp [add, progress?, hl]
  · simp [add, progress?, Array.getElem?_push, hl]

theorem lt_size_of_progress? {h : Heap} {loc : Nat} {p : Progress} (hp : h.progress? loc = some p) :
    loc < h.cells.size := by
  obtain ⟨c, hc, _⟩ := Option.map_eq_some_iff.1 hp
  exact (Array.getElem?_eq_some_iff.1 hc).1

@[simp] theorem size_start (h : Heap) (loc : Nat) : (h.start loc).cells.size = h.cells.size := by
  simp [start]

@[simp] theorem size_finish (h : Heap) (loc : Nat) (r : Except EvalError Value) :
    (h.finish loc r).cells.size = h.cells.size := by
  simp [finish]

@[simp] theorem size_add (h : Heap) (p : Progress) :
    (h.add p).cells.size = h.cells.size + 1 := by
  simp [add]

end Heap

namespace MarkedHeap

theorem SameAt.trans {s s' s'' : MarkedHeap} {loc : Nat} (h : s.SameAt s' loc)
    (h' : s'.SameAt s'' loc) : s.SameAt s'' loc :=
  ⟨h'.1.trans h.1, h'.2.trans h.2⟩

theorem sameAt_start (s : MarkedHeap) {loc l : Nat} (hne : l ≠ loc) :
    s.SameAt (s.start loc) l := by
  refine ⟨?_, rfl⟩
  simp [start, Heap.progress?_start, hne]

theorem marked_finish (s : MarkedHeap) (loc : Nat) (r : Except Failure Value) :
    (s.finish loc r).marked loc (r.mapError Failure.error) = r := by
  cases r with
  | ok v => rfl
  | error f =>
      show Except.error ⟨f.error, if loc = loc then f.inTest else s.inTest loc⟩ = .error f
      rw [if_pos rfl]

theorem sameAt_finish (s : MarkedHeap) {loc l : Nat} (hne : l ≠ loc) (r : Except Failure Value) :
    s.SameAt (s.finish loc r) l := by
  refine ⟨?_, ?_⟩
  · simp [heap_finish, Heap.progress?_finish, hne]
  · cases r <;> simp [finish, hne]

theorem sameAt_add (s : MarkedHeap) (p : Progress) {inTest : Nat → Bool} {l : Nat}
    (hl : l < s.heap.cells.size) (hmark : inTest l = s.inTest l) :
    s.SameAt ⟨s.heap.add p, inTest⟩ l := by
  refine ⟨?_, hmark⟩
  rw [Heap.progress?_add, if_neg (Nat.ne_of_lt hl)]

theorem Upholds.congr {s s' : MarkedHeap} {w : World} {loc : Nat} {slot : NameSlot}
    (h : s.Upholds w loc slot) (hsame : s.SameAt s' loc) : s'.Upholds w loc slot := by
  obtain ⟨hprogress, hmark⟩ := hsame
  cases h with
  | pending hp henv => exact .pending (hprogress.trans hp) henv
  | finished hp hsettles hr =>
      refine .finished (hprogress.trans hp) hsettles ?_
      cases ‹Except EvalError Value› with
      | ok v => exact hr
      | error e => simpa only [marked, hmark] using hr

theorem Upholds.mono {s : MarkedHeap} {w w' : World} {loc : Nat} {slot : NameSlot}
    (h : s.Upholds w loc slot) (hw : w ⊆ w') : s.Upholds w' loc slot := by
  cases h with
  | pending hp henv => exact .pending hp (henv.mono hw)
  | finished hp hsettles hr => exact .finished hp hsettles (hr.mono fun _ _ hv => hv.mono hw)

theorem Upholds.lt_size {s : MarkedHeap} {w : World} {loc : Nat} {slot : NameSlot}
    (h : s.Upholds w loc slot) : loc < s.heap.cells.size := by
  cases h with
  | pending hp _ => exact Heap.lt_size_of_progress? hp
  | finished hp _ _ => exact Heap.lt_size_of_progress? hp

end MarkedHeap

namespace World

theorem Holds.lt_size {s : MarkedHeap} {w : World} (h : w.Holds s) :
    ∀ e ∈ w, e.1 < s.heap.cells.size := by
  induction w with
  | nil => simp
  | cons e w ih =>
      intro e' he'
      rcases List.mem_cons.1 he' with rfl | he'
      · exact h.1.lt_size
      · exact ih h.2.2 e' he'

theorem Holds.congr {s s' : MarkedHeap} {w : World} (h : w.Holds s)
    (hsame : ∀ e ∈ w, s.SameAt s' e.1) : w.Holds s' := by
  induction w with
  | nil => trivial
  | cons e w ih =>
      exact ⟨h.1.congr (hsame e (by simp)), h.2.1,
        ih h.2.2 fun e' he' => hsame e' (List.mem_cons_of_mem e he')⟩

theorem Holds.of_append {s : MarkedHeap} {w₂ w₁ : World} (h : Holds s (w₂ ++ w₁)) : w₁.Holds s := by
  induction w₂ with
  | nil => exact h
  | cons e w₂ ih => exact ih h.2.2

/-- A location of the front part of a world is none of the back part. -/
theorem Holds.ne_of_mem_append {s : MarkedHeap} {w₂ w₁ : World} (h : Holds s (w₂ ++ w₁)) :
    ∀ e₂ ∈ w₂, ∀ e₁ ∈ w₁, e₁.1 ≠ e₂.1 := by
  induction w₂ with
  | nil => simp
  | cons e w₂ ih =>
      intro e₂ he₂ e₁ he₁
      rcases List.mem_cons.1 he₂ with rfl | he₂
      · exact h.2.1 e₁ (List.mem_append_right w₂ he₁)
      · exact ih h.2.2 e₂ he₂ e₁ he₁

/-- The back part of a world may grow, as long as the front part is left alone. -/
theorem Holds.append_of_extends {s s' : MarkedHeap} {w₂ w₁ w₁' : World}
    (h : Holds s (w₂ ++ w₁)) (h' : w₁'.Holds s') (hsub : w₁ ⊆ w₁')
    (hfresh : ∀ e ∈ w₁', e ∈ w₁ ∨ s.heap.cells.size ≤ e.1)
    (hsame : ∀ e ∈ w₂, s.SameAt s' e.1) : Holds s' (w₂ ++ w₁') := by
  induction w₂ with
  | nil => exact h'
  | cons e w₂ ih =>
      obtain ⟨hup, hne, hrest⟩ := h
      have hmono : w₂ ++ w₁ ⊆ w₂ ++ w₁' := by
        intro x hx
        rcases List.mem_append.1 hx with hx | hx
        · exact List.mem_append_left w₁' hx
        · exact List.mem_append_right w₂ (hsub hx)
      refine ⟨(hup.mono hmono).congr (hsame e (by simp)), fun x hx => ?_,
        ih hrest fun x hx => hsame x (List.mem_cons_of_mem e hx)⟩
      rcases List.mem_append.1 hx with hx | hx
      · exact hne x (List.mem_append_left w₁ hx)
      · rcases hfresh x hx with hx | hx
        · exact hne x (List.mem_append_right w₂ hx)
        · have hlt := hup.lt_size
          omega

theorem Holds.add_entry {s : MarkedHeap} {w : World} (hw : w.Holds s) {p : Progress}
    {inTest : Nat → Bool} (hmarks : ∀ l, l < s.heap.cells.size → inTest l = s.inTest l)
    {slot' : NameSlot} (hup : MarkedHeap.Upholds ⟨s.heap.add p, inTest⟩ w s.heap.cells.size slot') :
    Holds ⟨s.heap.add p, inTest⟩ ((s.heap.cells.size, slot') :: w) := by
  refine ⟨hup, fun e he => Nat.ne_of_lt (hw.lt_size e he), hw.congr fun e he => ?_⟩
  exact s.sameAt_add p (hw.lt_size e he) (hmarks e.1 (hw.lt_size e he))

theorem Holds.add_pending {s : MarkedHeap} {w : World} (hw : w.Holds s) (t : Tree) {env : Env}
    {env' : NameEnv} (henv : env.Reads w env') :
    Holds { s with heap := s.heap.add (.pending t env) }
      ((s.heap.cells.size, .delayed t env') :: w) := by
  refine hw.add_entry (fun _ _ => rfl) (.pending ?_ henv)
  rw [Heap.progress?_add, if_pos rfl]

theorem Extends.refl (s : MarkedHeap) (w : World) : Extends s w s w where
  subset := fun _ he => he
  fresh := fun _ he => .inl he
  size_le := Nat.le_refl _
  frame := fun _ _ _ => ⟨rfl, rfl⟩

theorem Extends.trans {s s' s'' : MarkedHeap} {w w' w'' : World} (h : Extends s w s' w')
    (h' : Extends s' w' s'' w'') : Extends s w s'' w'' where
  subset := fun _ he => h'.subset (h.subset he)
  fresh := by
    intro e he
    rcases h'.fresh e he with he | hle
    · exact h.fresh e he
    · exact .inr (Nat.le_trans h.size_le hle)
  size_le := Nat.le_trans h.size_le h'.size_le
  frame := by
    intro loc hlt hout
    have hout' : ∀ e ∈ w', e.1 ≠ loc := by
      intro e he
      rcases h.fresh e he with he | hle
      · exact hout e he
      · omega
    obtain ⟨hp, hm⟩ := h.frame loc hlt hout
    obtain ⟨hp', hm'⟩ := h'.frame loc (Nat.lt_of_lt_of_le hlt h.size_le) hout'
    exact ⟨hp'.trans hp, hm'.trans hm⟩

end World

end ExprTree

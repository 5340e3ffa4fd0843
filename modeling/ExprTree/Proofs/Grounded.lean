import ExprTree.Proofs.Sharing
/-!
# Values that depend on no running computation

A value is *grounded* when no computation that it can reach on the heap is
running or waits for itself. These are the values that evaluation by name can
read: they extend every world of the heap, and all that can be read is grounded.

Every evaluation that ends keeps what could be read before, whatever tree and
environment it is of, and everything by name has its place on some later heap.
-/

namespace ExprTree

mutual

/-- No computation that the value can reach is running or waits for itself. -/
inductive Value.Grounded (h : Heap) : Value → Prop where
  | bool (b : Bool) : Value.Grounded h (.bool b)
  | int (n : Int64) : Value.Grounded h (.int n)
  | closure (tag : Nat) (param : VarId) (body : Tree) {env : Env} :
      Env.Grounded h env → Value.Grounded h (.closure tag param body env)

inductive Slot.Grounded (h : Heap) : Slot → Prop where
  | ready {v : Value} : Value.Grounded h v → Slot.Grounded h (.ready v)
  | pending {loc : Nat} {t : Tree} {env : Env} :
      h.progress? loc = some (.pending t env) → Env.Grounded h env → Slot.Grounded h (.delayed loc)
  | finished {loc : Nat} {v : Value} :
      h.progress? loc = some (.finished (.ok v)) → Value.Grounded h v →
        Slot.Grounded h (.delayed loc)
  | failed {loc : Nat} {e : EvalError} :
      h.progress? loc = some (.finished (.error e)) → Slot.Grounded h (.delayed loc)

inductive Env.Grounded (h : Heap) : Env → Prop where
  | intro {env : Env} : (∀ id slot, env.get? id = some slot → Slot.Grounded h slot) →
      Env.Grounded h env

end

theorem Env.Grounded.empty {h : Heap} : Env.Grounded h .empty :=
  .intro fun _ _ hget => by cases hget

theorem Env.Grounded.bind {h : Heap} {env : Env} (id : VarId) {slot : Slot}
    (hslot : slot.Grounded h) (henv : env.Grounded h) : Env.Grounded h (.bind id slot env) := by
  obtain ⟨henv⟩ := henv
  refine .intro fun x slot' hx => ?_
  rw [Env.get?] at hx
  split at hx
  · exact Option.some.inj hx ▸ hslot
  · exact henv x slot' hx

/-! ## What can be read is grounded -/

mutual

theorem Value.Reads.grounded {h : Heap} {w : World}
    (hw : ∀ e ∈ w, Slot.Grounded h (.delayed e.1)) {v : Value} {v' : NameValue} :
    v.Reads w v' → v.Grounded h
  | .bool b => .bool b
  | .int n => .int n
  | .closure tag param body henv => .closure tag param body (Env.Reads.grounded hw henv)

theorem Slot.Reads.grounded {h : Heap} {w : World}
    (hw : ∀ e ∈ w, Slot.Grounded h (.delayed e.1)) {slot : Slot} {slot' : NameSlot} :
    slot.Reads w slot' → slot.Grounded h
  | .ready hv => .ready (Value.Reads.grounded hw hv)
  | .delayed hmem => hw _ hmem

theorem Env.Reads.grounded {h : Heap} {w : World}
    (hw : ∀ e ∈ w, Slot.Grounded h (.delayed e.1)) {env : Env} {env' : NameEnv} :
    env.Reads w env' → env.Grounded h
  | .intro hbound hslots => .intro fun id slot hget => by
      have hsome : (env'.get? id).isSome = true := by rw [← hbound id, hget, Option.isSome_some]
      obtain ⟨slot', hget'⟩ := Option.isSome_iff_exists.1 hsome
      exact Slot.Reads.grounded hw (hslots id slot slot' hget hget')

end

theorem World.Holds.grounded {s : MarkedHeap} {w : World} (h : w.Holds s) :
    ∀ e ∈ w, Slot.Grounded s.heap (.delayed e.1) := by
  induction w with
  | nil => simp
  | cons e w ih =>
      obtain ⟨loc, slot⟩ := e
      obtain ⟨hup, _, hrest⟩ := h
      intro e' he'
      rcases List.mem_cons.1 he' with rfl | he'
      · cases hup with
        | pending hp henv => exact .pending hp (henv.grounded (ih hrest))
        | @finished r slot r' hp _ hrel =>
            cases r with
            | error err => exact .failed hp
            | ok v =>
                cases hrel with
                | ok hv => exact .finished hp (hv.grounded (ih hrest))
      · exact ih hrest e' he'

/-! ## What is grounded can be read -/

/-- In every world of the heap there is a place for the slot. -/
def Slot.Readable (s : MarkedHeap) (slot : Slot) : Prop :=
  ∀ w : World, w.Holds s →
    ∃ (w' : World) (slot' : NameSlot), w'.Holds s ∧ w ⊆ w' ∧ slot.Reads w' slot'

theorem Env.reads_of_readable {s : MarkedHeap} : (env : Env) → (seen : VarId → Prop) →
    (∀ id slot, seen id → env.get? id = some slot → slot.Readable s) →
    {w : World} → w.Holds s →
    ∃ (w' : World) (env' : NameEnv), w'.Holds s ∧ w ⊆ w'
      ∧ (∀ id, (env.get? id).isSome = (env'.get? id).isSome)
      ∧ ∀ id slot slot', seen id → env.get? id = some slot → env'.get? id = some slot' →
        slot.Reads w' slot'
  | .empty, _, _, w, hw =>
      ⟨w, .empty, hw, fun _ he => he, fun _ => rfl, fun _ _ _ _ h => by cases h⟩
  | .bind x slot rest, seen, h, w, hw => by
      have hrest : ∀ id slot, (seen id ∧ id ≠ x) → rest.get? id = some slot → slot.Readable s := by
        rintro id slot' ⟨hid, hne⟩ hget
        refine h id slot' hid ?_
        rw [Env.get?, if_neg (Ne.symm hne)]
        exact hget
      obtain ⟨w₁, rest', hw₁, hsub₁, hbound, hslots⟩ := reads_of_readable rest _ hrest hw
      obtain ⟨w₂, slot', hw₂, hsub₂, hslot⟩ : ∃ (w₂ : World) (slot' : NameSlot),
          w₂.Holds s ∧ w₁ ⊆ w₂ ∧ (seen x → slot.Reads w₂ slot') := by
        by_cases hx : seen x
        · obtain ⟨w₂, slot', hw₂, hsub₂, hslot⟩ := h x slot hx (by simp [Env.get?]) w₁ hw₁
          exact ⟨w₂, slot', hw₂, hsub₂, fun _ => hslot⟩
        · exact ⟨w₁, .failed (.plain .cyclicBinding), hw₁, fun _ he => he, fun hx' => absurd hx' hx⟩
      refine ⟨w₂, .bind x slot' rest', hw₂, fun _ he => hsub₂ (hsub₁ he), fun id => ?_, ?_⟩
      · by_cases hid : x = id <;> simp [Env.get?, NameEnv.get?, hid, hbound]
      · intro id a a' hid ha ha'
        by_cases hx : x = id
        · subst hx
          simp only [Env.get?, NameEnv.get?, if_true, Option.some.injEq] at ha ha'
          exact ha ▸ ha' ▸ hslot hid
        · simp only [Env.get?, NameEnv.get?, if_neg hx] at ha ha'
          exact (hslots id a a' ⟨hid, Ne.symm hx⟩ ha ha').mono hsub₂

/-- A location of the heap is in the world already, or there is room for it. -/
theorem World.Holds.delayed {s : MarkedHeap} {w : World} (hw : w.Holds s) {loc : Nat}
    {slot' : NameSlot} (hup : s.Upholds w loc slot') :
    ∃ (w' : World) (slot'' : NameSlot),
      w'.Holds s ∧ w ⊆ w' ∧ (Slot.delayed loc).Reads w' slot'' := by
  by_cases hmem : ∃ slot'', (loc, slot'') ∈ w
  · obtain ⟨slot'', hmem⟩ := hmem
    exact ⟨w, slot'', hw, fun _ he => he, .delayed hmem⟩
  · refine ⟨(loc, slot') :: w, slot', ⟨hup, ?_, hw⟩, List.subset_cons_self _ _, .delayed (by simp)⟩
    rintro e he rfl
    exact hmem ⟨e.2, he⟩

mutual

theorem Value.Grounded.reads {s : MarkedHeap} : {v : Value} → v.Grounded s.heap →
    {w : World} → w.Holds s →
    ∃ (w' : World) (v' : NameValue), w'.Holds s ∧ w ⊆ w' ∧ v.Reads w' v'
  | _, .bool b, w, hw => ⟨w, .bool b, hw, fun _ he => he, .bool b⟩
  | _, .int n, w, hw => ⟨w, .int n, hw, fun _ he => he, .int n⟩
  | _, .closure tag param body henv, w, hw => by
      obtain ⟨w', env', hw', hsub, henv'⟩ := henv.reads hw
      exact ⟨w', .closure param body env', hw', hsub, .closure tag param body henv'⟩

theorem Slot.Grounded.readable {s : MarkedHeap} : {slot : Slot} → slot.Grounded s.heap →
    slot.Readable s
  | _, .ready hv, w, hw => by
      obtain ⟨w', v', hw', hsub, hv'⟩ := hv.reads hw
      exact ⟨w', .ready v', hw', hsub, .ready hv'⟩
  | _, .pending hp henv, w, hw => by
      obtain ⟨w₁, env', hw₁, hsub₁, henv'⟩ := henv.reads hw
      obtain ⟨w₂, slot', hw₂, hsub₂, hslot⟩ := hw₁.delayed (.pending hp henv')
      exact ⟨w₂, slot', hw₂, fun _ he => hsub₂ (hsub₁ he), hslot⟩
  | .delayed loc, .finished hp hv, w, hw => by
      obtain ⟨w₁, v', hw₁, hsub₁, hv'⟩ := hv.reads hw
      have hup : s.Upholds w₁ loc (.ready v') := .finished hp ⟨0, fun _ _ => rfl⟩ (.ok hv')
      obtain ⟨w₂, slot', hw₂, hsub₂, hslot⟩ := hw₁.delayed hup
      exact ⟨w₂, slot', hw₂, fun _ he => hsub₂ (hsub₁ he), hslot⟩
  | .delayed loc, .failed (e := e) hp, w, hw => by
      have hup : s.Upholds w loc (.failed ⟨e, s.inTest loc⟩) :=
        .finished hp ⟨0, fun _ _ => rfl⟩ (.error _)
      exact hw.delayed hup

theorem Env.Grounded.reads {s : MarkedHeap} : {env : Env} → env.Grounded s.heap →
    {w : World} → w.Holds s →
    ∃ (w' : World) (env' : NameEnv), w'.Holds s ∧ w ⊆ w' ∧ env.Reads w' env'
  | env, .intro hslots, w, hw => by
      obtain ⟨w', env', hw', hsub, hbound, hreads⟩ :=
        env.reads_of_readable (fun _ => True)
          (fun id slot _ hget => (hslots id slot hget).readable) hw
      exact ⟨w', env', hw', hsub, .intro hbound fun id slot slot' => hreads id slot slot' trivial⟩

end

/-! ## Later heaps -/

/-- The heap `h` may become `h'`: evaluations end, and new computations are added. -/
inductive Heap.Reaches (h : Heap) : Heap → Prop where
  | refl : Heap.Reaches h h
  | eval {h' h'' : Heap} {n : Nat} {t : Tree} {env : Env} {r : Except EvalError Value} :
      Heap.Reaches h h' → eval n t env h' = some (r, h'') → Heap.Reaches h h''
  | add {h' : Heap} (p : Progress) : Heap.Reaches h h' → Heap.Reaches h (h'.add p)

theorem Heap.Reaches.trans {h h' h'' : Heap} (hreach : h.Reaches h') (hreach' : h'.Reaches h'') :
    h.Reaches h'' := by
  induction hreach' with
  | refl => exact hreach
  | eval _ heval ih => exact ih.eval heval
  | add p _ ih => exact ih.add p

theorem World.Holds.add_failed {s : MarkedHeap} {w : World} (hw : w.Holds s) (f : Failure) :
    World.Holds ⟨s.heap.add (.finished (.error f.error)),
      fun l => if l = s.heap.cells.size then f.inTest else s.inTest l⟩
      ((s.heap.cells.size, .failed f) :: w) := by
  refine hw.add_entry (fun l hl => if_neg (Nat.ne_of_lt hl)) ?_
  have hp : (s.heap.add (.finished (.error f.error))).progress? s.heap.cells.size =
      some (.finished (.error f.error)) := by
    rw [Heap.progress?_add, if_pos rfl]
  refine .finished hp ⟨0, fun _ _ => rfl⟩ ?_
  simp only [MarkedHeap.marked, if_true]
  exact .error f

mutual

theorem NameValue.realized : (v' : NameValue) → {s : MarkedHeap} → {w : World} → w.Holds s →
    ∃ (s' : MarkedHeap) (w' : World) (v : Value), s.heap.Reaches s'.heap ∧ w'.Holds s' ∧ w ⊆ w'
      ∧ v.Reads w' v'
  | .bool b, s, w, hw => ⟨s, w, .bool b, .refl, hw, fun _ he => he, .bool b⟩
  | .int n, s, w, hw => ⟨s, w, .int n, .refl, hw, fun _ he => he, .int n⟩
  | .closure param body env', s, w, hw => by
      obtain ⟨s', w', env, hreach, hw', hsub, henv⟩ := env'.realized hw
      exact ⟨s', w', .closure 0 param body env, hreach, hw', hsub, .closure 0 param body henv⟩

theorem NameSlot.realized : (slot' : NameSlot) → {s : MarkedHeap} → {w : World} → w.Holds s →
    ∃ (s' : MarkedHeap) (w' : World) (slot : Slot), s.heap.Reaches s'.heap ∧ w'.Holds s' ∧ w ⊆ w'
      ∧ slot.Reads w' slot'
  | .ready v', s, w, hw => by
      obtain ⟨s', w', v, hreach, hw', hsub, hv⟩ := v'.realized hw
      exact ⟨s', w', .ready v, hreach, hw', hsub, .ready hv⟩
  | .failed f, s, w, hw => by
      exact ⟨_, _, .delayed s.heap.cells.size, .add _ .refl, hw.add_failed f,
        List.subset_cons_self _ _, .delayed List.mem_cons_self⟩
  | .delayed t env', s, w, hw => by
      obtain ⟨s₁, w₁, env, hreach, hw₁, hsub, henv⟩ := env'.realized hw
      exact ⟨_, _, .delayed s₁.heap.cells.size, hreach.add _, hw₁.add_pending t henv,
        fun e he => List.mem_cons_of_mem _ (hsub he), .delayed List.mem_cons_self⟩

theorem NameEnv.realized : (env' : NameEnv) → {s : MarkedHeap} → {w : World} → w.Holds s →
    ∃ (s' : MarkedHeap) (w' : World) (env : Env), s.heap.Reaches s'.heap ∧ w'.Holds s' ∧ w ⊆ w'
      ∧ env.Reads w' env'
  | .empty, s, w, hw => by
      refine ⟨s, w, .empty, .refl, hw, fun _ he => he, .intro (fun _ => rfl) ?_⟩
      intro id slot slot' h
      cases h
  | .bind id slot' rest', s, w, hw => by
      obtain ⟨s₁, w₁, rest, hreach₁, hw₁, hsub₁, hrest⟩ := rest'.realized hw
      obtain ⟨s₂, w₂, slot, hreach₂, hw₂, hsub₂, hslot⟩ := slot'.realized hw₁
      exact ⟨s₂, w₂, .bind id slot rest, hreach₁.trans hreach₂, hw₂, fun _ he => hsub₂ (hsub₁ he),
        (hrest.mono hsub₂).bind hslot id⟩

end

/-! ## Evaluations keep what can be read -/

/-- From `s` with world `w` to `s'` with world `w'`: all entries stay, and new ones are of
new locations. -/
structure World.Grows (s : MarkedHeap) (w : World) (s' : MarkedHeap) (w' : World) : Prop where
  holds : w'.Holds s'
  subset : w ⊆ w'
  fresh : ∀ e ∈ w', e ∈ w ∨ s.heap.cells.size ≤ e.1
  size_le : s.heap.cells.size ≤ s'.heap.cells.size

theorem World.Grows.trans {s s' s'' : MarkedHeap} {w w' w'' : World} (h : w.Grows s s' w')
    (h' : w'.Grows s' s'' w'') : w.Grows s s'' w'' where
  holds := h'.holds
  subset := fun _ he => h'.subset (h.subset he)
  fresh := by
    intro e he
    rcases h'.fresh e he with he | hle
    · exact h.fresh e he
    · exact .inr (Nat.le_trans h.size_le hle)
  size_le := Nat.le_trans h.size_le h'.size_le

/-- A computation outside the world was started, and its result is kept. -/
theorem World.Grows.finish {s s₁ : MarkedHeap} {w w₁ : World} {loc : Nat}
    (h : w.Grows (s.start loc) s₁ w₁) (hne : ∀ e ∈ w, e.1 ≠ loc) (hloc : loc < s.heap.cells.size)
    (r : Except Failure Value) : w.Grows s (s₁.finish loc r) w₁ := by
  have hsize : (s.start loc).heap.cells.size = s.heap.cells.size := s.heap.size_start loc
  have hfresh : ∀ e ∈ w₁, e ∈ w ∨ s.heap.cells.size ≤ e.1 := hsize ▸ h.fresh
  refine ⟨h.holds.congr fun e he => s₁.sameAt_finish ?_ r, h.subset, hfresh, ?_⟩
  · rcases hfresh e he with he | hle
    · exact hne e he
    · omega
  · rw [s₁.heap_finish, Heap.size_finish]
    exact hsize ▸ h.size_le

theorem World.Holds.grows {s s' : MarkedHeap} {w : World} (hw : w.Holds s)
    (hsame : ∀ e ∈ w, s.SameAt s' e.1) (hsize : s.heap.cells.size ≤ s'.heap.cells.size) :
    w.Grows s s' w :=
  ⟨hw.congr hsame, fun _ he => he, fun _ he => .inl he, hsize⟩

def MarkedHeap.Grows (s s' : MarkedHeap) : Prop :=
  ∀ w, World.Holds s w → ∃ w', World.Grows s w s' w'

theorem Observer.marks_allows_grows : marks.Allows MarkedHeap.Grows where
  refl s w hw := ⟨w, hw.grows (fun _ _ => ⟨rfl, rfl⟩) (Nat.le_refl _)⟩
  trans := by
    intro s s' s'' h h' w hw
    obtain ⟨w₁, hgrows⟩ := h w hw
    obtain ⟨w₂, hgrows'⟩ := h' w₁ hgrows.holds
    exact ⟨w₂, hgrows.trans hgrows'⟩
  still := by
    intro s h hcells w hw
    refine ⟨w, hw.grows (fun e _ => ⟨?_, rfl⟩) (Nat.le_of_eq (congrArg Array.size hcells.symm))⟩
    exact congrArg (fun cells => cells[e.1]?.map Cell.progress) hcells
  delay := by
    intro s t env w hw
    refine ⟨w, hw.grows (fun e he => s.sameAt_add (.pending t env) (hw.lt_size e he) rfl) ?_⟩
    show s.heap.cells.size ≤ (s.heap.add (.pending t env)).cells.size
    rw [Heap.size_add]
    omega

/-- Reading a slot keeps every world: if the world has the slot, both ways of evaluation
meet, and otherwise the slot is none of its business. -/
theorem Observer.marks_force_keeps {n : Nat}
    (hrun : ∀ t env, (evalMarked n t env).Keeps MarkedHeap.Grows) (slot : Slot) :
    (marks.force (evalMarked n) slot).Keeps MarkedHeap.Grows := by
  cases slot with
  | ready v => exact marks_allows_grows.keeps_pure v
  | delayed loc =>
      intro s r s' hforce w hw
      by_cases hmem : ∃ slot', (loc, slot') ∈ w
      · obtain ⟨slot', hmem⟩ := hmem
        have hreads : (Slot.delayed loc).Reads w slot' := .delayed hmem
        obtain ⟨p, r', hgiven, _, _, w', hw', hext, _⟩ :=
          hreads.force_linked (eval_linked .heap n) s hw (by
            intro hnone
            exact Option.some_ne_none _ (hforce.symm.trans hnone))
        obtain rfl : p = (r, s') := Option.some.inj (Eq.trans (Eq.symm hgiven) hforce)
        exact ⟨w', hw', hext.subset, hext.fresh, hext.size_le⟩
      · have hne : ∀ e ∈ w, e.1 ≠ loc := by
          rintro e he rfl
          exact hmem ⟨e.2, he⟩
        have hsame : s = s' → ∃ w', World.Grows s w s' w' := by
          rintro rfl
          exact marks_allows_grows.refl s w hw
        rw [marks_force_delayed] at hforce
        cases hp : s.heap.progress? loc with
        | none =>
            rw [hp] at hforce
            exact hsame (Prod.mk.inj (Option.some.inj hforce)).2
        | some p =>
            rw [hp] at hforce
            cases p with
            | running => exact hsame (Prod.mk.inj (Option.some.inj hforce)).2
            | finished r => exact hsame (Prod.mk.inj (Option.some.inj hforce)).2
            | pending t env =>
                have hstart : World.Holds (s.start loc) w :=
                  hw.congr fun e he => s.sameAt_start (hne e he)
                obtain ⟨⟨r₁, s₁⟩, hrun', heq⟩ := Option.map_eq_some_iff.1 hforce
                obtain ⟨_, rfl⟩ := Prod.mk.inj heq
                obtain ⟨w₁, hgrows⟩ := hrun t env (s.start loc) r₁ s₁ hrun' w hstart
                exact ⟨w₁, hgrows.finish hne (Heap.lt_size_of_progress? hp) r₁⟩

theorem evalMarked_keeps (n : Nat) (t : Tree) (env : Env) :
    (evalMarked n t env).Keeps MarkedHeap.Grows :=
  Observer.marks_allows_grows.eval_keeps (fun _ => Observer.marks_force_keeps) n t env

theorem Heap.Reaches.holds {h h' : Heap} (hreach : h.Reaches h') {s : MarkedHeap} (hs : s.heap = h)
    {w : World} (hw : w.Holds s) :
    ∃ (s' : MarkedHeap) (w' : World), s'.heap = h' ∧ w'.Holds s' ∧ w ⊆ w' := by
  induction hreach with
  | refl => exact ⟨s, w, hs, hw, fun _ he => he⟩
  | @eval h₁ h₂ n t env r _ heval ih =>
      obtain ⟨s₁, w₁, rfl, hw₁, hsub⟩ := ih
      have herase := evalMarked_erases n t env s₁
      rw [heval] at herase
      obtain ⟨⟨r', s₂⟩, hmarked, hp⟩ := Option.map_eq_some_iff.1 herase.symm
      obtain ⟨w₂, hgrows⟩ := evalMarked_keeps n t env s₁ r' s₂ hmarked w₁ hw₁
      exact ⟨s₂, w₂, (Prod.mk.inj hp).2, hgrows.holds, fun _ he => hgrows.subset (hsub he)⟩
  | add p _ ih =>
      obtain ⟨s₁, w₁, rfl, hw₁, hsub⟩ := ih
      refine ⟨{ s₁ with heap := s₁.heap.add p }, w₁, rfl, hw₁.congr fun e he => ?_, hsub⟩
      exact s₁.sameAt_add p (hw₁.lt_size e he) rfl

end ExprTree

import ExprTree.Proofs.Typing
/-!
# Scopes

Which variables a tree mentions, which of them its functions bind, and trees in
which no function hides a variable. What is put into such a tree, or taken out
of it, meets no variable of the same name by accident.
-/

namespace ExprTree.Tree

def Mentions (x : VarId) : Tree → Prop
  | leaf s => s.reference? = some x ∨ s.lambda? = some x
  | node func arg => func.Mentions x ∨ arg.Mentions x

def MentionsBelow (t : Tree) (n : VarId) : Prop :=
  ∀ x, t.Mentions x → x < n

/-- The variables that the functions of a tree bind, from left to right; one that several
functions bind is listed for each of them. -/
def binders : Tree → List VarId
  | leaf s => s.lambda?.toList
  | node func arg => func.binders ++ arg.binders

/-- No function in the tree binds a variable of `taken`, or one that a function
around it binds. -/
def BindsOutside : Tree → VarSet → Prop
  | leaf _, _ => True
  | node func arg, taken =>
      match func.binder? .standard with
      | some id => id ∉ taken ∧ arg.BindsOutside (taken.insert id)
      | none => func.BindsOutside taken ∧ arg.BindsOutside taken

/-- No function binds a variable that is free in the tree or bound around it. -/
def NonShadowing (t : Tree) : Prop :=
  t.BindsOutside (t.freeVars .standard)

def decidableBindsOutside : (t : Tree) → (taken : VarSet) → Decidable (t.BindsOutside taken)
  | leaf _, _ => isTrue trivial
  | node func arg, taken =>
      match h : func.binder? .standard with
      | some id =>
          have := arg.decidableBindsOutside (taken.insert id)
          decidable_of_iff (id ∉ taken ∧ arg.BindsOutside (taken.insert id))
            (by simp only [BindsOutside, h])
      | none =>
          have := func.decidableBindsOutside taken
          have := arg.decidableBindsOutside taken
          decidable_of_iff (func.BindsOutside taken ∧ arg.BindsOutside taken)
            (by simp only [BindsOutside, h])

instance : DecidablePred NonShadowing := fun t => t.decidableBindsOutside (t.freeVars .standard)

theorem mentions_of_mem_freeVars {t : Tree} {x : VarId} (h : x ∈ t.freeVars .standard) :
    t.Mentions x := by
  induction t with
  | leaf s =>
      cases s with
      | var id ty =>
          obtain rfl : x = id := by simpa using h
          exact .inl rfl
      | _ => simp [freeVars, Binders.standard, Symbol.reference?] at h
  | node f y ihf ihy =>
      rcases mem_freeVars_node.1 h with h | h
      · exact .inl (ihf h)
      · exact .inr (ihy h.1)

theorem mentions_of_binder? {f : Tree} {id : VarId} (h : f.binder? .standard = some id) :
    f.Mentions id := by
  obtain ⟨arg, result, rfl⟩ := binder?_eq_some h
  exact .inr rfl

theorem mentions_of_mem_binders {t : Tree} {x : VarId} (h : x ∈ t.binders) : t.Mentions x := by
  induction t with
  | leaf s => exact .inr (Option.mem_toList.1 h)
  | node f y ihf ihy => exact (List.mem_append.1 h).imp ihf ihy

theorem not_mem_freeVars_of_refersTo {t : Tree} {vars : VarSet}
    (h : t.refersTo .standard vars = false) {x : VarId} (hx : x ∈ vars) :
    x ∉ t.freeVars .standard := by
  induction t with
  | leaf s =>
      cases s with
      | var id ty =>
          intro hid
          obtain rfl : x = id := by simpa using hid
          simp [refersTo, Binders.standard, Symbol.reference?, hx] at h
      | _ => simp [freeVars, Binders.standard, Symbol.reference?]
  | node f y ihf ihy =>
      obtain ⟨hf, hy⟩ : f.refersTo .standard vars = false ∧ y.refersTo .standard vars = false := by
        simpa [refersTo] using h
      intro hmem
      rcases mem_freeVars_node.1 hmem with hmem | hmem
      · exact ihf hf hmem
      · exact ihy hy hmem.1

/-- Variables may be given up, and variables that are not mentioned may be added. -/
theorem BindsOutside.congr {t : Tree} {taken taken' : VarSet} (h : t.BindsOutside taken)
    (htaken : ∀ x ∈ taken', x ∈ taken ∨ ¬t.Mentions x) : t.BindsOutside taken' := by
  induction t generalizing taken taken' with
  | leaf s => trivial
  | node f x ihf ihx =>
      unfold BindsOutside at h ⊢
      split
      · rename_i id hf
        simp only [hf] at h
        refine ⟨fun hid => ?_, ihx h.2 fun y hy => ?_⟩
        · rcases htaken id hid with hid | hid
          · exact h.1 hid
          · exact hid (.inl (mentions_of_binder? hf))
        · rcases VarSet.mem_insert.1 hy with rfl | hy
          · exact .inl (by simp)
          · exact (htaken y hy).imp (fun hy => by simp [hy]) fun hy hx => hy (.inr hx)
      · rename_i hf
        simp only [hf] at h
        refine ⟨ihf h.1 fun y hy => ?_, ihx h.2 fun y hy => ?_⟩
        · exact (htaken y hy).imp_right fun hy hf => hy (.inl hf)
        · exact (htaken y hy).imp_right fun hy hx => hy (.inr hx)

theorem BindsOutside.mono {t : Tree} {taken taken' : VarSet} (h : t.BindsOutside taken)
    (htaken : ∀ x ∈ taken', x ∈ taken) : t.BindsOutside taken' :=
  h.congr fun x hx => .inl (htaken x hx)

theorem BindsOutside.func {f x : Tree} {taken : VarSet} (h : (node f x).BindsOutside taken) :
    f.BindsOutside taken := by
  unfold BindsOutside at h
  split at h
  · rename_i id hf
    obtain ⟨arg, result, rfl⟩ := binder?_eq_some hf
    trivial
  · exact h.1

theorem BindsOutside.arg {f x : Tree} {taken : VarSet} (h : (node f x).BindsOutside taken) :
    x.BindsOutside taken := by
  unfold BindsOutside at h
  split at h
  · exact h.2.mono fun y hy => VarSet.mem_insert.2 (.inr hy)
  · exact h.2

theorem BindsOutside.binder?_ne {f x : Tree} {taken : VarSet} (h : (node f x).BindsOutside taken)
    {y : VarId} (hy : y ∈ taken) : f.binder? .standard ≠ some y := by
  intro hf
  unfold BindsOutside at h
  simp only [hf] at h
  exact h.1 hy

theorem NonShadowing.func {f x : Tree} (h : (node f x).NonShadowing) : f.NonShadowing :=
  (BindsOutside.func h).mono fun _ hy => mem_freeVars_node.2 (.inl hy)

theorem NonShadowing.arg {f x : Tree} (h : (node f x).NonShadowing) : x.NonShadowing := by
  unfold NonShadowing BindsOutside at h
  split at h
  · rename_i id hf
    refine h.2.mono fun y hy => ?_
    by_cases hid : y = id
    · exact VarSet.mem_insert.2 (.inl hid)
    · refine VarSet.mem_insert.2 (.inr (mem_freeVars_node.2 (.inr ⟨hy, ?_⟩)))
      simp [hf, Ne.symm hid]
  · rename_i hf
    exact h.2.mono fun y hy => mem_freeVars_node.2 (.inr ⟨hy, by simp [hf]⟩)

theorem MentionsBelow.mono {t : Tree} {m n : VarId} (h : t.MentionsBelow m) (hmn : m ≤ n) :
    t.MentionsBelow n :=
  fun x hx => Nat.lt_of_lt_of_le (h x hx) hmn

theorem MentionsBelow.func {f x : Tree} {n : VarId} (h : (node f x).MentionsBelow n) :
    f.MentionsBelow n :=
  fun y hy => h y (.inl hy)

theorem MentionsBelow.arg {f x : Tree} {n : VarId} (h : (node f x).MentionsBelow n) :
    x.MentionsBelow n :=
  fun y hy => h y (.inr hy)

theorem MentionsBelow.not_mem_freeVars {t : Tree} {n : VarId} (h : t.MentionsBelow n) {x : VarId}
    (hx : n ≤ x) : x ∉ t.freeVars .standard :=
  fun hmem => Nat.lt_irrefl x (Nat.lt_of_lt_of_le (h x (mentions_of_mem_freeVars hmem)) hx)

/-! ## The first unused variable -/

theorem le_largestVar? {t : Tree} {x : VarId} (h : t.Mentions x) :
    ∃ y, t.largestVar? .standard = some y ∧ x ≤ y := by
  induction t with
  | leaf s =>
      cases s with
      | var id ty => exact ⟨id, rfl, by simp_all [Mentions, Symbol.reference?, Symbol.lambda?]⟩
      | lambda id arg result =>
          exact ⟨id, rfl, by simp_all [Mentions, Symbol.reference?, Symbol.lambda?]⟩
      | _ => simp [Mentions, Symbol.reference?, Symbol.lambda?] at h
  | node f a ihf iha =>
      simp only [largestVar?]
      rcases h with h | h
      · obtain ⟨y, hy, hle⟩ := ihf h
        rw [hy]
        cases a.largestVar? .standard with
        | none => exact ⟨y, rfl, hle⟩
        | some z => exact ⟨max y z, rfl, Nat.le_trans hle (Nat.le_max_left y z)⟩
      · obtain ⟨z, hz, hle⟩ := iha h
        rw [hz]
        cases f.largestVar? .standard with
        | none => exact ⟨z, rfl, hle⟩
        | some y => exact ⟨max y z, rfl, Nat.le_trans hle (Nat.le_max_right y z)⟩

theorem mentionsBelow_of_firstUnused {t : Tree} {start : VarId}
    (h : t.firstUnused .standard = .ok start) : t.MentionsBelow start := by
  intro x hx
  obtain ⟨y, hy, hle⟩ := le_largestVar? hx
  simp only [firstUnused, hy, word] at h
  split at h
  · obtain rfl : y + 1 = start := by simpa using h
    exact Nat.lt_succ_of_le hle
  · simp at h

end ExprTree.Tree

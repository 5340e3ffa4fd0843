import ExprTree.Proofs.CodeMotion
/-!
# The variables of code motion

Code motion takes its new variables in order. Each of them is bound once, by the
function of a binding, and no other variable from there on appears. Functions
that were there before bind what they bound before, and the free variables of
the tree are the same, whether or not its functions hide variables.
-/

namespace ExprTree

namespace Tree

def awaitsFunction : Tree → Bool
  | node (leaf (.letIn _ _)) _ => true
  | _ => false

/-- The parameters of the functions in a tree, from left to right, each with whether the function
is the second argument of a binding. `ofLet` says this of the tree itself. -/
def functions : (ofLet : Bool) → Tree → List (VarId × Bool)
  | ofLet, leaf s => s.lambda?.toList.map (·, ofLet)
  | ofLet, node func arg => func.functions ofLet ++ arg.functions func.awaitsFunction

theorem mem_binders_of_mem_functions {t : Tree} {ofLet : Bool} {e : VarId × Bool}
    (h : e ∈ t.functions ofLet) : e.1 ∈ t.binders := by
  induction t generalizing ofLet with
  | leaf s =>
      obtain ⟨id, hid, rfl⟩ := List.mem_map.1 h
      exact hid
  | node f x ihf ihx =>
      rcases List.mem_append.1 h with h | h
      · exact List.mem_append_left _ (ihf h)
      · exact List.mem_append_right _ (ihx h)

/-! ## Binders -/

theorem Liftable.mem_binders {p t : Tree} (h : Liftable p t) {x : VarId} (hx : x ∈ p.binders) :
    x ∈ t.binders := by
  induction h with
  | here _ => exact List.mem_append_right _ hx
  | func _ ih => exact List.mem_append_left _ ih
  | arg _ _ ih => exact List.mem_append_right _ ih

theorem Replaces.mem_binders {p t body : Tree} {id : VarId} (h : Replaces p id t body) {x : VarId}
    (hx : x ∈ body.binders) : x ∈ t.binders := by
  induction h with
  | leaf s => exact hx
  | hit _ _ ih =>
      rcases List.mem_append.1 hx with hx | hx
      · exact List.mem_append_left _ (ih hx)
      · exact absurd hx List.not_mem_nil
  | miss _ _ _ ihf ihx =>
      rcases List.mem_append.1 hx with hx | hx
      · exact List.mem_append_left _ (ihf hx)
      · exact List.mem_append_right _ (ihx hx)

theorem functions_bindTree (types : LetTypes) (id : VarId) (bound body : Tree) (ofLet : Bool) :
    (types.bindTree id bound body).functions ofLet =
      bound.functions false ++ (id, true) :: body.functions false :=
  rfl

theorem mem_binders_bindTree {types : LetTypes} {id x : VarId} {bound body : Tree}
    (h : x ∈ (types.bindTree id bound body).binders) :
    x ∈ bound.binders ∨ x = id ∨ x ∈ body.binders := by
  change x ∈ bound.binders ++ id :: body.binders at h
  rwa [List.mem_append, List.mem_cons] at h

mutual

theorem Moves.mem_binders : {next : Nat} → {t t' : Tree} → {n : Nat} → Moves next t n t' →
    {x : Nat} → x ∈ t'.binders → x ∈ t.binders ∨ next ≤ x
  | _, _, _, _, .args h, _, hx => h.mem_binders hx
  | _, _, _, _, .share hp _ _ hbound hbody hrest, x, hx => by
      rcases mem_binders_bindTree hx with hx | rfl | hx
      · exact (hbound.mem_binders hx).imp_left hp.mem_binders
      · exact .inr (Nat.le_add_right _ _)
      · exact (hrest.mem_binders hx).imp hbody.mem_binders fun hle => by omega

theorem MovesArgs.mem_binders : {next : Nat} → {t t' : Tree} → {n : Nat} →
    MovesArgs next t n t' → {x : Nat} → x ∈ t'.binders → x ∈ t.binders ∨ next ≤ x
  | _, _, _, _, .leaf s, _, hx => .inl hx
  | _, _, _, _, .node hf hy, x, hx => by
      rcases List.mem_append.1 hx with hx | hx
      · exact (hf.mem_binders hx).imp_left (List.mem_append_left _)
      · exact (hy.mem_binders hx).imp (List.mem_append_right _) fun hle => by omega

end

mutual

/-- With all binders of the tree below `low`, the functions whose parameters are not are those of
the bindings that were made, in the order of their variables. -/
theorem Moves.functions_eq : {next : VarId} → {t t' : Tree} → {n : Nat} → Moves next t n t' →
    {low : VarId} → low ≤ next → (∀ x ∈ t.binders, x < low) → (ofLet : Bool) →
    (t'.functions ofLet).filter (low ≤ ·.1) = (List.range' next n).map (·, true)
  | _, _, _, _, .args h, _, hnext, hlow, ofLet => h.functions_eq hnext hlow ofLet
  | next, _, _, _, .share (m := m) (n := n) hp _ _ hbound hbody hrest, low, hnext, hlow, _ => by
      have hnew : low ≤ next + m := Nat.le_add_right_of_le hnext
      have hids : List.range' next (m + 1 + n) =
          List.range' next m ++ (next + m) :: List.range' (next + m + 1) n := by
        rw [← List.range'_succ, List.range'_append_1, Nat.add_comm n 1, Nat.add_assoc m 1 n]
      rw [functions_bindTree, List.filter_append, List.filter_cons_of_pos (by simpa using hnew),
        hbound.functions_eq hnext fun x hx => hlow x (hp.mem_binders hx),
        hrest.functions_eq (Nat.le_succ_of_le hnew) fun x hx => hlow x (hbody.mem_binders hx),
        hids, List.map_append, List.map_cons]

theorem MovesArgs.functions_eq : {next : VarId} → {t t' : Tree} → {n : Nat} →
    MovesArgs next t n t' → {low : VarId} → low ≤ next → (∀ x ∈ t.binders, x < low) →
    (ofLet : Bool) → (t'.functions ofLet).filter (low ≤ ·.1) = (List.range' next n).map (·, true)
  | _, _, _, _, .leaf s, low, _, hlow, _ => by
      refine List.filter_eq_nil_iff.2 fun e he => ?_
      simpa using hlow e.1 (mem_binders_of_mem_functions he)
  | next, _, _, _, .node (m := m) hf hx, low, hnext, hlow, ofLet => by
      rw [functions, List.filter_append,
        hf.functions_eq hnext (fun y hy => hlow y (List.mem_append_left _ hy)) ofLet,
        hx.functions_eq (Nat.le_add_right_of_le hnext)
          (fun y hy => hlow y (List.mem_append_right _ hy)), ← List.map_append,
        List.range'_append_1]

end

/-! ## Mentioned variables -/

mutual

theorem Moves.mentions : {next : Nat} → {t t' : Tree} → {n : Nat} → Moves next t n t' →
    {x : Nat} → t'.Mentions x → t.Mentions x ∨ next ≤ x ∧ x < next + n
  | _, _, _, _, .args h, _, hx => h.mentions hx
  | next, _, _, _, .share (m := m) hp _ _ hbound hbody hrest, x, hx => by
      rcases hx with (hx | hx) | (hx | hx)
      · simp [Mentions, Symbol.reference?, Symbol.lambda?] at hx
      · exact (hbound.mentions hx).imp hp.mentions fun h => by omega
      · obtain rfl : next + m = x := by
          simpa [Mentions, Symbol.reference?, Symbol.lambda?] using hx
        exact .inr (by omega)
      · rcases hrest.mentions hx with hx | hx
        · rcases hbody.mentions hx with hx | rfl
          · exact .inl hx
          · exact .inr (by omega)
        · exact .inr (by omega)

theorem MovesArgs.mentions : {next : Nat} → {t t' : Tree} → {n : Nat} → MovesArgs next t n t' →
    {x : Nat} → t'.Mentions x → t.Mentions x ∨ next ≤ x ∧ x < next + n
  | _, _, _, _, .leaf s, _, hx => .inl hx
  | _, _, _, _, .node hf hy, _, hx => by
      rcases hx with hx | hx
      · exact (hf.mentions hx).imp .inl fun h => by omega
      · exact (hy.mentions hx).imp .inr fun h => by omega

end

/-! ## Free variables -/

theorem Replaces.mem_freeVars_or {p t body : Tree} {id : VarId} (h : Replaces p id t body)
    {x : VarId} (hx : x ∈ t.freeVars .standard) :
    x ∈ p.freeVars .standard ∨ x ∈ body.freeVars .standard := by
  induction h with
  | leaf s => exact .inr hx
  | hit _ halpha ih =>
      rcases mem_freeVars_node.1 hx with hx | ⟨hx, _⟩
      · exact (ih hx).imp_right fun hx => mem_freeVars_node.2 (.inl hx)
      · exact .inl (mem_freeVars_of_alphaEq halpha hx)
  | miss hf _ _ ihf ihx =>
      rcases mem_freeVars_node.1 hx with hx | ⟨hx, hne⟩
      · exact (ihf hx).imp_right fun hx => mem_freeVars_node.2 (.inl hx)
      · rw [← hf.sameSpine.binder?_eq] at hne
        exact (ihx hx).imp_right fun hx => mem_freeVars_node.2 (.inr ⟨hx, hne⟩)

theorem mem_freeVars_bindTree {types : LetTypes} {id x : VarId} {bound body : Tree} :
    x ∈ (types.bindTree id bound body).freeVars .standard ↔
      x ∈ bound.freeVars .standard ∨ x ∈ body.freeVars .standard ∧ x ≠ id := by
  have hlet : x ∉ (leaf (.letIn types.bound types.body)).freeVars .standard :=
    VarSet.not_mem_empty x
  rw [LetTypes.bindTree, freeVars_node rfl, freeVars_node rfl, freeVars_lambda]
  simp only [VarSet.mem_union, VarSet.mem_erase, hlet, false_or]

mutual

theorem Moves.mem_freeVars : {next : VarId} → {t t' : Tree} → {n : Nat} → Moves next t n t' →
    t.MentionsBelow next → {x : VarId} →
    (x ∈ t'.freeVars .standard ↔ x ∈ t.freeVars .standard)
  | _, _, _, _, .args h, hbelow, _ => h.mem_freeVars hbelow
  | next, t, _, _, .share (m := m) hp _ _ hbound hbody hrest, hbelow, x => by
      have hid : next ≤ next + m := Nat.le_add_right next m
      rw [mem_freeVars_bindTree, hbound.mem_freeVars (hp.mentionsBelow hbelow),
        hrest.mem_freeVars (hbody.mentionsBelow hbelow hid)]
      constructor
      · rintro (hx | ⟨hx, hne⟩)
        · exact hp.mem_freeVars hx
        · exact (hbody.mem_freeVars hx).resolve_right hne
      · intro hx
        refine (hbody.mem_freeVars_or hx).imp_right fun hx' => ⟨hx', ?_⟩
        rintro rfl
        exact hbelow.not_mem_freeVars hid hx

theorem MovesArgs.mem_freeVars : {next : VarId} → {t t' : Tree} → {n : Nat} →
    MovesArgs next t n t' → t.MentionsBelow next → {x : VarId} →
    (x ∈ t'.freeVars .standard ↔ x ∈ t.freeVars .standard)
  | _, _, _, _, .leaf s, _, _ => Iff.rfl
  | next, _, _, _, .node (m := m) hf hy, hbelow, x => by
      rw [mem_freeVars_node, mem_freeVars_node, hf.sameSpine.binder?_eq,
        hf.mem_freeVars hbelow.func,
        hy.mem_freeVars (hbelow.arg.mono (Nat.le_add_right next m))]

end

end Tree

/-! ## The pass -/

/-- The new variables of the result are those from `start` on, one for each binding made, and all
else about variables is as in `t`. Each binding was reported once. -/
structure Hoisted.Fresh (start : VarId) (t : Tree) (progress : Tally) (hoisted : Hoisted) :
    Prop where
  /-- Each new variable is bound once, by the function of a binding; no other variable from
  `start` on is bound. -/
  functions : (hoisted.tree.functions false).filter (start ≤ ·.1) =
    (List.range' start hoisted.lets).map (·, true)
  /-- No other variable from `start` on is referred to. -/
  mentions : ∀ x, hoisted.tree.Mentions x → start ≤ x → x < start + hoisted.lets
  binders : ∀ x ∈ hoisted.tree.binders, x < start → x ∈ t.binders
  freeVars : hoisted.tree.freeVars .standard = t.freeVars .standard
  reported : hoisted.progress.total = progress.total + hoisted.lets

/-- Code motion captures no variable and takes exactly the new variables that it counts, from any
start above the variables of the tree; the first unused variable is such a start. What it adds to
the tally is that count. -/
theorem Tree.hoistFrom_fresh {policy : SharePolicy} (hpolicy : policy.OwnTypes) {t : Tree}
    (hbuilt : t.Built) (hfull : t.isFull = true) (start : VarId)
    (hstart : t.MentionsBelow start) (progress : Tally) :
    Yields (t.Crowded (max start progress.total)) (Hoisted.Fresh start t progress)
        (t.hoistFrom ⟨.standard, policy⟩ start progress)
      ∧ ∀ first, t.firstUnused .standard = .ok first → t.MentionsBelow first := by
  refine ⟨?_, fun first => mentionsBelow_of_firstUnused⟩
  refine (hoistFrom_reports hpolicy hbuilt.fits hfull start progress).mono (fun h => h) ?_
  rintro hoisted ⟨hhoists, hreported⟩
  have hmoves := hhoists.moves
  have hbinders : ∀ x ∈ t.binders, x < start := fun x hx => hstart x (mentions_of_mem_binders hx)
  refine ⟨hmoves.functions_eq (Nat.le_refl start) hbinders false, fun x hx hle => ?_,
    fun x hx hlt => ?_, VarSet.ext fun x => hmoves.mem_freeVars hstart, hreported⟩
  · rcases hmoves.mentions hx with hx | hx
    · exact absurd (hstart x hx) (Nat.not_lt_of_le hle)
    · exact hx.2
  · exact (hmoves.mem_binders hx).resolve_right (Nat.not_le_of_lt hlt)

private def squaredSuccessor : Tree :=
  let successor : Tree :=
    .node (.node (.leaf (.arith .add)) (.leaf (.var 0 .int))) (.leaf (.int 1))
  .node (.node (.leaf (.arith .mul)) successor) successor

private def hiddenSquare : Tree :=
  .node (.node (.leaf (.arith .add)) squaredSuccessor)
    (.node (.node (.leaf (.call .int .int)) (.node (.leaf (.lambda 0 .int .int)) squaredSuccessor))
      (.leaf (.int 5)))

theorem Tree.hoistFrom_fresh_hiddenSquare :
    ∃ hoisted, hiddenSquare.hoistFrom ⟨.standard, .standard⟩ 1 ⟨5⟩ = .ok hoisted
      ∧ hoisted.lets = 2 ∧ hoisted.progress = ⟨7⟩ ∧ ¬hiddenSquare.NonShadowing
      ∧ hoisted.Fresh 1 hiddenSquare ⟨5⟩ := by
  have hbelow : hiddenSquare.MentionsBelow 1 := Tree.mentionsBelow_of_firstUnused rfl
  have h := Tree.hoistFrom_fresh SharePolicy.standard_ownTypes (by decide) rfl 1 hbelow ⟨5⟩
  exact ⟨⟨_, 2, ⟨7⟩⟩, rfl, rfl, rfl, by decide, h.1⟩

end ExprTree

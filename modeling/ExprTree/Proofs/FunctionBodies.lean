import ExprTree.Proofs.CodeMotion
import ExprTree.Proofs.FreshVariables
/-!
# What stays inside functions

Where the policy refuses nothing, code motion leaves in a function only what needs
it: each part of the body refers to the parameter, or to a variable bound between
the function and the part. The functions of new bindings are the exception: they
stand where their binding stands.

`Needs` is the invariant. The search establishes it for the bodies of functions
when it finds nothing more, and every later step keeps it: a part that is taken
out needs no parameter on its way, and a tree that lost a part needs the variable
that was put in its place.
-/

namespace ExprTree

/-- The variables in scope for the argument of `f`: its parameter is added if `f` is a function. -/
def VarSet.enter (vars : VarSet) (f : Tree) : VarSet :=
  match f.binder? .standard with
  | some id => vars.insert id
  | none => vars

@[simp] theorem VarSet.mem_enter {vars : VarSet} {f : Tree} {x : VarId} :
    x ∈ vars.enter f ↔ f.binder? .standard = some x ∨ x ∈ vars := by
  unfold enter
  cases f.binder? .standard with
  | some id => simp [eq_comm]
  | none => simp

namespace Tree

def isFunctionFrom (low : VarId) : Tree → Bool
  | leaf _ => false
  | node func _ => (func.binder? .standard).any (low ≤ ·)

/-- Every full tree inside, itself included, refers to a free variable that is in `vars` or is
bound between this tree and the one inside. Functions with parameters from `low` on need not. -/
def Needs (low : VarId) : (vars : VarSet) → Tree → Prop
  | _, leaf _ => True
  | vars, node func arg =>
      ((node func arg).isFull = true → (node func arg).isFunctionFrom low = false →
          ∃ x ∈ vars, x ∈ (node func arg).freeVars .standard)
        ∧ func.Needs low vars ∧ arg.Needs low (vars.enter func)

def FunctionsNeeded (low : VarId) : Tree → Prop
  | leaf _ => True
  | node func arg =>
      (∀ id, func.binder? .standard = some id → id < low → arg.Needs low (.singleton id))
        ∧ func.FunctionsNeeded low ∧ arg.FunctionsNeeded low

/-! ## Steps that keep the invariant -/

theorem Needs.congr {low : VarId} {vars vars' : VarSet} {t : Tree} (h : t.Needs low vars)
    (hvars : ∀ x ∈ vars, x ∈ t.freeVars .standard → x ∈ vars') : t.Needs low vars' := by
  induction t generalizing vars vars' with
  | leaf s => trivial
  | node f y ihf ihy =>
      obtain ⟨hself, hf, hy⟩ := h
      refine ⟨fun hfull hnew => ?_, ihf hf fun x hx hfree => ?_, ihy hy fun x hx hfree => ?_⟩
      · obtain ⟨x, hx, hfree⟩ := hself hfull hnew
        exact ⟨x, hvars x hx hfree, hfree⟩
      · exact hvars x hx (mem_freeVars_node.2 (.inl hfree))
      · by_cases hbinder : f.binder? .standard = some x
        · exact VarSet.mem_enter.2 (.inl hbinder)
        · have hx' := (VarSet.mem_enter.1 hx).resolve_left hbinder
          have hnode := mem_freeVars_node.2 (.inr ⟨hfree, hbinder⟩)
          exact VarSet.mem_enter.2 (.inr (hvars x hx' hnode))

theorem Needs.of_liftable {low : VarId} {vars : VarSet} {p t : Tree} (h : t.Needs low vars)
    (hp : Liftable p t) : p.Needs low vars := by
  induction hp generalizing vars with
  | here hf =>
      refine h.2.2.congr fun x hx hfree => ?_
      exact (VarSet.mem_enter.1 hx).resolve_left (hf x hfree)
  | func _ ih => exact ih h.2.1
  | arg hf _ ih =>
      refine (ih h.2.2).congr fun x hx hfree => ?_
      exact (VarSet.mem_enter.1 hx).resolve_left (hf x hfree)

theorem Replaces.eq_or_mem_freeVars {p t body : Tree} {id : VarId} (h : Replaces p id t body)
    (hid : id ∉ t.binders) : body = t ∨ id ∈ body.freeVars .standard := by
  have hbinder : ∀ {f : Tree}, id ∉ f.binders → f.binder? .standard ≠ some id := by
    intro f hf hsome
    obtain ⟨arg, result, rfl⟩ := binder?_eq_some hsome
    exact hf (by simp [binders, Symbol.lambda?])
  induction h with
  | leaf s => exact .inl rfl
  | @hit f f' x hf _ _ =>
      rw [binders, List.mem_append, not_or] at hid
      rw [mem_freeVars_node, hf.sameSpine.binder?_eq]
      exact .inr (.inr ⟨by simp, hbinder hid.1⟩)
  | @miss f f' x x' hf _ _ ihf ihx =>
      rw [binders, List.mem_append, not_or] at hid
      rw [mem_freeVars_node, hf.sameSpine.binder?_eq]
      rcases ihf hid.1 with rfl | hmem
      · rcases ihx hid.2 with rfl | hmem
        · exact .inl rfl
        · exact .inr (.inr ⟨hmem, hbinder hid.1⟩)
      · exact .inr (.inl hmem)

theorem Needs.of_replaces {low id : VarId} {vars : VarSet} {p t body : Tree} (h : t.Needs low vars)
    (hbody : Replaces p id t body) (hid : id ∉ t.binders) : body.Needs low (vars.insert id) := by
  -- What a tree needs itself: what it needed before, or the variable if a part was replaced.
  have hnode : ∀ {f f' x x' : Tree} {vars : VarSet},
      (node f' x' = node f x ∨ id ∈ (node f' x').freeVars .standard) → (node f x).Needs low vars →
      (node f' x').isFull = true → (node f' x').isFunctionFrom low = false →
      ∃ y ∈ vars.insert id, y ∈ (node f' x').freeVars .standard := by
    intro f f' x x' vars hsame hneeds hfull hnew
    rcases hsame with heq | hmem
    · rw [heq] at hfull hnew ⊢
      obtain ⟨y, hy, hfree⟩ := hneeds.1 hfull hnew
      exact ⟨y, by simp [hy], hfree⟩
    · exact ⟨id, by simp, hmem⟩
  induction hbody generalizing vars with
  | leaf s => trivial
  | @hit f f' x hf halpha ih =>
      have hwhole := (Replaces.hit hf halpha).eq_or_mem_freeVars hid
      exact ⟨hnode hwhole h, ih h.2.1 fun hmem => hid (List.mem_append_left _ hmem), trivial⟩
  | @miss f f' x x' hf hne hx ihf ihx =>
      have hwhole := (Replaces.miss hf hne hx).eq_or_mem_freeVars hid
      refine ⟨hnode hwhole h, ihf h.2.1 fun hmem => hid (List.mem_append_left _ hmem), ?_⟩
      refine (ihx h.2.2 fun hmem => hid (List.mem_append_right _ hmem)).congr fun y hy _ => ?_
      simpa [hf.sameSpine.binder?_eq, or_left_comm] using hy

theorem isFunctionFrom_of_binders {low : VarId} {t : Tree} (h : ∀ x ∈ t.binders, x < low) :
    t.isFunctionFrom low = false := by
  cases t with
  | leaf s => rfl
  | node f x =>
      rw [isFunctionFrom]
      cases hf : f.binder? .standard with
      | none => rfl
      | some id =>
          have hlt : id < low := by
            obtain ⟨arg, result, rfl⟩ := binder?_eq_some hf
            exact h id (by simp [binders, Symbol.lambda?])
          simpa using hlt

mutual

/-- Code motion keeps what a tree needs. -/
theorem Moves.needs : {next : VarId} → {t t' : Tree} → {n : Nat} → Moves next t n t' →
    {low : VarId} → low ≤ next → (∀ x ∈ t.binders, x < low) → t.MentionsBelow next →
    {vars : VarSet} → t.Needs low vars → t'.Needs low vars
  | _, _, _, _, .args h, _, hnext, hlow, hbelow, _, hneeds => h.needs hnext hlow hbelow hneeds
  | next, t, _, _, .share (p := p) (m := m) hp hpfull hleaf hbound hbody hrest, low, hnext,
      hlow, hbelow, vars, hneeds => by
      have hid : next ≤ next + m := Nat.le_add_right next m
      have hnew : low ≤ next + m := Nat.le_trans hnext hid
      have hplow : ∀ x ∈ p.binders, x < low := fun x hx => hlow x (hp.mem_binders hx)
      have hpneeds : p.Needs low vars := hneeds.of_liftable hp
      have hself : ∃ x ∈ vars, x ∈ p.freeVars .standard := by
        cases p with
        | leaf s => simp [isLeaf] at hleaf
        | node g z => exact hpneeds.1 hpfull (isFunctionFrom_of_binders hplow)
      have hboundneeds := hbound.needs hnext hplow (hp.mentionsBelow hbelow) hpneeds
      have hrestneeds := hrest.needs (Nat.le_succ_of_le hnew)
        (fun x hx => hlow x (hbody.mem_binders hx)) (hbody.mentionsBelow hbelow hid)
        (hneeds.of_replaces hbody fun hmem => Nat.not_lt_of_le hnew (hlow _ hmem))
      refine ⟨fun _ _ => ?_, ⟨fun hfull => ?_, trivial, hboundneeds⟩, fun _ hold => ?_, trivial,
        hrestneeds⟩
      · obtain ⟨x, hx, hfree⟩ := hself
        refine ⟨x, hx, mem_freeVars_bindTree.2 (.inl ?_)⟩
        exact (hbound.mem_freeVars (hp.mentionsBelow hbelow)).2 hfree
      · cases hfull
      · have hfrom : (low ≤ next + m : Bool) = false := hold
        simp [hnew] at hfrom

theorem MovesArgs.needs : {next : VarId} → {t t' : Tree} → {n : Nat} → MovesArgs next t n t' →
    {low : VarId} → low ≤ next → (∀ x ∈ t.binders, x < low) → t.MentionsBelow next →
    {vars : VarSet} → t.Needs low vars → t'.Needs low vars
  | _, _, _, _, .leaf s, _, _, _, _, _, _ => trivial
  | next, _, _, _, .node (m := m) hf hx, low, hnext, hlow, hbelow, vars, hneeds => by
      have hbinder := hf.sameSpine.binder?_eq
      refine ⟨fun hfull hnew => ?_, ?_, ?_⟩
      · rw [isFunctionFrom, hbinder] at hnew
        rw [(MovesArgs.node hf hx).sameSpine.isFull_eq] at hfull
        obtain ⟨y, hy, hfree⟩ := hneeds.1 hfull hnew
        exact ⟨y, hy, ((MovesArgs.node hf hx).mem_freeVars hbelow).2 hfree⟩
      · exact hf.needs hnext (fun y hy => hlow y (List.mem_append_left _ hy)) hbelow.func hneeds.2.1
      · rw [VarSet.enter, hbinder]
        exact hx.needs (Nat.le_add_right_of_le hnext)
          (fun y hy => hlow y (List.mem_append_right _ hy))
          (hbelow.arg.mono (Nat.le_add_right next m)) hneeds.2.2

end

/-! ## Trees in which nothing is found -/

theorem exists_mem_freeVars_of_refersTo {t : Tree} {vars taken : VarSet}
    (h : t.refersTo .standard vars = true) (hout : t.BindsOutside taken)
    (htaken : ∀ x ∈ vars, x ∈ taken) : ∃ x ∈ vars, x ∈ t.freeVars .standard := by
  induction t with
  | leaf s =>
      cases s with
      | var id ty =>
          exact ⟨id, by simpa [refersTo, Binders.standard, Symbol.reference?] using h, by simp⟩
      | _ => simp [refersTo, Binders.standard, Symbol.reference?] at h
  | node f y ihf ihy =>
      rw [refersTo, Bool.or_eq_true] at h
      rcases h with h | h
      · obtain ⟨x, hx, hfree⟩ := ihf h hout.func
        exact ⟨x, hx, mem_freeVars_node.2 (.inl hfree)⟩
      · obtain ⟨x, hx, hfree⟩ := ihy h hout.arg
        exact ⟨x, hx, mem_freeVars_node.2 (.inr ⟨hfree, hout.binder?_ne (htaken x hx)⟩)⟩

theorem BindsOutside.enter {f x : Tree} {taken : VarSet} (h : (node f x).BindsOutside taken) :
    x.BindsOutside (taken.enter f) := by
  unfold BindsOutside at h
  unfold VarSet.enter
  split at h
  · rename_i id hf
    simpa only [hf] using h.2
  · rename_i hf
    simpa only [hf] using h.2

/-- The search goes down the spine first, then to the argument and into it. -/
theorem shareableBelow?_node (whole : Tree) (crossed : VarSet) (f x : Tree) :
    shareableBelow? .standard whole crossed (node f x)
      = (shareableBelow? .standard whole crossed f).or
          (if worthSharing .standard whole (crossed.enter f) x then some x
            else shareableBelow? .standard whole (crossed.enter f) x) := by
  rw [shareableBelow?, VarSet.enter]
  cases hf : f.binder? .standard with
  | some id =>
      -- Nothing is below a bare function symbol.
      obtain ⟨_, _, rfl⟩ := binder?_eq_some hf
      rfl
  | none => cases shareableBelow? .standard whole crossed f <;> rfl

/-- A search that finds nothing found nothing at the argument and inside, nor on the spine. -/
theorem shareableBelow?_node_eq_none {whole f x : Tree} {crossed : VarSet}
    (h : shareableBelow? .standard whole crossed (node f x) = none) :
    shareableBelow? .standard whole crossed f = none
      ∧ worthSharing .standard whole (crossed.enter f) x = false
      ∧ shareableBelow? .standard whole (crossed.enter f) x = none := by
  rw [shareableBelow?_node, Option.or_eq_none_iff] at h
  obtain ⟨hfunc, harg⟩ := h
  split at harg
  · cases harg
  · rename_i hworth
    exact ⟨hfunc, by simpa using hworth, harg⟩

theorem exists_mem_of_not_worthSharing {whole t : Tree} {crossed taken : VarSet}
    (h : worthSharing .standard whole crossed t = false) (hcrossed : ∃ x, x ∈ crossed)
    (hout : t.BindsOutside taken) (htaken : ∀ x ∈ crossed, x ∈ taken) (hfull : t.isFull = true)
    (hleaf : t.isLeaf = false) : ∃ x ∈ crossed, x ∈ t.freeVars .standard := by
  have hne : crossed.isEmpty = false := by
    rw [← Bool.not_eq_true, VarSet.isEmpty_iff]
    simpa using hcrossed
  refine exists_mem_freeVars_of_refersTo ?_ hout htaken
  simpa [worthSharing, hfull, hleaf, hne] using h

/-- Below a function, a search that finds nothing has met only trees that need a variable bound
on the way to them. -/
theorem needs_of_shareableBelow? {whole t : Tree} {crossed taken : VarSet} (low : VarId)
    (h : shareableBelow? .standard whole crossed t = none) (hcrossed : ∃ x, x ∈ crossed)
    (hout : t.BindsOutside taken) (htaken : ∀ x ∈ crossed, x ∈ taken) (hfits : t.Fits)
    (hself : t.isFull = true → t.isLeaf = false → ∃ x ∈ crossed, x ∈ t.freeVars .standard) :
    t.Needs low crossed := by
  induction t generalizing crossed taken with
  | leaf s => trivial
  | node f x ihf ihx =>
      obtain ⟨hfitsf, hfitsx, _, hnext⟩ := hfits
      obtain ⟨hfunc, hworth, hbelow⟩ := shareableBelow?_node_eq_none h
      have hpartial : f.isFull ≠ true := by simp [isFull, hnext]
      have hentered : ∃ y, y ∈ crossed.enter f := by
        obtain ⟨y, hy⟩ := hcrossed
        exact ⟨y, by simp [hy]⟩
      have htaken' : ∀ y ∈ crossed.enter f, y ∈ taken.enter f := by
        intro y hy
        rw [VarSet.mem_enter] at hy ⊢
        exact hy.imp_right (htaken y)
      refine ⟨fun hfull _ => hself hfull rfl, ?_, ?_⟩
      · exact ihf hfunc hcrossed hout.func htaken hfitsf fun hfull => absurd hfull hpartial
      · exact ihx hbelow hentered hout.enter htaken' hfitsx
          (exists_mem_of_not_worthSharing hworth hentered hout.enter htaken')

end Tree

/-! ## Runs in which nothing is refused -/

def SharePolicy.Willing (policy : SharePolicy) : Prop :=
  ∀ bound body : Tree, bound.isFull = true → body.isFull = true →
    policy bound body = some ⟨bound.resultType, body.resultType⟩

theorem SharePolicy.Willing.ownTypes {policy : SharePolicy} (h : policy.Willing) :
    policy.OwnTypes :=
  fun bound body hbound hbody => .inr (h bound body hbound hbody)

theorem SharePolicy.always_willing : SharePolicy.always.Willing :=
  fun _ _ _ _ => rfl

namespace Tree

variable {policy : SharePolicy}

mutual

theorem Hoists.functionsNeeded (hpolicy : policy.Willing) : {next : VarId} → {t t' : Tree} →
    {n : Nat} → Hoists policy next t n t' → {low : VarId} → low ≤ next →
    (∀ x ∈ t.binders, x < low) → t.MentionsBelow next → t.NonShadowing → t.Fits →
    t.isFull = true → t'.FunctionsNeeded low
  | _, t, _, _, .args hrefuse h, _, hnext, hlow, hbelow, hns, hfits, hfull => by
      have hnone : t.shareable? .standard = none := by
        cases hshare : t.shareable? .standard with
        | none => rfl
        | some p =>
            have hpfull := (liftable_of_shareable? hshare).2.1
            have hsome := hpolicy p t hpfull hfull
            rw [hrefuse p hshare] at hsome
            cases hsome
      have hsearch : shareableBelow? .standard t .empty t = none := by
        rw [shareable?] at hnone
        split at hnone
        · cases hnone
        · exact hnone
      exact h.functionsNeeded hpolicy hnext hlow hbelow hns hfits hsearch
  | next, t, _, _, .share (p := p) (m := m) hshare _ hbound hbody hrest, low, hnext, hlow,
      hbelow, hns, hfits, hfull => by
      obtain ⟨hp, hpfull, _⟩ := liftable_of_shareable? hshare
      have hid : next ≤ next + m := Nat.le_add_right next m
      have hnew : low ≤ next + m := Nat.le_trans hnext hid
      have hboundneeded := hbound.functionsNeeded hpolicy hnext
        (fun x hx => hlow x (hp.mem_binders hx)) (hp.mentionsBelow hbelow) (hp.nonShadowing hns)
        (hp.fits hfits) hpfull
      have hrestneeded := hrest.functionsNeeded hpolicy (Nat.le_succ_of_le hnew)
        (fun x hx => hlow x (hbody.mem_binders hx)) (hbody.mentionsBelow hbelow hid)
        (hbody.nonShadowing hns hbelow hid) (hbody.fits hfits)
        (hbody.sameSpine.isFull_eq.trans hfull)
      refine ⟨by simp [binder?], ⟨by simp [binder?, Binders.standard, Symbol.lambda?], trivial,
        hboundneeded⟩, fun id hsome hlt => ?_, trivial, hrestneeded⟩
      obtain rfl : next + m = id := Option.some.inj hsome
      exact absurd hlt (Nat.not_lt_of_le hnew)

theorem HoistsArgs.functionsNeeded (hpolicy : policy.Willing) : {next : VarId} → {t t' : Tree} →
    {n : Nat} → HoistsArgs policy next t n t' → {low : VarId} → low ≤ next →
    (∀ x ∈ t.binders, x < low) → t.MentionsBelow next → t.NonShadowing → t.Fits →
    {whole : Tree} → shareableBelow? .standard whole .empty t = none → t'.FunctionsNeeded low
  | _, _, _, _, .leaf s, _, _, _, _, _, _, _, _ => trivial
  | next, _, _, _, .node (f := f) (x := x) (m := m) hf hx, low, hnext, hlow, hbelow, hns,
       ⟨hfitsf, hfitsx, hxfull, _⟩, whole, hnone => by
      obtain ⟨hfunc, hworth, hsearch⟩ := shareableBelow?_node_eq_none hnone
      have hxlow : ∀ y ∈ x.binders, y < low := fun y hy => hlow y (List.mem_append_right _ hy)
      have hxnext : low ≤ next + m := Nat.le_add_right_of_le hnext
      have hxbelow := hbelow.arg.mono (Nat.le_add_right next m)
      refine ⟨fun id hid _ => ?_, ?_,
        hx.functionsNeeded hpolicy hxnext hxlow hxbelow hns.arg hfitsx hxfull⟩
      · rw [hf.moves.sameSpine.binder?_eq] at hid
        have hparam : VarSet.empty.enter f = .singleton id := by
          refine VarSet.ext fun y => ?_
          simp [hid, eq_comm]
        rw [hparam] at hworth hsearch
        have hout : x.BindsOutside (.singleton id) := by
          refine (BindsOutside.enter hns).mono fun y hy => ?_
          obtain rfl := VarSet.mem_singleton.1 hy
          exact VarSet.mem_enter.2 (.inl hid)
        have hmem : ∃ y, y ∈ VarSet.singleton id := ⟨id, by simp⟩
        have hneeds := needs_of_shareableBelow? low hsearch hmem hout (fun _ hy => hy) hfitsx
          (exists_mem_of_not_worthSharing hworth hmem hout fun _ hy => hy)
        exact hx.moves.needs hxnext hxlow hxbelow hneeds
      · exact hf.functionsNeeded hpolicy hnext (fun y hy => hlow y (List.mem_append_left _ hy))
          hbelow.func hns.func hfitsf hfunc

end

/-! ## Places in a tree -/

/-- `s` stands in the tree, inside functions that bind the variables of the list, outermost
first. -/
inductive StandsIn (s : Tree) : List VarId → Tree → Prop where
  | here : StandsIn s [] s
  | func {path : List VarId} {f x : Tree} : StandsIn s path f → StandsIn s path (node f x)
  | arg {path : List VarId} {f x : Tree} :
      f.binder? .standard = none → StandsIn s path x → StandsIn s path (node f x)
  | body {path : List VarId} {f x : Tree} {id : VarId} :
      f.binder? .standard = some id → StandsIn s path x → StandsIn s (id :: path) (node f x)

theorem Needs.exists_mem {low : VarId} {vars : VarSet} {s t : Tree} {path : List VarId}
    (h : t.Needs low vars) (hs : StandsIn s path t) (hfull : s.isFull = true)
    (hleaf : s.isLeaf = false) (hnew : s.isFunctionFrom low = false) :
    ∃ x, (x ∈ vars ∨ x ∈ path) ∧ x ∈ s.freeVars .standard := by
  induction hs generalizing vars with
  | here =>
      cases s with
      | leaf s => simp [isLeaf] at hleaf
      | node f y =>
          obtain ⟨x, hx, hfree⟩ := h.1 hfull hnew
          exact ⟨x, .inl hx, hfree⟩
  | func _ ih => exact ih h.2.1
  | arg hf _ ih =>
      obtain ⟨x, hx, hfree⟩ := ih h.2.2
      exact ⟨x, by simpa [hf] using hx, hfree⟩
  | @body path f y id hf _ ih =>
      obtain ⟨x, hx, hfree⟩ := ih h.2.2
      refine ⟨x, ?_, hfree⟩
      rw [VarSet.mem_enter, hf] at hx
      simp only [List.mem_cons]
      rcases hx with (hx | hx) | hx
      · exact .inr (.inl (Option.some.inj hx).symm)
      · exact .inl hx
      · exact .inr (.inr hx)

theorem FunctionsNeeded.of_standsIn {low : VarId} {s t : Tree} {path : List VarId}
    (h : t.FunctionsNeeded low) (hs : StandsIn s path t) : s.FunctionsNeeded low := by
  induction hs with
  | here => exact h
  | func _ ih => exact ih h.2.1
  | arg _ _ ih => exact ih h.2.2
  | body _ _ ih => exact ih h.2.2

/-- All that stands in a function with a parameter below `start` needs it: each full tree in the
body, leaves and functions with parameters from `start` on apart, refers to the parameter or to a
variable bound between the function and that tree. -/
def NoInvariantCode (start : VarId) (t : Tree) : Prop :=
  ∀ id argTy resultTy body outer,
    StandsIn (node (leaf (.lambda id argTy resultTy)) body) outer t → id < start →
    ∀ s path, StandsIn s path body → s.isFull = true → s.isLeaf = false →
      s.isFunctionFrom start = false → ∃ x, (x = id ∨ x ∈ path) ∧ x ∈ s.freeVars .standard

theorem FunctionsNeeded.noInvariantCode {start : VarId} {t : Tree} (h : t.FunctionsNeeded start) :
    t.NoInvariantCode start := by
  intro id argTy resultTy body outer hfunction hid s path hs hfull hleaf hnew
  have hbody := (h.of_standsIn hfunction).1 id rfl hid
  obtain ⟨x, hx, hfree⟩ := hbody.exists_mem hs hfull hleaf hnew
  exact ⟨x, hx.imp_left VarSet.mem_singleton.1, hfree⟩

/-- Where the policy refuses nothing, code motion leaves nothing in the functions of a tree that
could be computed outside. -/
theorem hoist_noInvariantCode (hpolicy : policy.Willing) {t : Tree} (hbuilt : t.Built)
    (hfull : t.isFull = true) (hns : t.NonShadowing) {start : VarId}
    (hstart : t.firstUnused .standard = .ok start) :
    Yields (t.Crowded start) (fun hoisted => hoisted.tree.NoInvariantCode start)
      (t.hoist ⟨.standard, policy⟩) := by
  have hbelow := mentionsBelow_of_firstUnused hstart
  have hlow : ∀ x ∈ t.binders, x < start := fun x hx => hbelow x (mentions_of_mem_binders hx)
  refine (hoist_hoists hpolicy.ownTypes hbuilt.fits hfull hstart).mono (fun h => h) ?_
  intro hoisted hhoists
  exact (hhoists.functionsNeeded hpolicy (Nat.le_refl start) hlow hbelow hns hbuilt.fits
    hfull).noInvariantCode

private def nestedSums : Tree :=
  let plus (a b : Tree) : Tree := .node (.node (.leaf (.arith .add)) a) b
  let var (id : VarId) : Tree := .leaf (.var id .int)
  .node (.leaf (.lambda 1 .int .int))
    (.node
      (.node (.leaf (.call .int .int))
        (.node (.leaf (.lambda 2 .int .int))
          (plus (plus (var 2) (plus (var 1) (.leaf (.int 3)))) (plus (var 0) (.leaf (.int 5))))))
      (var 1))

theorem hoist_noInvariantCode_nestedSums :
    ∃ hoisted, nestedSums.hoist ⟨.standard, .always⟩ = .ok hoisted ∧ hoisted.lets = 2
      ∧ ¬nestedSums.NoInvariantCode 3 ∧ hoisted.tree.NoInvariantCode 3 := by
  have h := hoist_noInvariantCode SharePolicy.always_willing (t := nestedSums) (by decide) rfl
    (by decide) rfl
  refine ⟨⟨_, 2, ⟨2⟩⟩, rfl, rfl, fun hcode => ?_, h⟩
  obtain ⟨x, rfl | hx, hfree⟩ := hcode 2 .int .int _ [1] (.body rfl (.func (.arg rfl .here)))
    (by decide) _ [] (.arg rfl .here) rfl rfl rfl
  · revert hfree
    decide
  · cases hx

end Tree

end ExprTree

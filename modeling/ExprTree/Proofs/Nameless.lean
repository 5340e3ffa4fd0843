import ExprTree.Proofs.Alpha
/-!
# Nameless forms

The nameless form of a tree tells nothing about the names of bound variables: a
reference to one gives the number of functions between itself and the one that
binds it. Free variables keep their names, and all symbols keep their types.

Two trees are alpha-equivalent exactly if they have the same nameless form, so
alpha-equivalence is an equivalence, and it is kept when both trees are renamed.
A comparison that takes shortcuts, wherever it can take one, comes to the same
answer.
-/

namespace ExprTree

/-- What a reference stands for, apart from names of bound variables. -/
inductive Target where
  /-- The variable of the function with this many others in between. -/
  | bound (distance : Nat)
  | free (id : VarId)
deriving DecidableEq

def Target.deeper : Target → Target
  | bound distance => bound (distance + 1)
  | free id => free id

/-- What a reference to variable `x` stands for under functions that bind the variables of
`scope`, innermost first. -/
def resolve : List VarId → VarId → Target
  | [], x => .free x
  | y :: scope, x => if y = x then .bound 0 else (resolve scope x).deeper

inductive Nameless where
  | reference (target : Target) (ty : Ty)
  | function (arg result : Ty)
  /-- A symbol that neither refers to a variable nor binds one. -/
  | symbol (s : Symbol)
  | apply (func arg : Nameless)
deriving DecidableEq

def Nameless.isFunction : Nameless → Bool
  | function _ _ => true
  | _ => false

def Symbol.nameless (scope : List VarId) : Symbol → Nameless
  | var id ty => .reference (resolve scope id) ty
  | lambda _ arg result => .function arg result
  | s => .symbol s

namespace Tree

def namelessIn : Tree → List VarId → Nameless
  | leaf s, scope => s.nameless scope
  | node func arg, scope =>
      .apply (func.namelessIn scope)
        (arg.namelessIn ((func.binder? .standard).toList ++ scope))

def nameless (t : Tree) : Nameless :=
  t.namelessIn []

end Tree

/-! ## References -/

theorem Target.deeper_inj {r r' : Target} : r.deeper = r'.deeper ↔ r = r' := by
  cases r <;> cases r' <;> simp [deeper]

theorem Target.deeper_ne_zero (r : Target) : r.deeper ≠ .bound 0 := by
  cases r <;> simp [deeper]

/-- Variables match under pairs of binders if they stand for the same. -/
theorem matchVars_iff_resolve {pairs : List (VarId × VarId)} {x y : VarId} :
    matchVars pairs x y = true
      ↔ resolve (pairs.map Prod.fst) x = resolve (pairs.map Prod.snd) y := by
  induction pairs with
  | nil => simp [matchVars, resolve]
  | cons p pairs ih =>
      obtain ⟨u, v⟩ := p
      simp only [matchVars, List.map_cons, resolve]
      by_cases hu : u = x
      · by_cases hv : v = y
        · simp [hu, hv]
        · simp [hu, hv, (Target.deeper_ne_zero _).symm]
      · by_cases hv : v = y
        · simp [hu, hv, Target.deeper_ne_zero]
        · simp [hu, hv, Target.deeper_inj, ih]

/-! ## Symbols and trees -/

namespace Symbol

theorem lambda?_eq_some {s : Symbol} {id : VarId} (h : s.lambda? = some id) :
    ∃ arg result, s = .lambda id arg result := by
  cases s with
  | lambda id' arg result =>
      obtain rfl : id' = id := Option.some.inj h
      exact ⟨arg, result, rfl⟩
  | _ => cases h

theorem types_eq_of_signature_eq {id id' : VarId} {arg result arg' result' : Ty}
    (h : (lambda id arg result).signature = (lambda id' arg' result').signature) :
    arg = arg' ∧ result = result' := by
  simp only [signature, Signature.mk.injEq, Ty.fn.injEq] at h
  exact h.2

/-- Only references look at the scope. -/
theorem nameless_congr {s : Symbol} (hs : s.reference? = none) (scope scope' : List VarId) :
    s.nameless scope = s.nameless scope' := by
  cases s with
  | var id ty => cases hs
  | _ => rfl

theorem eq_of_nameless_eq {scope : List VarId} {s t : Symbol} (h : t.nameless scope = .symbol s) :
    t = s := by
  cases t with
  | var id ty => cases h
  | lambda id arg result => cases h
  | _ => exact Nameless.symbol.inj h

theorem alphaEqUnder_iff {pairs : List (VarId × VarId)} {s t : Symbol} :
    s.alphaEqUnder .standard pairs t = true
      ↔ s.nameless (pairs.map Prod.fst) = t.nameless (pairs.map Prod.snd) := by
  constructor
  · intro h
    rcases alphaEqUnder_cases h with
      ⟨x, y, ty, rfl, rfl, hxy⟩ | ⟨⟨u, hu⟩, ⟨v, hv⟩, hsig⟩ | ⟨rfl, hs⟩
    · rw [nameless, nameless, matchVars_iff_resolve.1 hxy]
    · obtain ⟨a, r, rfl⟩ := lambda?_eq_some hu
      obtain ⟨a', r', rfl⟩ := lambda?_eq_some hv
      obtain ⟨rfl, rfl⟩ := types_eq_of_signature_eq hsig
      rfl
    · exact nameless_congr hs _ _
  · intro h
    cases s with
    | var x ty =>
        cases t with
        | var y ty' =>
            obtain ⟨hxy, rfl⟩ := Nameless.reference.inj h
            simp [Symbol.alphaEqUnder, Binders.standard, reference?, signature,
              matchVars_iff_resolve.2 hxy]
        | _ => cases h
    | lambda u a r =>
        cases t with
        | lambda v a' r' =>
            obtain ⟨rfl, rfl⟩ := Nameless.function.inj h
            simp [Symbol.alphaEqUnder, Binders.standard, reference?, lambda?, signature]
        | _ => cases h
    | _ =>
        obtain rfl := eq_of_nameless_eq h.symm
        simp [Symbol.alphaEqUnder, Binders.standard, reference?]

end Symbol

namespace Tree

theorem alphaEqUnder_function {pairs : List (VarId × VarId)} {id : VarId} {arg result : Ty}
    {body t : Tree}
    (h : alphaEqUnder .standard pairs (node (leaf (.lambda id arg result)) body) t = true) :
    ∃ id' body', t = node (leaf (.lambda id' arg result)) body'
      ∧ alphaEqUnder .standard ((id, id') :: pairs) body body' = true := by
  cases t with
  | leaf t => simp [alphaEqUnder] at h
  | node g y =>
      rcases alphaEqUnder_node_cases h with ⟨u, v, hu, hv, hsig, hxy⟩ | ⟨hf, _⟩
      · obtain rfl : id = u := Option.some.inj hu
        obtain ⟨arg', result', rfl⟩ := binder?_eq_some hv
        obtain ⟨rfl, rfl⟩ := Symbol.types_eq_of_signature_eq hsig
        exact ⟨v, y, rfl, hxy⟩
      · cases hf

theorem alphaEqUnder_application {pairs : List (VarId × VarId)} {f x t : Tree}
    (hf : f.binder? .standard = none) (h : alphaEqUnder .standard pairs (node f x) t = true) :
    ∃ g y, t = node g y ∧ alphaEqUnder .standard pairs f g = true
      ∧ alphaEqUnder .standard pairs x y = true := by
  cases t with
  | leaf t => simp [alphaEqUnder] at h
  | node g y =>
      rcases alphaEqUnder_node_cases h with ⟨u, _, hu, _⟩ | ⟨_, _, hfg, hxy⟩
      · simp [hf] at hu
      · exact ⟨g, y, rfl, hfg, hxy⟩

/-- A bare function symbol can be told from other trees by its nameless form. -/
theorem isSome_binder?_congr {s t : Tree} {scope scope' : List VarId}
    (h : s.namelessIn scope = t.namelessIn scope') :
    (s.binder? .standard).isSome = (t.binder? .standard).isSome := by
  have hform (t : Tree) (scope : List VarId) :
      (t.binder? .standard).isSome = (t.namelessIn scope).isFunction := by
    cases t with
    | node f x => rfl
    | leaf s => cases s <;> rfl
  rw [hform s scope, hform t scope', h]

theorem namelessIn_eq_of_alphaEqUnder {pairs : List (VarId × VarId)} {s t : Tree}
    (h : alphaEqUnder .standard pairs s t = true) :
    s.namelessIn (pairs.map Prod.fst) = t.namelessIn (pairs.map Prod.snd) := by
  induction s generalizing pairs t with
  | leaf s =>
      cases t with
      | leaf t => exact Symbol.alphaEqUnder_iff.1 h
      | node g y => simp [alphaEqUnder] at h
  | node f x ihf ihx =>
      cases t with
      | leaf t => simp [alphaEqUnder] at h
      | node g y =>
          rcases alphaEqUnder_node_cases h with ⟨u, v, hu, hv, hsig, hxy⟩ | ⟨hf, hg, hfg, hxy⟩
          · obtain ⟨a, r, rfl⟩ := binder?_eq_some hu
            obtain ⟨a', r', rfl⟩ := binder?_eq_some hv
            obtain ⟨rfl, rfl⟩ := Symbol.types_eq_of_signature_eq hsig
            exact congrArg (Nameless.apply _) (ihx hxy)
          · simp only [namelessIn, hf, hg, Option.toList_none, List.nil_append]
            rw [ihf hfg, ihx hxy]

theorem alphaEqUnder_of_namelessIn_eq {pairs : List (VarId × VarId)} {s t : Tree}
    (h : s.namelessIn (pairs.map Prod.fst) = t.namelessIn (pairs.map Prod.snd)) :
    alphaEqUnder .standard pairs s t = true := by
  induction s generalizing pairs t with
  | leaf s =>
      cases t with
      | leaf t => exact Symbol.alphaEqUnder_iff.2 h
      | node g y => cases s <;> cases h
  | node f x ihf ihx =>
      cases t with
      | leaf t => cases t <;> cases h
      | node g y =>
          obtain ⟨hfg, hxy⟩ := Nameless.apply.inj h
          have hsome := isSome_binder?_congr hfg
          cases hf : f.binder? .standard with
          | none =>
              obtain hg : g.binder? .standard = none := by simpa [hf] using hsome.symm
              simp only [hf, hg, Option.toList_none, List.nil_append] at hxy
              simp [alphaEqUnder, hf, ihf hfg, ihx hxy]
          | some u =>
              rw [hf] at hsome
              obtain ⟨v, hg⟩ := Option.isSome_iff_exists.1 hsome.symm
              simp only [hf, hg, Option.toList_some, List.singleton_append] at hxy
              have hbody : alphaEqUnder .standard ((u, v) :: pairs) x y = true := ihx hxy
              have hsig : f.signature = g.signature := signature_eq_of_alphaEqUnder (ihf hfg)
              simp [alphaEqUnder, hf, hg, hbody, hsig]

/-- Trees are equivalent under pairs of binders if they have the same nameless form there. -/
theorem alphaEqUnder_iff {pairs : List (VarId × VarId)} {s t : Tree} :
    alphaEqUnder .standard pairs s t = true
      ↔ s.namelessIn (pairs.map Prod.fst) = t.namelessIn (pairs.map Prod.snd) :=
  ⟨namelessIn_eq_of_alphaEqUnder, alphaEqUnder_of_namelessIn_eq⟩

theorem alphaEq_iff {s t : Tree} : alphaEq .standard s t = true ↔ s.nameless = t.nameless := by
  rw [alphaEq_eq]
  exact alphaEqUnder_iff

end Tree

/-! ## Binders around two trees -/

theorem matchVars_append_self (pairs : List (VarId × VarId)) (scope : List VarId) (x y : VarId) :
    matchVars (pairs ++ scope.map fun z => (z, z)) x y = matchVars pairs x y := by
  induction pairs with
  | cons p pairs ih => simp only [List.cons_append, matchVars, ih]
  | nil =>
      induction scope with
      | nil => rfl
      | cons z scope ih =>
          rw [List.nil_append] at ih
          simp only [List.nil_append, List.map_cons, matchVars, ih]
          by_cases hx : z = x
          · subst hx
            by_cases hy : z = y <;> simp [hy]
          · by_cases hy : z = y
            · subst hy
              simp only [beq_self_eq_true, Bool.or_true, if_true, Bool.and_true]
              exact BEq.comm
            · simp [hx, hy]

theorem Symbol.alphaEqUnder_append_self (b : Binders) (pairs : List (VarId × VarId))
    (scope : List VarId) (s t : Symbol) :
    s.alphaEqUnder b (pairs ++ scope.map fun z => (z, z)) t = s.alphaEqUnder b pairs t := by
  simp only [Symbol.alphaEqUnder, matchVars_append_self]

namespace Tree

theorem alphaEqUnder_append_self (b : Binders) (pairs : List (VarId × VarId))
    (scope : List VarId) (s t : Tree) :
    alphaEqUnder b (pairs ++ scope.map fun z => (z, z)) s t = alphaEqUnder b pairs s t := by
  induction s generalizing pairs t with
  | leaf s =>
      cases t with
      | leaf t => simp only [alphaEqUnder, Symbol.alphaEqUnder_append_self]
      | node g y => simp only [alphaEqUnder]
  | node f x ihf ihx =>
      cases t with
      | leaf t => simp only [alphaEqUnder]
      | node g y =>
          simp only [alphaEqUnder, ihf, ihx, ← List.cons_append]

theorem alphaEq_iff_namelessIn (scope : List VarId) {s t : Tree} :
    alphaEq .standard s t = true ↔ s.namelessIn scope = t.namelessIn scope := by
  rw [alphaEq_eq, ← alphaEqUnder_append_self .standard [] scope, alphaEqUnder_iff]
  simp [Function.comp_def]

/-- Equivalent trees compare alike. -/
theorem alphaEq_congr {pairs : List (VarId × VarId)} {a a' b b' : Tree}
    (ha : alphaEqUnder .standard pairs a a' = true)
    (hb : alphaEqUnder .standard pairs b b' = true) :
    alphaEq .standard a b = alphaEq .standard a' b' := by
  rw [Bool.eq_iff_iff, alphaEq_iff_namelessIn (pairs.map Prod.fst),
    alphaEq_iff_namelessIn (pairs.map Prod.snd), alphaEqUnder_iff.1 ha, alphaEqUnder_iff.1 hb]

theorem alphaEqUnder_symm {pairs : List (VarId × VarId)} {s t : Tree}
    (h : alphaEqUnder .standard pairs s t = true) :
    alphaEqUnder .standard (pairs.map Prod.swap) t s = true := by
  refine alphaEqUnder_iff.2 ?_
  simpa [Function.comp_def] using (alphaEqUnder_iff.1 h).symm

theorem alphaEq_symm {s t : Tree} (h : alphaEq .standard s t = true) :
    alphaEq .standard t s = true :=
  alphaEq_iff.2 (alphaEq_iff.1 h).symm

theorem freeVars_eq_of_alphaEq {s t : Tree} (h : alphaEq .standard s t = true) :
    s.freeVars .standard = t.freeVars .standard :=
  VarSet.ext fun _ => ⟨mem_freeVars_of_alphaEq (alphaEq_symm h), mem_freeVars_of_alphaEq h⟩

/-- A tree equivalent to a closed one is closed. -/
theorem closed_of_alphaEqUnder {pairs : List (VarId × VarId)} {s t : Tree}
    (h : alphaEqUnder .standard pairs s t = true) (hs : ∀ x, x ∉ s.freeVars .standard)
    (x : VarId) : x ∉ t.freeVars .standard := by
  intro hx
  obtain ⟨y, hy, _⟩ := mem_freeVars_of_alphaEqUnder h hx
  exact hs y hy

theorem isEmpty_freeVars_congr {pairs : List (VarId × VarId)} {s t : Tree}
    (h : alphaEqUnder .standard pairs s t = true) :
    (s.freeVars .standard).isEmpty = (t.freeVars .standard).isEmpty := by
  rw [Bool.eq_iff_iff, VarSet.isEmpty_iff, VarSet.isEmpty_iff]
  exact ⟨closed_of_alphaEqUnder h, closed_of_alphaEqUnder (alphaEqUnder_symm h)⟩

/-! ## Shortcuts -/

/-- An answer that may be given on two trees by a walk that takes shortcuts or not. Trees of
different size may be told apart at once, and outside all binders a tree may be known to be
compared with itself. -/
inductive Answers (b : Binders) : List (VarId × VarId) → Tree → Tree → Bool → Prop where
  | size {pairs : List (VarId × VarId)} {s t : Tree} : s.size ≠ t.size → Answers b pairs s t false
  | same (t : Tree) : Answers b [] t t true
  | leaves (pairs : List (VarId × VarId)) (s t : Symbol) :
      Answers b pairs (leaf s) (leaf t) (s.alphaEqUnder b pairs t)
  | functions {pairs : List (VarId × VarId)} {f x g y : Tree} {u v : VarId} {r : Bool} :
      f.binder? b = some u → g.binder? b = some v → Answers b ((u, v) :: pairs) x y r →
        Answers b pairs (node f x) (node g y) (f.signature == g.signature && r)
  | applications {pairs : List (VarId × VarId)} {f x g y : Tree} {r r' : Bool} :
      f.binder? b = none ∨ g.binder? b = none → Answers b pairs f g r → Answers b pairs x y r' →
        Answers b pairs (node f x) (node g y) (r && r')
  | leafNode (pairs : List (VarId × VarId)) (s : Symbol) (g y : Tree) :
      Answers b pairs (leaf s) (node g y) false
  | nodeLeaf (pairs : List (VarId × VarId)) (f x : Tree) (t : Symbol) :
      Answers b pairs (node f x) (leaf t) false

theorem alphaEqUnder_applications {b : Binders} {pairs : List (VarId × VarId)} {f x g y : Tree}
    (h : f.binder? b = none ∨ g.binder? b = none) :
    alphaEqUnder b pairs (node f x) (node g y)
      = (alphaEqUnder b pairs f g && alphaEqUnder b pairs x y) := by
  rcases h with h | h
  · simp [alphaEqUnder, h]
  · cases hf : f.binder? b <;> simp [alphaEqUnder, h, hf]

theorem Answers.eq {b : Binders} {pairs : List (VarId × VarId)} {s t : Tree} {r : Bool}
    (h : Answers b pairs s t r) : r = alphaEqUnder b pairs s t := by
  induction h with
  | size hsize => exact (Bool.eq_false_iff.2 (mt size_eq_of_alphaEqUnder hsize)).symm
  | same t => exact (alphaEqUnder_self b (List.forall_mem_nil _) t).symm
  | leaves => rfl
  | functions hf hg _ ih => simp [alphaEqUnder, hf, hg, ih]
  | applications hbare _ _ ihf ihx => rw [alphaEqUnder_applications hbare, ihf, ihx]
  | leafNode => simp [alphaEqUnder]
  | nodeLeaf => simp [alphaEqUnder]

theorem answers_alphaEqUnder (b : Binders) (pairs : List (VarId × VarId)) (s t : Tree) :
    Answers b pairs s t (alphaEqUnder b pairs s t) := by
  induction s generalizing pairs t with
  | leaf s =>
      cases t with
      | leaf t => exact .leaves pairs s t
      | node g y => simpa [alphaEqUnder] using Answers.leafNode pairs s g y
  | node f x ihf ihx =>
      cases t with
      | leaf t => simpa [alphaEqUnder] using Answers.nodeLeaf pairs f x t
      | node g y =>
          by_cases hbare : f.binder? b = none ∨ g.binder? b = none
          · rw [alphaEqUnder_applications hbare]
            exact .applications hbare (ihf pairs g) (ihx pairs y)
          · obtain ⟨hf, hg⟩ := not_or.1 hbare
            obtain ⟨u, hu⟩ := Option.ne_none_iff_exists'.1 hf
            obtain ⟨v, hv⟩ := Option.ne_none_iff_exists'.1 hg
            simpa [alphaEqUnder, hu, hv] using Answers.functions hu hv (ihx ((u, v) :: pairs) y)

/-! ## Results -/

/-- Alpha-equivalence is equality of nameless forms, hence an equivalence, and shortcuts change
no answer. -/
theorem alphaEq_iff_nameless_eq :
    (∀ s t : Tree, alphaEq .standard s t = true ↔ s.nameless = t.nameless)
      ∧ Equivalence (fun s t : Tree => alphaEq .standard s t = true)
      ∧ ∀ (s t : Tree) (r : Bool), Answers .standard [] s t r ↔ r = alphaEq .standard s t := by
  refine ⟨fun s t => alphaEq_iff, ⟨fun t => ?_, fun h => ?_, fun h h' => ?_⟩, fun s t r => ?_⟩
  · exact alphaEq_iff.2 rfl
  · exact alphaEq_iff.2 (alphaEq_iff.1 h).symm
  · exact alphaEq_iff.2 ((alphaEq_iff.1 h).trans (alphaEq_iff.1 h'))
  · rw [alphaEq_eq]
    refine ⟨Answers.eq, ?_⟩
    rintro rfl
    exact answers_alphaEqUnder .standard [] s t

end Tree

end ExprTree

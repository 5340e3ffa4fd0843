import ExprTree.Tree.Variables
/-!
# Alpha-equivalence

Equality of trees up to the names of bound variables, and the occurrences of a
tree in another one up to that equality.

`Tree.alphaEqUnder` is the definition: it walks both trees and keeps the pairs
of binders entered on the way. `Tree.alphaEq` gives the same answers and is
quick where the trees differ in size or share memory.
-/

namespace ExprTree

/-- Compare variables under pairs of binders, innermost pair first: the first
pair that holds either of them has to be this very pair, and variables in no
pair have to be equal. -/
def matchVars : List (VarId × VarId) → VarId → VarId → Bool
  | [], x, y => x == y
  | (p, q) :: pairs, x, y =>
      if p == x || q == y then p == x && q == y else matchVars pairs x y

theorem matchVars_self {pairs : List (VarId × VarId)} (h : ∀ p ∈ pairs, p.1 = p.2) (x : VarId) :
    matchVars pairs x x = true := by
  induction pairs with
  | nil => simp [matchVars]
  | cons p pairs ih =>
      obtain ⟨u, v⟩ := p
      have huv : u = v := h (u, v) (by simp)
      subst huv
      have ih := ih fun q hq => h q (by simp [hq])
      by_cases hux : u = x <;> simp [matchVars, hux, ih]

/-- Compare bare symbols under pairs of binders. Variables also have to agree in
type; a binding symbol without its body binds nothing, so only its types count. -/
def Symbol.alphaEqUnder (b : Binders) (pairs : List (VarId × VarId)) (s t : Symbol) : Bool :=
  match b.reference? s, b.reference? t with
  | some x, some y => s.signature.result == t.signature.result && matchVars pairs x y
  | none, none =>
      if (b.lambda? s).isSome && (b.lambda? t).isSome then s.signature == t.signature
      else s == t
  | _, _ => false

namespace Tree

/-- Equality up to the names of bound variables, under pairs of binders. -/
def alphaEqUnder (b : Binders) : List (VarId × VarId) → Tree → Tree → Bool
  | pairs, leaf s, leaf t => s.alphaEqUnder b pairs t
  | pairs, node f x, node g y =>
      match f.binder? b, g.binder? b with
      | some u, some v => f.signature == g.signature && alphaEqUnder b ((u, v) :: pairs) x y
      | _, _ => alphaEqUnder b pairs f g && alphaEqUnder b pairs x y
  | _, leaf _, node _ _ => false
  | _, node _ _, leaf _ => false

theorem alphaEqUnder_self (b : Binders) {pairs : List (VarId × VarId)}
    (h : ∀ p ∈ pairs, p.1 = p.2) (t : Tree) : alphaEqUnder b pairs t t = true := by
  induction t generalizing pairs with
  | leaf s =>
      simp only [alphaEqUnder, Symbol.alphaEqUnder]
      cases b.reference? s with
      | none => simp
      | some x => simp [matchVars_self h]
  | node f x ihf ihx =>
      simp only [alphaEqUnder]
      cases f.binder? b with
      | none => simp [ihf h, ihx h]
      | some u =>
          have hcons : ∀ p ∈ (u, u) :: pairs, p.1 = p.2 := by
            intro p hp
            rcases List.mem_cons.1 hp with rfl | hp
            · rfl
            · exact h p hp
          simp [ihx hcons]

theorem size_eq_of_binder? {b : Binders} {t : Tree} {id : VarId} (h : t.binder? b = some id) :
    t.size = 1 := by
  cases t with
  | leaf s => rfl
  | node f x => simp [binder?] at h

theorem size_eq_of_alphaEqUnder {b : Binders} {pairs : List (VarId × VarId)} {s t : Tree}
    (h : alphaEqUnder b pairs s t = true) : s.size = t.size := by
  induction s generalizing pairs t with
  | leaf s =>
      cases t with
      | leaf t => rfl
      | node g y => simp [alphaEqUnder] at h
  | node f x ihf ihx =>
      cases t with
      | leaf t => simp [alphaEqUnder] at h
      | node g y =>
          simp only [alphaEqUnder] at h
          show f.size + x.size = g.size + y.size
          split at h
          · rename_i u v hf hg
            have hx := ihx (Bool.and_eq_true_iff.1 h).2
            rw [size_eq_of_binder? hf, size_eq_of_binder? hg, hx]
          · have hfg := ihf (Bool.and_eq_true_iff.1 h).1
            have hxy := ihx (Bool.and_eq_true_iff.1 h).2
            rw [hfg, hxy]

/-- The answer of `alphaEqUnder`, without a walk for trees of different size and,
outside all binders, for a tree and itself. -/
def alphaEqQuick (b : Binders) (pairs : List (VarId × VarId)) (s t : Tree) :
    { r : Bool // r = alphaEqUnder b pairs s t } :=
  if hsize : s.size = t.size then
    let walk : Unit → { r : Bool // r = alphaEqUnder b pairs s t } := fun _ =>
      match s, t with
      | leaf s, leaf t => ⟨s.alphaEqUnder b pairs t, rfl⟩
      | node f x, node g y =>
          match hf : f.binder? b, hg : g.binder? b with
          | some u, some v =>
              ⟨f.signature == g.signature && (alphaEqQuick b ((u, v) :: pairs) x y).val, by
                simp [alphaEqUnder, hf, hg, (alphaEqQuick b ((u, v) :: pairs) x y).property]⟩
          | some u, none =>
              ⟨(alphaEqQuick b pairs f g).val && (alphaEqQuick b pairs x y).val, by
                simp [alphaEqUnder, hf, hg, (alphaEqQuick b pairs f g).property,
                  (alphaEqQuick b pairs x y).property]⟩
          | none, _ =>
              ⟨(alphaEqQuick b pairs f g).val && (alphaEqQuick b pairs x y).val, by
                simp [alphaEqUnder, hf, (alphaEqQuick b pairs f g).property,
                  (alphaEqQuick b pairs x y).property]⟩
      | leaf _, node _ _ => ⟨false, by simp [alphaEqUnder]⟩
      | node _ _, leaf _ => ⟨false, by simp [alphaEqUnder]⟩
    if hpairs : pairs = [] then
      ⟨withPtrEq s t (fun _ => (walk ()).val) fun hst => by
          rw [(walk ()).property, hst]
          exact alphaEqUnder_self b (by simp [hpairs]) t,
        (walk ()).property⟩
    else walk ()
  else
    ⟨false, by
      cases h : alphaEqUnder b pairs s t with
      | false => rfl
      | true => exact absurd (size_eq_of_alphaEqUnder h) hsize⟩

def alphaEq (b : Binders) (s t : Tree) : Bool :=
  (alphaEqQuick b [] s t).val

theorem alphaEq_eq (b : Binders) (s t : Tree) : alphaEq b s t = alphaEqUnder b [] s t :=
  (alphaEqQuick b [] s t).property

/-! ## Occurrences -/

def countSpine (b : Binders) (needle : Tree) : Tree → Nat
  | leaf _ => 0
  | node func arg =>
      countSpine b needle func
        + if alphaEq b needle arg then 1 else countSpine b needle arg

/-- Number of subtrees alpha-equivalent to `needle`: the tree itself, or
arguments on its spine and subtrees of those. Nothing is counted inside a match. -/
def count (b : Binders) (needle t : Tree) : Nat :=
  if alphaEq b needle t then 1 else countSpine b needle t

def replaceSpine (b : Binders) (needle new : Tree) : Tree → Except Fault Tree
  | leaf s => .ok (leaf s)
  | node func arg => do
      let func ← replaceSpine b needle new func
      let arg ← if alphaEq b needle arg then .ok new else replaceSpine b needle new arg
      reapply func arg

def replace (b : Binders) (needle new t : Tree) : Except Fault Tree :=
  if alphaEq b needle t then .ok new else replaceSpine b needle new t

end Tree

end ExprTree

import ExprTree.Draws
/-!
# A permuted congruential source

Draws from a multiplicative congruential generator on 128-bit words, whose
output is a rotation of the two halves of the state xored together. Numbers
below a bound are the high part of a product with a random word; where the low
part leaves open which number a longer word would have given, one more word
decides about the carry.
-/

namespace ExprTree

structure Permuted where
  state : BitVec 128
deriving DecidableEq

namespace Permuted

/-- Advance the 64-bit generator from which states are seeded, and its next output. -/
def seedStep (s : BitVec 64) : BitVec 32 × BitVec 64 :=
  let s := s * 6364136223846793005#64 + 11634580027462260723#64
  let x : BitVec 32 := (((s >>> 18) ^^^ s) >>> 27).setWidth 32
  (x.rotateRight (s >>> 59).toNat, s)

/-- The state of a seed: four outputs, lowest first, with the lowest bit set. -/
def ofSeed (seed : BitVec 64) : Permuted :=
  let (w0, s) := seedStep seed
  let (w1, s) := seedStep s
  let (w2, s) := seedStep s
  let (w3, _) := seedStep s
  ⟨(w3 ++ w2 ++ w1 ++ w0).setWidth 128 ||| 1#128⟩

def word64 (g : Permuted) : Fin 18446744073709551616 × Permuted :=
  let s := g.state * 0x2360ED051FC65DA44385DF649FCCF645#128
  let folded : BitVec 64 := (s >>> 64).setWidth 64 ^^^ s.setWidth 64
  ((folded.rotateRight (s >>> 122).toNat).toFin, ⟨s⟩)

def word32 (g : Permuted) : Fin 4294967296 × Permuted :=
  let (w, g) := g.word64
  (⟨w.val % 4294967296, Nat.mod_lt _ (by decide)⟩, g)

/-- Yes answers lie below this word. -/
def threshold : Chance → Nat
  | .even => 9223372036854775808
  | .threeTenths => 5534023222112865280

theorem high_lt {base n x : Nat} (hn : 0 < n) (hx : x < base) : x * n / base < n :=
  Nat.div_lt_of_lt_mul (Nat.mul_lt_mul_of_pos_right hx hn)

theorem high_succ_lt {base n x y : Nat} (hn : 0 < n) (hx : x < base) (hy : y < base)
    (hcarry : base ≤ x * n % base + y * n / base) : x * n / base + 1 < n := by
  have hsplit := Nat.div_add_mod (x * n) base
  have hy' : base * (y * n / base) ≤ y * n := Nat.mul_div_le _ _
  have hle : base * (base * (x * n / base + 1)) ≤ (base * x + y) * n := by
    calc base * (base * (x * n / base + 1))
        = base * (base * (x * n / base)) + base * base := by
          rw [Nat.mul_add, Nat.mul_one, Nat.mul_add]
      _ ≤ base * (base * (x * n / base)) + base * (x * n % base + y * n / base) :=
          Nat.add_le_add_left (Nat.mul_le_mul_left _ hcarry) _
      _ = base * (base * (x * n / base) + x * n % base) + base * (y * n / base) := by
          rw [Nat.mul_add base (x * n % base), Nat.mul_add base (base * _), Nat.add_assoc]
      _ ≤ base * (x * n) + y * n := by
          rw [hsplit]
          exact Nat.add_le_add_left hy' _
      _ = (base * x + y) * n := by rw [Nat.add_mul, Nat.mul_assoc]
  have hlt : base * x + y < base * base := by
    calc base * x + y < base * x + base := Nat.add_lt_add_left hy _
      _ = base * (x + 1) := (Nat.mul_succ _ _).symm
      _ ≤ base * base := Nat.mul_le_mul_left _ hx
  have hall : base * (base * (x * n / base + 1)) < base * (base * n) := by
    calc base * (base * (x * n / base + 1)) ≤ (base * x + y) * n := hle
      _ < base * base * n := Nat.mul_lt_mul_of_pos_right hlt hn
      _ = base * (base * n) := Nat.mul_assoc _ _ _
  exact Nat.lt_of_mul_lt_mul_left (Nat.lt_of_mul_lt_mul_left hall)

def below {base : Nat} (next : Permuted → Fin base × Permuted) (n : Nat) (hn : 0 < n)
    (g : Permuted) : Fin n × Permuted :=
  let (x, g) := next g
  let high : Fin n := ⟨x.val * n / base, high_lt hn x.isLt⟩
  if base - n < x.val * n % base then
    let (y, g) := next g
    if hcarry : base ≤ x.val * n % base + y.val * n / base then
      (⟨x.val * n / base + 1, high_succ_lt hn x.isLt y.isLt hcarry⟩, g)
    else
      (high, g)
  else
    (high, g)

/-- The draws of the generator. Positions take 32-bit words and distances 64-bit
ones, also where there is only one outcome. -/
def source : Source Permuted where
  coin chance g :=
    let (w, g) := g.word64
    (decide (w.val < threshold chance), g)
  position := below word32
  distance := below word64

end Permuted

end ExprTree

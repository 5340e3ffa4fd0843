/-!
# Sets of characters

A set of characters is given by ranges of code points. The ranges increase, so a
search may stop at the first one that starts behind the character.
-/

namespace ExprTree.Text

/-- Whether ranges start at `low` or later and lie behind each other. -/
def increasingFrom (low : Nat) : List (Nat × Nat) → Bool
  | [] => true
  | (first, last) :: rest => low ≤ first && first ≤ last && increasingFrom (last + 1) rest

/-- Whether a number is in one of some increasing ranges, ends included. -/
def inRanges (n : Nat) : List (Nat × Nat) → Bool
  | [] => false
  | (first, last) :: rest => if n < first then false else n ≤ last || inRanges n rest

structure CharSet where
  /-- First and last code point of each range. -/
  ranges : List (Nat × Nat)
  increasing : increasingFrom 0 ranges = true := by decide +kernel

namespace CharSet

def contains (s : CharSet) (c : Char) : Bool :=
  inRanges c.toNat s.ranges

end CharSet

end ExprTree.Text

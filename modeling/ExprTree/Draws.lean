/-!
# Random draws

A source of draws turns its state into an outcome and a new state. What is
drawn is within the bounds asked for, whatever the source.
-/

namespace ExprTree

/-- How often a coin says yes. -/
inductive Chance where
  /-- One time in two. -/
  | even
  /-- Three times in ten. -/
  | threeTenths
deriving DecidableEq

structure Source (σ : Type) where
  /-- Yes or no. -/
  coin : Chance → σ → Bool × σ
  /-- A position in a list of `n` elements. -/
  position : (n : Nat) → 0 < n → σ → Fin n × σ
  /-- A distance from the lower end of an interval of `n` integers. -/
  distance : (n : Nat) → 0 < n → σ → Fin n × σ

end ExprTree

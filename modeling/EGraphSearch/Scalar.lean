import EGraphSearch.Number.Binary64

/-!
# Scalars

The arithmetic that values, statistics and scores are computed in.  The search runs on doubles;
nothing in it depends on more than the operations listed here, so that it can also be read over
exact numbers.
-/

set_option autoImplicit false

namespace EGraphSearch

class Scalar (α : Type) extends Add α, Sub α, Mul α, Div α, Neg α where
  ofNat : Nat → α
  /-- The strict order, as a test. -/
  below : α → α → Bool
  /-- The order, as a test; a double that is not a number is not even at most itself. -/
  atMost : α → α → Bool
  sqrt : α → α
  log : α → α
  /-- Whether the scalar is below a score that no scalar reaches. -/
  belowInfinity : α → Bool

namespace Scalar

variable {α : Type} [Scalar α]

def zero : α := ofNat 0

def one : α := ofNat 1

def two : α := ofNat 2

def ofInt (i : Int) : α := if i < 0 then -ofNat i.natAbs else ofNat i.natAbs

/-- The larger of two scalars; the first one unless the second is above it. -/
def max (x y : α) : α := if below x y then y else x

end Scalar

instance : Scalar Float where
  ofNat := Binary64.ofNat
  below x y := x < y
  atMost x y := x ≤ y
  sqrt := Float.sqrt
  log := Float.log
  belowInfinity x := x < 1 / 0

end EGraphSearch

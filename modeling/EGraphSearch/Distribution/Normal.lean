/-!
# The normal distribution

The upper tail of the standard normal distribution, by a power series near the centre and by a
continued fraction further out.
-/

set_option autoImplicit false

namespace EGraphSearch.Normal

def pi : Float := 3.141592653589793

/-- The sum of `2 ^ k x ^ (2 k + 1) / (1 * 3 * ... * (2 k + 1))`, from the term of index `k` on. -/
def series (x : Float) : Nat → Nat → Float → Float
  | 0, _, _ => 0
  | terms + 1, k, term =>
    let next := term * (2 * x * x) / (2 * k.toFloat + 3)
    term + series x terms (k + 1) next

def errorNear (x : Float) : Float :=
  2 / Float.sqrt pi * Float.exp (-(x * x)) * series x 100 0 x

/-- The continued fraction `(1 / 2) / (x + (2 / 2) / (x + (3 / 2) / (x + ...)))`. -/
def fraction (x : Float) (levels : Nat) : Float :=
  levels.fold (fun i _ inner => ((levels - i).toFloat / 2) / (x + inner)) 0

def complementFar (x : Float) : Float :=
  Float.exp (-(x * x)) / Float.sqrt pi / (x + fraction x 300)

def complement (x : Float) : Float :=
  if x < 0 then 2 - (if -x < 2 then 1 - errorNear (-x) else complementFar (-x))
  else if x < 2 then 1 - errorNear x
  else complementFar x

def upperTail (z : Float) : Float := complement (z / Float.sqrt 2) / 2

end EGraphSearch.Normal

import EGraphSearch.Number.Decimal

/-!
# Numbers

A number is a truth value, an unbounded whole number or a double.  Truth values count as zero and
one.  Comparisons between whole numbers and doubles are exact, sums of whole numbers are exact,
and a whole number takes part in double arithmetic only if a finite double is near it.
-/

set_option autoImplicit false

namespace EGraphSearch

inductive Number where
  | truth (value : Bool)
  | int (value : Int)
  | float (value : Float)

namespace Number

instance : Inhabited Number := ⟨.int 0⟩

instance (n : Nat) : OfNat Number n := ⟨.int n⟩

def ofTruth (b : Bool) : Int := if b then 1 else 0

/-- The whole number that a number is written as, if it is not a double. -/
def int? : Number → Option Int
  | truth b => some (ofTruth b)
  | int i => some i
  | float _ => none

/-- The nearest double; `none` for whole numbers beyond the finite doubles. -/
def toFloat? : Number → Option Float
  | truth b => some (if b then 1 else 0)
  | int i => Binary64.ofInt? i
  | float x => some x

def intBelowFloat (i : Int) (x : Float) : Bool :=
  if x.isNaN then false
  else if x.isInf then 0 < x
  else
    let (num, den) := Binary64.ratio x
    let signed : Int := if (Binary64.parts x).negative then -(num : Int) else num
    i * den < signed

def floatBelowInt (x : Float) (i : Int) : Bool :=
  if x.isNaN then false
  else if x.isInf then x < 0
  else
    let (num, den) := Binary64.ratio x
    let signed : Int := if (Binary64.parts x).negative then -(num : Int) else num
    signed < i * den

def intEqualsFloat (i : Int) (x : Float) : Bool := Binary64.toInt? x == some i

def below : Number → Number → Bool
  | float x, float y => x < y
  | float x, truth b => floatBelowInt x (ofTruth b)
  | float x, int j => floatBelowInt x j
  | truth a, float y => intBelowFloat (ofTruth a) y
  | int i, float y => intBelowFloat i y
  | truth a, truth b => ofTruth a < ofTruth b
  | truth a, int j => ofTruth a < j
  | int i, truth b => i < ofTruth b
  | int i, int j => i < j

def same : Number → Number → Bool
  | float x, float y => x == y
  | float x, truth b => intEqualsFloat (ofTruth b) x
  | float x, int j => intEqualsFloat j x
  | truth a, float y => intEqualsFloat (ofTruth a) y
  | int i, float y => intEqualsFloat i y
  | truth a, truth b => a == b
  | truth a, int j => ofTruth a == j
  | int i, truth b => i == ofTruth b
  | int i, int j => i == j

def reachedBy (n : Number) (count : Nat) : Bool :=
  below n (.int count) || same n (.int count)

/-- The least count that has come up to the number; `none` if no count ever does. -/
def ceiling? : Number → Option Nat
  | truth b => some (ofTruth b).toNat
  | int i => some i.toNat
  | float x =>
    if x.isNaN then none
    else if x.isInf then if 0 < x then none else some 0
    else
      let (num, den) := Binary64.ratio x
      if (Binary64.parts x).negative then some 0 else some ((num + den - 1) / den)

/-- Whether a count is a multiple of the number, which is at least one where this is asked. -/
def divides (n : Number) (count : Nat) : Bool :=
  match n with
  | truth b => count % (ofTruth b).toNat == 0
  | int i => count % i.toNat == 0
  | float x =>
    if x.isNaN then false
    else if x.isInf then count == 0
    else
      let (num, den) := Binary64.ratio x
      count * den % num == 0

/-- The sum; `none` when a whole number is too large to be added to a double. -/
def add? (m n : Number) : Option Number :=
  match m.int?, n.int? with
  | some i, some j => some (.int (i + j))
  | _, _ => do return .float ((← m.toFloat?) + (← n.toFloat?))

def negate : Number → Number
  | truth b => .int (-ofTruth b)
  | int i => .int (-i)
  | float x => .float (-x)

def text : Number → String
  | truth b => if b then "True" else "False"
  | int i => toString i
  | float x => Decimal.shortest x

end Number

end EGraphSearch

/-!
# Doubles as exact ratios

Every finite double is a whole number times a power of two.  This module takes a double apart
into that form and finds the double nearest to an exact ratio, a tie going to the even
neighbour.  Reading decimals, converting whole numbers and printing all go through these two
directions, so that each of them is exact arithmetic on `Nat` followed by a single rounding.
-/

set_option autoImplicit false

namespace EGraphSearch.Binary64

def roundDiv (num den : Nat) : Nat :=
  let quotient := num / den
  let twiceRest := 2 * (num % den)
  if twiceRest < den then quotient
  else if den < twiceRest then quotient + 1
  else quotient + quotient % 2

def roundInUnits (num den : Nat) : Int → Nat
  | .ofNat k => roundDiv num (den * Nat.pow 2 k)
  | .negSucc k => roundDiv (num * Nat.pow 2 (k + 1)) den

def floorLog2 (num den : Nat) : Int :=
  let guess : Int := (num.log2 : Int) - (den.log2 : Int)
  let reached : Bool :=
    match guess with
    | .ofNat k => den * Nat.pow 2 k ≤ num
    | .negSucc k => den ≤ num * Nat.pow 2 (k + 1)
  if reached then guess else guess - 1

def infinityBits : Nat := 0x7ff0000000000000

/-- The smallest exponent of the last place: subnormal doubles share it. -/
def leastUnit : Int := -1074

/-- The bit pattern of the double nearest to the ratio `num / den`.  The exponent field counts
the doubling of the last place from `leastUnit` upwards, and a significand that rounds up to
`2 ^ 53` carries into it. -/
def nearestBits (num den : Nat) : Nat :=
  if num = 0 then 0
  else
    let unit := max (floorLog2 num den - 52) leastUnit
    min ((unit - leastUnit).toNat * Nat.pow 2 52 + roundInUnits num den unit) infinityBits

def ofRatio (num den : Nat) : Float :=
  Float.ofBits (nearestBits num den).toUInt64

def ofInt? (i : Int) : Option Float :=
  let magnitude := ofRatio i.natAbs 1
  if magnitude.isInf then none
  else some (if i < 0 then -magnitude else magnitude)

def ofNat (n : Nat) : Float := ofRatio n 1

/-- A finite double as `significand * 2 ^ exponent`, with its sign kept apart so that the two
zeros stay different. -/
structure Parts where
  negative : Bool
  significand : Nat
  exponent : Int
  deriving Repr, DecidableEq

def parts (x : Float) : Parts :=
  let bits := x.toBits.toNat
  let magnitude : Nat := bits % Nat.pow 2 63
  let field : Nat := magnitude / Nat.pow 2 52
  let fraction : Nat := magnitude % Nat.pow 2 52
  { negative := decide (Nat.pow 2 63 ≤ bits)
    significand := if field = 0 then fraction else fraction + Nat.pow 2 52
    exponent := if field = 0 then leastUnit else (field : Int) - 1 + leastUnit }

def ratio (x : Float) : Nat × Nat :=
  let p := parts x
  match p.exponent with
  | .ofNat k => (p.significand * Nat.pow 2 k, 1)
  | .negSucc k => (p.significand, Nat.pow 2 (k + 1))

def toInt? (x : Float) : Option Int :=
  if x.isNaN || x.isInf then none
  else
    let (num, den) := ratio x
    if num % den = 0 then
      let magnitude := num / den
      some (if (parts x).negative then -(magnitude : Int) else (magnitude : Int))
    else none

/-- The double nearest to `digits * 10 ^ exponent`.  Exponents so far out that every significand
overflows or vanishes are cut off first. -/
def ofDecimal (digits : Nat) (exponent : Int) : Float :=
  if digits = 0 then 0
  else if exponent > 400 then ofRatio (Nat.pow 10 400) 1
  else if exponent < -(400 + (digits.log2 : Int)) then 0
  else
    match exponent with
    | .ofNat k => ofRatio (digits * Nat.pow 10 k) 1
    | .negSucc k => ofRatio digits (Nat.pow 10 (k + 1))

end EGraphSearch.Binary64

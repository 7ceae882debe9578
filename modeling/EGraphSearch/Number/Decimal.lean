import EGraphSearch.Number.Binary64

/-!
# Decimal text of doubles

Two ways to write a double.  `shortest` gives the fewest decimal digits that read back as the
same double, and of those the digits nearest to it.  `fixed` gives a fixed number of decimal
places, rounded from the exact value.  Both work on the exact ratio that the double stands for.
-/

set_option autoImplicit false

namespace EGraphSearch.Decimal

structure Scaled where
  digits : Nat
  exponent : Int
  deriving Repr, DecidableEq

def floorLog10 (num den : Nat) : Int :=
  let reaches (e : Int) : Bool :=
    match e with
    | .ofNat k => den * Nat.pow 10 k ≤ num
    | .negSucc k => den ≤ num * Nat.pow 10 (k + 1)
  let guess : Int := ((num.log2 : Int) - (den.log2 : Int)) * 30103 / 100000 - 1
  let rec climb : Nat → Int → Int
    | 0, e => e
    | steps + 1, e => if reaches (e + 1) then climb steps (e + 1) else e
  climb 4 guess

/-- The numbers that round to one double: they lie between `low / den` and `high / den` around
`value / den`, and the two ends belong to them when `closed` holds. -/
structure Interval where
  low : Nat
  value : Nat
  high : Nat
  den : Nat
  closed : Bool
  deriving Repr, DecidableEq

/-- The rounding interval of `significand * 2 ^ exponent`.  The gap below a power of two is half
the gap above it, except at the bottom of the range. -/
def Interval.around (significand : Nat) (exponent : Int) : Interval :=
  let below := if significand = Nat.pow 2 52 ∧ Binary64.leastUnit < exponent then 1 else 2
  let (scale, den) : Nat × Nat :=
    match exponent - 2 with
    | .ofNat k => (Nat.pow 2 k, 1)
    | .negSucc k => (1, Nat.pow 2 (k + 1))
  { low := (4 * significand - below) * scale
    value := 4 * significand * scale
    high := (4 * significand + 2) * scale
    den := den
    closed := significand % 2 == 0 }

def Interval.contains (i : Interval) (s : Scaled) : Bool :=
  let (point, unit) : Nat × Nat :=
    match s.exponent with
    | .ofNat k => (s.digits * Nat.pow 10 k * i.den, 1)
    | .negSucc k => (s.digits * i.den, Nat.pow 10 (k + 1))
  if i.closed then decide (i.low * unit ≤ point) && decide (point ≤ i.high * unit)
  else decide (i.low * unit < point) && decide (point < i.high * unit)

/-- The two neighbours of the value on the grid of multiples of `10 ^ exponent`, and whether the
lower one is the nearer of the two (a tie goes to the even one). -/
def Interval.neighbours (i : Interval) (exponent : Int) : Nat × Nat × Bool :=
  let (num, den) : Nat × Nat :=
    match exponent with
    | .ofNat k => (i.value, i.den * Nat.pow 10 k)
    | .negSucc k => (i.value * Nat.pow 10 (k + 1), i.den)
  let floor := num / den
  (floor, floor + 1, Binary64.roundDiv num den == floor)

def Interval.pick (i : Interval) (exponent : Int) : Option Scaled :=
  let (floor, ceiling, floorNearer) := i.neighbours exponent
  let lower : Scaled := ⟨floor, exponent⟩
  let upper : Scaled := ⟨ceiling, exponent⟩
  match i.contains lower, i.contains upper with
  | true, true => some (if floorNearer then lower else upper)
  | true, false => some lower
  | false, true => some upper
  | false, false => none

/-- The fewest digits that read back: coarse grids are tried before fine ones, and seventeen
digits always suffice. -/
def shortestDigits (significand : Nat) (exponent : Int) : Scaled :=
  let interval := Interval.around significand exponent
  let top := floorLog10 interval.value interval.den
  let grid (places : Nat) : Int := top - (places : Int)
  ((List.range 17).findSome? fun places => interval.pick (grid places)).getD
    ⟨(interval.neighbours (grid 16)).1, grid 16⟩

def Scaled.trim (s : Scaled) : Scaled :=
  let rec strip : Nat → Nat → Int → Scaled
    | 0, d, e => ⟨d, e⟩
    | fuel + 1, d, e => if d ≠ 0 ∧ d % 10 = 0 then strip fuel (d / 10) (e + 1) else ⟨d, e⟩
  strip s.digits.log2 s.digits s.exponent

def digitChars (n : Nat) : List Char := Nat.toDigits 10 n

/-- How a double is written where a program may choose among several spellings. -/
structure Style where
  infinity : String
  nan : String
  /-- Whether a significand of one digit gets `.0` before the exponent mark. -/
  pointBeforeExponent : Bool

def Style.plain : Style := ⟨"inf", "nan", false⟩

/-- Writes `digits * 10 ^ exponent`: positionally from `0.0001` up to below `10 ^ 16`, always with
a point, and otherwise with a signed exponent of at least two digits. -/
def Style.write (style : Style) (s : Scaled) : String :=
  let chars := digitChars s.digits
  let count : Int := chars.length
  let lead : Int := s.exponent + count - 1
  if s.digits = 0 then "0.0"
  else if -4 ≤ lead ∧ lead < 16 then
    if 0 ≤ s.exponent then
      String.ofList (chars ++ List.replicate s.exponent.toNat '0' ++ ['.', '0'])
    else if 0 ≤ lead then
      let whole := (lead + 1).toNat
      String.ofList (chars.take whole ++ ['.'] ++ chars.drop whole)
    else
      String.ofList (['0', '.'] ++ List.replicate (-lead - 1).toNat '0' ++ chars)
  else
    let fraction :=
      match chars.drop 1 with
      | [] => if style.pointBeforeExponent then ['.', '0'] else []
      | rest => '.' :: rest
    let mark := if lead < 0 then '-' else '+'
    let power := digitChars lead.natAbs
    let padded := if power.length < 2 then '0' :: power else power
    String.ofList (chars.take 1 ++ fraction ++ ['e', mark] ++ padded)

def Style.float (style : Style) (x : Float) : String :=
  if x.isNaN then style.nan
  else
    let p := Binary64.parts x
    let sign := if p.negative then "-" else ""
    if x.isInf then sign ++ style.infinity
    else if p.significand = 0 then sign ++ "0.0"
    else sign ++ style.write (shortestDigits p.significand p.exponent).trim

def shortest (x : Float) : String := Style.plain.float x

/-- The double with exactly `places` decimal places, rounded from its exact value; the sign of a
negative number stays even when every digit is zero. -/
def fixed (places : Nat) (x : Float) : String :=
  if x.isNaN then "nan"
  else
    let p := Binary64.parts x
    let sign := if p.negative then "-" else ""
    if x.isInf then sign ++ "inf"
    else
      let (num, den) := Binary64.ratio x
      let scaled := Binary64.roundDiv (num * Nat.pow 10 places) den
      let chars := digitChars scaled
      let padded := List.replicate (places + 1 - chars.length) '0' ++ chars
      let whole := padded.length - places
      let point := if places = 0 then [] else ['.']
      sign ++ String.ofList (padded.take whole ++ point ++ padded.drop whole)

def roundSignificant (count : Nat) (x : Float) : Float :=
  if x.isNaN || x.isInf then x
  else
    let p := Binary64.parts x
    if p.significand = 0 then x
    else
      let (num, den) := Binary64.ratio x
      let exponent : Int := floorLog10 num den - (count : Int) + 1
      let digits :=
        match exponent with
        | .ofNat k => Binary64.roundDiv num (den * Nat.pow 10 k)
        | .negSucc k => Binary64.roundDiv (num * Nat.pow 10 (k + 1)) den
      let magnitude := Binary64.ofDecimal digits exponent
      if p.negative then -magnitude else magnitude

end EGraphSearch.Decimal

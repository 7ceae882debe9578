import EGraphSearch.Distribution.Normal

/-!
# Student's distribution

The upper tail of Student's distribution is half an incomplete beta function, which is computed by a
continued fraction.
-/

set_option autoImplicit false

namespace EGraphSearch.StudentT

def gammaCoefficients : List Float :=
  [676.5203681218851, -1259.1392167224028, 771.32342877765313, -176.61502916214059,
   12.507343278686905, -0.13857109526572012, 9.9843695780195716e-6, 1.5056327351493116e-7]

def logGamma (x : Float) : Float :=
  let y := x - 1
  let (sum, _) := gammaCoefficients.foldl
    (fun (sum, i) c => (sum + c / (y + i), i + 1)) (0.99999999999980993, 1)
  let t := y + 7.5
  Float.log (2 * Normal.pi) / 2 + (y + 0.5) * Float.log t - t + Float.log sum

def awayFromZero (x : Float) : Float := if x.abs < 1e-300 then 1e-300 else x

/-- One level of a continued fraction: the state holds the ratios of the last numerators and of the
last denominators, and the value so far. -/
def level (coefficient : Float) (state : Float × Float × Float) : Float × Float × Float :=
  let (c, d, value) := state
  let d := 1 / awayFromZero (1 + coefficient * d)
  let c := awayFromZero (1 + coefficient / c)
  (c, d, value * (c * d))

def betaFraction (a b x : Float) : Float :=
  let d := 1 / awayFromZero (1 - (a + b) * x / (a + 1))
  let (_, _, value) := Nat.fold 500
    (fun i _ state =>
      let m := i.toFloat + 1
      let even := m * (b - m) * x / ((a + 2 * m - 1) * (a + 2 * m))
      let odd := -(a + m) * (a + b + m) * x / ((a + 2 * m) * (a + 2 * m + 1))
      level odd (level even state)) (1, d, d)
  value

/-- The regularised incomplete beta function at `x`, given also `y`, which is `1 - x`, and the
logarithms of both. -/
def regularBeta (a b x y logX logY : Float) : Float :=
  let front :=
    Float.exp (logGamma (a + b) - logGamma a - logGamma b + a * logX + b * logY)
  if x < (a + 1) / (a + b + 2) then front * betaFraction a b x / a
  else 1 - front * betaFraction b a y / b

/-- The probability of a value above `t`, which is not negative. -/
def tailAbove (freedom t : Float) : Float :=
  let u := t / Float.sqrt freedom
  if u.isInf then 0
  else if u == 0 then 0.5
  else
    let logX := if 1e8 < u then -2 * Float.log u else -Float.log (1 + u * u)
    let x := if 1e8 < u then (1 / u) * (1 / u) else 1 / (1 + u * u)
    let y := if 1e8 < u then 1 else u * u / (1 + u * u)
    regularBeta (freedom / 2) 0.5 x y logX (Float.log y) / 2

def upperTail (freedom t : Float) : Float :=
  if t.isNaN then t else if t < 0 then 1 - tailAbove freedom (-t) else tailAbove freedom t

def lowerTail (freedom t : Float) : Float := upperTail freedom (-t)

end EGraphSearch.StudentT

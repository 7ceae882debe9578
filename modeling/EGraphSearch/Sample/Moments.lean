import EGraphSearch.Number.Sum

/-!
# Moments of a sample

Mean, variance and standard deviation.  The variance divides by the number of values less a number
of degrees of freedom.
-/

set_option autoImplicit false

namespace EGraphSearch.Sample

variable {α : Type} [Scalar α]

def mean (xs : List α) : α := Sum.total xs / Scalar.ofNat xs.length

def squaredDistances (xs : List α) : α :=
  let center := mean xs
  Sum.total (xs.map fun x => (x - center) * (x - center))

def variance (freedom : Nat) (xs : List α) : α :=
  squaredDistances xs / Scalar.ofNat (xs.length - freedom)

/-- The standard deviation of the sample as a whole population. -/
def deviation (xs : List α) : α := Scalar.sqrt (variance 0 xs)

end EGraphSearch.Sample

import EGraphSearch.Sample.Moments

/-!
# Effect size

How many pooled standard deviations the candidate's mean lies below the baseline's, so that a
cheaper candidate has a positive effect.  Samples of fewer than two values have none, and neither
have samples that hardly vary.
-/

set_option autoImplicit false

namespace EGraphSearch.Sample

variable {α : Type} [Scalar α]

def pooledDeviation (candidate baseline : List α) : α :=
  let m := candidate.length
  let n := baseline.length
  Scalar.sqrt
    ((Scalar.ofNat (m - 1) * variance 1 candidate + Scalar.ofNat (n - 1) * variance 1 baseline) /
      Scalar.ofNat (m + n - 2))

/-- A deviation up to this one counts as none. -/
def leastDeviation : α := Scalar.one / Scalar.ofNat 100000000

def effectSize (candidate baseline : List α) : α :=
  if candidate.length < 2 || baseline.length < 2 then Scalar.zero
  else
    let pooled := pooledDeviation candidate baseline
    if Scalar.below leastDeviation pooled then (mean baseline - mean candidate) / pooled
    else Scalar.zero

end EGraphSearch.Sample

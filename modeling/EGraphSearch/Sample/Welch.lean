import EGraphSearch.Distribution.StudentT
import EGraphSearch.Sample.Alternative

/-!
# Welch's test

Compares two means without assuming equal variances.  Both samples need at least two values.
-/

set_option autoImplicit false

namespace EGraphSearch.Sample

/-- The degrees of freedom for two squared standard errors; one if they are both zero. -/
def welchFreedom (first second : Float) (m n : Nat) : Float :=
  let sum := first + second
  let freedom :=
    sum * sum / (first * first / (m - 1).toFloat + second * second / (n - 1).toFloat)
  if freedom.isNaN then 1 else freedom

def welch (alternative : Alternative) (candidate baseline : List Float) : Verdict :=
  let m := candidate.length
  let n := baseline.length
  if m < 2 || n < 2 || hasNaN candidate || hasNaN baseline then .undefined
  else
    let first := variance 1 candidate / m.toFloat
    let second := variance 1 baseline / n.toFloat
    let freedom := welchFreedom first second m n
    let t := (mean candidate - mean baseline) / Float.sqrt (first + second)
    ⟨t,
      match alternative with
      | .less => StudentT.lowerTail freedom t
      | .greater => StudentT.upperTail freedom t
      | .twoSided => 2 * StudentT.upperTail freedom t.abs⟩

end EGraphSearch.Sample

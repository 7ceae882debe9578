import EGraphSearch.Sample.Moments

/-!
# Tests on two samples

A test asks whether the candidate's values are smaller, greater, or of either kind, and answers with
a statistic and the probability of one at least as extreme by chance.
-/

set_option autoImplicit false

namespace EGraphSearch.Sample

inductive Alternative where
  | less
  | greater
  | twoSided
  deriving DecidableEq, Repr

def Alternative.ofName : String → Alternative
  | "greater" => .greater
  | "two-sided" => .twoSided
  | _ => .less

structure Verdict where
  statistic : Float
  probability : Float

def Verdict.undefined : Verdict := ⟨0 / 0, 0 / 0⟩

/-- A probability below one in twenty is significant. -/
def Verdict.significant (v : Verdict) : Bool := v.probability < 0.05

def hasNaN (xs : List Float) : Bool := xs.any Float.isNaN

end EGraphSearch.Sample

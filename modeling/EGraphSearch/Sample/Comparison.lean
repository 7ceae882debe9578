import EGraphSearch.Fault
import EGraphSearch.Sample.EffectSize
import EGraphSearch.Sample.RankSum
import EGraphSearch.Sample.Welch

/-!
# Comparing two samples of costs

A comparison asks whether the candidate's costs are smaller than the baseline's, unless there are
too few of them.
-/

set_option autoImplicit false

namespace EGraphSearch.Sample

structure Described where
  effectSize : Float
  candidateMean : Float
  baselineMean : Float
  candidateDeviation : Float
  baselineDeviation : Float

inductive Comparison where
  | tooFew (candidates baselines : Nat)
  | tested (verdict : Verdict) (described : Described) (candidates baselines : Nat)

def testOfName (name : String) : Except Fault (List Float → List Float → Verdict) :=
  match name with
  | "welch" => .ok (welch .less)
  | "mannwhitney" => .ok (rankSum .less)
  | _ => .error (.outOfRange (.unknownTest name))

def describe (candidate baseline : List Float) : Described :=
  { effectSize := Sample.effectSize candidate baseline
    candidateMean := mean candidate
    baselineMean := mean baseline
    candidateDeviation := deviation candidate
    baselineDeviation := deviation baseline }

/-- Compares two samples, each of which has to have at least `least` values. -/
def compare (test : String) (least : Number) (candidate baseline : List Float) :
    Except Fault Comparison :=
  let m := candidate.length
  let n := baseline.length
  if (Number.int m).below least || (Number.int n).below least then .ok (.tooFew m n)
  else (testOfName test).map fun verdict =>
    .tested (verdict candidate baseline) (describe candidate baseline) m n

namespace Comparison

def probability : Comparison → Float
  | tooFew _ _ => 1
  | tested verdict _ _ _ => verdict.probability

def significant : Comparison → Bool
  | tooFew _ _ => false
  | tested verdict _ _ _ => verdict.significant

def effectSize : Comparison → Float
  | tooFew _ _ => 0
  | tested _ described _ _ => described.effectSize

def findings : Comparison → List (String × Datum)
  | tooFew m n =>
    [("significant", .number (.truth false)), ("p_value", .number (.float 1)),
     ("effect_size", .number (.float 0)),
     ("error", .text ("Insufficient samples: " ++ toString m ++ ", " ++ toString n))]
  | tested verdict d m n =>
    [("significant", .number (.truth verdict.significant)),
     ("p_value", .number (.float verdict.probability)),
     ("effect_size", .number (.float d.effectSize)),
     ("candidate_mean", .number (.float d.candidateMean)),
     ("baseline_mean", .number (.float d.baselineMean)),
     ("candidate_std", .number (.float d.candidateDeviation)),
     ("baseline_std", .number (.float d.baselineDeviation)),
     ("candidate_n", .number (.int m)), ("baseline_n", .number (.int n))]

end Comparison

end EGraphSearch.Sample

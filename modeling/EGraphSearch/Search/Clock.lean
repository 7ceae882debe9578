import EGraphSearch.Search.Extraction

/-!
# Runs under a clock

Under a limit on the time one worker looks at the clock before every round and before every playout,
and stops as soon as the time is up.  When that is does not depend on the search, so the clock is an
input: the number of looks that find time left.  A round that is cut short commits like any other,
and the final term is read off whatever tree there is.
-/

set_option autoImplicit false

namespace EGraphSearch

variable {σ ρ α : Type} [Scalar α]

/-- The plan without its limit on the time, for which the clock stands. -/
def Plan.untimed (plan : Plan σ ρ α) : Plan σ ρ α := { plan with timeLimit := none }

/-- Runs rounds while there is time, until the budget is used up or a complete term is committed
to. -/
def searchRoundsWithin (plan : Plan σ ρ α) (perRound : Number) (looks : Nat) (budget : Budget)
    (s : Progress σ α) : SearchEnd σ α :=
  match looks with
  | 0 => ⟨.ok (), budget, s⟩
  | looks + 1 =>
    if budget.exhausted then ⟨.ok (), budget, s⟩
    else
      (runBatchFrom plan s.committed (some perRound) looks 0 budget s).closeRound fun ran =>
        searchRoundsWithin plan perRound (looks - ran)
termination_by looks

def searchWithin (plan : Plan σ ρ α) (looks : Nat) (budget : Budget) (s : Progress σ α) :
    SearchEnd σ α :=
  match plan.tuning.perRound with
  | none =>
    let batch := runBatchFrom plan s.committed none looks 0 budget s
    ⟨batch.ran.map fun _ => (), batch.budget, batch.progress⟩
  | some perRound => searchRoundsWithin plan perRound looks budget s

def extractWithin (plan : Plan σ ρ α) (looks : Nat) (oracle : σ) :
    Except Fault (Outcome α) × Progress σ α :=
  let opened := (Progress.initial oracle).report [.started plan.maxPlayouts plan.timeLimit]
  let searched := searchWithin plan.untimed looks plan.untimed.budget opened
  match searched.result with
  | .error fault => (.error fault, searched.progress)
  | .ok () => conclude plan searched.progress

end EGraphSearch

import EGraphSearch.Sample.Moments
import EGraphSearch.Search.Leaf

/-!
# Best of N

The baseline of a search: so many independent rollouts from the start, of which the cheapest priced
term is kept, the first one among equals.
-/

set_option autoImplicit false

namespace EGraphSearch

variable {σ ρ α : Type} [Scalar α]

/-- What the rollouts of a baseline have come to. -/
structure Baseline (σ ρ α : Type) where
  evaluator : Evaluator σ
  source : ρ
  /-- The costs of the priced terms, in order of time. -/
  costs : List α
  best : Option (Term × α)
  deadEnds : Nat

namespace Baseline

def start (oracle : σ) (source : ρ) : Baseline σ ρ α :=
  { evaluator := { oracle := oracle }, source := source, costs := [], best := none, deadEnds := 0 }

def addReply (term : Term) (reply : Reply α) (b : Baseline σ ρ α) : Baseline σ ρ α :=
  match reply with
  | .failed _ => b
  | .cost cost => { b with costs := b.costs ++ [cost], best := cheaper b.best (term, cost) }

def sampleOnce (g : EGraph) (ask : Asker σ α) (choose : Chooser ρ) (b : Baseline σ ρ α) :
    Except Fault (Baseline σ ρ α) :=
  let ended := rollout g choose (Tracker.start g) b.source
  let b := { b with source := ended.source }
  match ended.result with
  | .error fault => .error fault
  | .ok false => .ok { b with deadEnds := b.deadEnds + 1 }
  | .ok true =>
    match ended.tracker.toTerm g with
    | .error fault => .error fault
    | .ok term =>
      match b.evaluator.evaluate ask term with
      | (.error fault, _) => .error fault
      | (.ok reply, evaluator) => .ok ({ b with evaluator := evaluator }.addReply term reply)

def sampleMany (g : EGraph) (ask : Asker σ α) (choose : Chooser ρ) :
    Nat → Baseline σ ρ α → Except Fault (Baseline σ ρ α)
  | 0, b => .ok b
  | count + 1, b =>
    match b.sampleOnce g ask choose with
    | .error fault => .error fault
    | .ok b => sampleMany g ask choose count b

/-- The mean cost, if there is any cost. -/
def meanCost (b : Baseline σ ρ α) : Option α :=
  if b.costs.isEmpty then none else some (Sample.mean b.costs)

def costDeviation (b : Baseline σ ρ α) : Option α :=
  if b.costs.isEmpty then none else some (Sample.deviation b.costs)

end Baseline

def bestOfN [Draws ρ] (g : EGraph) (ask : Asker σ α) (count : Number) (oracle : σ) (source : ρ) :
    Except Fault (Baseline σ ρ α) :=
  match count.int? with
  | none => .error (.mismatch (.wholeNumber "float"))
  | some n => (Baseline.start oracle source).sampleMany g ask Policy.uniform.choose n.toNat

end EGraphSearch

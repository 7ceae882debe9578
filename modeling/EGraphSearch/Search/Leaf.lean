import EGraphSearch.Oracle.Basic
import EGraphSearch.Rollout
import EGraphSearch.Valuation

/-!
# The value of a leaf

A leaf of the search tree is worth the average value of some rollouts from its tracker.  A rollout
that ends in a dead end, or whose term the oracle cannot price, counts with the value of a failure.
The cheapest priced term is remembered, the first one among equals.
-/

set_option autoImplicit false

namespace EGraphSearch

variable {σ ρ α : Type}

/-- What a search works on: an e-graph, an oracle, a way to roll out and the values of costs. -/
structure Problem (σ ρ α : Type) where
  graph : EGraph
  ask : Asker σ α
  choose : Chooser ρ
  valuation : Valuation α

/-- A priced term that is strictly cheaper than the best one so far takes its place. -/
def cheaper [Scalar α] (best : Option (Term × α)) (found : Term × α) : Option (Term × α) :=
  match best with
  | none => some found
  | some known => if Scalar.below found.2 known.2 then some found else some known

structure Tally (α : Type) where
  /-- The sum of the values. -/
  total : α
  evaluations : Nat
  failures : Nat
  deadEnds : Nat
  best : Option (Term × α)

namespace Tally

variable [Scalar α]

def empty : Tally α := ⟨Scalar.zero, 0, 0, 0, none⟩

def deadEnd (failure : α) (t : Tally α) : Tally α :=
  { t with total := t.total + failure, deadEnds := t.deadEnds + 1 }

def failed (failure : α) (t : Tally α) : Tally α :=
  { t with
    total := t.total + failure
    evaluations := t.evaluations + 1
    failures := t.failures + 1 }

def priced (term : Term) (cost value : α) (t : Tally α) : Tally α :=
  { t with
    total := t.total + value
    evaluations := t.evaluations + 1
    best := cheaper t.best (term, cost) }

end Tally

structure Leaf (α : Type) extends Tally α where
  value : α

structure Sampling (σ ρ α : Type) where
  tracker : Tracker
  evaluator : Evaluator σ
  source : ρ
  tally : Tally α
  /-- The terms that could not be priced, in order of time. -/
  unpriced : List (Term × Failure)

namespace Sampling

variable [Scalar α]

def start (tracker : Tracker) (evaluator : Evaluator σ) (source : ρ) : Sampling σ ρ α :=
  ⟨tracker, evaluator, source, Tally.empty, []⟩

def countFailure (p : Problem σ ρ α) (count : α → Tally α → Tally α) (s : Sampling σ ρ α) :
    Except Fault Unit × Sampling σ ρ α :=
  match p.valuation.failure with
  | .error fault => (.error fault, s)
  | .ok failure => (.ok (), { s with tally := count failure s.tally })

def price (p : Problem σ ρ α) (term : Term) (s : Sampling σ ρ α) :
    Except Fault Unit × Sampling σ ρ α :=
  match s.evaluator.evaluate p.ask term with
  | (.error fault, evaluator) => (.error fault, { s with evaluator := evaluator })
  | (.ok (.failed why), evaluator) =>
    { s with evaluator := evaluator, unpriced := s.unpriced ++ [(term, why)] }.countFailure p
      Tally.failed
  | (.ok (.cost cost), evaluator) =>
    (.ok (),
      { s with
        evaluator := evaluator
        tally := s.tally.priced term cost (p.valuation.value cost) })

/-- One rollout; it consumes the tracker unless that is kept. -/
def rollOnce (p : Problem σ ρ α) (keep : Bool) (s : Sampling σ ρ α) :
    Except Fault Unit × Sampling σ ρ α :=
  let ended := rollout p.graph p.choose s.tracker s.source
  let s := { s with
    source := ended.source
    tracker := if keep then s.tracker else ended.tracker }
  match ended.result with
  | .error fault => (.error fault, s)
  | .ok false => s.countFailure p Tally.deadEnd
  | .ok true =>
    match ended.tracker.toTerm p.graph with
    | .error fault => (.error fault, s)
    | .ok term => s.price p term

def rollMany (p : Problem σ ρ α) (keep : Bool) :
    Nat → Sampling σ ρ α → Except Fault Unit × Sampling σ ρ α
  | 0, s => (.ok (), s)
  | count + 1, s =>
    match s.rollOnce p keep with
    | (.error fault, s) => (.error fault, s)
    | (.ok (), s) => rollMany p keep count s

def leaf (rollouts : Int) (s : Sampling σ ρ α) : Leaf α :=
  { s.tally with value := s.tally.total / Scalar.ofInt rollouts }

end Sampling

/-- Rolls out from a tracker and averages.  A single rollout consumes the tracker; several ones
each start from it. -/
def evaluateLeaf [Scalar α] (p : Problem σ ρ α) (rollouts : Number) (tracker : Tracker)
    (evaluator : Evaluator σ) (source : ρ) : Except Fault (Leaf α) × Sampling σ ρ α :=
  let start := Sampling.start tracker evaluator source
  match rollouts.int? with
  | none => (.error (.mismatch (.wholeNumber "float")), start)
  | some count =>
    match start.rollMany p (decide (1 < count)) count.toNat with
    | (.error fault, s) => (.error fault, s)
    | (.ok (), s) => (if count = 0 then .error .dividedByZero else .ok (s.leaf count), s)

end EGraphSearch

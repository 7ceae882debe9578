import EGraphSearch.Search.FinalTerm
import EGraphSearch.Search.Rounds

/-!
# Extraction

A run spends its budget, reads the final term off the tree, and prices that term as well.
-/

set_option autoImplicit false

namespace EGraphSearch

variable {σ ρ α : Type} [Scalar α]

structure Outcome (α : Type) where
  term : Term
  /-- The cost of the term, unless the oracle failed on it. -/
  cost : Option α
  /-- The cheapest term seen in the whole run, and its cost. -/
  best : Option (Term × α)
  playouts : Nat
  evaluations : Nat
  failures : Nat
  deadEnds : Nat
  summary : Option (Summary α)

def Progress.priceFinal (p : Problem σ ρ α) (term : Term) (s : Progress σ α) :
    Except Fault (Option α) × Progress σ α :=
  match s.evaluator.evaluate p.ask term with
  | (.error fault, evaluator) => (.error fault, { s with evaluator := evaluator })
  | (.ok (.failed why), evaluator) =>
    (.ok none, { s with evaluator := evaluator }.report [.unpriced term why])
  | (.ok (.cost cost), evaluator) =>
    (.ok (some cost), { s with evaluator := evaluator, best := cheaper s.best (term, cost) })

def Progress.outcome (plan : Plan σ ρ α) (term : Term) (cost : Option α) (s : Progress σ α) :
    Outcome α :=
  { term := term
    cost := cost
    best := s.best
    playouts := s.playouts
    evaluations := s.evaluator.calls
    failures := s.evaluator.failures
    deadEnds := s.deadEnds
    summary := if plan.summarised then some (s.summary plan.graph) else none }

def Plan.budget (plan : Plan σ ρ α) : Budget :=
  { maxPlayouts := plan.maxPlayouts, timeLimit := plan.timeLimit }

def conclude (plan : Plan σ ρ α) (s : Progress σ α) :
    Except Fault (Outcome α) × Progress σ α :=
  match finalTerm plan.toProblem plan.tuning.completionAttempts s.tree plan.lastStream with
  | (.error fault, journal) => (.error fault, s.report journal)
  | (.ok term, journal) =>
    match (s.report journal).priceFinal plan.toProblem term with
    | (.error fault, s) => (.error fault, s)
    | (.ok cost, s) =>
      (.ok (s.outcome plan term cost),
        s.report [.finished s.playouts cost (s.best.map Prod.snd) s.tree.size 0])

/-- Runs a plan; the oracle keeps the state that earlier runs left it in. -/
def extract (plan : Plan σ ρ α) (oracle : σ) : Except Fault (Outcome α) × Progress σ α :=
  let opened := (Progress.initial oracle).report [.started plan.maxPlayouts plan.timeLimit]
  let searched := search plan plan.budget opened
  match searched.result with
  | .error fault => (.error fault, searched.progress)
  | .ok () => conclude plan searched.progress

end EGraphSearch

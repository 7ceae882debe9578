import EGraphSearch.Search.Budget
import EGraphSearch.Search.Event
import EGraphSearch.Search.Leaf
import EGraphSearch.Tree.Selection
import EGraphSearch.Tree.Statistics

/-!
# The progress of a search

What a search has built and counted so far.  Finished playouts are folded in one at a time.
-/

set_option autoImplicit false

namespace EGraphSearch

structure Tuning (α : Type) where
  /-- The weight of the exploration bonus; a missing one lies beyond the scalars. -/
  exploration : Option α
  /-- The virtual loss of a playout in flight; a missing one lies beyond the scalars. -/
  virtualLoss : Option α
  rollouts : Number
  /-- Playouts before the next move is committed to; without it no move ever is. -/
  perRound : Option Number
  workers : Number
  /-- Rollouts that are tried before a term is completed by backtracking. -/
  completionAttempts : Number
  logInterval : Number

/-- The constants of the scores, with the value charged for playouts in flight. -/
def Tuning.constants {α : Type} (tuning : Tuning α) (lossValue : α) :
    Option (ScoreConstants α) :=
  tuning.exploration.map fun exploration => ⟨exploration, lossValue⟩

/-- A problem together with everything that determines a run. -/
structure Plan (σ ρ α : Type) extends Problem σ ρ α where
  tuning : Tuning α
  maxPlayouts : Option Number
  timeLimit : Option Number
  stream : Nat → ρ
  /-- The draws for the completion of the final term. -/
  lastStream : ρ
  summarised : Bool

structure Progress (σ α : Type) where
  tree : Tree α
  evaluator : Evaluator σ
  playouts : Nat
  deadEnds : Nat
  /-- The cheapest term seen, and its cost. -/
  best : Option (Term × α)
  /-- The tree node from which playouts start. -/
  committed : Nat
  /-- What has been reported, in order of time. -/
  journal : List (Event α)

namespace Progress

variable {σ ρ α : Type} [Scalar α]

def initial (oracle : σ) : Progress σ α :=
  { tree := Tree.initial
    evaluator := { oracle := oracle }
    playouts := 0
    deadEnds := 0
    best := none
    committed := 0
    journal := [] }

omit [Scalar α] in
def report (events : List (Event α)) (s : Progress σ α) : Progress σ α :=
  { s with journal := s.journal ++ events }

omit [Scalar α] in
/-- Takes over what rollouts did to the evaluator and could not price. -/
def afterSampling (sampling : Sampling σ ρ α) (s : Progress σ α) : Progress σ α :=
  { s with evaluator := sampling.evaluator }.report
    (sampling.unpriced.map fun (term, why) => .unpriced term why)

def milestone (s : Progress σ α) : Event α :=
  .progressed s.playouts s.tree.size (s.tree.node 0).mean (s.best.map Prod.snd)
    s.evaluator.failures s.deadEnds

def record (tuning : Tuning α) (leaf : Leaf α) (s : Progress σ α) : Progress σ α :=
  let s := { s with
    playouts := s.playouts + 1
    deadEnds := s.deadEnds + leaf.deadEnds
    best := leaf.best.elim s.best fun found => cheaper s.best found }
  if tuning.logInterval.divides s.playouts then s.report [s.milestone] else s

end Progress

/-! ## Summaries -/

structure Summary (α : Type) where
  treeSize : Nat
  maxDepth : Nat
  rootVisits : Nat
  rootMean : α
  statuses : List (Status × Nat)
  /-- The nodes of the tree, in order of their creation. -/
  nodes : List (SearchNode α)
  /-- How often and how well each choice was made. -/
  usage : Table (Table (Usage α))
  calls : Nat
  failures : Nat
  failureRate : Float
  playouts : Nat
  deadEnds : Nat
  committedDepth : Nat

def Progress.summary {σ α : Type} [Scalar α] (g : EGraph) (s : Progress σ α) : Summary α :=
  { treeSize := s.tree.size
    maxDepth := s.tree.maxDepth
    rootVisits := (s.tree.node 0).visits
    rootMean := (s.tree.node 0).mean
    statuses := Status.all.map fun status => (status, s.tree.countStatus status)
    nodes := s.tree.nodes.toList
    usage := s.tree.classStatistics g
    calls := s.evaluator.calls
    failures := s.evaluator.failures
    failureRate := s.evaluator.failureRate
    playouts := s.playouts
    deadEnds := s.deadEnds
    committedDepth := (s.tree.node s.committed).depth }

end EGraphSearch

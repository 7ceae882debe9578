import EGraphSearch.Search.Flight

/-!
# Rounds

A search spends its whole budget from the root, or in rounds: after each round it commits to the
most visited child that is not a dead end, and the next round starts from there.  A round that found
nothing but dead ends is repeated from the same node; a committed complete term ends the search.
-/

set_option autoImplicit false

namespace EGraphSearch

variable {σ ρ α : Type} [Scalar α]

def Plan.runBatch (plan : Plan σ ρ α) (start : Nat) (limit : Option Number) (budget : Budget)
    (s : Progress σ α) : BatchEnd σ α :=
  if Number.below 1 plan.tuning.workers then
    runShared plan plan.tuning.workers start limit budget s
  else EGraphSearch.runBatch plan start limit budget s

def Progress.commit (child : Nat) (s : Progress σ α) : Progress σ α :=
  let node := s.tree.node child
  { s with committed := child }.report [.committed node.cls node.node node.depth]

structure SearchEnd (σ α : Type) where
  result : Except Fault Unit
  budget : Budget
  progress : Progress σ α

/-- Closes a round whose playouts are over: the search commits, and goes on unless the term is
complete. -/
def BatchEnd.closeRound (batch : BatchEnd σ α)
    (goOn : Nat → Budget → Progress σ α → SearchEnd σ α) : SearchEnd σ α :=
  match batch.ran with
  | .error fault => ⟨.error fault, batch.budget, batch.progress⟩
  | .ok ran =>
    match batch.progress.tree.mostVisited batch.progress.committed true with
    | .error fault => ⟨.error fault, batch.budget, batch.progress⟩
    | .ok none => goOn ran batch.budget batch.progress
    | .ok (some (_, child)) =>
      let s := batch.progress.commit child
      if (s.tree.node child).terminal then ⟨.ok (), batch.budget, s⟩
      else goOn ran batch.budget s

def searchRounds (plan : Plan σ ρ α) (perRound : Number) :
    Nat → Budget → Progress σ α → SearchEnd σ α
  | 0, budget, s => ⟨.ok (), budget, s⟩
  | bound + 1, budget, s =>
    if budget.exhausted then ⟨.ok (), budget, s⟩
    else
      (plan.runBatch s.committed (some perRound) budget s).closeRound fun _ =>
        searchRounds plan perRound bound

/-- No search has more rounds than this.  Each round runs a playout; and a node is left, at the
latest, when all its moves have been tried. -/
def roundBound (g : EGraph) (budget : Budget) : Nat :=
  budget.remaining?.getD ((g.numClasses + 1) * (g.numNodes + 2))

def search (plan : Plan σ ρ α) (budget : Budget) (s : Progress σ α) : SearchEnd σ α :=
  match plan.tuning.perRound with
  | none =>
    let batch := plan.runBatch s.committed none budget s
    ⟨batch.ran.map fun _ => (), batch.budget, batch.progress⟩
  | some perRound => searchRounds plan perRound (roundBound plan.graph budget) budget s

end EGraphSearch

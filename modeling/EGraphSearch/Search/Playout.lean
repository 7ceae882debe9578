import EGraphSearch.Search.Progress
import EGraphSearch.Search.Walk
import EGraphSearch.Tree.Backup

/-!
# Playouts, one after the other

A playout walks down the tree, rolls out from where it arrives, and credits the value to the nodes
of its path.  A batch of playouts goes on until the budget or its own limit is used up.  One that
only the time limits would go on until the clock stops it; here, where time stands still, it has no
bound and is left out.
-/

set_option autoImplicit false

namespace EGraphSearch

variable {σ ρ α : Type} [Scalar α]

/-- One playout from a tree node.  A fault leaves behind what had been done before it. -/
def playout (p : Problem σ ρ α) (tuning : Tuning α) (start : Nat) (source : ρ)
    (s : Progress σ α) : Except Fault (Leaf α) × Progress σ α :=
  match replay p.graph s.tree start with
  | .error fault => (.error fault, s)
  | .ok tracker =>
    let walk := selectAndExpand p.graph (tuning.constants Scalar.zero) s.tree tracker start
    let s := { s with tree := walk.tree }
    match walk.path with
    | .error fault => (.error fault, s)
    | .ok path =>
      match evaluateLeaf p tuning.rollouts walk.tracker s.evaluator source with
      | (.error fault, sampling) => (.error fault, s.afterSampling sampling)
      | (.ok leaf, sampling) =>
        match s.tree.creditPath leaf.value path with
        | (.error fault, tree) => (.error fault, { s with tree := tree }.afterSampling sampling)
        | (.ok (), tree) => (.ok leaf, { s with tree := tree }.afterSampling sampling)

def batchBound (limit : Option Number) (budget : Budget) : Nat :=
  match limit.bind Number.ceiling?, budget.remaining? with
  | some own, some rest => min own rest
  | some own, none => own
  | none, some rest => rest
  | none, none => 0

/-- What a batch leaves behind: the number of its playouts, or a fault. -/
structure BatchEnd (σ α : Type) where
  ran : Except Fault Nat
  budget : Budget
  progress : Progress σ α

/-- Runs playouts until the limit or the budget is used up; `ran` counts those of this batch. -/
def runBatchFrom (plan : Plan σ ρ α) (start : Nat) (limit : Option Number) :
    Nat → Nat → Budget → Progress σ α → BatchEnd σ α
  | 0, ran, budget, s => ⟨.ok ran, budget, s⟩
  | bound + 1, ran, budget, s =>
    if limit.any fun n => !Number.below (.int ran) n then ⟨.ok ran, budget, s⟩
    else
      match budget.claim with
      | none => ⟨.ok ran, budget, s⟩
      | some (index, budget) =>
        match playout plan.toProblem plan.tuning start (plan.stream index) s with
        | (.error fault, s) => ⟨.error fault, budget, s⟩
        | (.ok leaf, s) =>
          runBatchFrom plan start limit bound (ran + 1) budget (s.record plan.tuning leaf)

def runBatch (plan : Plan σ ρ α) (start : Nat) (limit : Option Number) (budget : Budget)
    (s : Progress σ α) : BatchEnd σ α :=
  runBatchFrom plan start limit (batchBound limit budget) 0 budget s

end EGraphSearch

import EGraphSearch.Search.Playout

/-!
# Playouts in flight

Several workers share one tree.  A playout begins under a lock: it claims its index, walks down the
tree and leaves virtual loss on its path.  The rollouts happen outside the lock.  Then the playout
finishes, again under the lock: the virtual loss is taken back and the value credited.  A playout
whose rollouts fail is abandoned and only takes its virtual loss back.
-/

set_option autoImplicit false

namespace EGraphSearch

variable {σ ρ α : Type}

structure Shared (σ α : Type) where
  budget : Budget
  /-- The playouts begun in this batch. -/
  started : Nat
  progress : Progress σ α

structure Flight where
  index : Nat
  path : List Nat
  tracker : Tracker

namespace Shared

def withTree (s : Shared σ α) (tree : Tree α) : Shared σ α :=
  { s with progress := { s.progress with tree := tree } }

variable [Scalar α]

/-- Walks down the tree for a playout that has its index, and leaves virtual loss on the path. -/
def launch (g : EGraph) (tuning : Tuning α) (constants : Option (ScoreConstants α))
    (start index : Nat) (s : Shared σ α) : Except Fault Flight × Shared σ α :=
  match replay g s.progress.tree start with
  | .error fault => (.error fault, s)
  | .ok tracker =>
    let walk := selectAndExpand g constants s.progress.tree tracker start
    match walk.path with
    | .error fault => (.error fault, s.withTree walk.tree)
    | .ok path =>
      match tuning.virtualLoss with
      | none => (.error .tooLarge, s.withTree walk.tree)
      | some amount =>
        match walk.tree.addLoss amount path with
        | (.error fault, tree) => (.error fault, s.withTree tree)
        | (.ok (), tree) => (.ok ⟨index, path, walk.tracker⟩, s.withTree tree)

def begin (g : EGraph) (tuning : Tuning α) (constants : Option (ScoreConstants α)) (start : Nat)
    (limit : Option Number) (s : Shared σ α) : Except Fault (Option Flight) × Shared σ α :=
  if limit.any (·.reachedBy s.started) then (.ok none, s)
  else
    match s.budget.claim with
    | none => (.ok none, s)
    | some (index, budget) =>
      let claimed := { s with budget := budget, started := s.started + 1 }
      match claimed.launch g tuning constants start index with
      | (.error fault, s) => (.error fault, s)
      | (.ok flight, s) => (.ok (some flight), s)

def abandon (tuning : Tuning α) (flight : Flight) (s : Shared σ α) : Shared σ α :=
  match tuning.virtualLoss with
  | none => s
  | some amount => s.withTree (s.progress.tree.removeLoss amount flight.path).2

def finish (tuning : Tuning α) (flight : Flight) (leaf : Leaf α) (s : Shared σ α) : Shared σ α :=
  let reverted := s.abandon tuning flight
  let credited :=
    reverted.withTree (reverted.progress.tree.creditPath leaf.value flight.path).2
  { credited with progress := credited.progress.record tuning leaf }

end Shared

variable [Scalar α]

def land (plan : Plan σ ρ α) (flight : Flight) (s : Shared σ α) :
    Except Fault Unit × Shared σ α :=
  match evaluateLeaf plan.toProblem plan.tuning.rollouts flight.tracker s.progress.evaluator
      (plan.stream flight.index) with
  | (.error fault, sampling) =>
    (.error fault,
      { s with progress := s.progress.afterSampling sampling }.abandon plan.tuning flight)
  | (.ok leaf, sampling) =>
    (.ok (),
      { s with progress := s.progress.afterSampling sampling }.finish plan.tuning flight leaf)

def work (plan : Plan σ ρ α) (constants : Option (ScoreConstants α)) (start : Nat)
    (limit : Option Number) : Nat → Shared σ α → Except Fault Unit × Shared σ α
  | 0, s => (.ok (), s)
  | bound + 1, s =>
    match s.begin plan.graph plan.tuning constants start limit with
    | (.error fault, s) => (.error fault, s)
    | (.ok none, s) => (.ok (), s)
    | (.ok (some flight), s) =>
      match land plan flight s with
      | (.error fault, s) => (.error fault, s)
      | (.ok (), s) => work plan constants start limit bound s

/-- A worker's shift.  Without a value to charge for playouts in flight it fails before its first
playout; a value beyond the scalars is missed only when a score needs it. -/
def shift (plan : Plan σ ρ α) (start : Nat) (limit : Option Number) (s : Shared σ α) :
    Except Fault Unit × Shared σ α :=
  let bound := batchBound limit s.budget
  match plan.valuation.failure with
  | .ok lossValue => work plan (plan.tuning.constants lossValue) start limit bound s
  | .error .tooLarge => work plan none start limit bound s
  | .error fault => (.error fault, s)

/-- So many workers in turn; a worker that fails does not keep the next one from its shift, and
the first fault is the one that counts. -/
def shifts (plan : Plan σ ρ α) (start : Nat) (limit : Option Number) :
    Nat → Shared σ α → Except Fault Unit × Shared σ α
  | 0, s => (.ok (), s)
  | workers + 1, s =>
    match shift plan start limit s with
    | (.ok (), s) => shifts plan start limit workers s
    | (.error fault, s) => (.error fault, (shifts plan start limit workers s).2)

def runShared (plan : Plan σ ρ α) (workers : Number) (start : Nat) (limit : Option Number)
    (budget : Budget) (s : Progress σ α) : BatchEnd σ α :=
  match workers.int? with
  | none => ⟨.error (.mismatch (.wholeNumber "float")), budget, s⟩
  | some count =>
    let (result, s) := shifts plan start limit count.toNat ⟨budget, 0, s⟩
    ⟨result.map fun _ => s.started, s.budget, s.progress⟩

end EGraphSearch

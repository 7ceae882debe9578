import EGraphSearch.Tree.Basic

/-!
# Selection

Untried moves come first.  Once every legal move has a child, the child with the highest score
wins, where the score adds to the mean value a bonus for children that were visited rarely.  The
final choice goes to the most visited child instead.  Ties go to the child discovered first.
-/

set_option autoImplicit false

namespace EGraphSearch

/-- A score; children that no playout has reached score above everything. -/
inductive Score (α : Type) where
  | unvisited
  | value (score : α)

def Score.exceeds {α : Type} [Scalar α] : Score α → Score α → Bool
  | unvisited, unvisited => false
  | unvisited, value y => Scalar.belowInfinity y
  | value _, unvisited => false
  | value x, value y => Scalar.below y x

/-- The constants of a score: the weight of the bonus, and the value charged for each playout in
flight. -/
structure ScoreConstants (α : Type) where
  exploration : α
  lossValue : α

namespace SearchNode

variable {α : Type} [Scalar α]

def presence (n : SearchNode α) : α := Scalar.ofNat n.visits + n.virtualLoss

def isUnvisited (n : SearchNode α) : Bool := Scalar.atMost n.presence Scalar.zero

def score (constants : ScoreConstants α) (parentVisits : α) (child : SearchNode α) : Score α :=
  if child.isUnvisited then .unvisited
  else
    let exploitation := (child.total + child.virtualLoss * constants.lossValue) / child.presence
    let bonus := constants.exploration *
      Scalar.sqrt (Scalar.log (Scalar.max parentVisits Scalar.one) / child.presence)
    .value (exploitation + bonus)

/-- The score under constants that may be missing, because they lie beyond the scalars.  A child
that no playout has reached needs none. -/
def score? (constants : Option (ScoreConstants α)) (parentVisits : α) (child : SearchNode α) :
    Option (Score α) :=
  match constants with
  | some constants => some (child.score constants parentVisits)
  | none => if child.isUnvisited then some .unvisited else none

end SearchNode

inductive Choice where
  | untried (move : Nat)
  | known (move child : Nat)
  deriving DecidableEq, Repr

def Choice.move : Choice → Nat
  | untried move => move
  | known move _ => move

def firstBest {β : Type} (exceeds : β → β → Bool) (key : Nat → β) :
    List (Nat × Nat) → Option (Nat × Nat) → Option (Nat × Nat)
  | [], best => best
  | entry :: rest, none => firstBest exceeds key rest (some entry)
  | entry :: rest, some best =>
    firstBest exceeds key rest
      (some (if exceeds (key entry.2) (key best.2) then entry else best))

/-- Picks among the listed moves, given the children of a node in order of discovery and a key
for each child. -/
def chooseMove {β : Type} (exceeds : β → β → Bool) (key : Nat → β)
    (children : List (Nat × Nat)) (moves : List Nat) : Option Choice :=
  match moves.find? fun move => !children.any fun entry => entry.1 == move with
  | some move => some (.untried move)
  | none =>
    (firstBest exceeds key (children.filter fun entry => moves.contains entry.1) none).map
      fun (move, child) => .known move child

def busier {α : Type} [Scalar α] (m n : SearchNode α) : Bool :=
  decide (n.visits < m.visits) || (m.visits == n.visits && Scalar.below n.mean m.mean)

namespace Tree

variable {α : Type} [Scalar α]

/-- Whether every child behind the listed moves of a node has a score. -/
def canScore (constants : Option (ScoreConstants α)) (t : Tree α) (n : SearchNode α)
    (moves : List Nat) : Bool :=
  n.children.all fun entry =>
    !moves.contains entry.1 || ((t.node entry.2).score? constants n.presence).isSome

def selectMove (constants : Option (ScoreConstants α)) (t : Tree α) (i : Nat)
    (moves : List Nat) : Except Fault Choice :=
  if moves.isEmpty then .error (.outOfRange .noMoves)
  else
    match t.nodes[i]? with
    | none => .error .noSuchIndex
    | some n =>
      let key := fun child => ((t.node child).score? constants n.presence).getD .unvisited
      match chooseMove Score.exceeds key n.children moves with
      | some (.untried move) => .ok (.untried move)
      | some (.known move child) =>
        if t.canScore constants n moves then .ok (.known move child) else .error .tooLarge
      | none => .error (.outOfRange .noMoves)

def mostVisited (t : Tree α) (i : Nat) (skipDeadEnds : Bool) : Except Fault (Option (Nat × Nat)) :=
  (t.get i).map fun n =>
    let admissible := n.children.filter fun entry =>
      !(skipDeadEnds && (t.node entry.2).status == .deadEnd)
    firstBest busier t.node admissible none

end Tree

end EGraphSearch

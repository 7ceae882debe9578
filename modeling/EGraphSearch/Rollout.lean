import EGraphSearch.Number.Sum
import EGraphSearch.Random.Draws
import EGraphSearch.Tracker

/-!
# Rollouts

A rollout completes a partial extraction by choosing a legal move for the pending class over and
over again.  All randomness comes from the source of draws that is handed in.
-/

set_option autoImplicit false

namespace EGraphSearch

abbrev Chooser (ρ : Type) := EGraph → List Nat → ρ → Except Fault Nat × ρ

inductive Weighting where
  /-- Shallow nodes weigh more. -/
  | byLevel
  /-- The weights of named nodes, and the weight of all others. -/
  | byNode (weights : Table Float) (others : Float)

inductive Policy where
  | uniform
  | weighted (weighting : Weighting)

def levelWeight (g : EGraph) (n : Nat) : Float :=
  match g.nodeLevel n with
  | .finite level => 1 / (1 + Binary64.ofNat level)
  | .infinite => 0

def Weighting.weight (w : Weighting) (g : EGraph) (n : Nat) : Float :=
  match w with
  | .byLevel => levelWeight g n
  | .byNode weights others => (weights.get? (g.nodeLabel n)).getD others

namespace Policy

variable {ρ : Type} [Draws ρ]

def moveAt (moves : List Nat) : Except Fault Nat × ρ → Except Fault Nat × ρ
  | (.error fault, source) => (.error fault, source)
  | (.ok i, source) =>
    match moves[i]? with
    | some n => (.ok n, source)
    | none => (.error .noSuchIndex, source)

def chooseUniform : Chooser ρ := fun _ moves source =>
  moveAt moves (Draws.below moves.length source)

/-- A move is as likely as its share of the total weight; without any weight all are equal. -/
def chooseWeighted (w : Weighting) : Chooser ρ := fun g moves source =>
  let weights := moves.map (w.weight g)
  if weights.any (· < 0) then (.error (.outOfRange .negativeWeight), source)
  else
    let total := Sum.total weights
    if total ≤ 0 then chooseUniform g moves source
    else moveAt moves (Draws.weighted (weights.map (· / total)) source)

def choose : Policy → Chooser ρ
  | uniform => chooseUniform
  | weighted w => chooseWeighted w

def render : Policy → String
  | uniform => "UniformRolloutPolicy()"
  | weighted _ => "WeightedRolloutPolicy()"

def ofName (name : Datum) : Except Fault Policy :=
  match name with
  | .text "uniform" => .ok uniform
  | .text "weighted" => .ok (weighted .byLevel)
  | _ =>
    if name.isHashable then .error (.badSettings (.unknownPolicy name))
    else .error (.mismatch (.tableKey name.kindName))

end Policy

/-- Where a rollout ended: `true` in a terminal tracker, `false` in a dead end. -/
structure RolloutEnd (ρ : Type) where
  tracker : Tracker
  source : ρ
  result : Except Fault Bool

/-- Completes the tracker move by move; each move leaves fewer classes open. -/
def rollout {ρ : Type} (g : EGraph) (choose : Chooser ρ) (t : Tracker) (source : ρ) :
    RolloutEnd ρ :=
  if t.isTerminal then ⟨t, source, .ok true⟩
  else
    match t.legalMoves g with
    | [] => ⟨t, source, .ok false⟩
    | first :: rest =>
      match choose g (first :: rest) source with
      | (.error fault, source) => ⟨t, source, .error fault⟩
      | (.ok n, source) =>
        match _applied : t.apply g n with
        | .error fault => ⟨t, source, .error fault⟩
        | .ok moved => rollout g choose moved source
termination_by t.openCount
decreasing_by exact Tracker.apply_openCount _applied

def chooseTimes {ρ : Type} (g : EGraph) (choose : Chooser ρ) (t : Tracker) :
    Nat → ρ → Except Fault (List Nat) × ρ
  | 0, source => (.ok [], source)
  | count + 1, source =>
    match choose g (t.legalMoves g) source with
    | (.error fault, source) => (.error fault, source)
    | (.ok n, source) =>
      match chooseTimes g choose t count source with
      | (.error fault, source) => (.error fault, source)
      | (.ok rest, source) => (.ok (n :: rest), source)

end EGraphSearch

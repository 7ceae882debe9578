import EGraphSearch.Search.Flight

/-!
# Workers at once

Workers share the search under one lock, so that beginning a playout is a single step, and so is
ending it.  In between the playout is in flight, and the other workers take their turns in any
order.  Rollouts run without the lock: they use the evaluator and the journal at any time.
-/

set_option autoImplicit false

namespace EGraphSearch

variable {σ α : Type}

structure Crew (σ α : Type) where
  shared : Shared σ α
  /-- The workers that are neither in flight nor gone. -/
  idle : Nat
  flying : List Flight
  /-- Playouts that were credited, with the values of their leaves. -/
  finished : List (Flight × α)
  failed : List Flight
  /-- All playouts in the order of their beginning. -/
  begun : List Flight

inductive Turn (σ α : Type) where
  /-- An idle worker begins a playout, or leaves if there is none. -/
  | begin
  /-- The playout at this place among those in flight has been evaluated. -/
  | finish (place : Nat) (leaf : Leaf α)
  /-- The evaluation of the playout at this place has raised; its worker is gone. -/
  | fail (place : Nat)
  /-- What happens outside the lock. -/
  | outside (evaluator : Evaluator σ) (journal : List (Event α)) (elapsed : Nat)

namespace Crew

def assemble (workers : Nat) (shared : Shared σ α) : Crew σ α :=
  { shared := shared, idle := workers, flying := [], finished := [], failed := [], begun := [] }

variable [Scalar α]

def turn (g : EGraph) (tuning : Tuning α) (constants : Option (ScoreConstants α)) (start : Nat)
    (limit : Option Number) (c : Crew σ α) : Turn σ α → Crew σ α
  | .begin =>
    match c.idle with
    | 0 => c
    | idle + 1 =>
      match c.shared.begin g tuning constants start limit with
      | (.ok (some flight), shared) =>
        { c with
          shared := shared
          idle := idle
          flying := flight :: c.flying
          begun := c.begun ++ [flight] }
      | (_, shared) => { c with shared := shared, idle := idle }
  | .finish place leaf =>
    match c.flying[place]? with
    | none => c
    | some flight =>
      { c with
        shared := c.shared.finish tuning flight leaf
        idle := c.idle + 1
        flying := c.flying.eraseIdx place
        finished := (flight, leaf.value) :: c.finished }
  | .fail place =>
    match c.flying[place]? with
    | none => c
    | some flight =>
      { c with
        shared := c.shared.abandon tuning flight
        flying := c.flying.eraseIdx place
        failed := flight :: c.failed }
  | .outside evaluator journal elapsed =>
    { c with shared := { c.shared with
        budget := { c.shared.budget with elapsed := elapsed }
        progress := { c.shared.progress with evaluator := evaluator, journal := journal } } }

def run (g : EGraph) (tuning : Tuning α) (constants : Option (ScoreConstants α)) (start : Nat)
    (limit : Option Number) : List (Turn σ α) → Crew σ α → Crew σ α
  | [], c => c
  | turn :: rest, c => run g tuning constants start limit rest
    (c.turn g tuning constants start limit turn)

end Crew

end EGraphSearch

import EGraphSearch.Tracker

/-!
# Completion by backtracking

Completes a tracker without chance: moves are tried shallowest first, and a tracker without legal
moves sends the search back to the last untried one.  From the start this never goes back, since
along shallowest choices levels strictly decrease.  A limit on the number of trackers explored
lets a long search give up.
-/

set_option autoImplicit false

namespace EGraphSearch

/-- How a search among the completions of a tracker ended. -/
inductive Search where
  | found (terminal : Tracker)
  /-- There is no completion; so many trackers were explored up to here. -/
  | exhausted (explored : Nat)
  | gaveUp

namespace Completion

def orderedMoves (g : EGraph) (t : Tracker) : List Nat :=
  (t.legalMoves g).mergeSort fun m n => !(g.nodeLevel n).below (g.nodeLevel m)

mutual

def explore (g : EGraph) (limit : Option Nat) (t : Tracker) (explored : Nat) : Search :=
  if t.isTerminal then .found t
  else if limit.any (· < explored + 1) then .gaveUp
  else exploreMoves g limit t (orderedMoves g t) (explored + 1)
termination_by (t.openCount, 1, 0)

def exploreMoves (g : EGraph) (limit : Option Nat) (t : Tracker) (moves : List Nat)
    (explored : Nat) : Search :=
  match moves with
  | [] => .exhausted explored
  | n :: rest =>
    match _applied : t.apply g n with
    | .error _ => exploreMoves g limit t rest explored
    | .ok moved =>
      match explore g limit moved explored with
      | .found terminal => .found terminal
      | .gaveUp => .gaveUp
      | .exhausted explored => exploreMoves g limit t rest explored
termination_by (t.openCount, 0, moves.length)
decreasing_by
  · simp_wf
    exact Prod.Lex.right _ (Prod.Lex.right _ (by simp))
  · simp_wf
    exact Prod.Lex.left _ _ (Tracker.apply_openCount _applied)
  · simp_wf
    exact Prod.Lex.right _ (Prod.Lex.right _ (by simp))

end

end Completion

def searchCompletion (g : EGraph) (limit : Option Nat) (t : Tracker) : Search :=
  Completion.explore g limit t 0

/-- A terminal tracker that completes the given one, if there is one within the limit. -/
def complete? (g : EGraph) (limit : Option Nat) (t : Tracker) : Option Tracker :=
  match searchCompletion g limit t with
  | .found terminal => some terminal
  | .exhausted _ => none
  | .gaveUp => none

end EGraphSearch

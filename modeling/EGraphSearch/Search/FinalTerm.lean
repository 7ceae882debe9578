import EGraphSearch.Completion
import EGraphSearch.Search.Progress
import EGraphSearch.Search.Walk

/-!
# The final term

The term is read off the tree greedily: from the root always to the most visited child.  Where the
tree ends, the rest is completed by rollouts and then by backtracking.  If the greedy path cannot be
completed from its end, completion is tried from every earlier tracker on it; from the root it
always succeeds.
-/

set_option autoImplicit false

namespace EGraphSearch

variable {σ ρ α : Type} [Scalar α]

def greedyPath (g : EGraph) (tree : Tree α) (tracker : Tracker) (i : Nat) :
    Except Fault (List Tracker) :=
  if tracker.isTerminal then .ok [tracker]
  else
    match tree.mostVisited i false with
    | .error fault => .error fault
    | .ok none => .ok [tracker]
    | .ok (some (move, child)) =>
      match _applied : tracker.apply g move with
      | .error fault => .error fault
      | .ok moved => (greedyPath g tree moved child).map (tracker :: ·)
termination_by tracker.openCount
decreasing_by exact Tracker.apply_openCount _applied

/-- Trackers that backtracking explores before it gives up, except at the root. -/
def completionLimit : Nat := 10000

structure Completed (ρ α : Type) where
  result : Except Fault (Option Tracker)
  source : ρ
  journal : List (Event α)

omit [Scalar α] in
/-- So many rollouts, each from the same tracker, until one is complete; then backtracking. -/
def attempt (p : Problem σ ρ α) (limit : Option Nat) (tracker : Tracker) :
    Nat → ρ → Completed ρ α
  | 0, source =>
    match searchCompletion p.graph limit tracker with
    | .found terminal => ⟨.ok (some terminal), source, []⟩
    | .exhausted _ => ⟨.ok none, source, []⟩
    | .gaveUp => ⟨.ok none, source, [.gaveUp (limit.getD 0)]⟩
  | attempts + 1, source =>
    let ended := rollout p.graph p.choose tracker source
    match ended.result with
    | .error fault => ⟨.error fault, ended.source, []⟩
    | .ok true => ⟨.ok (some ended.tracker), ended.source, []⟩
    | .ok false => attempt p limit tracker attempts ended.source

omit [Scalar α] in
def complete (p : Problem σ ρ α) (attempts : Number) (limit : Option Nat) (tracker : Tracker)
    (source : ρ) : Completed ρ α :=
  if tracker.isTerminal then ⟨.ok (some tracker), source, []⟩
  else
    match attempts.int? with
    | none => ⟨.error (.mismatch (.wholeNumber "float")), source, []⟩
    | some count => attempt p limit tracker count.toNat source

omit [Scalar α] in
/-- Completes the deepest tracker that can be completed.  The trackers come innermost first; the
last one has depth zero.  The answer is a terminal tracker and the depth from which it was
completed. -/
def completeDeepest (p : Problem σ ρ α) (attempts : Number) :
    List Tracker → ρ → Except Fault (Tracker × Nat) × List (Event α)
  | [], _ => (.error (.violation .rootNotCompleted), [])
  | tracker :: outer, source =>
    let limit := if outer.isEmpty then none else some completionLimit
    let completed := complete p attempts limit tracker source
    match completed.result with
    | .error fault => (.error fault, completed.journal)
    | .ok (some terminal) => (.ok (terminal, outer.length), completed.journal)
    | .ok none =>
      let (result, journal) := completeDeepest p attempts outer completed.source
      (result, completed.journal ++ journal)

def finalTerm (p : Problem σ ρ α) (attempts : Number) (tree : Tree α) (source : ρ) :
    Except Fault Term × List (Event α) :=
  match greedyPath p.graph tree (Tracker.start p.graph) 0 with
  | .error fault => (.error fault, [])
  | .ok trackers =>
    match completeDeepest p attempts trackers.reverse source with
    | (.error fault, journal) => (.error fault, journal)
    | (.ok (terminal, depth), journal) =>
      let warned :=
        if depth + 1 < trackers.length then journal ++ [.completedFrom depth] else journal
      match terminal.toTerm p.graph with
      | .error fault => (.error fault, warned)
      | .ok term => ((term.validate p.graph).map fun _ => term, warned)

end EGraphSearch

import EGraphSearch.Tracker
import EGraphSearch.Tree.Selection

/-!
# Walking down the search tree

A playout starts with a walk: from the tracker of a tree node it follows selected moves until it
reaches a node without moves or a move that nobody has tried, for which it adds one child.  Every
node it passes learns on the first visit how many moves it has.
-/

set_option autoImplicit false

namespace EGraphSearch

variable {α : Type} [Scalar α]

def Tracker.applyAll (g : EGraph) : List Nat → Tracker → Except Fault Tracker
  | [], tracker => .ok tracker
  | move :: rest, tracker =>
    match tracker.apply g move with
    | .error fault => .error fault
    | .ok moved => applyAll g rest moved

def replay (g : EGraph) (tree : Tree α) (i : Nat) : Except Fault Tracker :=
  match tree.movesTo i with
  | .error fault => .error fault
  | .ok moves => (Tracker.start g).applyAll g moves

def SearchNode.noteMoves (numMoves : Nat) (terminal : Bool) (n : SearchNode α) : SearchNode α :=
  match n.numMoves with
  | some _ => n
  | none => { n with numMoves := some numMoves, terminal := terminal }

def Tree.noteMoves (g : EGraph) (tree : Tree α) (i : Nat) (tracker : Tracker) : Tree α :=
  tree.update i (SearchNode.noteMoves (tracker.legalMoves g).length tracker.isTerminal)

/-- Where a walk has led: the tree, the tracker, and the nodes passed, unless a move failed. -/
structure Walk (α : Type) where
  tree : Tree α
  tracker : Tracker
  path : Except Fault (List Nat)

def Walk.after (i : Nat) (walk : Walk α) : Walk α :=
  { walk with path := walk.path.map (i :: ·) }

def expand (g : EGraph) (tree : Tree α) (tracker : Tracker) (i cls move : Nat) : Walk α :=
  match tree.addChild i move (g.classLabel cls) (g.nodeLabel move) with
  | .error fault => ⟨tree, tracker, .error fault⟩
  | .ok (child, tree) => ⟨tree.noteMoves g child tracker, tracker, .ok [child]⟩

/-- Walks on from node `i`; the path names the nodes below it. -/
def descend (g : EGraph) (constants : Option (ScoreConstants α)) (tree : Tree α) (tracker : Tracker)
    (i : Nat) : Walk α :=
  let tree := tree.noteMoves g i tracker
  match tracker.legalMoves g with
  | [] => ⟨tree, tracker, .ok []⟩
  | first :: rest =>
    match tree.selectMove constants i (first :: rest) with
    | .error fault => ⟨tree, tracker, .error fault⟩
    | .ok choice =>
      match _applied : tracker.apply g choice.move with
      | .error fault => ⟨tree, tracker, .error fault⟩
      | .ok moved =>
        match choice with
        | .untried move => expand g tree moved i (tracker.pending.getD 0) move
        | .known _ child => (descend g constants tree moved child).after child
termination_by tracker.openCount
decreasing_by exact Tracker.apply_openCount _applied

/-- Walks down from a tree node whose tracker is given; the path starts at the root of the tree. -/
def selectAndExpand (g : EGraph) (constants : Option (ScoreConstants α)) (tree : Tree α)
    (tracker : Tracker) (start : Nat) : Walk α :=
  match tree.pathFromRoot start with
  | .error fault => ⟨tree, tracker, .error fault⟩
  | .ok path =>
    let walk := descend g constants tree tracker start
    { walk with path := walk.path.map (path ++ ·) }

end EGraphSearch

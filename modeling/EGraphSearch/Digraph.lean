import EGraphSearch.Number.Total

/-!
# Directed graphs

A directed graph on the vertices `0, 1, …`, given by the successors of each vertex in order and
without repetition.  It is sorted generation by generation, searched for a cycle along the edges
in depth-first order, and asked which vertices a vertex leads to.
-/

set_option autoImplicit false

namespace EGraphSearch

structure Digraph where
  successors : Array (List Nat)

namespace Digraph

def size (d : Digraph) : Nat := d.successors.size

def next (d : Digraph) (v : Nat) : List Nat := d.successors.getD v []

def Edge (d : Digraph) (v w : Nat) : Prop := w ∈ d.next v

def edgeCount (d : Digraph) : Nat := total (d.successors.toList.map List.length)

/-! ## Topological order -/

def inDegrees (d : Digraph) : Array Nat :=
  (d.successors.toList.flatten).foldl (fun degrees w => degrees.modify w (· + 1))
    (Array.replicate d.size 0)

def release : List Nat → Array Nat → List Nat × Array Nat
  | [], degrees => ([], degrees)
  | w :: rest, degrees =>
    let left := degrees.getD w 0 - 1
    let (freed, after) := release rest (degrees.setIfInBounds w left)
    (if left = 0 then w :: freed else freed, after)

def releaseAll (d : Digraph) : List Nat → Array Nat → List Nat × Array Nat
  | [], degrees => ([], degrees)
  | v :: rest, degrees =>
    let (freed, degrees) := release (d.next v) degrees
    let (freedLater, degrees) := d.releaseAll rest degrees
    (freed ++ freedLater, degrees)

def generations (d : Digraph) : Nat → List Nat → Array Nat → List Nat
  | 0, _, _ => []
  | _ + 1, [], _ => []
  | fuel + 1, current, degrees =>
    let (following, degrees) := d.releaseAll current degrees
    current ++ d.generations fuel following degrees

def topologicalOrder? (d : Digraph) : Option (List Nat) :=
  let degrees := d.inDegrees
  let sources := (List.range d.size).filter fun v => degrees.getD v 0 == 0
  let order := d.generations d.size sources degrees
  if order.length < d.size then none else some order

def isAcyclic (d : Digraph) : Bool := d.topologicalOrder?.isSome

/-! ## Cycles -/

/-- Every edge reachable from the bottom of the stack, in depth-first order: the vertex on top
gives its next unused edge, whose head goes on top even if it was there before. -/
def edgeWalk : Nat → List Nat → Array (List Nat) → List (Nat × Nat)
  | 0, _, _ => []
  | _ + 1, [], _ => []
  | fuel + 1, v :: below, unused =>
    match unused.getD v [] with
    | [] => edgeWalk fuel below unused
    | w :: rest => (v, w) :: edgeWalk fuel (w :: v :: below) (unused.setIfInBounds v rest)

def edgesFrom (d : Digraph) (start : Nat) : List (Nat × Nat) :=
  edgeWalk (2 * d.edgeCount + 1) [start] d.successors

/-- The part of an edge walk that leads to its present end, newest edge first. -/
structure Trail where
  edges : List (Nat × Nat)
  /-- The vertices on the trail. -/
  active : List Nat
  /-- Every vertex seen since the walk began. -/
  visited : List Nat
  lastHead : Option Nat

/-- Takes edges off the trail until it ends in `tail`; a trail that is used up starts there. -/
def Trail.backTo (tail : Nat) : List (Nat × Nat) → List Nat → List (Nat × Nat) × List Nat
  | [], _ => ([], [tail])
  | (_, head) :: rest, active =>
    let active := active.erase head
    match rest with
    | (v, w) :: older => if w = tail then ((v, w) :: older, active) else backTo tail rest active
    | [] => ([], [tail])

/-- Follows an edge walk until an edge ends on the trail; vertices explored from an earlier start
are passed over. -/
def Trail.follow (explored : List Nat) : List (Nat × Nat) → Trail → Except (List (Nat × Nat)) Trail
  | [], trail => .ok trail
  | (tail, head) :: walk, trail =>
    if explored.contains head then follow explored walk trail
    else
      let (edges, active) :=
        match trail.lastHead with
        | some last => if tail = last then (trail.edges, trail.active)
            else backTo tail trail.edges trail.active
        | none => (trail.edges, trail.active)
      let edges := (tail, head) :: edges
      if active.contains head then
        .error (edges.reverse.dropWhile fun (v, _) => v != head)
      else
        follow explored walk
          { edges := edges, active := head :: active
            visited := head :: trail.visited, lastHead := some head }

def findCycleFrom (d : Digraph) : List Nat → List Nat → Option (List (Nat × Nat))
  | [], _ => none
  | start :: rest, explored =>
    if explored.contains start then d.findCycleFrom rest explored
    else
      match Trail.follow explored (d.edgesFrom start) ⟨[], [start], [start], none⟩ with
      | .error cycle => some cycle
      | .ok trail => d.findCycleFrom rest (trail.visited ++ explored)

/-- The edges of a cycle, the first one met by depth-first walks from each vertex in turn. -/
def findCycle? (d : Digraph) : Option (List (Nat × Nat)) := d.findCycleFrom (List.range d.size) []

/-! ## Descendants -/

def reachableFrom (d : Digraph) (start : Nat) : List Nat :=
  (List.range d.size).foldl
    (fun found position =>
      match found[position]? with
      | none => found
      | some v => (d.next v).foldl (fun f w => if f.contains w then f else f ++ [w]) found)
    [start]

end Digraph

end EGraphSearch

import EGraphSearch.Fault
import EGraphSearch.Tree.Node

/-!
# The search tree

The nodes of the tree stand in an array and refer to each other by index; the root comes first,
and a child is always added after its parent.  The tree only grows.
-/

set_option autoImplicit false

namespace EGraphSearch

structure Tree (α : Type) where
  nodes : Array (SearchNode α)

namespace Tree

variable {α : Type}

def initial [Scalar α] : Tree α := ⟨#[SearchNode.root]⟩

def size (t : Tree α) : Nat := t.nodes.size

def get (t : Tree α) (i : Nat) : Except Fault (SearchNode α) :=
  match t.nodes[i]? with
  | some n => .ok n
  | none => .error .noSuchIndex

/-- The node at an index; a node without history where there is none. -/
def node [Scalar α] (t : Tree α) (i : Nat) : SearchNode α := t.nodes.getD i SearchNode.root

def update (t : Tree α) (i : Nat) (f : SearchNode α → SearchNode α) : Tree α :=
  ⟨t.nodes.modify i f⟩

def addChild [Scalar α] (t : Tree α) (parent move : Nat) (cls node : Label) :
    Except Fault (Nat × Tree α) :=
  match t.nodes[parent]? with
  | none => .error .noSuchIndex
  | some p =>
    match p.child? move with
    | some _ => .error (.outOfRange (.alreadyExpanded node parent))
    | none =>
      let child := SearchNode.fresh (some parent) (some move) cls node (p.depth + 1)
      let linked := t.update parent fun p => { p with children := p.children ++ [(move, t.size)] }
      .ok (t.size, ⟨linked.nodes.push child⟩)

def child (t : Tree α) (parent move : Nat) : Except Fault (Option Nat) :=
  (t.get parent).map fun p => p.child? move

/-! ## Paths -/

/-- The indices from a node up to the root.  Parents come before their children, so the indices
decrease. -/
def pathToRoot (t : Tree α) (i : Nat) : Except Fault (List Nat) :=
  match t.nodes[i]? with
  | none => .error .noSuchIndex
  | some n =>
    match n.parent with
    | none => .ok [i]
    | some p => if p < i then (t.pathToRoot p).map (i :: ·) else .ok [i]
termination_by i

def pathFromRoot (t : Tree α) (i : Nat) : Except Fault (List Nat) :=
  (t.pathToRoot i).map List.reverse

def movesTo (t : Tree α) (i : Nat) : Except Fault (List Nat) :=
  (t.pathFromRoot i).map fun path => (path.drop 1).filterMap fun j => (t.nodes[j]?).bind (·.move)

/-- Changes the nodes of a path one after the other, up to the first index without a node. -/
def updatePath (f : SearchNode α → SearchNode α) : List Nat → Tree α → Except Fault Unit × Tree α
  | [], t => (.ok (), t)
  | i :: rest, t =>
    if i < t.size then updatePath f rest (t.update i f) else (.error .noSuchIndex, t)

end Tree

end EGraphSearch

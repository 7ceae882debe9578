import EGraphSearch.Tree.Basic

/-!
# Values going back up the tree

A finished playout adds one visit and its value to every node on its path.  A playout in flight
reserves its path with virtual loss, which is taken back before the value arrives.
-/

set_option autoImplicit false

namespace EGraphSearch

variable {α : Type} [Scalar α]

namespace SearchNode

/-- One more playout of the given value. -/
def credit (value : α) (n : SearchNode α) : SearchNode α :=
  { n with visits := n.visits + 1, total := n.total + value }

def addLoss (amount : α) (n : SearchNode α) : SearchNode α :=
  { n with virtualLoss := n.virtualLoss + amount }

/-- Virtual loss never sinks below zero. -/
def removeLoss (amount : α) (n : SearchNode α) : SearchNode α :=
  { n with virtualLoss := Scalar.max Scalar.zero (n.virtualLoss - amount) }

end SearchNode

namespace Tree

def creditPath (value : α) (path : List Nat) (t : Tree α) : Except Fault Unit × Tree α :=
  updatePath (SearchNode.credit value) path t

def creditAncestors (value : α) (i : Nat) (t : Tree α) : Except Fault Unit × Tree α :=
  match t.pathToRoot i with
  | .error fault => (.error fault, t)
  | .ok path => t.creditPath value path

def addLoss (amount : α) (path : List Nat) (t : Tree α) : Except Fault Unit × Tree α :=
  updatePath (SearchNode.addLoss amount) path t

def removeLoss (amount : α) (path : List Nat) (t : Tree α) : Except Fault Unit × Tree α :=
  updatePath (SearchNode.removeLoss amount) path t

end Tree

end EGraphSearch

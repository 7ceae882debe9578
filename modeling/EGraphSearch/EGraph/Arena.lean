import EGraphSearch.Label
import EGraphSearch.EGraph.Level

/-!
# The arena of an e-graph

Classes and nodes are numbered from zero in the order in which they were given, and every
structural question is answered on these numbers.  Labels meet numbers only at the boundary.
`WellFormed` says what the numbering promises.
-/

set_option autoImplicit false

namespace EGraphSearch

structure ENode where
  id : Label
  op : Label
  children : List Label

structure EClass where
  id : Label
  nodes : List Label

namespace ENode

def arity (n : ENode) : Nat := n.children.length

def render (n : ENode) : String :=
  "ENode(" ++ n.id.render ++ ", op=" ++ n.op.render ++ ", children=" ++
    Label.renderList n.children ++ ")"

/-- Equality of nodes up to the spelling of their labels. -/
def same (m n : ENode) : Bool := m.id == n.id && m.op == n.op && m.children == n.children

end ENode

namespace EClass

def size (c : EClass) : Nat := c.nodes.length

def render (c : EClass) : String :=
  "EClass(" ++ c.id.render ++ ", nodes=" ++ Label.renderList c.nodes ++ ")"

end EClass

structure Arena where
  classIds : Array Label
  nodeIds : Array Label
  ops : Array Label
  /-- The child classes of each node, in order and with repetitions. -/
  children : Array (List Nat)
  owner : Array Nat
  members : Array (List Nat)
  root : Nat

namespace Arena

def numClasses (a : Arena) : Nat := a.classIds.size

def numNodes (a : Arena) : Nat := a.nodeIds.size

def classLabel (a : Arena) (c : Nat) : Label := a.classIds.getD c .none

def nodeLabel (a : Arena) (n : Nat) : Label := a.nodeIds.getD n .none

def opOf (a : Arena) (n : Nat) : Label := a.ops.getD n .none

def childrenOf (a : Arena) (n : Nat) : List Nat := a.children.getD n []

def ownerOf (a : Arena) (n : Nat) : Nat := a.owner.getD n a.numClasses

def membersOf (a : Arena) (c : Nat) : List Nat := a.members.getD c []

/-- The classes that the members of a class refer to, in enumeration order. -/
def dependencies (a : Arena) (c : Nat) : List Nat := (a.membersOf c).flatMap a.childrenOf

/-- What the numbering promises: distinct names, references that exist, and every node a member
of exactly the class that owns it. -/
structure WellFormed (a : Arena) : Prop where
  ops_size : a.ops.size = a.numNodes
  children_size : a.children.size = a.numNodes
  owner_size : a.owner.size = a.numNodes
  members_size : a.members.size = a.numClasses
  root_lt : a.root < a.numClasses
  child_lt : ∀ n < a.numNodes, ∀ c ∈ a.childrenOf n, c < a.numClasses
  owner_lt : ∀ n < a.numNodes, a.ownerOf n < a.numClasses
  member_lt : ∀ c < a.numClasses, ∀ n ∈ a.membersOf c, n < a.numNodes
  member_iff : ∀ c < a.numClasses, ∀ n < a.numNodes, n ∈ a.membersOf c ↔ a.ownerOf n = c
  members_nodup : ∀ c < a.numClasses, (a.membersOf c).Nodup
  classIds_distinct : a.classIds.toList.Pairwise fun x y => (x == y) = false
  nodeIds_distinct : a.nodeIds.toList.Pairwise fun x y => (x == y) = false

end Arena

end EGraphSearch

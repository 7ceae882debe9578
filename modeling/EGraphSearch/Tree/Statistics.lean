import EGraphSearch.EGraph.Basic
import EGraphSearch.Tree.Basic

/-!
# Statistics of a search tree

How many nodes there are of each status, and how often and how well each node of the e-graph was
chosen for its class, summed over all places of the tree where the class was resolved.
-/

set_option autoImplicit false

namespace EGraphSearch

structure Usage (α : Type) where
  visits : Nat
  total : α

def Usage.mean {α : Type} [Scalar α] (u : Usage α) : α :=
  if u.visits = 0 then Scalar.zero else u.total / Scalar.ofNat u.visits

namespace Tree

variable {α : Type} [Scalar α]

def countStatus (t : Tree α) (s : Status) : Nat := t.nodes.toList.countP fun n => n.status == s

def maxDepth (t : Tree α) : Nat := (t.nodes.toList.map (·.depth)).foldl Nat.max 0

def addUsage (stats : Table (Table (Usage α))) (n : SearchNode α) : Table (Table (Usage α)) :=
  let ofClass := (stats.get? n.cls).getD []
  let usage := (ofClass.get? n.node).getD ⟨0, Scalar.zero⟩
  stats.put n.cls
    (ofClass.put n.node ⟨usage.visits + n.visits, usage.total + n.total⟩)

/-- The usage of every choice, by class and node, in the order of the tree. -/
def usageByClass (t : Tree α) : Table (Table (Usage α)) :=
  (t.nodes.toList.drop 1).foldl addUsage []

/-- The usage of every choice for the classes of an e-graph, in the order of the e-graph. -/
def classStatistics (t : Tree α) (g : EGraph) : Table (Table (Usage α)) :=
  let stats := t.usageByClass
  g.classIds.toList.filterMap fun cls => (stats.get? cls).map fun usage => (cls, usage)

end Tree

end EGraphSearch

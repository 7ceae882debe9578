import EGraphSearch.EGraph.Basic

/-!
# The bipartite view

An e-graph as one directed graph: every class points to its nodes, every node to its child
classes.  Vertices come in the order in which they are first mentioned, edges in the order of
their tails, and parallel edges count once.
-/

set_option autoImplicit false

namespace EGraphSearch

inductive Vertex where
  | cls (index : Nat)
  | node (index : Nat)
  deriving DecidableEq, Repr

namespace EGraph

/-- A class with its nodes and their children, as the view is built. -/
def mentionsOf (g : EGraph) (c : Nat) : List Vertex :=
  .cls c :: (g.membersOf c).flatMap fun n => .node n :: (g.childrenOf n).map .cls

def vertices (g : EGraph) : List Vertex :=
  ((List.range g.numClasses).flatMap g.mentionsOf).eraseDups

def successors (g : EGraph) : Vertex → List Vertex
  | .cls c => (g.membersOf c).map .node
  | .node n => ((g.childrenOf n).eraseDups).map .cls

def edges (g : EGraph) : List (Vertex × Vertex) :=
  g.vertices.flatMap fun v => (g.successors v).map fun w => (v, w)

end EGraph

end EGraphSearch

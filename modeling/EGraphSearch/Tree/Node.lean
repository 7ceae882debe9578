import EGraphSearch.Label
import EGraphSearch.Scalar

/-!
# Nodes of the search tree

There is one node per sequence of moves that the search has tried.  A node knows the move that led
to it, its children by move in the order of their discovery, and the statistics of the playouts
that went through it.
-/

set_option autoImplicit false

namespace EGraphSearch

inductive Status where
  | unexpanded
  | partiallyExpanded
  | fullyExpanded
  | terminal
  | deadEnd
  deriving DecidableEq, Repr

def Status.name : Status → String
  | unexpanded => "unexpanded"
  | partiallyExpanded => "partially_expanded"
  | fullyExpanded => "fully_expanded"
  | terminal => "terminal"
  | deadEnd => "dead_end"

def Status.all : List Status :=
  [.unexpanded, .partiallyExpanded, .fullyExpanded, .terminal, .deadEnd]

structure SearchNode (α : Type) where
  parent : Option Nat
  /-- The node of the e-graph that was chosen to get here. -/
  move : Option Nat
  /-- The class that the move resolved; the root has none. -/
  cls : Label
  /-- The name of the chosen node; the root has none. -/
  node : Label
  depth : Nat
  /-- The tree node behind each tried move, in order of discovery. -/
  children : List (Nat × Nat)
  visits : Nat
  /-- The sum of the values of these playouts. -/
  total : α
  /-- The weight of the playouts in flight through this node. -/
  virtualLoss : α
  /-- The number of legal moves, once the node has been visited. -/
  numMoves : Option Nat
  /-- Whether the moves up to here make a complete term. -/
  terminal : Bool

namespace SearchNode

variable {α : Type} [Scalar α]

def fresh (parent move : Option Nat) (cls node : Label) (depth : Nat) : SearchNode α :=
  { parent := parent, move := move, cls := cls, node := node, depth := depth
    children := [], visits := 0, total := Scalar.zero, virtualLoss := Scalar.zero
    numMoves := none, terminal := false }

def root : SearchNode α := fresh none none .none .none 0

instance : Inhabited (SearchNode α) := ⟨root⟩

/-- The average value of the playouts through this node, zero before the first. -/
def mean (n : SearchNode α) : α :=
  if n.visits = 0 then Scalar.zero else n.total / Scalar.ofNat n.visits

omit [Scalar α]

def status (n : SearchNode α) : Status :=
  match n.numMoves with
  | none => .unexpanded
  | some 0 => if n.terminal then .terminal else .deadEnd
  | some moves =>
    if n.children.isEmpty then .unexpanded
    else if n.children.length < moves then .partiallyExpanded
    else .fullyExpanded

def isLeaf (n : SearchNode α) : Bool := n.children.isEmpty

def isFullyExpanded (n : SearchNode α) : Bool :=
  n.numMoves.any fun moves => moves ≤ n.children.length

def child? (n : SearchNode α) (move : Nat) : Option Nat :=
  (n.children.find? fun entry => entry.1 == move).map Prod.snd

end SearchNode

/-- The text of a node with its place in the tree. -/
def SearchNode.render (n : SearchNode Float) (index : Nat) : String :=
  "SearchNode(#" ++ toString index ++ ", " ++ n.cls.render ++ "->" ++ n.node.render ++
    ", visits=" ++ toString n.visits ++ ", Q=" ++ Decimal.fixed 3 n.mean ++ ", " ++
    n.status.name ++ ")"

end EGraphSearch

import EGraphSearch.EGraph.Levels
import EGraphSearch.Fault
import EGraphSearch.Table

/-!
# E-graphs

An e-graph is an arena whose root class has an acyclic term, together with the levels of its
classes and nodes.  `EGraph.build` is the only way to make one from records: it checks the
structure first and the root's level last.
-/

set_option autoImplicit false

namespace EGraphSearch

structure EGraph extends Arena where
  levels : Levels

namespace EGraph

/-! ## Construction -/

/-- Numbers the classes; no two may share a name. -/
def indexClasses : List EClass → Array Label → Except Malformation (Array Label)
  | [], ids => .ok ids
  | c :: rest, ids =>
    match Label.position? ids c.id with
    | some _ => .error (.duplicateClass c.id)
    | none => indexClasses rest (ids.push c.id)

def resolveChildren (classIds : Array Label) (node : Label) :
    List Label → Except Malformation (List Nat)
  | [] => .ok []
  | child :: rest =>
    match Label.position? classIds child with
    | none => .error (.unknownChild node child)
    | some c => (resolveChildren classIds node rest).map (c :: ·)

/-- The numbered nodes: their names, and the child classes of each. -/
structure NodeIndex where
  ids : Array Label := #[]
  ops : Array Label := #[]
  children : Array (List Nat) := #[]

/-- Numbers the nodes; no two may share a name, and every child must be a class. -/
def indexNodes (classIds : Array Label) : List ENode → NodeIndex → Except Malformation NodeIndex
  | [], index => .ok index
  | n :: rest, index =>
    match Label.position? index.ids n.id with
    | some _ => .error (.duplicateNode n.id)
    | none =>
      match resolveChildren classIds n.id n.children with
      | .error cause => .error cause
      | .ok children =>
        indexNodes classIds rest
          { ids := index.ids.push n.id
            ops := index.ops.push n.op
            children := index.children.push children }

/-- Hands the nodes of one class to it; `owner` says which nodes are taken. -/
def claimMembers (nodeIds : Array Label) (cls : Label) (c : Nat) :
    List Label → Array (Option Nat) → Except Malformation (List Nat × Array (Option Nat))
  | [], owner => .ok ([], owner)
  | node :: rest, owner =>
    match Label.position? nodeIds node with
    | none => .error (.unknownMember cls node)
    | some n =>
      match owner.getD n none with
      | some _ => .error (.sharedMember node)
      | none =>
        match claimMembers nodeIds cls c rest (owner.setIfInBounds n (some c)) with
        | .error cause => .error cause
        | .ok (members, owner) => .ok (n :: members, owner)

/-- Hands the nodes of all classes to them, the first class having the number `c`. -/
def claimAll (nodeIds : Array Label) :
    List EClass → Nat → Array (Option Nat) → Array (List Nat) →
      Except Malformation (Array (List Nat) × Array (Option Nat))
  | [], _, owner, members => .ok (members, owner)
  | cls :: rest, c, owner, members =>
    match claimMembers nodeIds cls.id c cls.nodes owner with
    | .error cause => .error cause
    | .ok (own, owner) => claimAll nodeIds rest (c + 1) owner (members.push own)

def unowned (nodeIds : Array Label) (owner : Array (Option Nat)) : List Label :=
  ((List.range nodeIds.size).filter fun n => (owner.getD n none).isNone).map
    fun n => nodeIds.getD n .none

def arrange (classes : List EClass) (nodes : List ENode) (root : Label) :
    Except Malformation Arena := do
  let classIds ← indexClasses classes #[]
  let index ← indexNodes classIds nodes {}
  let (members, owner) ←
    claimAll index.ids classes 0 (Array.replicate index.ids.size none) #[]
  match unowned index.ids owner with
  | first :: rest => .error (.orphans (first :: rest))
  | [] =>
    match Label.position? classIds root with
    | none => .error (.unknownRoot root)
    | some r =>
      return {
        classIds := classIds
        nodeIds := index.ids
        ops := index.ops
        children := index.children
        owner := owner.map fun c => c.getD classIds.size
        members := members
        root := r }

/-- The e-graph of an arena, provided that its root can be extracted; `root` is the name by which
the caller asked for it. -/
def ofArena (a : Arena) (root : Label) : Except Malformation EGraph :=
  let levels := Levels.ofArena a
  match levels.classLevel a.root with
  | .finite _ => .ok { a with levels := levels }
  | .infinite => .error (.rootNotExtractable root)

def build (classes : List EClass) (nodes : List ENode) (root : Label) :
    Except Malformation EGraph := do
  ofArena (← arrange classes nodes root) root

/-! ## Tables of classes -/

/-- The e-graph of a table from classes to their nodes. -/
def ofTable (classes : Table (List ENode)) (root : Label) : Except Malformation EGraph :=
  build (classes.map fun (id, nodes) => ⟨id, nodes.map ENode.id⟩)
    (classes.flatMap Prod.snd) root

def nodeRecord (g : EGraph) (n : Nat) : ENode :=
  ⟨g.nodeLabel n, g.opOf n, (g.childrenOf n).map g.classLabel⟩

def toTable (g : EGraph) : Table (List ENode) :=
  (List.range g.numClasses).map fun c => (g.classLabel c, (g.membersOf c).map g.nodeRecord)

def sameNodes : List ENode → List ENode → Bool
  | [], [] => true
  | m :: ms, n :: ns => m.same n && sameNodes ms ns
  | _, _ => false

/-- Whether the e-graph rebuilt from its table has the same table. -/
def survivesRebuilding (g : EGraph) : Except Malformation Bool :=
  (ofTable g.toTable (g.classLabel g.root)).map fun rebuilt =>
    rebuilt.toTable.same sameNodes g.toTable

/-! ## Questions by name -/

def classLevel (g : EGraph) (c : Nat) : Level := g.levels.classLevel c

def nodeLevel (g : EGraph) (n : Nat) : Level := g.levels.nodeLevel n

def rootLabel (g : EGraph) : Label := g.classLabel g.root

def classIndex (g : EGraph) (cls : Label) : Except Fault Nat :=
  match Label.position? g.classIds cls with
  | some c => .ok c
  | none => .error (.unknownClass cls)

def nodeIndex (g : EGraph) (node : Label) : Except Fault Nat :=
  match Label.position? g.nodeIds node with
  | some n => .ok n
  | none => .error (.unknownNode node)

def nodesOf (g : EGraph) (cls : Label) : Except Fault (List Label) :=
  (g.classIndex cls).map fun c => (g.membersOf c).map g.nodeLabel

def childLabels (g : EGraph) (node : Label) : Except Fault (List Label) :=
  (g.nodeIndex node).map fun n => (g.childrenOf n).map g.classLabel

def opLabel (g : EGraph) (node : Label) : Except Fault Label :=
  (g.nodeIndex node).map g.opOf

def classOf (g : EGraph) (node : Label) : Except Fault Label :=
  (g.nodeIndex node).map fun n => g.classLabel (g.ownerOf n)

def levelOf (g : EGraph) (cls : Label) : Except Fault Level :=
  (g.classIndex cls).map g.classLevel

def isExtractable (g : EGraph) (cls : Label) : Except Fault Bool :=
  (g.levelOf cls).map Level.isFinite

def render (g : EGraph) : String :=
  "EGraph(" ++ toString g.numClasses ++ " classes, " ++ toString g.numNodes ++
    " nodes, root=" ++ g.rootLabel.render ++ ")"

end EGraph

end EGraphSearch

import EGraphSearch.Digraph
import EGraphSearch.EGraph.Basic

/-!
# Terms

A term assigns a node to each of its classes.  Classes that are used more than once appear once:
the term is a graph, and unfolding it gives a tree.  Any table may be called a term; `validate`
says which of them are acyclic assignments that hang together from the root.
-/

set_option autoImplicit false

namespace EGraphSearch

structure Term where
  assignment : Table Label

inductive Expr where
  | node (op : Label) (args : List Expr)

namespace Term

def size (t : Term) : Nat := t.assignment.length

/-- Equality of terms over one e-graph: the order of resolution does not matter. -/
def same (t u : Term) : Bool := t.assignment.same (· == ·) u.assignment

def nodeOf (t : Term) (cls : Label) : Except Fault Label :=
  match t.assignment.get? cls with
  | some node => .ok node
  | none => .error (.missingKey cls)

def childrenOf (g : EGraph) (t : Term) (cls : Label) : Except Fault (List Label) := do
  g.childLabels (← t.nodeOf cls)

def ops (g : EGraph) (t : Term) : Except Fault (List Label) :=
  t.assignment.values.mapM g.opLabel

def renderEntries (entries : Table Label) : String :=
  "\x7b" ++ ", ".intercalate (entries.map fun (cls, node) => cls.render ++ ": " ++ node.render)
    ++ "\x7d"

def render (g : EGraph) (t : Term) : String :=
  if t.size > 16 then
    "Term(" ++ toString t.size ++ " classes, root=" ++ g.rootLabel.render ++ ")"
  else "Term(" ++ renderEntries t.assignment ++ ")"

/-! ## The dependency graph -/

/-- The classes that a term mentions, in order of first mention, and for each assigned one the
positions of the children of its node, with repetitions. -/
structure Dependencies where
  classes : Array Label := #[]
  uses : Array (Option (List Nat)) := #[]

namespace Dependencies

def mention (d : Dependencies) (cls : Label) : Except Fault (Nat × Dependencies) :=
  match cls with
  | .none => .error (.outOfRange .namelessVertex)
  | _ =>
    match Label.position? d.classes cls with
    | some v => .ok (v, d)
    | none => .ok (d.classes.size, { classes := d.classes.push cls, uses := d.uses.push none })

def mentionAll : List Label → Dependencies → Except Fault (List Nat × Dependencies)
  | [], d => .ok ([], d)
  | cls :: rest, d => do
    let (v, d) ← d.mention cls
    let (vs, d) ← mentionAll rest d
    return (v :: vs, d)

def addEntry (g : EGraph) (d : Dependencies) (entry : Label × Label) :
    Except Fault Dependencies := do
  let (cls, node) := entry
  let n ← g.nodeIndex node
  let (v, d) ← d.mention cls
  let (children, d) ← mentionAll ((g.childrenOf n).map g.classLabel) d
  return { d with uses := d.uses.setIfInBounds v (some children) }

def usesOf (d : Dependencies) (v : Nat) : Option (List Nat) := d.uses.getD v none

def label (d : Dependencies) (v : Nat) : Label := d.classes.getD v .none

def digraph (d : Dependencies) : Digraph :=
  ⟨d.uses.map fun children => (children.getD []).eraseDups⟩

def bottomUp (d : Dependencies) : Except Fault (List Nat) :=
  match d.digraph.topologicalOrder? with
  | some order => .ok order.reverse
  | none => .error .cyclicGraph

/-- A quantity computed for every vertex from those of its children; `missing` is never used for
a vertex whose children come first. -/
def fold {α : Type} (d : Dependencies) (missing : α) (combine : Label → List α → Except Fault α) :
    Except Fault (Array α) := do
  let order ← d.bottomUp
  order.foldlM
    (fun results v =>
      match d.usesOf v with
      | none => .error (.missingKey (d.label v))
      | some children => do
        let result ← combine (d.label v) (children.map fun w => results.getD w missing)
        return results.setIfInBounds v result)
    (Array.replicate d.classes.size missing)

def lookup {α : Type} (d : Dependencies) (results : Array α) (cls : Label) : Except Fault α :=
  match Label.position? d.classes cls with
  | none => .error (.missingKey cls)
  | some v =>
    match results[v]? with
    | none => .error (.missingKey cls)
    | some result => .ok result

end Dependencies

def dependencies (g : EGraph) (t : Term) : Except Fault Dependencies :=
  t.assignment.foldlM (Dependencies.addEntry g) {}

/-- The mentioned classes, each with its node and operator if it is assigned, and the edges. -/
def describe (g : EGraph) (t : Term) :
    Except Fault (List (Label × Option (Label × Label)) × List (Label × Label)) := do
  let d ← t.dependencies g
  let vertices ← d.classes.toList.mapM fun cls =>
    match t.assignment.get? cls with
    | none => return (cls, none)
    | some node => return (cls, some (node, ← g.opLabel node))
  let edges := (List.range d.classes.size).flatMap fun v =>
    (d.digraph.next v).map fun w => (d.label v, d.label w)
  return (vertices, edges)

def treeSize (g : EGraph) (t : Term) : Except Fault Nat := do
  let d ← t.dependencies g
  let sizes ← d.fold 0 fun _ children => .ok (1 + total children)
  d.lookup sizes g.rootLabel

def toExpr (g : EGraph) (t : Term) (cls : Option Label) : Except Fault Expr := do
  let d ← t.dependencies g
  let exprs ← d.fold (.node .none []) fun label children => do
    return .node (← g.opLabel (← t.nodeOf label)) children
  d.lookup exprs (cls.getD g.rootLabel)

/-! ## Validity -/

/-- An entry is sound if its node is a member of its class and all children are assigned. -/
def validateEntry (g : EGraph) (t : Term) (entry : Label × Label) : Except Fault Unit := do
  let (cls, node) := entry
  if (← g.classOf node).differs cls then
    throw (.violation (.notMember node cls))
  match (← g.childLabels node).find? fun child => !t.assignment.contains child with
  | some child => throw (.violation (.unassignedChild child))
  | none => return ()

/-- Checks that the term is a closed acyclic assignment, all of it in use. -/
def validate (g : EGraph) (t : Term) : Except Fault Unit := do
  if !t.assignment.contains g.rootLabel then
    throw (.violation .rootUnassigned)
  t.assignment.forM (t.validateEntry g)
  let d ← t.dependencies g
  if !d.digraph.isAcyclic then
    let cycle := d.digraph.findCycle?.getD []
    throw (.violation (.cyclic (cycle.map fun (v, w) => (d.label v, d.label w))))
  let reached := d.digraph.reachableFrom ((Label.position? d.classes g.rootLabel).getD 0)
  let unreachable := t.assignment.keys.filter fun cls =>
    !((Label.position? d.classes cls).any reached.contains)
  match unreachable with
  | [] => return ()
  | classes => throw (.violation (.unreachable classes))

end Term

end EGraphSearch

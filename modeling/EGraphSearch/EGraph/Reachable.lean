import EGraphSearch.EGraph.Basic

/-!
# Reachable classes

Breadth first from a class through the children of all its members.  The list of classes found so
far is its own queue: position after position, the classes not yet listed are appended.
-/

set_option autoImplicit false

namespace EGraphSearch.EGraph

def appendFresh (found : List Nat) (c : Nat) : List Nat :=
  if found.contains c then found else found ++ [c]

def expandAt (g : EGraph) (found : List Nat) (position : Nat) : List Nat :=
  match found[position]? with
  | none => found
  | some c => (g.dependencies c).foldl appendFresh found

/-- The classes reachable from a class, nearest first.  No class is listed twice, so there are at
most as many positions to expand as there are classes. -/
def reachableFrom (g : EGraph) (start : Nat) : List Nat :=
  (List.range g.numClasses).foldl g.expandAt [start]

def reachableClasses (g : EGraph) (start : Option Label) : Except Fault (List Label) :=
  match start with
  | none => .ok ((g.reachableFrom g.root).map g.classLabel)
  | some cls => (g.classIndex cls).map fun c => (g.reachableFrom c).map g.classLabel

/-- The classes reachable from a class that callers name.  The empty label stands for the root, so
it names no class here, not even one that is called by it. -/
def reachableFromLabel (g : EGraph) : Label → Except Fault (List Label)
  | .none => g.reachableClasses none
  | cls => g.reachableClasses (some cls)

end EGraphSearch.EGraph

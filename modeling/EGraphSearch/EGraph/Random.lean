import EGraphSearch.EGraph.Basic
import EGraphSearch.Random.Draws

/-!
# Random e-graphs

Random e-graphs with cycles in which every class can be extracted: the first node of a class only
refers to later classes, the other nodes refer to any class, and now and then to an earlier one.
-/

set_option autoImplicit false

namespace EGraphSearch

structure RandomShape where
  numClasses : Int := 12
  maxNodes : Int := 3
  maxArity : Int := 2
  backEdgeProbability : Number := .float (Binary64.ofDecimal 3 (-1))

namespace RandomShape

def wholeOption (value : Datum) : Except Fault Int :=
  match value with
  | .number n =>
    match n.int? with
    | some i => .ok i
    | none => .error (.mismatch (.wholeNumber value.kindName))
  | _ => .error (.mismatch (.wholeNumber value.kindName))

def setOption (shape : RandomShape) (name : String) (value : Datum) : Except Fault RandomShape :=
  match name with
  | "num_classes" => (wholeOption value).map fun i => { shape with numClasses := i }
  | "max_nodes" => (wholeOption value).map fun i => { shape with maxNodes := i }
  | "max_arity" => (wholeOption value).map fun i => { shape with maxArity := i }
  | "back_edge_prob" =>
    match value with
    | .number n => .ok { shape with backEdgeProbability := n }
    | _ => .error (.mismatch (.order "<" "float" value.kindName))
  | _ => .error (.mismatch (.unknownOption "random_egraph" name))

def ofOptions (options : List (String × Datum)) : Except Fault RandomShape :=
  options.foldlM (fun shape (name, value) => shape.setOption name value) {}

end RandomShape

namespace EGraph

variable {ρ : Type} [RangeDraws ρ]

def randomClassLabel (k : Nat) : Label := .text ("c" ++ toString k)

def randomNodeLabel (k j : Nat) : Label := .text ("n" ++ toString k ++ "_" ++ toString j)

abbrev Drawing (ρ : Type) := ExceptT Fault (StateM ρ)

def drawBetween (low high : Int) : Drawing ρ Int := fun source => RangeDraws.between low high source

def drawSample (population : Int) (count : Nat) : Drawing ρ (List Nat) :=
  fun source => RangeDraws.sample population count source

def drawUnit : Drawing ρ Float := fun source =>
  let (u, source) := RangeDraws.unit source
  (.ok u, source)

/-- So many members of the population; the source is not asked for none. -/
def drawMembers (population arity : Int) : Drawing ρ (List Nat) :=
  if arity = 0 then pure [] else drawSample population arity.toNat

/-- The children of the first node of class `k`: classes after `k`. -/
def forwardChildren (shape : RandomShape) (k : Nat) : Drawing ρ (List Nat) := do
  let later : Int := shape.numClasses - k - 1
  if later ≤ 0 then return []
  let arity ← drawBetween 0 (shape.maxArity + 1)
  return (← drawMembers later arity).map (k + 1 + ·)

/-- The children of any other node of class `k`: any classes, and by chance one before `k`. -/
def freeChildren (shape : RandomShape) (k : Nat) : Drawing ρ (List Nat) := do
  let arity ← drawBetween 0 (shape.maxArity + 1)
  let children ← drawMembers shape.numClasses arity
  if k = 0 then return children
  let chance ← drawUnit
  if Number.below (.float chance) shape.backEdgeProbability then
    let back ← drawBetween 0 k
    return children ++ [back.toNat]
  else return children

def randomChildren (shape : RandomShape) (k j : Nat) : Drawing ρ (List Nat) :=
  if j = 0 then forwardChildren shape k else freeChildren shape k

def randomNode (shape : RandomShape) (k j : Nat) : Drawing ρ ENode := do
  let children ← randomChildren shape k j
  return {
    id := randomNodeLabel k j
    op := .text ("op" ++ toString j)
    children := children.map randomClassLabel }

def randomClass (shape : RandomShape) (k : Nat) : Drawing ρ (Label × List ENode) := do
  let count ← drawBetween 1 (shape.maxNodes + 1)
  let nodes ← (List.range count.toNat).mapM (randomNode shape k)
  return (randomClassLabel k, nodes)

def randomTable (shape : RandomShape) : Drawing ρ (Table (List ENode)) :=
  (List.range shape.numClasses.toNat).mapM (randomClass shape)

/-- A random e-graph, and the source after the last draw. -/
def random (shape : RandomShape) (source : ρ) : Except Fault (EGraph × ρ) :=
  match randomTable shape source with
  | (.error fault, _) => .error fault
  | (.ok table, source) =>
    match ofTable table (randomClassLabel 0) with
    | .error cause => .error (.malformed cause)
    | .ok g => .ok (g, source)

end EGraph

end EGraphSearch

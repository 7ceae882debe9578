import EGraphSearch.Oracle.Basic

/-!
# Ready-made oracles

The size of a term, counted with or without sharing, and oracles written down as data: a constant,
a sequence of answers, a list of cases, and a sum of node weights.  Their only state is the number
of calls made so far.
-/

set_option autoImplicit false

namespace EGraphSearch

def nodeCountCost (t : Term) : Float := Binary64.ofNat t.size

/-- The size of the term unfolded as a tree. -/
def treeSizeCost (g : EGraph) (t : Term) : Except Fault Float := do
  match Binary64.ofInt? (← t.treeSize g) with
  | some x => return x
  | none => throw .tooLarge

inductive SizeMeasure where
  | nodeCount
  | treeSize

namespace SizeMeasure

def cost (m : SizeMeasure) (g : EGraph) (t : Term) : Except Fault Float :=
  match m with
  | nodeCount => .ok (nodeCountCost t)
  | treeSize => treeSizeCost g t

def ofName? : String → Option SizeMeasure
  | "node_count" => some nodeCount
  | "tree_size" => some treeSize
  | _ => none

def name : SizeMeasure → String
  | nodeCount => "node_count"
  | treeSize => "tree_size"

end SizeMeasure

structure PricedCase where
  assignment : Table Label
  /-- Whether the whole assignment has to match, or only these entries of it. -/
  exactly : Bool
  response : Response

inductive Pricing where
  | size (measure : SizeMeasure)
  | constant (response : Response)
  | sequence (responses : List Response)
  | cases (cases : List PricedCase) (otherwise : Response)
  | weights (base : Option SizeMeasure) (nodes : Table Number) (others : Number)

namespace Pricing

def sizeResponse (m : SizeMeasure) (g : EGraph) (t : Term) : Response :=
  match m.cost g t with
  | .ok x => .answered (.number (.float x))
  | .error fault => .raised (.fault fault)

/-- Adds the weights of the chosen nodes, in order of resolution. -/
def addWeights (nodes : Table Number) (others : Number) (sum : Number) :
    List Label → Option Number
  | [] => some sum
  | node :: rest =>
    match sum.add? ((nodes.get? node).getD others) with
    | some sum => addWeights nodes others sum rest
    | none => none

def weightResponse (base : Option SizeMeasure) (nodes : Table Number) (others : Number)
    (g : EGraph) (t : Term) : Response :=
  let start : Except Fault Number :=
    match base with
    | none => .ok 0
    | some m => (m.cost g t).map .float
  match start with
  | .error fault => .raised (.fault fault)
  | .ok sum =>
    match addWeights nodes others sum t.assignment.values with
    | some total => .answered (.number total)
    | none => .raised (.fault .tooLarge)

def PricedCase.applies (c : PricedCase) (t : Term) : Bool :=
  if c.exactly then c.assignment.same (· == ·) t.assignment
  else c.assignment.within (· == ·) t.assignment

def response (p : Pricing) (calls : Nat) (g : EGraph) (t : Term) : Response :=
  match p with
  | size m => sizeResponse m g t
  | constant r => r
  | sequence rs => rs.getD (calls % rs.length) (.answered .null)
  | cases cs otherwise =>
    match cs.find? fun c => PricedCase.applies c t with
    | some c => c.response
    | none => otherwise
  | weights base nodes others => weightResponse base nodes others g t

/-- The oracle that answers by the pricing and counts its calls. -/
def oracle (p : Pricing) : Oracle Nat :=
  ⟨fun g t calls => (p.response calls g t, calls + 1)⟩

end Pricing

end EGraphSearch

import EGraphSearch.Number.Decimal
import EGraphSearch.Sample.Comparison
import EGraphSearch.Search.Event
import EGraphSearch.Yaml.Writer

/-!
# Findings of the budget experiment

What is found out about one budget, and how it is reported: as a line of the journal and as an entry
of the results file.
-/

set_option autoImplicit false

namespace EGraphSearch.Experiment

/-- How a search with some budget compares with as many independent rollouts. -/
structure Finding where
  /-- The mean of the best costs of the searches, if there is any such cost; the same for the
  rollouts. -/
  searchMean : Option Float
  baselineMean : Option Float
  probability : Float
  effectSize : Float
  significant : Bool

namespace Finding

def meanOf (costs : List Float) : Option Float :=
  if costs.isEmpty then none else some (Sample.mean costs)

def ofCosts (least : Number) (searched sampled : List Float) : Except Fault Finding :=
  (Sample.compare "mannwhitney" least searched sampled).map fun comparison =>
    { searchMean := meanOf searched
      baselineMean := meanOf sampled
      probability := comparison.probability
      effectSize := comparison.effectSize
      significant := comparison.significant }

def text (budget : Int) (f : Finding) : String :=
  "Budget " ++ toString budget ++ ": MCTS " ++ optionText Decimal.shortest f.searchMean ++
    ", best-of-N " ++ optionText Decimal.shortest f.baselineMean ++
    ", p=" ++ Decimal.fixed 4 f.probability ++ ", d=" ++ Decimal.fixed 3 f.effectSize

def meanDatum : Option Float → Datum
  | none => .null
  | some mean => .number (.float mean)

def entries (f : Finding) : List (String × Datum) :=
  [("mcts_mean", meanDatum f.searchMean), ("baseline_mean", meanDatum f.baselineMean),
   ("p_value", .number (.float f.probability)), ("effect_size", .number (.float f.effectSize)),
   ("significant", .number (.truth f.significant))]

def toDatum (f : Finding) : Datum := .map (f.entries.map fun (name, value) => (.text name, value))

end Finding

/-- The findings of each budget, in the order in which the budgets came up first. -/
abbrev Findings := List (Int × Finding)

/-- Writes down the finding of a budget in the place of an older one. -/
def Findings.put : Findings → Int → Finding → Findings
  | [], budget, f => [(budget, f)]
  | (b, old) :: rest, budget, f =>
    if b = budget then (b, f) :: rest else (b, old) :: Findings.put rest budget f

def Findings.fileText (measure : String) (findings : Findings) : String :=
  Yaml.write (.map [(.text "oracle", .text measure),
    (.text "results", .map (findings.map fun (budget, f) => (.number (.int budget), f.toDatum)))])

end EGraphSearch.Experiment

import EGraphSearch.Extractor
import EGraphSearch.Sample.Comparison

/-!
# Budget trials

The best costs that extractions find under several budgets, one run for each seed.  The budget, the
seed and the collection of statistics belong to the trials, so they cannot be options as well.
-/

set_option autoImplicit false

namespace EGraphSearch

namespace Trial

def ownOptions : List String := ["max_playouts", "seed", "collect_statistics"]

def firstRepeated? : Options → Option String
  | [] => none
  | (.text name, _) :: rest => if ownOptions.contains name then some name else firstRepeated? rest
  | _ :: rest => firstRepeated? rest

def firstUnknown? : Options → Option String
  | [] => none
  | (.text name, _) :: rest =>
    if Settings.fieldNames.contains name then firstUnknown? rest else some name
  | _ :: rest => firstUnknown? rest

def settings (budget seed : Number) (options : Options) : Except Fault Settings :=
  match firstRepeated? options, firstUnknown? options with
  | some name, _ => .error (.mismatch (.repeatedOption name))
  | none, some name => .error (.mismatch (.unknownOption "ExtractorConfig.__init__" name))
  | none, none =>
    Settings.ofKnown <|
      [(.text "max_playouts", .number budget), (.text "seed", .number seed),
       (.text "collect_statistics", .number (.truth false))] ++ options

/-- The best costs of a budget, in the order of the seeds. -/
abbrev Costs := List (Option Float)

/-- The best costs of each budget, in the order of the budgets. -/
abbrev Results := List (Number × Costs)

def Results.put : Results → Number → Costs → Results
  | [], budget, costs => [(budget, costs)]
  | (b, old) :: rest, budget, costs =>
    if b.same budget then (b, costs) :: rest else (b, old) :: Results.put rest budget costs

def Results.get (results : Results) (budget : Number) : Except Fault Costs :=
  match results.find? fun entry => entry.1.same budget with
  | some (_, costs) => .ok costs
  | none => .error (.missingKey (.number budget))

structure State (σ : Type) where
  oracle : σ
  results : Results
  journal : List Remark

def trialChannel : String := "mcts_extract.comparison.budget_scaling"

def found (costs : Costs) : List Float := costs.filterMap id

def remark (budget : Number) (costs : Costs) : Remark :=
  let mean := if (found costs).isEmpty then "nan" else Decimal.fixed 4 (Sample.mean (found costs))
  ⟨.info, trialChannel,
    "Budget " ++ budget.text ++ ": mean best cost " ++ mean ++ " over " ++
      toString (found costs).length ++ " runs"⟩

variable {σ : Type}

def runOnce (g : EGraph) (oracle : Oracle σ) (options : Options) (budget seed : Number)
    (s : State σ) : Except Fault (Option Float) × State σ :=
  match (settings budget seed options).bind fun settings =>
      Extractor.make g oracle settings (.byName .null) (.byName .null) with
  | .error fault => (.error fault, s)
  | .ok extractor =>
    let (outcome, progress) := extractor.run s.oracle
    (outcome.map fun o => o.best.map Prod.snd,
      { s with
        oracle := progress.evaluator.oracle
        journal := s.journal ++ progress.journal.filterMap (Event.remark? g) })

def runSeeds (g : EGraph) (oracle : Oracle σ) (options : Options) (budget : Number) :
    List Number → State σ → Except Fault Costs × State σ
  | [], s => (.ok [], s)
  | seed :: rest, s =>
    match runOnce g oracle options budget seed s with
    | (.error fault, s) => (.error fault, s)
    | (.ok cost, s) =>
      match runSeeds g oracle options budget rest s with
      | (.error fault, s) => (.error fault, s)
      | (.ok costs, s) => (.ok (cost :: costs), s)

def runBudgets (g : EGraph) (oracle : Oracle σ) (options : Options) (seeds : List Number) :
    List Number → State σ → Except Fault Unit × State σ
  | [], s => (.ok (), s)
  | budget :: rest, s =>
    match runSeeds g oracle options budget seeds s with
    | (.error fault, s) => (.error fault, s)
    | (.ok costs, s) =>
      runBudgets g oracle options seeds rest
        { s with
          results := s.results.put budget costs
          journal := s.journal ++ [remark budget costs] }

/-- The trials of all budgets and seeds; one oracle serves all runs. -/
def run (g : EGraph) (oracle : Oracle σ) (start : σ) (budgets seeds : List Number)
    (options : Options) : Except Fault Unit × State σ :=
  runBudgets g oracle options seeds budgets ⟨start, [], []⟩

def compare (results : Results) (small large least : Number) :
    Except Fault Sample.Comparison := do
  let candidate ← results.get large
  let baseline ← results.get small
  Sample.compare "mannwhitney" least (found candidate) (found baseline)

end Trial

end EGraphSearch

import EGraphSearch.Experiment.Arguments

/-!
# Help on the budget experiment
-/

set_option autoImplicit false

namespace EGraphSearch.Experiment

def Flag.purpose : Flag → String
  | help => "Show this text and stop"
  | numClasses => "E-classes in the generated e-graph"
  | backEdgeProbability => "Probability of a cycle-creating back edge"
  | graphSeed => "Seed for the generated e-graph"
  | settingsPath => "YAML extractor config"
  | measure => "Built-in cost oracle: node_count or tree_size"
  | budgets => "Playout budgets, one or more"
  | numSeeds => "Independent runs per budget"
  | outputPath => "Write results to this YAML file"
  | journalPath => "Log file"

/-- One line about an option, the purposes below each other. -/
def Flag.helpLine (flag : Flag) : String :=
  let padding := String.ofList (List.replicate (20 - flag.name.length) ' ')
  "  " ++ flag.name ++ padding ++ flag.purpose

def helpLines : List String :=
  ["Compare MCTS extraction with best-of-N", "", "options:"] ++ Flag.all.map Flag.helpLine

end EGraphSearch.Experiment

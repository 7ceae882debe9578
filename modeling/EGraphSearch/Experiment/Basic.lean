import EGraphSearch.Experiment.Arguments
import EGraphSearch.Experiment.Finding
import EGraphSearch.EGraph.Random
import EGraphSearch.SettingsFile
import EGraphSearch.Trial.BestOfN
import EGraphSearch.Trial.Budgets

/-!
# The budget experiment

On a random e-graph, the best costs of searches with several budgets are compared with those of as
many independent rollouts.  The settings of the searches may come from a file; the budget and the
seed of each search do not.
-/

set_option autoImplicit false

namespace EGraphSearch.Experiment

/-- What an experiment has done up to its end or its first fault. -/
structure State where
  journal : List Remark
  findings : Findings
  /-- The path and the content of the file that it writes. -/
  written : Option (String × String)

abbrev Running := ExceptT Fault (StateM State)

def channel : String := "run_extraction"

def remarks (lines : List Remark) : Running Unit :=
  modify fun s => { s with journal := s.journal ++ lines }

def say (text : String) : Running Unit := remarks [⟨.info, channel, text⟩]

def graphOf (a : Arguments) : Except Fault EGraph := do
  let source ← Pcg64.ofSeed a.graphSeed []
  let shape : RandomShape :=
    { numClasses := a.numClasses, backEdgeProbability := .float a.backEdgeProbability }
  return (← EGraph.random shape source).1

/-- The options of the searches.  The options are checked as settings, although every search sets
some of them for itself. -/
def optionsOf (a : Arguments) (settingsText : Option String) : Except Fault Options := do
  let given : Options ←
    if a.settingsPath.isEmpty then .ok [] else readOptions a.settingsPath settingsText
  let kept := given.without ["max_playouts", "seed"]
  let options : Options :=
    if (kept.get? "collect_statistics").isSome then kept
    else kept ++ [(.text "collect_statistics", .number (.truth false))]
  let _ ← Settings.ofOptions options
  return options

def seedsOf (a : Arguments) : List Nat := List.range a.numSeeds.toNat

def baselineCosts (g : EGraph) (measure : SizeMeasure) (budget : Int) :
    List Nat → Except Fault (List Float)
  | [] => .ok []
  | seed :: rest => do
    let oracle := (Pricing.size measure).oracle
    let baseline : Baseline Nat Pcg64 Float ←
      bestOfN g (oracle.asker g) (.int budget) 0 (streamOf (SeedMix.words seed) [])
    return (baseline.best.map Prod.snd).toList ++ (← baselineCosts g measure budget rest)

def examine (a : Arguments) (g : EGraph) (results : Trial.Results) (budget : Int) :
    Running Unit := do
  let sampled ← baselineCosts g a.measure budget (seedsOf a)
  let searched ← results.get (.int budget)
  let least : Number := .int (min 10 (seedsOf a).length)
  let finding ← Finding.ofCosts least (Trial.found searched) sampled
  modify fun s => { s with findings := s.findings.put budget finding }
  say (finding.text budget)

def searchAll (a : Arguments) (g : EGraph) (options : Options) : Running Trial.Results := do
  let (ended, trials) :=
    Trial.run g (Pricing.size a.measure).oracle 0 (a.budgets.map .int)
      ((seedsOf a).map fun (seed : Nat) => .int seed) options
  remarks trials.journal
  let _ ← ended
  return trials.results

def save (a : Arguments) : Running Unit := do
  if a.outputPath.isEmpty then return
  modify fun s =>
    { s with written := some (a.outputPath, s.findings.fileText a.measure.name) }
  say ("Results written to " ++ a.outputPath)

def rule : String := String.ofList (List.replicate 60 '=')

/-- The whole experiment; `settingsText` is the content of the settings file, if there is one. -/
def steps (a : Arguments) (settingsText : Option String) : Running Unit := do
  let g ← graphOf a
  let options ← optionsOf a settingsText
  say rule
  say ("MCTS extraction on " ++ g.render)
  say rule
  let results ← searchAll a g options
  a.budgets.forM (examine a g results)
  save a

def run (a : Arguments) (settingsText : Option String) : Except Fault Unit × State :=
  steps a settingsText ⟨[], [], none⟩

end EGraphSearch.Experiment

import EGraphSearch.Random.Pcg64
import EGraphSearch.Search.Extraction
import EGraphSearch.Settings

/-!
# Extractors

An extractor is an e-graph, an oracle and settings, turned into a plan over doubles with seeded
draws.  Every playout draws from a stream of its own, so its draws depend on the seed and on its
index only.  Settings without a seed leave its choice to the surroundings; here the seed is zero
then, one that the surroundings could have chosen.
-/

set_option autoImplicit false

namespace EGraphSearch

/-- A policy or a transform: asked for by name, or given as it is. -/
inductive Named (β : Type) where
  | byName (name : Datum)
  | given (value : β)

/-- Resolves a name; an empty one falls back to the name in the settings. -/
def Named.resolve {β : Type} (ofName : Datum → Except Fault β) (fallback : Datum) :
    Named β → Except Fault β
  | byName name => ofName (if name.isTrue then name else fallback)
  | given value => .ok value

def wordsOf (whole : Int) : Except Fault (List UInt32) :=
  if whole < 0 then .error (.outOfRange .negativeSeed) else .ok (SeedMix.words whole.toNat)

mutual

def seedItem : Datum → Except Fault (List UInt32)
  | .number n =>
    match n.int? with
    | none => .error (.mismatch .seedItem)
    | some whole => wordsOf whole
  | .list items => seedItems items
  | _ => .error (.mismatch .seedItem)

def seedItems : List Datum → Except Fault (List UInt32)
  | [] => .ok []
  | first :: rest => do return (← seedItem first) ++ (← seedItems rest)

end

/-- The words of a seed, which is a whole number from zero upwards or a list of such numbers. -/
def seedOf (seed : Datum) : Except Fault (List UInt32) :=
  match seed with
  | .null => wordsOf 0
  | .list items => seedItems items
  | .number n =>
    match n.int? with
    | none => .error (.mismatch (.seed seed))
    | some whole => wordsOf whole
  | _ => .error (.mismatch (.seed seed))

def streamOf (seed : List UInt32) (path : List Nat) : Pcg64 :=
  Pcg64.ofWords (SeedMix.seedWords seed path)

def Settings.tuning (s : Settings) : Tuning Float :=
  { exploration := s.explorationConstant.toFloat?
    virtualLoss := s.virtualLoss.toFloat?
    rollouts := s.rolloutsPerLeaf
    perRound := s.playoutsPerRound
    workers := s.numWorkers
    completionAttempts := s.completionAttempts
    logInterval := s.logInterval }

structure Extractor (σ : Type) where
  plan : Plan σ Pcg64 Float
  policy : Policy
  transform : Transform

namespace Extractor

variable {σ : Type}

/-- The extractor of an e-graph, an oracle and settings.  The policy is resolved first, then the
transform, then the seed. -/
def make (g : EGraph) (oracle : Oracle σ) (settings : Settings) (policy : Named Policy)
    (transform : Named Transform) : Except Fault (Extractor σ) := do
  let policy ← policy.resolve Policy.ofName settings.rolloutPolicy
  let transform ←
    transform.resolve (fun name => Transform.ofName name settings.failureCost)
      settings.valueTransform
  let seed ← seedOf settings.seed
  return {
    plan := {
      graph := g
      ask := oracle.asker g
      choose := policy.choose
      valuation := transform.valuation
      tuning := settings.tuning
      maxPlayouts := settings.maxPlayouts
      timeLimit := settings.timeLimit
      stream := fun index => streamOf seed [0, index]
      lastStream := streamOf seed [1, 0]
      summarised := settings.collectStatistics.isTrue }
    policy := policy
    transform := transform }

def run (e : Extractor σ) (oracle : σ) : Except Fault (Outcome Float) × Progress σ Float :=
  extract e.plan oracle

end Extractor

end EGraphSearch

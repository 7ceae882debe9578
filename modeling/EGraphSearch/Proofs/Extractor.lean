import EGraphSearch.Extractor
import EGraphSearch.Proofs.Random.Shares
import EGraphSearch.Proofs.Search.Extraction
import EGraphSearch.Proofs.Settings

/-!
# Extraction under checked settings

With settings that have passed their checks and have values of the declared types, one worker and a
limit on the playouts alone, an extraction returns: whatever is drawn, and whatever the oracle
answers, as long as its whole numbers are not beyond the doubles.
-/

set_option autoImplicit false

namespace EGraphSearch

variable {σ ρ : Type}

/-! ## Plans -/

/-- The plan of an e-graph, an oracle and settings over any source of draws. -/
def Settings.planWith [Draws ρ] (s : Settings) (g : EGraph) (oracle : Oracle σ) (policy : Policy)
    (transform : Transform) (stream : Nat → ρ) (last : ρ) : Plan σ ρ Float where
  graph := g
  ask := oracle.asker g
  choose := policy.choose
  valuation := transform.valuation
  tuning := s.tuning
  maxPlayouts := s.maxPlayouts
  timeLimit := s.timeLimit
  stream := stream
  lastStream := last
  summarised := s.collectStatistics.isTrue

/-! ## Answers and values -/

/-- No whole number that the oracle answers lies beyond the doubles. -/
def Oracle.Convertible (oracle : Oracle σ) (g : EGraph) : Prop :=
  ∀ term state n, (oracle.ask g term state).1 = .answered (.number n) → n.toFloat?.isSome

theorem Oracle.Convertible.answers {oracle : Oracle σ} {g : EGraph}
    (convertible : oracle.Convertible g) (term : Term) (state : σ) :
    ∃ reply, (oracle.asker g term state).1 = .ok reply := by
  have known := convertible term state
  simp only [Oracle.asker]
  cases asked : (oracle.ask g term state).1 with
  | raised what => exact ⟨_, rfl⟩
  | answered value =>
      cases value with
      | number n =>
          obtain ⟨x, double⟩ := Option.isSome_iff_exists.mp (known n asked)
          exact ⟨.ofFloat x, by simp [Reply.ofResponse, Reply.ofAnswer, double]⟩
      | text s =>
          simp only [Reply.ofResponse, Reply.ofAnswer]
          split <;> exact ⟨_, rfl⟩
      | _ => exact ⟨_, rfl⟩

theorem Number.negate_convertible {n : Number} (convertible : n.toFloat?.isSome) :
    n.negate.toFloat?.isSome := by
  cases n with
  | truth b => cases b <;> decide
  | int i =>
      simp only [negate, toFloat?, Binary64.ofInt?, Int.natAbs_neg] at convertible ⊢
      split at convertible
      · simp at convertible
      · rename_i finite
        simp [finite]
  | float x => rfl

theorem Transform.failure_of_name {name : Datum} {cost : Number} {transform : Transform}
    (known : Transform.ofName name (.number cost) = .ok transform)
    (convertible : cost.toFloat?.isSome) : ∃ x, transform.valuation.failure = .ok x := by
  have value : ∃ n, transform.failureValue = .ok n ∧ n.toFloat?.isSome := by
    unfold Transform.ofName at known
    split at known
    · cases known
      exact ⟨cost.negate, rfl, Number.negate_convertible convertible⟩
    · cases known
      exact ⟨.float 0, rfl, rfl⟩
    · split at known <;> simp at known
  obtain ⟨n, failure, double⟩ := value
  obtain ⟨x, double⟩ := Option.isSome_iff_exists.mp double
  exact ⟨x, by simp [Transform.valuation, failure, Except.bind, Transform.toFloat, double]⟩

/-! ## Settings of the declared types -/

/-- The values have the types that the settings declare: counts are whole numbers, the exploration
constant and the cost of failures are doubles or near one, and rounds are finite. -/
structure Settings.WellTyped (s : Settings) : Prop where
  rolloutsPerLeaf : ∃ count, s.rolloutsPerLeaf.int? = some count
  completionAttempts : ∃ count, s.completionAttempts.int? = some count
  explorationConstant : s.explorationConstant.toFloat?.isSome
  failureCost : ∃ n, s.failureCost = .number n ∧ n.toFloat?.isSome
  playoutsPerRound : ∀ n, s.playoutsPerRound = some n → n.Finite

/-- One worker runs a whole number of playouts, in whatever time it takes. -/
structure Settings.Sequential (s : Settings) (most : Nat) : Prop where
  alone : Number.below 1 s.numWorkers = false
  limit : ∃ n, s.maxPlayouts = some n ∧ n.int? = some (most : Int)
  timeless : s.timeLimit = none

section Checked

variable [Draws ρ] {options : Options} {s : Settings} {g : EGraph} {oracle : Oracle σ}
  {policy : Policy} {transform : Transform} {stream : Nat → ρ} {last : ρ} {most : Nat}

theorem Settings.Bounded.some_rollout {s : Settings} (bounded : s.Bounded) {count : Int}
    (whole : s.rolloutsPerLeaf.int? = some count) : count ≠ 0 := by
  have atLeastOne := Number.one_le_of_not_below bounded.rolloutsPerLeaf whole
  omega

theorem Settings.planWith_steady (stream : Nat → ρ) (last : ρ) (bounded : s.Bounded)
    (typed : s.WellTyped) (sequential : s.Sequential most) (accepted : g.Accepted)
    (convertible : oracle.Convertible g) (lawful : Draws.Lawful ρ g policy)
    (choosing : Policy.ofName s.rolloutPolicy = .ok policy)
    (valuing : Transform.ofName s.valueTransform s.failureCost = .ok transform) :
    (s.planWith g oracle policy transform stream last).Steady most := by
  obtain ⟨rollouts, wholeRollouts⟩ := typed.rolloutsPerLeaf
  obtain ⟨cost, number, double⟩ := typed.failureCost
  rw [number] at valuing
  exact {
    accepted := accepted
    reliable := Policy.reliable_of_name lawful choosing
    answers := convertible.answers
    failure := Transform.failure_of_name valuing double
    usable := ⟨typed.explorationConstant, rollouts, wholeRollouts,
      bounded.some_rollout wholeRollouts⟩
    perRound := fun n rounds =>
      Number.zero_below (typed.playoutsPerRound n rounds) (bounded.playoutsPerRound n rounds)
    alone := sequential.alone
    limit := sequential.limit
    timeless := sequential.timeless }

theorem Settings.planWith_regular (stream : Nat → ρ) (last : ρ) (bounded : s.Bounded)
    (typed : s.WellTyped) (sequential : s.Sequential most) (accepted : g.Accepted)
    (checkable : g.Checkable) (convertible : oracle.Convertible g)
    (lawful : Draws.Lawful ρ g policy)
    (choosing : Policy.ofName s.rolloutPolicy = .ok policy)
    (valuing : Transform.ofName s.valueTransform s.failureCost = .ok transform) :
    (s.planWith g oracle policy transform stream last).Regular most :=
  { Settings.planWith_steady stream last bounded typed sequential accepted convertible lawful
      choosing valuing with
    checkable := checkable
    attempts := typed.completionAttempts }

omit [Draws ρ] in
theorem valid_priced {p : Problem σ ρ Float} (accepted : p.graph.Accepted)
    (checkable : p.graph.Checkable) : p.Priced fun found => found.1.validate p.graph = .ok () := by
  intro t term state cost inv termOf _
  obtain ⟨pending, rfl⟩ := Tracker.terminal_of_toTerm termOf
  exact (inv.validate_toTerm accepted.wellFormed checkable pending).2

/-- Every extraction by one worker under checked settings of the declared types returns.  Its term
and its best term are valid, and it has run the playouts of its limit unless it has committed to a
complete term before. -/
theorem Settings.extraction_ends_validly (checked : Settings.ofOptions options = .ok s)
    (typed : s.WellTyped) (sequential : s.Sequential most)
    (choosing : Policy.ofName s.rolloutPolicy = .ok policy)
    (valuing : Transform.ofName s.valueTransform s.failureCost = .ok transform)
    (accepted : g.Accepted) (checkable : g.Checkable) (convertible : oracle.Convertible g)
    (lawful : Draws.Lawful ρ g policy) (stream : Nat → ρ) (last : ρ) (state : σ) :
    ∃ outcome after,
      extract (s.planWith g oracle policy transform stream last) state = (.ok outcome, after) ∧
      outcome.term.validate g = .ok () ∧
      (∀ term cost, outcome.best = some (term, cost) → term.validate g = .ok ()) ∧
      outcome.playouts ≤ most ∧
      (s.playoutsPerRound = none → outcome.playouts = most) ∧
      (outcome.playouts = most ∨ (after.tree.node after.committed).terminal = true) := by
  have regular := Settings.planWith_regular stream last
    (Settings.ofOptions_bounded checked) typed sequential accepted checkable convertible lawful
    choosing valuing
  obtain ⟨outcome, after, extracted, searched, concluded⟩ :=
    extract_ok regular (valid_priced accepted checkable) state
  have valid : outcome.term.validate g = .ok () :=
    (finalTerm_spec accepted.wellFormed searched.sane.faithful concluded.final).valid
  refine ⟨outcome, after, extracted, valid, ?_, ?_, ?_, ?_⟩
  · intro term cost best
    rw [concluded.best_eq] at best
    exact best_finalBest searched.sane.best (fun _ _ => valid) _ best
  · rw [concluded.playouts_eq]
    exact searched.playouts_le
  · intro whole
    rw [concluded.playouts_eq]
    rcases searched.spent with spent | ⟨rounds, _⟩
    · exact spent
    · simp [Settings.planWith, Settings.tuning, whole] at rounds
  · rw [concluded.playouts_eq, concluded.tree_eq, concluded.committed_eq]
    exact searched.spent.imp_right And.right

end Checked

/-! ## A small plan -/

/-- An oracle that charges the same for every term. -/
def Oracle.flat : Oracle Unit where
  ask _ _ state := (.answered (.number 1), state)

theorem Oracle.flat_convertible (g : EGraph) : Oracle.flat.Convertible g := by
  intro term state n answered
  cases answered
  decide

/-- Options with so many playouts and so many attempts at completion. -/
def Options.small (most : Nat) (attempts : Number) : Options :=
  [(.text "exploration_constant", .number 1), (.text "max_playouts", .number (.int most)),
    (.text "completion_attempts", .number attempts)]

def Settings.small (most : Nat) (attempts : Number) : Settings where
  explorationConstant := 1
  maxPlayouts := some (.int most)
  timeLimit := none
  seed := .null
  rolloutPolicy := .text "uniform"
  valueTransform := .text "reciprocal"
  failureCost := .number (.float 1000000)
  rolloutsPerLeaf := 1
  playoutsPerRound := none
  numWorkers := 1
  virtualLoss := .float 1
  completionAttempts := attempts
  collectStatistics := .number (.truth true)
  logInterval := 100

theorem Settings.small_sequential (most : Nat) (attempts : Number) :
    (Settings.small most attempts).Sequential most :=
  ⟨rfl, ⟨_, rfl, rfl⟩, rfl⟩

def smallPlan (most : Nat) (attempts : Number) : Plan Unit Pcg64 Float :=
  (Settings.small most attempts).planWith EGraph.loopGraph Oracle.flat Policy.uniform
    Transform.reciprocal (fun index => streamOf (SeedMix.words 0) [0, index])
    (streamOf (SeedMix.words 0) [1, 0])

set_option maxRecDepth 4000 in
theorem smallPlan_regular : (smallPlan 3 1).Regular 3 :=
  Settings.planWith_regular _ _
    (Settings.ofOptions_bounded
      (show Settings.ofOptions (Options.small 3 1) = .ok (Settings.small 3 1) from rfl))
    ⟨⟨_, rfl⟩, ⟨_, rfl⟩, by decide, ⟨_, rfl, rfl⟩, nofun⟩ (Settings.small_sequential 3 1)
    EGraph.loopGraph_accepted EGraph.loopGraph_checkable (Oracle.flat_convertible _)
    Pcg64.lawful_uniform rfl rfl

/-- The small options with rollouts that prefer shallow nodes. -/
def Options.weighing (most : Nat) : Options :=
  Options.small most 1 ++ [(.text "rollout_policy", .text "weighted")]

def Settings.weighing (most : Nat) : Settings :=
  { Settings.small most 1 with rolloutPolicy := .text "weighted" }

def weighingPlan (most : Nat) : Plan Unit Pcg64 Float :=
  (Settings.weighing most).planWith EGraph.loopGraph Oracle.flat (Policy.weighted .byLevel)
    Transform.reciprocal (smallPlan most 1).stream (smallPlan most 1).lastStream

set_option maxRecDepth 4000 in
theorem Settings.extraction_ends_validly_small :
    (∃ outcome after, extract (smallPlan 3 1) () = (.ok outcome, after) ∧
      outcome.term.validate EGraph.loopGraph = .ok () ∧
      (∀ term cost, outcome.best = some (term, cost) →
        term.validate EGraph.loopGraph = .ok ()) ∧
      outcome.playouts ≤ 3 ∧ ((none : Option Number) = none → outcome.playouts = 3) ∧
      (outcome.playouts = 3 ∨ (after.tree.node after.committed).terminal = true)) ∧
    ∃ outcome after, extract (weighingPlan 3) () = (.ok outcome, after) ∧
      outcome.term.validate EGraph.loopGraph = .ok () ∧
      (∀ term cost, outcome.best = some (term, cost) →
        term.validate EGraph.loopGraph = .ok ()) ∧
      outcome.playouts ≤ 3 ∧ ((none : Option Number) = none → outcome.playouts = 3) ∧
      (outcome.playouts = 3 ∨ (after.tree.node after.committed).terminal = true) :=
  ⟨Settings.extraction_ends_validly
      (show Settings.ofOptions (Options.small 3 1) = .ok (Settings.small 3 1) from rfl)
      ⟨⟨_, rfl⟩, ⟨_, rfl⟩, by decide, ⟨_, rfl, rfl⟩, nofun⟩ (Settings.small_sequential 3 1) rfl rfl
      EGraph.loopGraph_accepted EGraph.loopGraph_checkable (Oracle.flat_convertible _)
      Pcg64.lawful_uniform _ _ (),
    Settings.extraction_ends_validly
      (show Settings.ofOptions (Options.weighing 3) = .ok (Settings.weighing 3) from rfl)
      ⟨⟨_, rfl⟩, ⟨_, rfl⟩, by decide, ⟨_, rfl, rfl⟩, nofun⟩ ⟨rfl, ⟨_, rfl, rfl⟩, rfl⟩ rfl rfl
      EGraph.loopGraph_accepted EGraph.loopGraph_checkable (Oracle.flat_convertible _)
      (Pcg64.lawful EGraph.loopGraph_accepted (by decide) (by decide)) _ _ ()⟩

theorem fractional_attempts_fail :
    (extract (smallPlan 0 (.float 1.5)) ()).1 = .error (.mismatch (.wholeNumber "float")) := by
  have searched : (smallPlan 0 (.float 1.5)).searched () =
      ⟨.ok (), (smallPlan 0 (.float 1.5)).budget, (smallPlan 0 (.float 1.5)).opened ()⟩ := rfl
  have path : greedyPath (smallPlan 0 (.float 1.5)).graph
      ((smallPlan 0 (.float 1.5)).opened ()).tree
      (Tracker.start (smallPlan 0 (.float 1.5)).graph) 0 =
      .ok [Tracker.start EGraph.loopGraph] := greedyPath_leaf rfl
  rw [extract_eq, searched]
  simp only [conclude, finalTerm, path]
  rfl

/-- The small plan on the class that differs from itself. -/
def unequalPlan (most : Nat) (attempts : Number) : Plan Unit Pcg64 Float :=
  (Settings.small most attempts).planWith EGraph.unequalGraph Oracle.flat Policy.uniform
    Transform.reciprocal (smallPlan most attempts).stream (smallPlan most attempts).lastStream

set_option maxRecDepth 4000 in
/-- Settings that pass the checks are not enough: an extraction fails if the attempts are not a
whole number, and also if the root differs from itself. -/
theorem checked_extractions_that_fail :
    (Settings.ofOptions (Options.small 0 (.float 1.5)) = .ok (Settings.small 0 (.float 1.5)) ∧
      (Settings.small 0 (.float 1.5)).Sequential 0 ∧
      EGraph.loopGraph.Accepted ∧ EGraph.loopGraph.Checkable ∧
      Oracle.flat.Convertible EGraph.loopGraph ∧
      Draws.Lawful Pcg64 EGraph.loopGraph Policy.uniform ∧
      (extract (smallPlan 0 (.float 1.5)) ()).1 = .error (.mismatch (.wholeNumber "float"))) ∧
    Settings.ofOptions (Options.small 1 1) = .ok (Settings.small 1 1) ∧
    (Settings.small 1 1).Sequential 1 ∧
    EGraph.unequalGraph.Accepted ∧ EGraph.unequalGraph.Named ∧
    Oracle.flat.Convertible EGraph.unequalGraph ∧
    Draws.Lawful Pcg64 EGraph.unequalGraph Policy.uniform ∧
    (extract (unequalPlan 1 1) ()).1 =
      .error (.violation (.notMember (.text "x") (.number (.float (0 / 0))))) := by
  refine ⟨⟨rfl, Settings.small_sequential _ _, EGraph.loopGraph_accepted,
      EGraph.loopGraph_checkable, Oracle.flat_convertible _, Pcg64.lawful_uniform,
      fractional_attempts_fail⟩,
    rfl, Settings.small_sequential _ _, EGraph.unequalGraph_accepted, EGraph.unequalGraph_named,
    Oracle.flat_convertible _, Pcg64.lawful_uniform, ?_⟩
  with_unfolding_all rfl

end EGraphSearch

import EGraphSearch.Proofs.Search.Extraction

/-!
# Searches on record

An oracle may write down which terms it is asked for and what it replies.  The search cannot tell:
with the record left out, a search that is on record is the search itself.
-/

set_option autoImplicit false

namespace EGraphSearch

/-- The terms that were evaluated, with the replies, in order of time. -/
abbrev Record (α : Type) := List (Term × Reply α)

/-- Asks and writes down the reply; a call that faults has none. -/
def Asker.recorded {σ α : Type} (ask : Asker σ α) : Asker (σ × Record α) α :=
  fun term state =>
    match ask term state.1 with
    | (.ok reply, oracle) => (.ok reply, (oracle, state.2 ++ [(term, reply)]))
    | (.error fault, oracle) => (.error fault, (oracle, state.2))

section

variable {σ ρ α : Type}

def Problem.recorded (p : Problem σ ρ α) : Problem (σ × Record α) ρ α :=
  { graph := p.graph, ask := p.ask.recorded, choose := p.choose, valuation := p.valuation }

def Plan.recorded (plan : Plan σ ρ α) : Plan (σ × Record α) ρ α :=
  { plan with toProblem := plan.toProblem.recorded }

/-! ## Leaving the record out -/

def Evaluator.bare (e : Evaluator (σ × Record α)) : Evaluator σ := { e with oracle := e.oracle.1 }

def Sampling.bare (s : Sampling (σ × Record α) ρ α) : Sampling σ ρ α :=
  { s with evaluator := s.evaluator.bare }

def Progress.bare (s : Progress (σ × Record α) α) : Progress σ α :=
  { s with evaluator := s.evaluator.bare }

def BatchEnd.bare (ended : BatchEnd (σ × Record α) α) : BatchEnd σ α :=
  { ended with progress := ended.progress.bare }

def SearchEnd.bare (ended : SearchEnd (σ × Record α) α) : SearchEnd σ α :=
  { ended with progress := ended.progress.bare }

theorem Evaluator.evaluate_recorded (ask : Asker σ α) (e : Evaluator (σ × Record α))
    (term : Term) : e.bare.evaluate ask term =
      ((e.evaluate ask.recorded term).1, (e.evaluate ask.recorded term).2.bare) := by
  simp only [evaluate, bare, Asker.recorded]
  rcases ask term e.oracle.1 with ⟨fault | reply, state⟩ <;> rfl

end

/-! ## Playouts -/

section Playouts

variable {σ ρ α : Type} [Scalar α] (p : Problem σ ρ α)

theorem Sampling.price_recorded (term : Term) (s : Sampling (σ × Record α) ρ α) :
    s.bare.price p term = ((s.price p.recorded term).1, (s.price p.recorded term).2.bare) := by
  have asked := s.evaluator.evaluate_recorded p.ask term
  unfold price
  rw [show s.bare.evaluator = s.evaluator.bare from rfl, asked,
    show p.recorded.ask = p.ask.recorded from rfl]
  rcases s.evaluator.evaluate p.ask.recorded term with ⟨fault | cost | why, evaluator⟩
  · rfl
  · rfl
  · simp only [countFailure, Problem.recorded]
    cases p.valuation.failure <;> rfl

theorem Sampling.rollOnce_recorded (keep : Bool) (s : Sampling (σ × Record α) ρ α) :
    s.bare.rollOnce p keep =
      ((s.rollOnce p.recorded keep).1, (s.rollOnce p.recorded keep).2.bare) := by
  simp only [rollOnce, bare, Problem.recorded]
  rcases rollout p.graph p.choose s.tracker s.source with ⟨tracker, source, fault | complete⟩
  · rfl
  · cases complete with
    | false =>
        simp only [countFailure]
        cases p.valuation.failure <;> rfl
    | true =>
        dsimp only
        cases tracker.toTerm p.graph with
        | error fault => rfl
        | ok term => exact price_recorded p term ⟨_, s.evaluator, source, s.tally, s.unpriced⟩

theorem Sampling.rollMany_recorded (keep : Bool) (count : Nat) (s : Sampling (σ × Record α) ρ α) :
    s.bare.rollMany p keep count =
      ((s.rollMany p.recorded keep count).1, (s.rollMany p.recorded keep count).2.bare) := by
  induction count generalizing s with
  | zero => rfl
  | succ count ih =>
      simp only [rollMany, rollOnce_recorded]
      rcases s.rollOnce p.recorded keep with ⟨fault | _, next⟩
      · rfl
      · exact ih next

theorem evaluateLeaf_recorded (rollouts : Number) (tracker : Tracker)
    (e : Evaluator (σ × Record α)) (source : ρ) :
    evaluateLeaf p rollouts tracker e.bare source =
      ((evaluateLeaf p.recorded rollouts tracker e source).1,
        (evaluateLeaf p.recorded rollouts tracker e source).2.bare) := by
  have rolled := fun keep count => Sampling.rollMany_recorded p keep count (.start tracker e source)
  unfold evaluateLeaf
  cases rollouts.int? with
  | none => rfl
  | some count =>
      dsimp only
      rw [show Sampling.start tracker e.bare source = (Sampling.start tracker e source).bare
        from rfl, rolled]
      rcases (Sampling.start tracker e source).rollMany p.recorded (decide (1 < count))
        count.toNat with ⟨fault | _, last⟩ <;> rfl

theorem playout_recorded (tuning : Tuning α) (start : Nat) (source : ρ)
    (s : Progress (σ × Record α) α) :
    playout p tuning start source s.bare =
      ((playout p.recorded tuning start source s).1,
        (playout p.recorded tuning start source s).2.bare) := by
  simp only [playout, Progress.bare, Problem.recorded]
  cases replay p.graph s.tree start with
  | error fault => rfl
  | ok tracker =>
      dsimp only
      generalize selectAndExpand p.graph (tuning.constants Scalar.zero) s.tree tracker start = walk
      rcases walk with ⟨tree, reached, fault | path⟩
      · rfl
      · dsimp only
        rw [evaluateLeaf_recorded p tuning.rollouts reached s.evaluator source, Problem.recorded]
        rcases evaluateLeaf _ tuning.rollouts reached s.evaluator source with
          ⟨fault | leaf, sampling⟩
        · rfl
        · dsimp only
          rcases Tree.creditPath leaf.value path tree with ⟨fault | _, credited⟩ <;> rfl

theorem Progress.record_bare (tuning : Tuning α) (leaf : Leaf α) (s : Progress (σ × Record α) α) :
    s.bare.record tuning leaf = (s.record tuning leaf).bare := by
  unfold record
  dsimp only [bare]
  split <;> rfl

end Playouts

/-! ## Whole searches -/

section Searches

variable {σ ρ α : Type} [Scalar α] (plan : Plan σ ρ α)

theorem runBatchFrom_recorded (start : Nat) (limit : Option Number) (bound : Nat) :
    ∀ (ran : Nat) (budget : Budget) (s : Progress (σ × Record α) α),
      runBatchFrom plan start limit bound ran budget s.bare =
        (runBatchFrom plan.recorded start limit bound ran budget s).bare := by
  induction bound with
  | zero => exact fun _ _ _ => rfl
  | succ bound ih =>
      intro ran budget s
      simp only [runBatchFrom]
      split
      · rfl
      · cases budget.claim with
        | none => rfl
        | some claimed =>
            obtain ⟨index, budget⟩ := claimed
            simp only [Plan.recorded, playout_recorded]
            rcases playout plan.toProblem.recorded plan.tuning start (plan.stream index) s with
              ⟨fault | leaf, next⟩
            · rfl
            · simp only [Progress.record_bare]
              exact ih _ _ _

theorem runBatch_recorded (alone : Number.below 1 plan.tuning.workers = false) (start : Nat)
    (limit : Option Number) (budget : Budget) (s : Progress (σ × Record α) α) :
    plan.runBatch start limit budget s.bare =
      (plan.recorded.runBatch start limit budget s).bare := by
  have aloneToo : Number.below 1 plan.recorded.tuning.workers = false := alone
  rw [runBatch_alone alone, runBatch_alone aloneToo]
  exact runBatchFrom_recorded plan start limit _ 0 budget s

theorem searchRounds_recorded (alone : Number.below 1 plan.tuning.workers = false)
    (perRound : Number) (bound : Nat) :
    ∀ (budget : Budget) (s : Progress (σ × Record α) α),
      searchRounds plan perRound bound budget s.bare =
        (searchRounds plan.recorded perRound bound budget s).bare := by
  induction bound with
  | zero => exact fun _ _ => rfl
  | succ bound ih =>
      intro budget s
      simp only [searchRounds, BatchEnd.closeRound]
      cases budget.exhausted with
      | true => rfl
      | false =>
          have ran := runBatch_recorded plan alone s.committed (some perRound) budget s
          rw [show s.bare.committed = s.committed from rfl, ran]
          generalize plan.recorded.runBatch s.committed (some perRound) budget s = batch
          rcases batch with ⟨fault | count, left, u⟩
          · rfl
          · dsimp only [BatchEnd.bare, Progress.bare]
            rcases u.tree.mostVisited u.committed true with fault | _ | ⟨move, child⟩
            · rfl
            · exact ih left u
            · cases terminal : (u.tree.node child).terminal with
              | true => simp [Progress.commit, Progress.report, terminal, SearchEnd.bare,
                  Progress.bare]
              | false =>
                  simp only [Progress.commit, Progress.report, terminal, Bool.false_eq_true,
                    if_false]
                  exact ih left (u.commit child)

theorem search_recorded (alone : Number.below 1 plan.tuning.workers = false) (budget : Budget)
    (s : Progress (σ × Record α) α) :
    search plan budget s.bare = (search plan.recorded budget s).bare := by
  unfold search
  rw [show plan.recorded.tuning = plan.tuning from rfl]
  cases plan.tuning.perRound with
  | none =>
      dsimp only
      rw [show s.bare.committed = s.committed from rfl, runBatch_recorded plan alone]
      rfl
  | some perRound => exact searchRounds_recorded plan alone perRound _ budget s

/-! ## Final terms -/

omit [Scalar α] in
theorem complete_recorded (p : Problem σ ρ α) (attempts : Number) (limit : Option Nat)
    (tracker : Tracker) (source : ρ) :
    complete p attempts limit tracker source =
      complete p.recorded attempts limit tracker source := by
  have attempted : ∀ (count : Nat) (source : ρ), attempt p limit tracker count source =
      attempt p.recorded limit tracker count source := by
    intro count
    induction count with
    | zero => exact fun _ => rfl
    | succ count ih =>
        intro source
        simp only [attempt, ih]
        rfl
  simp only [complete, attempted]

omit [Scalar α] in
theorem completeDeepest_recorded (p : Problem σ ρ α) (attempts : Number)
    (trackers : List Tracker) : ∀ source : ρ, completeDeepest p attempts trackers source =
      completeDeepest p.recorded attempts trackers source := by
  induction trackers with
  | nil => exact fun _ => rfl
  | cons tracker outer ih =>
      intro source
      simp only [completeDeepest, complete_recorded p, ih]

theorem finalTerm_recorded (p : Problem σ ρ α) (attempts : Number) (tree : Tree α) (source : ρ) :
    finalTerm p attempts tree source = finalTerm p.recorded attempts tree source := by
  simp only [finalTerm, completeDeepest_recorded p]
  rfl

theorem conclude_recorded (s : Progress (σ × Record α) α) :
    conclude plan s.bare = ((conclude plan.recorded s).1, (conclude plan.recorded s).2.bare) := by
  have final := finalTerm_recorded plan.toProblem plan.tuning.completionAttempts s.tree
    plan.lastStream
  unfold conclude
  rw [show s.bare.tree = s.tree from rfl, final,
    show plan.recorded.toProblem = plan.toProblem.recorded from rfl,
    show plan.recorded.tuning = plan.tuning from rfl,
    show plan.recorded.lastStream = plan.lastStream from rfl]
  rcases finalTerm plan.toProblem.recorded plan.tuning.completionAttempts s.tree
    plan.lastStream with ⟨fault | term, journal⟩
  · rfl
  · have asked := s.evaluator.evaluate_recorded plan.ask term
    simp only [Progress.priceFinal, Progress.report, Progress.bare, asked,
      show plan.toProblem.recorded.ask = plan.ask.recorded from rfl]
    rcases s.evaluator.evaluate plan.ask.recorded term with ⟨fault | cost | why, evaluator⟩ <;> rfl

/-- With the record left out, the run on record is the run itself. -/
theorem extract_recorded (alone : Number.below 1 plan.tuning.workers = false) (oracle : σ) :
    extract plan oracle = ((extract plan.recorded (oracle, [])).1,
      (extract plan.recorded (oracle, [])).2.bare) := by
  have searched : plan.searched oracle = (plan.recorded.searched (oracle, [])).bare :=
    search_recorded plan alone plan.budget (plan.recorded.opened (oracle, []))
  rw [extract_eq, extract_eq, searched]
  generalize plan.recorded.searched (oracle, []) = ended
  rcases ended with ⟨fault | _, budget, s⟩
  · rfl
  · exact conclude_recorded plan s

end Searches

end EGraphSearch

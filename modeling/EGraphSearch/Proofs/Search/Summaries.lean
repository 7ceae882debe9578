import EGraphSearch.Search.Extraction

/-!
# Searches without a summary

Whether statistics are collected shows in the summary of the outcome and nowhere else: the search
does not look at it.
-/

set_option autoImplicit false

namespace EGraphSearch

variable {σ ρ α : Type} [Scalar α]

/-- The plan with or without a summary at its end. -/
def Plan.withSummary (plan : Plan σ ρ α) (summarised : Bool) : Plan σ ρ α :=
  { plan with summarised := summarised }

/-- What an outcome says besides its summary. -/
def Outcome.bare (outcome : Outcome α) : Outcome α := { outcome with summary := none }

variable (plan : Plan σ ρ α) (summarised : Bool) (start : Nat) (limit : Option Number)

theorem runBatchFrom_withSummary (bound : Nat) : ∀ (ran : Nat) (budget : Budget)
    (s : Progress σ α), runBatchFrom (plan.withSummary summarised) start limit bound ran budget s =
      runBatchFrom plan start limit bound ran budget s := by
  induction bound with
  | zero => exact fun _ _ _ => rfl
  | succ bound ih =>
      intro ran budget s
      simp only [runBatchFrom, ih]
      rfl

theorem work_withSummary (constants : Option (ScoreConstants α)) (bound : Nat) :
    ∀ s : Shared σ α, work (plan.withSummary summarised) constants start limit bound s =
      work plan constants start limit bound s := by
  induction bound with
  | zero => exact fun _ => rfl
  | succ bound ih =>
      intro s
      simp only [work, ih]
      rfl

theorem shift_withSummary (s : Shared σ α) :
    shift (plan.withSummary summarised) start limit s = shift plan start limit s := by
  simp only [shift, work_withSummary]
  rfl

theorem shifts_withSummary (workers : Nat) : ∀ s : Shared σ α,
    shifts (plan.withSummary summarised) start limit workers s =
      shifts plan start limit workers s := by
  induction workers with
  | zero => exact fun _ => rfl
  | succ workers ih =>
      intro s
      simp only [shifts, shift_withSummary, ih]

theorem batch_withSummary (budget : Budget) (s : Progress σ α) :
    (plan.withSummary summarised).runBatch start limit budget s =
      plan.runBatch start limit budget s := by
  simp only [Plan.runBatch, runBatch, runShared, runBatchFrom_withSummary, shifts_withSummary]
  rfl

theorem searchRounds_withSummary (perRound : Number) (bound : Nat) : ∀ (budget : Budget)
    (s : Progress σ α), searchRounds (plan.withSummary summarised) perRound bound budget s =
      searchRounds plan perRound bound budget s := by
  induction bound with
  | zero => exact fun _ _ => rfl
  | succ bound ih =>
      intro budget s
      simp only [searchRounds, BatchEnd.closeRound, batch_withSummary, ih]

theorem search_withSummary (budget : Budget) (s : Progress σ α) :
    search (plan.withSummary summarised) budget s = search plan budget s := by
  simp only [search, batch_withSummary, searchRounds_withSummary]
  rfl

theorem conclude_withSummary (s : Progress σ α) :
    (conclude (plan.withSummary summarised) s).1.map Outcome.bare =
        (conclude plan s).1.map Outcome.bare ∧
      (conclude (plan.withSummary summarised) s).2 = (conclude plan s).2 := by
  have final : finalTerm (plan.withSummary summarised).toProblem
      (plan.withSummary summarised).tuning.completionAttempts s.tree
      (plan.withSummary summarised).lastStream =
      finalTerm plan.toProblem plan.tuning.completionAttempts s.tree plan.lastStream := rfl
  simp only [conclude, final]
  rcases finalTerm plan.toProblem plan.tuning.completionAttempts s.tree plan.lastStream with
    ⟨fault | term, journal⟩
  · exact ⟨rfl, rfl⟩
  · dsimp only
    rw [show (plan.withSummary summarised).toProblem = plan.toProblem from rfl]
    rcases (s.report journal).priceFinal plan.toProblem term with ⟨fault | cost, after⟩
    · exact ⟨rfl, rfl⟩
    · exact ⟨rfl, rfl⟩

/-- The outcome is the same but for its summary, and the oracle is left as it was. -/
theorem extract_withSummary (oracle : σ) :
    (extract (plan.withSummary summarised) oracle).1.map Outcome.bare =
        (extract plan oracle).1.map Outcome.bare ∧
      (extract (plan.withSummary summarised) oracle).2 = (extract plan oracle).2 := by
  have opened : (plan.withSummary summarised).budget = plan.budget ∧
      (plan.withSummary summarised).maxPlayouts = plan.maxPlayouts ∧
      (plan.withSummary summarised).timeLimit = plan.timeLimit := ⟨rfl, rfl, rfl⟩
  simp only [extract, opened, search_withSummary]
  split
  · exact ⟨rfl, rfl⟩
  · exact conclude_withSummary plan summarised _

/-- The best cost is the same. -/
theorem extract_best_withSummary (oracle : σ) :
    (extract (plan.withSummary summarised) oracle).1.map (fun o => o.best.map Prod.snd) =
      (extract plan oracle).1.map fun o => o.best.map Prod.snd := by
  have forget : ∀ result : Except Fault (Outcome α),
      (result.map Outcome.bare).map (fun o => o.best.map Prod.snd) =
        result.map fun o => o.best.map Prod.snd := by
    intro result
    cases result <;> rfl
  rw [← forget, (extract_withSummary plan summarised oracle).1, forget]

end EGraphSearch

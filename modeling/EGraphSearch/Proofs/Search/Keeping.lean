import EGraphSearch.Proofs.Search.Extraction
import EGraphSearch.Proofs.Search.Flights

/-!
# What playouts keep

What the playouts of a search keep, also those that fail, the search keeps: with any number of
workers, in rounds or not, and whether it comes to its end or a fault does.
-/

set_option autoImplicit false

namespace EGraphSearch

variable {σ ρ α : Type} [Scalar α]

/-- The playouts of a plan keep a property of the progress, whether they succeed or fail. -/
structure Plan.Keeps (plan : Plan σ ρ α) (Q : Progress σ α → Prop) : Prop where
  /-- Nothing else that a search does touches the tree or counts a playout. -/
  aside : ∀ {s t : Progress σ α}, Q s → t.tree = s.tree → t.playouts = s.playouts → Q t
  played : ∀ {s next : Progress σ α} {start : Nat} {source : ρ} {leaf : Leaf α}, Q s →
    playout plan.toProblem plan.tuning start source s = (.ok leaf, next) →
    Q (next.record plan.tuning leaf)
  stalled : ∀ {s next : Progress σ α} {start : Nat} {source : ρ} {fault : Fault}, Q s →
    playout plan.toProblem plan.tuning start source s = (.error fault, next) → Q next
  flown : ∀ (constants : Option (ScoreConstants α)) (start index : Nat) (shared : Shared σ α),
    Q shared.progress → Q (Shared.fly plan constants start index shared).2.progress

variable {plan : Plan σ ρ α} {Q : Progress σ α → Prop} {start : Nat} {limit : Option Number}

/-! ## Batches -/

theorem keeps_runBatchFrom (keeps : plan.Keeps Q) (bound : Nat) :
    ∀ {ran : Nat} {budget : Budget} {s : Progress σ α}, Q s →
      Q (runBatchFrom plan start limit bound ran budget s).progress := by
  induction bound with
  | zero => exact fun holds => holds
  | succ bound ih =>
      intro ran budget s holds
      rw [runBatchFrom]
      split
      · exact holds
      · split
        · exact holds
        · split
          · rename_i stalled
            exact keeps.stalled holds stalled
          · rename_i played
            exact ih (keeps.played holds played)

theorem keeps_work (keeps : plan.Keeps Q) {constants : Option (ScoreConstants α)} (bound : Nat) :
    ∀ {shared : Shared σ α}, Q shared.progress →
      Q (work plan constants start limit bound shared).2.progress := by
  induction bound with
  | zero => exact fun holds => holds
  | succ bound ih =>
      intro shared holds
      rw [work_step]
      split
      · exact holds
      · split
        · exact holds
        · rename_i index budget _
          have flown := keeps.flown constants start index
            { shared with budget := budget, started := shared.started + 1 } holds
          split
          · rename_i ended
            rwa [ended] at flown
          · rename_i ended
            rw [ended] at flown
            exact ih flown

theorem keeps_shift (keeps : plan.Keeps Q) {shared : Shared σ α} (holds : Q shared.progress) :
    Q (shift plan start limit shared).2.progress := by
  unfold shift
  split
  · exact keeps_work keeps _ holds
  · exact keeps_work keeps _ holds
  · exact holds

theorem keeps_shifts (keeps : plan.Keeps Q) (workers : Nat) :
    ∀ {shared : Shared σ α}, Q shared.progress →
      Q (shifts plan start limit workers shared).2.progress := by
  induction workers with
  | zero => exact fun holds => holds
  | succ workers ih =>
      intro shared holds
      have relieved : Q (shift plan start limit shared).2.progress := keeps_shift keeps holds
      rw [shifts]
      split
      · rename_i ended
        rw [ended] at relieved
        exact ih relieved
      · rename_i ended
        rw [ended] at relieved
        exact ih relieved

theorem keeps_runBatch (keeps : plan.Keeps Q) {budget : Budget} {s : Progress σ α} (holds : Q s) :
    Q (plan.runBatch start limit budget s).progress := by
  unfold Plan.runBatch
  split
  · unfold runShared
    split
    · exact holds
    · have unstarted : Q (⟨budget, 0, s⟩ : Shared σ α).progress := holds
      exact keeps_shifts keeps _ unstarted
  · exact keeps_runBatchFrom keeps _ holds

/-! ## Searches -/

theorem Plan.Keeps.commit (keeps : plan.Keeps Q) {s : Progress σ α} (holds : Q s) (child : Nat) :
    Q (s.commit child) :=
  keeps.aside holds rfl rfl

theorem keeps_searchRounds (keeps : plan.Keeps Q) {perRound : Number} (bound : Nat) :
    ∀ {budget : Budget} {s : Progress σ α}, Q s →
      Q (searchRounds plan perRound bound budget s).progress := by
  induction bound with
  | zero => exact fun holds => holds
  | succ bound ih =>
      intro budget s holds
      rw [searchRounds, BatchEnd.closeRound]
      split
      · exact holds
      · have ran : Q (plan.runBatch s.committed (some perRound) budget s).progress :=
          keeps_runBatch keeps holds
        dsimp only
        split
        · exact ran
        · split
          · exact ran
          · exact ih ran
          · split
            · exact keeps.commit ran _
            · exact ih (keeps.commit ran _)

theorem keeps_search (keeps : plan.Keeps Q) {budget : Budget} {s : Progress σ α} (holds : Q s) :
    Q (search plan budget s).progress := by
  unfold search
  split
  · exact keeps_runBatch keeps holds
  · exact keeps_searchRounds keeps _ holds

/-! ## Extractions -/

theorem keeps_priceFinal (keeps : plan.Keeps Q) {s : Progress σ α} (holds : Q s) (term : Term) :
    Q (s.priceFinal plan.toProblem term).2 := by
  unfold Progress.priceFinal
  split
  · exact keeps.aside holds rfl rfl
  · exact keeps.aside holds rfl rfl
  · exact keeps.aside holds rfl rfl

theorem keeps_conclude (keeps : plan.Keeps Q) {s : Progress σ α} (holds : Q s) :
    Q (conclude plan s).2 := by
  unfold conclude
  split
  · exact keeps.aside holds rfl rfl
  · rename_i term journal _
    have reported : Q (s.report journal) := keeps.aside holds rfl rfl
    have priced := keeps_priceFinal keeps reported term
    split
    · rename_i ended
      rwa [ended] at priced
    · rename_i ended
      rw [ended] at priced
      exact keeps.aside priced rfl rfl

/-- What the playouts of a plan keep holds of the progress that an extraction leaves behind, whether
it returns an outcome or a fault. -/
theorem keeps_extract (keeps : plan.Keeps Q) (fresh : ∀ oracle, Q (Progress.initial oracle))
    (oracle : σ) : Q (extract plan oracle).2 := by
  have opened : Q (plan.opened oracle) := keeps.aside (fresh oracle) rfl rfl
  have searched : Q (plan.searched oracle).progress := keeps_search keeps opened
  rw [extract_eq]
  split
  · exact searched
  · exact keeps_conclude keeps searched

end EGraphSearch

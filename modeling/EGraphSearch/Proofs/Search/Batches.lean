import EGraphSearch.Proofs.Search.Playouts

/-!
# Batches

A batch is a chain of playouts from one node, each with the draws of its own index.  It goes on
until its own limit or the budget stops it, so the index tells how many playouts have been run.
-/

set_option autoImplicit false

namespace EGraphSearch

variable {σ ρ α : Type} [Scalar α]

/-! ## Chains of playouts -/

/-- So many playouts from `start`, the first one with the given index, lead from one progress to
another. -/
inductive Batch (p : Problem σ ρ α) (tuning : Tuning α) (stream : Nat → ρ) (start : Nat) :
    Nat → Nat → Progress σ α → Progress σ α → Prop
  | done (index : Nat) (s : Progress σ α) : Batch p tuning stream start index 0 s s
  | play {index count : Nat} {s next u : Progress σ α} {leaf : Leaf α}
      (played : playout p tuning start (stream index) s = (.ok leaf, next))
      (later : Batch p tuning stream start (index + 1) count (next.record tuning leaf) u) :
      Batch p tuning stream start index (count + 1) s u

section Batch

variable {p : Problem σ ρ α} {tuning : Tuning α} {stream : Nat → ρ} {start index count : Nat}
  {s u : Progress σ α}

/-- What every playout keeps, a chain of playouts keeps. -/
theorem Batch.keeps {Q : Progress σ α → Prop} (batch : Batch p tuning stream start index count s u)
    (step : ∀ {i : Nat} {s next : Progress σ α} {leaf : Leaf α}, Q s →
      playout p tuning start (stream i) s = (.ok leaf, next) → Q (next.record tuning leaf))
    (holds : Q s) : Q u := by
  induction batch with
  | done => exact holds
  | play played _ ih => exact ih (step holds played)

end Batch

/-! ## Progress -/

section Sane

variable {p : Problem σ ρ α} {P : Term × α → Prop} {tuning : Tuning α} {source : ρ} {start : Nat}
  {s next : Progress σ α} {leaf : Leaf α}

theorem tree_record : (s.record tuning leaf).tree = s.tree := by
  unfold Progress.record
  dsimp only
  split <;> rfl

theorem committed_record : (s.record tuning leaf).committed = s.committed := by
  unfold Progress.record
  dsimp only
  split <;> rfl

theorem playouts_record : (s.record tuning leaf).playouts = s.playouts + 1 := by
  unfold Progress.record
  dsimp only
  split <;> rfl

theorem best_record : (s.record tuning leaf).best = leaf.best.elim s.best (cheaper s.best) := by
  unfold Progress.record
  dsimp only
  split <;> rfl

theorem deadEnds_record : (s.record tuning leaf).deadEnds = s.deadEnds + leaf.deadEnds := by
  unfold Progress.record
  dsimp only
  split <;> rfl

theorem evaluator_record : (s.record tuning leaf).evaluator = s.evaluator := by
  unfold Progress.record
  dsimp only
  split <;> rfl

/-- What holds of the progress between playouts. -/
structure Sane (p : Problem σ ρ α) (P : Term × α → Prop) (s : Progress σ α) : Prop where
  faithful : Faithful p.graph s.tree
  committed_lt : s.committed < s.tree.size
  best : Best P s.best

theorem sane_initial (oracle : σ) : Sane p P (Progress.initial oracle) where
  faithful := faithful_initial
  committed_lt := by simp [Progress.initial, Tree.size, Tree.initial]
  best found none_ := by simp [Progress.initial] at none_

theorem Sane.report (sane : Sane p P s) (events : List (Event α)) : Sane p P (s.report events) :=
  ⟨sane.faithful, sane.committed_lt, sane.best⟩

theorem best_elim_cheaper {best leafBest : Option (Term × α)} (known : Best P best)
    (found : Best P leafBest) : Best P (leafBest.elim best (cheaper best)) := by
  cases leafBest with
  | none => exact known
  | some pair => exact best_cheaper known (found pair rfl)

theorem Sane.play (wf : p.graph.toArena.WellFormed) (priced : p.Priced P) (sane : Sane p P s)
    (inside : start < s.tree.size) (played : playout p tuning start source s = (.ok leaf, next)) :
    Sane p P (next.record tuning leaf) := by
  have spec := playout_spec wf priced sane.faithful inside played
  obtain ⟨path, below, playedTree⟩ := spec.played
  refine ⟨?_, ?_, ?_⟩
  · rw [tree_record]
    exact playedTree.faithful
  · rw [tree_record, committed_record, spec.committed_eq]
    exact Nat.lt_of_lt_of_le sane.committed_lt playedTree.kept.size_le
  · rw [best_record, spec.best_eq]
    exact best_elim_cheaper sane.best spec.best

end Sane

/-- A chain of playouts keeps the progress sane and the commitment where it is, and counts
itself. -/
structure BatchSpec (p : Problem σ ρ α) (P : Term × α → Prop) (count : Nat)
    (s u : Progress σ α) : Prop where
  sane : Sane p P u
  size_le : s.tree.size ≤ u.tree.size
  committed_eq : u.committed = s.committed
  playouts_eq : u.playouts = s.playouts + count

theorem Batch.spec {p : Problem σ ρ α} {P : Term × α → Prop} {tuning : Tuning α}
    {stream : Nat → ρ} {start index count : Nat} {s u : Progress σ α}
    (wf : p.graph.toArena.WellFormed) (priced : p.Priced P)
    (batch : Batch p tuning stream start index count s u) (sane : Sane p P s)
    (inside : start < s.tree.size) : BatchSpec p P count s u := by
  induction batch with
  | done => exact ⟨sane, Nat.le_refl _, rfl, rfl⟩
  | play played _ ih =>
      have spec := playout_spec wf priced sane.faithful inside played
      obtain ⟨path, below, playedTree⟩ := spec.played
      have grows := playedTree.kept.size_le
      have later := ih (sane.play wf priced inside played)
        (by rw [tree_record]; exact Nat.lt_of_lt_of_le inside grows)
      refine ⟨later.sane, ?_, ?_, ?_⟩
      · have := later.size_le
        rw [tree_record] at this
        exact Nat.le_trans grows this
      · rw [later.committed_eq, committed_record, spec.committed_eq]
      · rw [later.playouts_eq, playouts_record, spec.playouts_eq]
        omega

/-! ## The loop -/

section Loop

variable {plan : Plan σ ρ α} {start : Nat} {limit : Option Number}

/-- The budget after so many more claims. -/
def Budget.after (b : Budget) (count : Nat) : Budget := { b with claimed := b.claimed + count }

/-- Whether a batch that ran so many playouts has come up to its own limit. -/
def Stopped (limit : Option Number) (ran : Nat) : Prop :=
  limit.any (fun n => !Number.below (.int ran) n) = true

/-- What a batch did, and why it stopped. -/
structure LoopSpec (plan : Plan σ ρ α) (start : Nat) (limit : Option Number) (bound ran : Nat)
    (budget : Budget) (s : Progress σ α) (count : Nat) (ended : BatchEnd σ α) : Prop where
  count_le : count ≤ bound
  batch : Batch plan.toProblem plan.tuning plan.stream start budget.claimed count s ended.progress
  budget_eq : ended.budget = budget.after count
  running : ∀ j < count, ¬ Stopped limit (ran + j) ∧ (budget.after j).exhausted = false
  stopped : count = bound ∨ Stopped limit (ran + count) ∨ (budget.after count).exhausted = true

theorem runBatchFrom_spec (bound : Nat) :
    ∀ {ran n : Nat} {budget : Budget} {s : Progress σ α},
      (runBatchFrom plan start limit bound ran budget s).ran = .ok n →
      ∃ count, n = ran + count ∧ LoopSpec plan start limit bound ran budget s count
        (runBatchFrom plan start limit bound ran budget s) := by
  induction bound with
  | zero =>
      intro ran n budget s ended
      cases ended
      exact ⟨0, rfl, Nat.le_refl _, .done _ _, rfl, by simp, .inl rfl⟩
  | succ bound ih =>
      intro ran n budget s ended
      simp only [runBatchFrom] at ended ⊢
      split at ended
      · rename_i limited
        simp only [limited, if_true] at ended ⊢
        cases ended
        exact ⟨0, rfl, Nat.zero_le _, .done _ _, rfl, by simp, .inr (.inl limited)⟩
      · rename_i notLimited
        simp only [notLimited]
        cases exhausted : budget.exhausted with
        | true =>
            simp only [Budget.claim, exhausted, if_true] at ended ⊢
            cases ended
            exact ⟨0, rfl, Nat.zero_le _, .done _ _, rfl, by simp, .inr (.inr exhausted)⟩
        | false =>
            simp only [Budget.claim, exhausted, Bool.false_eq_true, if_false] at ended ⊢
            rcases played : playout plan.toProblem plan.tuning start (plan.stream budget.claimed) s
              with ⟨fault | leaf, next⟩
            · simp [played] at ended
            · simp only [played] at ended ⊢
              obtain ⟨count, same, spec⟩ := ih ended
              refine ⟨count + 1, by omega, by have := spec.count_le; omega,
                .play played spec.batch, ?_, ?_, ?_⟩
              · rw [spec.budget_eq]
                simp only [Budget.after, Budget.mk.injEq, true_and, and_true]
                omega
              · intro j lt
                cases j with
                | zero => exact ⟨notLimited, exhausted⟩
                | succ j =>
                    have later := spec.running j (by omega)
                    simpa only [Budget.after, Nat.add_assoc, Nat.add_comm 1] using later
              · have later := spec.stopped
                simp only [Budget.after, Nat.add_assoc, Nat.add_comm 1] at later ⊢
                exact later.imp_left (congrArg (· + 1))

theorem runBatch_spec {n : Nat} {budget : Budget} {s : Progress σ α}
    (ended : (runBatch plan start limit budget s).ran = .ok n) :
    LoopSpec plan start limit (batchBound limit budget) 0 budget s n
      (runBatch plan start limit budget s) := by
  obtain ⟨count, same, spec⟩ := runBatchFrom_spec _ ended
  obtain rfl : n = count := by omega
  exact spec

end Loop

end EGraphSearch

import EGraphSearch.Proofs.Optimum
import EGraphSearch.Proofs.Search.Books
import EGraphSearch.Proofs.Search.VisitFlow

/-!
# The totals of a run

Whatever one worker does, the totals that it reports are those of its record: the evaluations and
the failures are counted exactly, every rollout is an evaluation or a dead end, and the best pair is
the earliest of the cheapest evaluations, the final one included.  This is said of every course, so
of the runs that the clock stops as well.
-/

set_option autoImplicit false

namespace EGraphSearch

variable {σ ρ : Type}

/-- The totals of an outcome, by the record of all evaluations of the run. -/
structure Totals (rolls : Nat) (record : Record Float) (outcome : Outcome Float)
    (tree : Tree Float) : Prop where
  evaluations_eq : outcome.evaluations = record.length
  failures_eq : outcome.failures = record.countP fun entry => entry.2.cost?.isNone
  accounted : outcome.evaluations + outcome.deadEnds = outcome.playouts * rolls + 1
  root_visits : (tree.node 0).visits = outcome.playouts
  /-- The last evaluation is that of the final term. -/
  final : ∃ before reply, record = before ++ [(outcome.term, reply)] ∧ outcome.cost = reply.cost?
  best : Earliest record outcome.best
  none_iff : outcome.best = none ↔ ∀ entry ∈ record, entry.2.cost? = none
  best_le : ∀ cost, outcome.cost = some cost →
    ∃ term least, outcome.best = some (term, least) ∧ least ≤ cost

section Totals

variable {plan : Plan σ ρ Float} {state : σ} {s after : Progress (σ × Record Float) Float}
  {outcome : Outcome Float}

theorem Course.routed {α : Type} [Scalar α] {plan : Plan σ ρ α} {oracle : σ} {s : Progress σ α}
    (wf : plan.graph.toArena.WellFormed) (course : Course plan oracle s) :
    ∃ ends, Routed plan.graph s [] ends := by
  have traffic : Traffic plan.toProblem plan.tuning s [] := by
    induction course with
    | opened => exact .aside (.fresh oracle) rfl rfl
    | played _ inside played ih => exact .played ih inside played
    | committed _ _ ih => exact .aside ih rfl rfl
  exact traffic.routed wf

theorem Course.booked (numeric : plan.ask.Numeric) (course : Course plan.recorded (state, []) s) :
    s.Booked plan.tuning.rollouts.rolls := by
  induction course with
  | opened =>
      have fresh := booked_initial plan.tuning.rollouts.rolls state
      exact ⟨fresh.evaluator, fresh.accounted, fresh.best⟩
  | played _ _ played ih => exact ih.play numeric played
  | committed _ _ ih => exact ⟨ih.evaluator, ih.accounted, ih.best⟩

theorem conclude_cases {α : Type} [Scalar α] {plan : Plan σ ρ α} {s after : Progress σ α}
    {outcome : Outcome α} (concluded : conclude plan s = (.ok outcome, after)) :
    ∃ reply, s.evaluator.evaluate plan.ask outcome.term = (.ok reply, after.evaluator) ∧
      outcome.cost = reply.cost? ∧ outcome.evaluations = after.evaluator.calls ∧
      outcome.failures = after.evaluator.failures ∧ outcome.deadEnds = s.deadEnds ∧
      outcome.playouts = s.playouts := by
  unfold conclude at concluded
  split at concluded
  · simp at concluded
  · rename_i term journal _
    unfold Progress.priceFinal at concluded
    rcases asked : s.evaluator.evaluate plan.ask term with ⟨fault | cost | why, evaluator⟩
    · simp [Progress.report, asked] at concluded
    · simp only [Progress.report, asked, Prod.mk.injEq, Except.ok.injEq] at concluded
      obtain ⟨rfl, rfl⟩ := concluded
      exact ⟨.cost cost, asked, rfl, rfl, rfl, rfl, rfl⟩
    · simp only [Progress.report, asked, Prod.mk.injEq, Except.ok.injEq] at concluded
      obtain ⟨rfl, rfl⟩ := concluded
      exact ⟨.failed why, asked, rfl, rfl, rfl, rfl, rfl⟩

theorem Progress.Booked.conclude (numeric : plan.ask.Numeric)
    (booked : s.Booked plan.tuning.rollouts.rolls) {ends : List Nat}
    (routed : Routed plan.graph s [] ends)
    (concluded : conclude plan.recorded s = (.ok outcome, after)) :
    Totals plan.tuning.rollouts.rolls after.evaluator.oracle.2 outcome after.tree := by
  have spec := conclude_spec concluded
  obtain ⟨reply, evaluated, cost, calls, failures, deadEnds, playouts⟩ := conclude_cases concluded
  obtain ⟨_, record, counted, _⟩ := Evaluator.record_of_evaluate evaluated
  have bookedLast := booked.evaluator.evaluate numeric evaluated
  have earliest : Earliest after.evaluator.oracle.2 outcome.best := by
    have numericLast := bookedLast.numeric
    rw [record] at numericLast ⊢
    rw [spec.best_eq, cost]
    have folded := booked.best.append (.single outcome.term reply) numericLast
    cases reply <;> exact folded
  have balance := booked.accounted
  have counted := booked.evaluator.calls_eq ▸ counted
  constructor
  · rw [calls, bookedLast.calls_eq]
  · rw [failures, bookedLast.failures_eq]
  · rw [calls, counted, deadEnds, playouts]
    omega
  · rw [spec.tree_eq, playouts]
    exact routed.root_visits
  · exact ⟨_, reply, record, cost⟩
  · exact earliest
  · exact earliest.none_iff
  · intro charge charged
    have member : (outcome.term, reply) ∈ after.evaluator.oracle.2 := by
      rw [record]
      exact List.mem_append_right _ (List.mem_singleton_self _)
    exact earliest.le_of_mem bookedLast.numeric member (by rw [← cost, charged])

/-- Whatever one worker has played and committed to, the outcome has the totals of the record.  And
the record does not interfere: an extraction is the one on record with the record left out. -/
theorem totals_are_exact {oracle : Oracle σ} (accepted : plan.graph.Accepted)
    (asks : plan.ask = oracle.asker plan.graph) (state : σ) :
    (∀ s outcome after, Course plan.recorded (state, []) s →
      conclude plan.recorded s = (.ok outcome, after) →
        Totals plan.tuning.rollouts.rolls after.evaluator.oracle.2 outcome after.tree) ∧
    (Number.below 1 plan.tuning.workers = false → ∀ outcome after,
      extract plan state = (.ok outcome, after) →
        ∃ ended, extract plan.recorded (state, []) = (.ok outcome, ended) ∧ ended.bare = after ∧
          Totals plan.tuning.rollouts.rolls ended.evaluator.oracle.2 outcome after.tree) := by
  have wf : plan.recorded.graph.toArena.WellFormed := accepted.wellFormed
  have numeric : plan.ask.Numeric := fun term state cost answer =>
    Oracle.asker_costed (asks ▸ answer)
  have concluding : ∀ s outcome after, Course plan.recorded (state, []) s →
      conclude plan.recorded s = (.ok outcome, after) →
        Totals plan.tuning.rollouts.rolls after.evaluator.oracle.2 outcome after.tree := by
    intro s outcome after course concluded
    obtain ⟨ends, routed⟩ := course.routed wf
    exact (course.booked numeric).conclude numeric routed concluded
  refine ⟨concluding, fun alone outcome after extracted => ?_⟩
  rw [extract_recorded plan alone] at extracted
  rcases onRecord : extract plan.recorded (state, []) with ⟨result, ended⟩
  rw [onRecord] at extracted
  obtain ⟨rfl, rfl⟩ := Prod.mk.inj extracted
  refine ⟨ended, rfl, rfl, ?_⟩
  obtain ⟨searched, concluded⟩ := extract_cases onRecord
  exact concluding _ _ _ (course_searched wf alone searched) concluded

end Totals

/-- A small run, and the same run on record. -/
theorem totals_are_exact_small :
    EGraph.loopGraph.Accepted ∧
    (smallPlan 3 1).ask = Oracle.flat.asker (smallPlan 3 1).graph ∧
    ∃ outcome ended, extract (smallPlan 3 1).recorded ((), []) = (.ok outcome, ended) ∧
      Totals 1 ended.evaluator.oracle.2 outcome ended.tree := by
  have accepted : (smallPlan 3 1).graph.Accepted := EGraph.loopGraph_accepted
  have asks : (smallPlan 3 1).ask = Oracle.flat.asker (smallPlan 3 1).graph := rfl
  obtain ⟨outcome, after, extracted, _⟩ := extract_ok smallPlan_regular
    (valid_priced accepted EGraph.loopGraph_checkable) ()
  obtain ⟨_, exact_⟩ := totals_are_exact accepted asks ()
  obtain ⟨ended, onRecord, rfl, totals⟩ := exact_ rfl outcome after extracted
  exact ⟨accepted, asks, outcome, ended, onRecord, totals⟩

end EGraphSearch

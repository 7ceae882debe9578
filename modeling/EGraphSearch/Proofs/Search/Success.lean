import EGraphSearch.Proofs.Search.Batches

/-!
# Playouts that cannot fail

In a playable problem every rollout comes to an end that can be counted: a dead end has the value
of a failure, and the term of a terminal tracker gets a reply.  So a playout fails neither on its
way down, nor in its rollouts, nor when its path is credited, and neither does a batch.
-/

set_option autoImplicit false

namespace EGraphSearch

variable {σ ρ α : Type} [Scalar α]

/-- What playouts need so that none of them fails; classes may well go without a name. -/
structure Problem.Playable (p : Problem σ ρ α) : Prop where
  accepted : p.graph.Accepted
  reliable : p.choose.Reliable p.graph
  answers : ∀ term state, ∃ reply, (p.ask term state).1 = .ok reply
  failure : ∃ x, p.valuation.failure = .ok x

omit [Scalar α] in
theorem Problem.Regular.playable {p : Problem σ ρ α} (regular : p.Regular) : p.Playable :=
  { regular with }

/-! ## Rollouts from a leaf -/

section Leaf

variable {p : Problem σ ρ α} {s : Sampling σ ρ α}

omit [Scalar α] in
theorem priced_trivial : p.Priced fun _ => True := fun _ _ _ _ _ _ _ => trivial

omit [Scalar α] in
theorem best_trivial (best : Option (Term × α)) : Best (fun _ => True) best := fun _ _ => trivial

omit [Scalar α] in
theorem countFailure_ok (playable : p.Playable) (count : α → Tally α → Tally α) :
    (s.countFailure p count).1 = .ok () := by
  obtain ⟨x, failure⟩ := playable.failure
  simp [Sampling.countFailure, failure]

theorem price_ok (playable : p.Playable) (term : Term) : (s.price p term).1 = .ok () := by
  obtain ⟨reply, answer⟩ := playable.answers term s.evaluator.oracle
  unfold Sampling.price
  rcases evaluate_cases (p := p) s.evaluator term with
    ⟨fault, _, _, failed⟩ | ⟨reply', evaluator, asked, _⟩
  · simp [answer] at failed
  · rw [asked]
    cases reply' with
    | failed why => exact countFailure_ok playable _
    | cost cost => rfl

theorem rollOnce_ok (playable : p.Playable) (keep : Bool) (inv : Tracker.Inv p.graph s.tracker) :
    (s.rollOnce p keep).1 = .ok () := by
  have wf := playable.accepted.wellFormed
  obtain ⟨b, ended⟩ := rollout_ok wf playable.reliable _ s.source (Nat.lt_succ_self _) inv
  obtain ⟨_, terminal, _⟩ := rollout_spec p.choose wf _ s.source
    (Nat.lt_succ_self _) inv
  unfold Sampling.rollOnce
  simp only [ended]
  cases b with
  | false => exact countFailure_ok playable _
  | true =>
      have pending : (rollout p.graph p.choose s.tracker s.source).tracker.pending = none := by
        simpa [Tracker.isTerminal] using terminal ended
      simp only [Tracker.toTerm, pending]
      exact price_ok playable _

theorem rollMany_ok (playable : p.Playable) (keep : Bool) (count : Nat) :
    ∀ {s : Sampling σ ρ α}, Tracker.Inv p.graph s.tracker →
      (s.rollMany p keep count).1 = .ok () := by
  induction count with
  | zero => exact fun _ => rfl
  | succ count ih =>
      intro s inv
      have rolled := rollOnce_ok playable keep inv
      have invNext := (rollOnce_spec playable.accepted.wellFormed priced_trivial keep inv
        (best_trivial _)).1
      rcases once : s.rollOnce p keep with ⟨result, next⟩
      rw [once] at rolled invNext
      obtain rfl : result = .ok () := rolled
      simp only [Sampling.rollMany, once]
      exact ih invNext

theorem evaluateLeaf_ok (playable : p.Playable) {rollouts : Number} {count : Int}
    (whole : rollouts.int? = some count) (some_rollout : count ≠ 0) {tracker : Tracker}
    (inv : Tracker.Inv p.graph tracker) (evaluator : Evaluator σ) (source : ρ) :
    ∃ leaf sampling, evaluateLeaf p rollouts tracker evaluator source = (.ok leaf, sampling) := by
  have rolled := rollMany_ok playable (decide (1 < count)) count.toNat
    (s := Sampling.start tracker evaluator source) inv
  rcases many : (Sampling.start tracker evaluator source).rollMany p (decide (1 < count))
    count.toNat with ⟨result, sampling⟩
  rw [many] at rolled
  obtain rfl : result = .ok () := rolled
  exact ⟨sampling.leaf count, sampling, by simp [evaluateLeaf, whole, many, some_rollout]⟩

end Leaf

/-! ## Playouts and batches -/

/-- The settings without which a playout may fail: a whole number of rollouts, at least one, and an
exploration weight within the scalars. -/
structure Tuning.Usable (tuning : Tuning α) : Prop where
  exploration : tuning.exploration.isSome
  rollouts : ∃ count, tuning.rollouts.int? = some count ∧ count ≠ 0

section Playouts

variable {p : Problem σ ρ α} {tuning : Tuning α} {start : Nat} {s : Progress σ α}

theorem playout_ok (playable : p.Playable) (usable : tuning.Usable)
    (faithful : Faithful p.graph s.tree) (inside : start < s.tree.size) (source : ρ) :
    ∃ leaf after, playout p tuning start source s = (.ok leaf, after) := by
  have wf := playable.accepted.wellFormed
  obtain ⟨tracker, replayed⟩ := faithful.replayed start inside
  obtain ⟨before, path, _, _⟩ := faithful.toLinked.exists_path start inside
  obtain ⟨exploration, explores⟩ := Option.isSome_iff_exists.mp usable.exploration
  obtain ⟨count, whole, some_rollout⟩ := usable.rollouts
  rcases descend_spec wf (tuning.constants Scalar.zero) _ (Nat.lt_succ_self _) faithful inside
      replayed with ⟨below, descent⟩ | ⟨missing, _⟩
  · have inv := descent.inv wf
    obtain ⟨leaf, sampling, evaluated⟩ :=
      evaluateLeaf_ok playable whole some_rollout inv s.evaluator source
    obtain ⟨credited, ok, _⟩ := credit_spec faithful inside descent path leaf.value
    exact ⟨leaf, { s with tree := credited }.afterSampling sampling, by
      simp only [playout, replayed, selectAndExpand, path, descent.path, Except.map, evaluated, ok]⟩
  · simp [Tuning.constants, explores] at missing

theorem runBatchFrom_ok {plan : Plan σ ρ α} (playable : plan.toProblem.Playable)
    (usable : plan.tuning.Usable) {limit : Option Number} (bound : Nat) :
    ∀ {ran : Nat} {budget : Budget} {s : Progress σ α}, Sane plan.toProblem (fun _ => True) s →
      start < s.tree.size →
        ∃ n, (runBatchFrom plan start limit bound ran budget s).ran = .ok n := by
  induction bound with
  | zero => exact fun _ _ => ⟨_, rfl⟩
  | succ bound ih =>
      intro ran budget s sane inside
      simp only [runBatchFrom]
      split
      · exact ⟨ran, rfl⟩
      · cases exhausted : budget.exhausted with
        | true => exact ⟨ran, by simp [Budget.claim, exhausted]⟩
        | false =>
            have wf := playable.accepted.wellFormed
            obtain ⟨leaf, after, played⟩ := playout_ok playable usable sane.faithful inside
              (plan.stream budget.claimed)
            have saneNext := sane.play wf priced_trivial inside played
            obtain ⟨_, _, playedTree⟩ :=
              (playout_spec wf priced_trivial sane.faithful inside played).played
            simp only [Budget.claim, exhausted, Bool.false_eq_true, if_false, played]
            refine ih saneNext ?_
            rw [tree_record]
            exact Nat.lt_of_lt_of_le inside playedTree.kept.size_le

end Playouts

end EGraphSearch

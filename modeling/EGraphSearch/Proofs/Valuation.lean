import EGraphSearch.Proofs.Number.Exact
import EGraphSearch.Proofs.Number.Extended
import EGraphSearch.Proofs.Search.Rolls
import EGraphSearch.Proofs.Search.Success

/-!
# Values, exactly

In exact arithmetic cheaper terms are strictly better under either transform.  A failure counts as a
cost of its own: under the reciprocal transform as an infinite one, which every success is better
than, and under the negated one as the cost that the settings name, which only the cheaper successes
are better than.  What rollouts add to a leaf are these values.
-/

set_option autoImplicit false

namespace EGraphSearch

/-! ## The reciprocal value -/

theorem reciprocalValue_of_neg {cost : ℝ} (neg : cost < 0) :
    reciprocalValue cost = 2 - (1 - cost)⁻¹ := by
  simp [reciprocalValue, Scalar.below, scalar_zero_real, neg, Scalar.one, Scalar.two, Scalar.ofNat]

theorem reciprocalValue_of_nonneg {cost : ℝ} (nonneg : 0 ≤ cost) :
    reciprocalValue cost = (1 + cost)⁻¹ := by
  simp [reciprocalValue, Scalar.below, scalar_zero_real, not_lt.mpr nonneg, Scalar.one,
    Scalar.ofNat]

theorem reciprocalValue_le_one {cost : ℝ} (nonneg : 0 ≤ cost) : reciprocalValue cost ≤ 1 := by
  rw [reciprocalValue_of_nonneg nonneg]
  exact inv_le_one_of_one_le₀ (by linarith)

theorem one_lt_reciprocalValue {cost : ℝ} (neg : cost < 0) : 1 < reciprocalValue cost := by
  have less : (1 - cost)⁻¹ < 1 := inv_lt_one_of_one_lt₀ (by linarith)
  rw [reciprocalValue_of_neg neg]
  linarith

theorem reciprocalValue_pos (cost : ℝ) : 0 < reciprocalValue cost := by
  rcases lt_or_ge cost 0 with neg | nonneg
  · exact one_pos.trans (one_lt_reciprocalValue neg)
  · rw [reciprocalValue_of_nonneg nonneg]
    positivity

theorem reciprocalValue_strictAnti : StrictAnti (reciprocalValue : ℝ → ℝ) := by
  intro a b less
  rcases lt_or_ge b 0 with neg | nonneg
  · rw [reciprocalValue_of_neg neg, reciprocalValue_of_neg (less.trans neg)]
    have steeper : (1 - a)⁻¹ < (1 - b)⁻¹ := inv_strictAnti₀ (by linarith) (by linarith)
    linarith
  · rcases lt_or_ge a 0 with negA | nonnegA
    · exact (reciprocalValue_le_one nonneg).trans_lt (one_lt_reciprocalValue negA)
    · rw [reciprocalValue_of_nonneg nonneg, reciprocalValue_of_nonneg nonnegA]
      exact inv_strictAnti₀ (by linarith) (by linarith)

/-! ## Transforms in any scalars -/

namespace Transform

section Scalars

variable {α : Type} [Scalar α]

/-- The value of a cost. -/
def ofCost (t : Transform) : α → α :=
  match t with
  | reciprocal => reciprocalValue
  | negated _ => fun cost => -cost

/-- The valuation under some reading of numbers as scalars. -/
def valuationBy (read : Number → Except Fault α) (t : Transform) : Valuation α :=
  { value := t.ofCost
    failure := t.failureValue.bind read }

end Scalars

theorem valuation_eq (t : Transform) : t.valuation = t.valuationBy toFloat := by
  cases t <;> rfl

theorem ofName_eq_ok {name failureCost : Datum} {t : Transform}
    (resolved : ofName name failureCost = .ok t) :
    name = .text "reciprocal" ∧ t = reciprocal ∨
      name = .text "negate" ∧ t = negated failureCost := by
  unfold ofName at resolved
  split at resolved
  · exact .inr ⟨rfl, (Except.ok.inj resolved).symm⟩
  · exact .inl ⟨rfl, (Except.ok.inj resolved).symm⟩
  · split at resolved <;> cases resolved

theorem ofCost_strictAnti (t : Transform) : StrictAnti (t.ofCost : ℝ → ℝ) := by
  cases t with
  | reciprocal => exact reciprocalValue_strictAnti
  | negated failureCost => exact fun a b less => neg_lt_neg less

/-! ## What a failure counts as -/

/-- The cost that a failure counts as, unless its value is not-a-number or cannot be formed. -/
noncomputable def charge? : Transform → Option EReal
  | reciprocal => some ⊤
  | negated (.number n) => n.point?
  | negated _ => none

theorem worst_lt_iff {t : Transform} {charge : EReal} (charged : t.charge? = some charge) :
    ∃ n worst, t.failureValue = .ok n ∧ n.point? = some worst ∧
      ∀ b : ℝ, worst < ((t.ofCost b : ℝ) : EReal) ↔ (b : EReal) < charge := by
  cases t with
  | reciprocal =>
      obtain rfl := Option.some.inj charged
      refine ⟨.float 0, 0, rfl, rfl, fun b => iff_of_true ?_ (EReal.coe_lt_top b)⟩
      exact EReal.coe_pos.mpr (reciprocalValue_pos b)
  | negated failureCost =>
      cases failureCost with
      | number n =>
          refine ⟨n.negate, -charge, rfl, ?_, fun b => ?_⟩
          · rw [Number.point?_negate, show n.point? = some charge from charged]
            rfl
          · rw [show ((negated (.number n)).ofCost b : ℝ) = -b from rfl, EReal.coe_neg,
              EReal.neg_lt_neg_iff]
      | _ => cases charged

theorem point?_failureValue_of_uncharged {t : Transform} (uncharged : t.charge? = none) {n : Number}
    (failure : t.failureValue = .ok n) : n.point? = none := by
  cases t with
  | reciprocal => cases uncharged
  | negated failureCost =>
      cases failureCost with
      | number m =>
          obtain rfl := Except.ok.inj failure
          rw [Number.point?_negate, show m.point? = none from uncharged]
          rfl
      | _ => cases failure

/-! ## What rollouts add -/

variable {σ ρ α : Type} [Scalar α]

/-- What a rollout adds to its leaf: the value of its cost, or that of a failure. -/
inductive Adds (t : Transform) (read : Number → Except Fault α) : Roll α → α → Prop
  | success (cost : α) : Adds t read (.evaluated (.cost cost)) (t.ofCost cost)
  | deadEnd {n : Number} {x : α} (failure : t.failureValue = .ok n) (value : read n = .ok x) :
      Adds t read .deadEnd x
  | failed {n : Number} {x : α} (why : Failure) (failure : t.failureValue = .ok n)
      (value : read n = .ok x) : Adds t read (.evaluated (.failed why)) x

theorem adds_of_worth {t : Transform} {read : Number → Except Fault α} {roll : Roll α} {x : α}
    (worth : roll.worth (t.valuationBy read) = .ok x) : t.Adds read roll x := by
  have failing (failed : (t.failureValue.bind read) = .ok x) :
      ∃ n, t.failureValue = .ok n ∧ read n = .ok x := by
    rcases failure : t.failureValue with fault | n <;> rw [failure] at failed
    · cases failed
    · exact ⟨n, rfl, failed⟩
  cases roll with
  | deadEnd =>
      obtain ⟨n, failure, value⟩ := failing worth
      exact .deadEnd failure value
  | evaluated reply =>
      cases reply with
      | cost cost =>
          obtain rfl := Except.ok.inj worth
          exact .success cost
      | failed why =>
          obtain ⟨n, failure, value⟩ := failing worth
          exact .failed why failure value

/-- A leaf is worth the mean of what its rollouts add. -/
structure Weighs (t : Transform) (read : Number → Except Fault α) (p : Problem σ ρ α)
    (start last : Sampling σ ρ α) (count : Int) (rolls : List (Roll α)) (worths : List α)
    (leaf : Leaf α) : Prop where
  number : rolls.length = count.toNat
  rolled : Sampling.Rolls p (decide (1 < count)) start rolls last
  adds : List.Forall₂ (t.Adds read) rolls worths
  mean : leaf.value = worths.foldl (· + ·) Scalar.zero / Scalar.ofInt count

theorem weighs_of_evaluateLeaf {t : Transform} {read : Number → Except Fault α} {p : Problem σ ρ α}
    (valuation : p.valuation = t.valuationBy read) {rollouts : Number} {tracker : Tracker}
    {evaluator : Evaluator σ} {source : ρ} {leaf : Leaf α} {last : Sampling σ ρ α}
    (evaluated : evaluateLeaf p rollouts tracker evaluator source = (.ok leaf, last)) :
    ∃ count rolls worths, rollouts.int? = some count ∧
      t.Weighs read p (Sampling.start tracker evaluator source) last count rolls worths leaf := by
  obtain ⟨count, rolls, worths, whole, number, rolled, worth, mean⟩ :=
    evaluateLeaf_worths evaluated
  rw [valuation] at worth
  have adds : List.Forall₂ (t.Adds read) rolls worths := worth.imp fun _ _ => adds_of_worth
  exact ⟨count, rolls, worths, whole, number, rolled, adds, mean⟩

/-- Cheaper is strictly better, and a failure is worse than exactly those successes that are cheaper
than what it counts as: than all under the reciprocal transform, and than those cheaper than the
named cost under the negated one.  These values are what rollouts add to a leaf, in any scalars. -/
theorem values_and_failures {name failureCost : Datum} {t : Transform}
    (resolved : ofName name failureCost = .ok t) :
    (name = .text "reciprocal" ∧ t = reciprocal ∨
      name = .text "negate" ∧ t = negated failureCost) ∧
    (∀ a b : ℝ, a < b → (t.ofCost b : ℝ) < t.ofCost a) ∧
    (∀ charge, t.charge? = some charge → ∃ n worst, t.failureValue = .ok n ∧
      n.point? = some worst ∧ ∀ b : ℝ, worst < ((t.ofCost b : ℝ) : EReal) ↔ (b : EReal) < charge) ∧
    (t.charge? = none → ∀ n, t.failureValue = .ok n → n.point? = none) ∧
    ∀ (read : Number → Except Fault α) (p : Problem σ ρ α), p.valuation = t.valuationBy read →
      ∀ rollouts tracker evaluator source leaf last,
        evaluateLeaf p rollouts tracker evaluator source = (.ok leaf, last) →
        ∃ count rolls worths, rollouts.int? = some count ∧
          t.Weighs read p (Sampling.start tracker evaluator source) last count rolls worths
            leaf := by
  refine ⟨ofName_eq_ok resolved, fun a b less => t.ofCost_strictAnti less, ?_, ?_, ?_⟩
  · exact fun charge charged => worst_lt_iff charged
  · exact fun uncharged n failure => point?_failureValue_of_uncharged uncharged failure
  · intro read p valuation rollouts tracker evaluator source leaf last evaluated
    exact weighs_of_evaluateLeaf valuation evaluated

/-- Failures count as ten. -/
def ten : Transform := negated (.number (.int 10))

/-- Reads whole numbers only. -/
noncomputable def readWhole : Number → Except Fault ℝ
  | .int i => .ok i
  | _ => .error .tooLarge

noncomputable def tenProblem : Problem Unit Endless ℝ where
  graph := EGraph.loopGraph
  ask _ state := (.ok (.cost 3), state)
  choose := Policy.uniform.choose
  valuation := ten.valuationBy readWhole

def tenSource : Endless := ⟨⟨[0, 1], 0⟩, by decide⟩

theorem values_and_failures_ten :
    (ten.ofCost 5 : ℝ) < ten.ofCost 3 ∧
    (∃ n worst, ten.failureValue = .ok n ∧ n.point? = some worst ∧
      worst < ((ten.ofCost 3 : ℝ) : EReal)) ∧
    ∃ leaf last count rolls worths,
      evaluateLeaf tenProblem 2 (Tracker.start EGraph.loopGraph) { oracle := () } tenSource =
        (.ok leaf, last) ∧
      ten.Weighs readWhole tenProblem
        (Sampling.start (Tracker.start EGraph.loopGraph) { oracle := () } tenSource) last count
        rolls worths leaf := by
  obtain ⟨-, decreasing, charged, -, leaves⟩ :=
    values_and_failures (α := ℝ)
      (show ofName (.text "negate") (.number (.int 10)) = .ok ten from rfl)
  obtain ⟨n, worst, failure, point, less⟩ := charged ((10 : ℤ) : ℝ) rfl
  have playable : tenProblem.Playable :=
    ⟨EGraph.loopGraph_accepted, Policy.chooseUniform_reliable Draws.bounded_endless,
      fun _ _ => ⟨_, rfl⟩, ⟨_, rfl⟩⟩
  obtain ⟨leaf, last, evaluated⟩ := evaluateLeaf_ok playable
    (show (2 : Number).int? = some 2 from rfl) two_ne_zero
    (Tracker.inv_start playable.accepted.wellFormed) { oracle := () } tenSource
  obtain ⟨count, rolls, worths, -, weighs⟩ :=
    leaves readWhole tenProblem rfl 2 _ _ _ leaf last evaluated
  refine ⟨decreasing 3 5 (by norm_num), ⟨n, worst, failure, point, (less 3).mpr ?_⟩, leaf, last,
    count, rolls, worths, evaluated, weighs⟩
  exact EReal.coe_lt_coe_iff.mpr (by norm_num)

/-- A million, at which the settings put failures unless they say otherwise. -/
theorem point?_million : (Number.float 1000000).point? = some ((1000000 : ℝ) : EReal) := by
  have unpacked : (1000000 : Float).toModel.unpack =
      .finite .positive 8589934592000000 (-33) (by decide) := rfl
  rw [Number.point?, unpacked, Doubles.point?]
  norm_num [Float.Model.UnpackedFloat.Sign.apply]

/-- A success that costs more than a failure counts as is valued below it. -/
theorem dear_success_below_failure :
    ofName (.text "negate") (.number (.float 1000000)) =
        .ok (negated (.number (.float 1000000))) ∧
      (1 : ℝ) < 2000000 ∧
      ∃ n worst, (negated (.number (.float 1000000))).failureValue = .ok n ∧
        n.point? = some worst ∧
        (((negated (.number (.float 1000000))).ofCost 2000000 : ℝ) : EReal) < worst := by
  refine ⟨rfl, by norm_num, (Number.float 1000000).negate, ((-1000000 : ℝ) : EReal), rfl, ?_, ?_⟩
  · rw [Number.point?_negate, point?_million, EReal.coe_neg]
    rfl
  · refine EReal.coe_lt_coe_iff.mpr (show -(2000000 : ℝ) < -1000000 from ?_)
    norm_num

end Transform

end EGraphSearch

import EGraphSearch.Proofs.Search.Landings
import EGraphSearch.Proofs.Valuation

/-!
# The scale of values

The exploration constant is tuned for values between zero and two, where the reciprocal transform
puts the costs: those from zero upwards at or below one, and a failure at zero.  Sums and means of
such values keep the scale, and so do the statistics of a search, however its playouts interleave.
-/

set_option autoImplicit false

namespace EGraphSearch

/-! ## Sums in the scale -/

/-- A sum of values in the scale.  Each of them is at most one if no cost behind them is below zero,
and each is zero exactly if there is no cost behind them. -/
structure Scaled (count : Nat) (sum : ℝ) (noneBelow fruitless : Prop) : Prop where
  nonneg : 0 ≤ sum
  below_two : count = 0 ∧ sum = 0 ∨ sum < 2 * count
  le_count : noneBelow → sum ≤ count
  zero_iff : sum = 0 ↔ fruitless

namespace Scaled

variable {n m : Nat} {x y : ℝ} {noneBelow noneBelow' fruitless fruitless' : Prop}

theorem add (first : Scaled n x noneBelow fruitless) (second : Scaled m y noneBelow' fruitless') :
    Scaled (n + m) (x + y) (noneBelow ∧ noneBelow') (fruitless ∧ fruitless') where
  nonneg := add_nonneg first.nonneg second.nonneg
  below_two := by
    push_cast
    rcases first.below_two with ⟨rfl, rfl⟩ | less <;>
      rcases second.below_two with ⟨rfl, rfl⟩ | less'
    · exact .inl ⟨rfl, add_zero 0⟩
    · exact .inr (by simpa using less')
    · exact .inr (by simpa using less)
    · exact .inr (by linarith)
  le_count both := by
    push_cast
    exact add_le_add (first.le_count both.1) (second.le_count both.2)
  zero_iff := by
    rw [add_eq_zero_iff_of_nonneg first.nonneg second.nonneg, first.zero_iff, second.zero_iff]

theorem sum {β : Type} {noneBelow fruitless : β → Prop} {items : List β} {values : List ℝ}
    (each : List.Forall₂ (fun item x => Scaled 1 x (noneBelow item) (fruitless item)) items
      values) :
    Scaled items.length values.sum (∀ item ∈ items, noneBelow item)
      (∀ item ∈ items, fruitless item) := by
  induction each with
  | nil => exact ⟨le_rfl, .inl ⟨rfl, rfl⟩, fun _ => le_of_eq Nat.cast_zero.symm, by simp⟩
  | cons here _ ih =>
      rw [List.length_cons, List.sum_cons, Nat.add_comm]
      simpa only [List.forall_mem_cons] using here.add ih

theorem mean (scaled : Scaled n x noneBelow fruitless) (some_value : n ≠ 0) (times : y * n = x) :
    Scaled 1 y noneBelow fruitless := by
  have pos : (0 : ℝ) < n := Nat.cast_pos.mpr (Nat.pos_of_ne_zero some_value)
  subst times
  refine ⟨(mul_nonneg_iff_of_pos_right pos).mp scaled.nonneg, .inr ?_, fun noneBelow => ?_, ?_⟩
  · rw [Nat.cast_one, mul_one]
    have less := scaled.below_two.resolve_left fun empty => some_value empty.1
    exact lt_of_mul_lt_mul_right less pos.le
  · rw [Nat.cast_one]
    have le := scaled.le_count noneBelow
    exact le_of_mul_le_mul_right (by rwa [one_mul]) pos
  · rw [← scaled.zero_iff, mul_eq_zero, or_iff_left pos.ne']

end Scaled

/-! ## Rollouts and leaves -/

def Roll.cost? {α : Type} : Roll α → Option α
  | .evaluated reply => reply.cost?
  | .deadEnd => none

theorem reciprocalValue_lt_two (cost : ℝ) : reciprocalValue cost < 2 := by
  rcases lt_or_ge cost 0 with neg | nonneg
  · have pos : 0 < (1 - cost)⁻¹ := inv_pos.mpr (by linarith)
    rw [reciprocalValue_of_neg neg]
    linarith
  · exact (reciprocalValue_le_one nonneg).trans_lt one_lt_two

theorem scalar_ofInt_real (i : Int) : (Scalar.ofInt i : ℝ) = i := by
  unfold Scalar.ofInt
  split
  · rename_i neg
    show -(i.natAbs : ℝ) = i
    rw [Nat.cast_natAbs, abs_of_neg neg, Int.cast_neg, neg_neg]
  · rename_i nonneg
    show (i.natAbs : ℝ) = i
    rw [Nat.cast_natAbs, abs_of_nonneg (Int.not_lt.mp nonneg)]

section Leaves

variable {read : Number → Except Fault ℝ}

theorem Scaled.barren {noneBelow : Prop} : Scaled 1 0 noneBelow True :=
  ⟨le_rfl, .inr (by norm_num), fun _ => by norm_num, iff_of_true rfl trivial⟩

theorem scaled_worth (zero : read (.float 0) = .ok 0) {roll : Roll ℝ} {x : ℝ}
    (worth : roll.worth (Transform.reciprocal.valuationBy read) = .ok x) :
    Scaled 1 x (∀ cost, roll.cost? = some cost → 0 ≤ cost) (roll.cost? = none) := by
  have failing : ∀ {n : Number}, Transform.reciprocal.failureValue = .ok n → read n = .ok x →
      x = 0 := by
    rintro n ⟨⟩ value
    exact Except.ok.inj (value.symm.trans zero)
  cases Transform.adds_of_worth worth with
  | success cost =>
      have pos : 0 < reciprocalValue cost := reciprocalValue_pos cost
      refine ⟨pos.le, .inr ?_, fun noneBelow => ?_, iff_of_false pos.ne' (Option.some_ne_none _)⟩
      · rw [Nat.cast_one, mul_one]
        exact reciprocalValue_lt_two cost
      · rw [Nat.cast_one]
        exact reciprocalValue_le_one (noneBelow cost rfl)
  | deadEnd failure value =>
      obtain rfl := failing failure value
      simpa [Roll.cost?] using Scaled.barren
  | failed why failure value =>
      obtain rfl := failing failure value
      simpa [Roll.cost?, Reply.cost?] using Scaled.barren

theorem scaled_landing (zero : read (.float 0) = .ok 0) {rollouts : Number} {landing : Landing ℝ}
    (scored : landing.Scored (Transform.reciprocal.valuationBy read) rollouts) :
    Scaled 1 landing.value (∀ roll ∈ landing.rolls, ∀ cost, roll.cost? = some cost → 0 ≤ cost)
      (∀ roll ∈ landing.rolls, roll.cost? = none) := by
  obtain ⟨count, worths, -, number, each, value⟩ := scored
  have scaled := Scaled.sum (each.imp fun _ _ worth => scaled_worth zero worth)
  rw [value, foldl_add_real, scalar_ofInt_real]
  by_cases empty : landing.rolls.length = 0
  · -- No rollouts add nothing, whatever the sum is divided by.
    have noRolls := List.length_eq_zero_iff.mp empty
    rw [noRolls] at each ⊢
    cases each
    simpa using Scaled.barren
  · have whole : (count : ℝ) = landing.rolls.length := by
      have same : count = (landing.rolls.length : Int) := by omega
      rw [same, Int.cast_natCast]
    rw [whole]
    exact scaled.mean empty (div_mul_cancel₀ _ (Nat.cast_ne_zero.mpr empty))

end Leaves

/-! ## Statistics -/

/-- The statistics of a node are in the scale of the landings through it. -/
structure SearchNode.InScale (n : SearchNode ℝ) (landings : List (Landing ℝ)) : Prop where
  visits_eq : n.visits = landings.length
  nonneg : 0 ≤ n.total
  lt_two_mul : n.visits ≠ 0 → n.total < 2 * n.visits
  le_visits : (∀ landing ∈ landings, ∀ roll ∈ landing.rolls, ∀ cost, roll.cost? = some cost →
    0 ≤ cost) → n.total ≤ n.visits
  zero_iff : n.total = 0 ↔ ∀ landing ∈ landings, ∀ roll ∈ landing.rolls, roll.cost? = none
  mean_mem : 0 ≤ n.mean ∧ n.mean < 2

section Plans

variable {σ ρ : Type}

theorem Banked.inScale {p : Problem σ ρ ℝ} {tuning : Tuning ℝ} {s : Progress σ ℝ}
    {aloft : List (Aloft σ ρ ℝ)} {landings : List (Landing ℝ)}
    (banked : Banked p tuning s aloft landings) {read : Number → Except Fault ℝ}
    (valuation : p.valuation = Transform.reciprocal.valuationBy read)
    (zero : read (.float 0) = .ok 0) (v : Nat) :
    (s.tree.node v).InScale (landingsThrough v landings) := by
  have visits := banked.visits_eq v
  have total := banked.total_eq v
  rw [foldl_add_real] at total
  have each : List.Forall₂ (fun landing x => Scaled 1 x
      (∀ roll ∈ landing.rolls, ∀ cost, roll.cost? = some cost → 0 ≤ cost)
      (∀ roll ∈ landing.rolls, roll.cost? = none))
      (landingsThrough v landings) ((landingsThrough v landings).map Landing.value) := by
    rw [List.forall₂_map_right_iff, List.forall₂_same]
    intro landing member
    have scored := banked.scored landing (List.mem_of_mem_filter member)
    rw [valuation] at scored
    exact scaled_landing zero scored
  have scaled := Scaled.sum each
  rw [← visits, ← total] at scaled
  have below : (s.tree.node v).visits ≠ 0 → (s.tree.node v).total < 2 * (s.tree.node v).visits :=
    fun visited => scaled.below_two.resolve_left fun empty => visited empty.1
  refine ⟨visits, scaled.nonneg, below, scaled.le_count, scaled.zero_iff, ?_⟩
  unfold SearchNode.mean
  split
  · rw [scalar_zero_real]
    norm_num
  · rename_i visited
    have mean := scaled.mean visited (div_mul_cancel₀ _ (Nat.cast_ne_zero.mpr visited))
    have less := mean.below_two.resolve_left fun empty => one_ne_zero empty.1
    rw [Nat.cast_one, mul_one] at less
    exact ⟨mean.nonneg, less⟩

/-- Under the reciprocal transform, however playouts interleave and whatever the oracle says: the
total of a node is the sum of the values of the playouts that have landed through it, from zero to
less than twice their number, at most their number if no cost was below zero, and zero exactly if
every rollout was a dead end or had no price.  Every extraction, also one that ends with a fault, is
such a run of playouts. -/
theorem values_stay_in_scale {plan : Plan σ ρ ℝ} (accepted : plan.graph.Accepted)
    {read : Number → Except Fault ℝ}
    (valuation : plan.valuation = Transform.reciprocal.valuationBy read)
    (zero : read (.float 0) = .ok 0) :
    (∀ s aloft landings, Playing plan.toProblem plan.tuning s aloft landings →
      s.playouts = landings.length ∧
        ∀ v, (s.tree.node v).InScale (landingsThrough v landings)) ∧
    ∀ oracle, ∃ landings,
      Playing plan.toProblem plan.tuning (extract plan oracle).2 [] landings := by
  have wf := accepted.wellFormed
  refine ⟨fun s aloft landings playing => ?_, playing_extract wf⟩
  have banked := playing.banked wf
  exact ⟨banked.playouts_eq, banked.inScale valuation zero⟩

end Plans

/-! ## A small run -/

/-- Reads a number as the real number it denotes. -/
noncomputable def readExact (n : Number) : Except Fault ℝ :=
  match n.point? with
  | some point => .ok point.toReal
  | none => .error .tooLarge

theorem readExact_zero : readExact (.float 0) = .ok 0 := congrArg Except.ok EReal.toReal_zero

/-- Three playouts on the graph with a cycle, by one worker. -/
noncomputable def scalePlan : Plan Unit Endless ℝ where
  toProblem :=
    { Transform.tenProblem with valuation := Transform.reciprocal.valuationBy readExact }
  tuning := { loopTuning with workers := 1 }
  maxPlayouts := some 3
  timeLimit := none
  stream _ := Transform.tenSource
  lastStream := Transform.tenSource
  summarised := false

theorem scalePlan_playable : scalePlan.toProblem.Playable where
  accepted := EGraph.loopGraph_accepted
  reliable := Policy.chooseUniform_reliable Draws.bounded_endless
  answers _ _ := ⟨_, rfl⟩
  failure := ⟨0, readExact_zero⟩

/-- One playout has landed; and a whole extraction. -/
theorem values_stay_in_scale_small :
    scalePlan.graph.Accepted ∧
    scalePlan.valuation = Transform.reciprocal.valuationBy readExact ∧
    readExact (.float 0) = .ok 0 ∧
    (∃ s landing, Playing scalePlan.toProblem scalePlan.tuning s [] [landing] ∧
      ∀ v, (s.tree.node v).InScale (landingsThrough v [landing])) ∧
    ∃ landings, Playing scalePlan.toProblem scalePlan.tuning (extract scalePlan ()).2 [] landings ∧
      ∀ v, ((extract scalePlan ()).2.tree.node v).InScale (landingsThrough v landings) := by
  have accepted : scalePlan.graph.Accepted := EGraph.loopGraph_accepted
  obtain ⟨scaled, extracted⟩ := values_stay_in_scale accepted rfl readExact_zero
  have usable : scalePlan.tuning.Usable := ⟨rfl, 1, rfl, one_ne_zero⟩
  have fresh : Playing scalePlan.toProblem scalePlan.tuning (Progress.initial ()) [] [] := .fresh ()
  have landed : ∃ s landing, Playing scalePlan.toProblem scalePlan.tuning s [] [landing] := by
    obtain ⟨leaf, after, played⟩ := playout_ok scalePlan_playable usable
      (s := Progress.initial ()) faithful_initial Nat.one_pos Transform.tenSource
    rcases fresh.playout accepted.wellFormed 0 Transform.tenSource with
      ⟨_, _, failed, -⟩ | ⟨_, _, landing, _, onward⟩
    · cases played.symm.trans failed
    · exact ⟨_, landing, onward⟩
  obtain ⟨s, landing, playing⟩ := landed
  obtain ⟨landings, whole⟩ := extracted ()
  exact ⟨accepted, rfl, readExact_zero, ⟨s, landing, playing, (scaled _ _ _ playing).2⟩, landings,
    whole, (scaled _ _ _ whole).2⟩

end EGraphSearch

import EGraphSearch.Proofs.Number.Sum
import EGraphSearch.Sample.EffectSize

/-!
# The sign of the effect

In exact arithmetic the effect size is the difference of the two means, measured in pooled standard
deviations: positive where the candidate is cheaper, and opposite when the samples change places.
Samples that hardly vary have no effect, however far apart they lie.
-/

set_option autoImplicit false

namespace EGraphSearch.Sample

-- quotients here are those of the field of reals, which division of scalars comes to
attribute [-instance] Scalar.toDiv

/-! ## Moments -/

noncomputable def average (xs : List ℝ) : ℝ := xs.sum / xs.length

/-- The squared distances from the average, summed. -/
noncomputable def scatter (xs : List ℝ) : ℝ := (xs.map fun x => (x - average xs) ^ 2).sum

/-- The pooled standard deviation: two degrees of freedom are taken off, one for each average. -/
noncomputable def spread (xs ys : List ℝ) : ℝ :=
  √((scatter xs + scatter ys) / (xs.length + ys.length - 2 : ℕ))

theorem mean_real (xs : List ℝ) : mean xs = average xs := by
  rw [mean, Sum.total_real, average]
  rfl

theorem variance_real {xs : List ℝ} (some_values : 2 ≤ xs.length) :
    Scalar.ofNat (xs.length - 1) * variance 1 xs = scatter xs := by
  have pos : ((xs.length - 1 : ℕ) : ℝ) ≠ 0 := Nat.cast_ne_zero.mpr (by omega)
  have distances : squaredDistances xs = scatter xs := by
    simp only [squaredDistances, Sum.total_real, mean_real, scatter, pow_two]
  rw [variance, distances]
  exact mul_div_cancel₀ (scatter xs) pos

theorem spread_comm (xs ys : List ℝ) : spread xs ys = spread ys xs := by
  rw [spread, spread, add_comm (scatter xs), add_comm xs.length]

theorem distances_nonneg (xs : List ℝ) :
    ∀ distance ∈ xs.map fun x => (x - average xs) ^ 2, 0 ≤ distance := by
  intro distance member
  obtain ⟨x, _, rfl⟩ := List.mem_map.mp member
  exact sq_nonneg _

theorem scatter_nonneg (xs : List ℝ) : 0 ≤ scatter xs := List.sum_nonneg (distances_nonneg xs)

theorem scatter_eq_zero_iff (xs : List ℝ) : scatter xs = 0 ↔ ∀ x ∈ xs, x = average xs := by
  constructor
  · intro zero x member
    have distance := List.all_zero_of_le_zero_le_of_sum_eq_zero (distances_nonneg xs) zero
      (List.mem_map_of_mem member)
    exact sub_eq_zero.mp ((pow_eq_zero_iff two_ne_zero).mp distance)
  · intro constant
    refine List.sum_eq_zero fun distance member => ?_
    obtain ⟨x, listed, rfl⟩ := List.mem_map.mp member
    rw [← constant x listed, sub_self]
    exact zero_pow two_ne_zero

/-! ## The effect -/

section Samples

variable {candidate baseline : List ℝ}

theorem pooledDeviation_real (candidates : 2 ≤ candidate.length)
    (baselines : 2 ≤ baseline.length) :
    pooledDeviation candidate baseline = spread candidate baseline := by
  rw [pooledDeviation, variance_real candidates, variance_real baselines]
  rfl

theorem leastDeviation_real : (leastDeviation : ℝ) = 1 / 10 ^ 8 := by
  show ((1 : ℕ) : ℝ) / ((100000000 : ℕ) : ℝ) = _
  norm_num

theorem effectSize_real (candidates : 2 ≤ candidate.length) (baselines : 2 ≤ baseline.length) :
    effectSize candidate baseline =
      if 1 / 10 ^ 8 < spread candidate baseline then
        (average baseline - average candidate) / spread candidate baseline
      else 0 := by
  have enough : (decide (candidate.length < 2) || decide (baseline.length < 2)) = false := by
    simp only [Bool.or_eq_false_iff, decide_eq_false_iff_not]
    omega
  simp only [effectSize, enough, Bool.false_eq_true, if_false, pooledDeviation_real candidates
    baselines, leastDeviation_real, mean_real, scalar_zero_real]
  simp only [Scalar.below, decide_eq_true_eq]

theorem effectSize_of_lt (candidates : 2 ≤ candidate.length) (baselines : 2 ≤ baseline.length)
    (varied : 1 / 10 ^ 8 < spread candidate baseline) : effectSize candidate baseline =
      (average baseline - average candidate) / spread candidate baseline := by
  rw [effectSize_real candidates baselines, if_pos varied]

theorem effectSize_of_le (candidates : 2 ≤ candidate.length) (baselines : 2 ≤ baseline.length)
    (tight : spread candidate baseline ≤ 1 / 10 ^ 8) : effectSize candidate baseline = 0 := by
  rw [effectSize_real candidates baselines, if_neg (not_lt.mpr tight)]

theorem effectSize_swap (candidates : 2 ≤ candidate.length) (baselines : 2 ≤ baseline.length) :
    effectSize baseline candidate = -effectSize candidate baseline := by
  rw [effectSize_real candidates baselines, effectSize_real baselines candidates,
    spread_comm baseline]
  split
  · rw [← neg_div, neg_sub]
  · exact neg_zero.symm

theorem effectSize_pos_iff (candidates : 2 ≤ candidate.length) (baselines : 2 ≤ baseline.length) :
    0 < effectSize candidate baseline ↔
      average candidate < average baseline ∧ 1 / 10 ^ 8 < spread candidate baseline := by
  by_cases varied : 1 / 10 ^ 8 < spread candidate baseline
  · have pos : 0 < spread candidate baseline := lt_trans (by norm_num) varied
    rw [effectSize_of_lt candidates baselines varied, div_pos_iff_of_pos_right pos, sub_pos]
    exact (and_iff_left varied).symm
  · rw [effectSize_of_le candidates baselines (not_lt.mp varied)]
    exact iff_of_false (lt_irrefl 0) fun both => varied both.2

theorem effectSize_eq_zero_iff (candidates : 2 ≤ candidate.length)
    (baselines : 2 ≤ baseline.length) : effectSize candidate baseline = 0 ↔
      average candidate = average baseline ∨ spread candidate baseline ≤ 1 / 10 ^ 8 := by
  by_cases varied : 1 / 10 ^ 8 < spread candidate baseline
  · have pos : 0 < spread candidate baseline := lt_trans (by norm_num) varied
    rw [effectSize_of_lt candidates baselines varied, div_eq_zero_iff, or_iff_left pos.ne',
      sub_eq_zero, or_iff_left (not_le.mpr varied)]
    exact eq_comm
  · have tight := not_lt.mp varied
    exact iff_of_true (effectSize_of_le candidates baselines tight) (.inr tight)

theorem spread_eq_zero_iff (candidates : 2 ≤ candidate.length) (baselines : 2 ≤ baseline.length) :
    spread candidate baseline = 0 ↔
      (∀ x ∈ candidate, x = average candidate) ∧ ∀ x ∈ baseline, x = average baseline := by
  have both := add_nonneg (scatter_nonneg candidate) (scatter_nonneg baseline)
  have freedom : (0 : ℝ) < (candidate.length + baseline.length - 2 : ℕ) :=
    Nat.cast_pos.mpr (by omega)
  rw [spread, Real.sqrt_eq_zero (div_nonneg both freedom.le), div_eq_zero_iff,
    or_iff_left freedom.ne', add_eq_zero_iff_of_nonneg (scatter_nonneg candidate)
    (scatter_nonneg baseline), scatter_eq_zero_iff, scatter_eq_zero_iff]

/-- The effect changes its sign with the order of the samples.  It is positive exactly if the
candidate is cheaper on average and the samples vary enough, and zero exactly if the averages are
equal or the samples hardly vary, as constant ones do. -/
theorem effect_size_favours_cheaper (candidates : 2 ≤ candidate.length)
    (baselines : 2 ≤ baseline.length) :
    effectSize baseline candidate = -effectSize candidate baseline ∧
    (0 < effectSize candidate baseline ↔
      average candidate < average baseline ∧ 1 / 10 ^ 8 < spread candidate baseline) ∧
    (effectSize candidate baseline = 0 ↔
      average candidate = average baseline ∨ spread candidate baseline ≤ 1 / 10 ^ 8) ∧
    (1 / 10 ^ 8 < spread candidate baseline → effectSize candidate baseline =
      (average baseline - average candidate) / spread candidate baseline) ∧
    (spread candidate baseline = 0 ↔
      (∀ x ∈ candidate, x = average candidate) ∧ ∀ x ∈ baseline, x = average baseline) :=
  ⟨effectSize_swap candidates baselines, effectSize_pos_iff candidates baselines,
    effectSize_eq_zero_iff candidates baselines, effectSize_of_lt candidates baselines,
    spread_eq_zero_iff candidates baselines⟩

end Samples

/-! ## Two pairs of samples -/

/-- Costs of one and three against costs of two and six. -/
theorem effect_size_favours_cheaper_apart :
    2 ≤ ([1, 3] : List ℝ).length ∧ 2 ≤ ([2, 6] : List ℝ).length ∧
    0 < effectSize ([1, 3] : List ℝ) [2, 6] ∧ effectSize ([2, 6] : List ℝ) [1, 3] < 0 := by
  obtain ⟨swap, positive, -⟩ := @effect_size_favours_cheaper [1, 3] [2, 6]
    le_rfl le_rfl
  have cheaper : average [1, 3] < average [2, 6] := by norm_num [average]
  have varied : 1 / 10 ^ 8 < spread [1, 3] [2, 6] :=
    Real.lt_sqrt_of_sq_lt (by norm_num [scatter, average])
  have pos := positive.mpr ⟨cheaper, varied⟩
  exact ⟨le_rfl, le_rfl, pos, by rw [swap]; exact neg_neg_of_pos pos⟩

/-- The candidate costs one, the baseline two and hardly more: cheaper, and without effect. -/
theorem tight_samples_have_no_effect :
    2 ≤ ([1, 1] : List ℝ).length ∧ 2 ≤ ([2, 2 + 1 / 2 ^ 30] : List ℝ).length ∧
    average [1, 1] < average [2, 2 + 1 / 2 ^ 30] ∧
    effectSize ([1, 1] : List ℝ) [2, 2 + 1 / 2 ^ 30] = 0 := by
  have tight : spread [1, 1] [2, 2 + 1 / 2 ^ 30] ≤ 1 / 10 ^ 8 :=
    Real.sqrt_le_iff.mpr ⟨by norm_num, by norm_num [scatter, average]⟩
  exact ⟨le_rfl, le_rfl, by norm_num [average], effectSize_of_le le_rfl le_rfl tight⟩

end EGraphSearch.Sample

import EGraphSearch.Scalar
import Mathlib.Analysis.SpecialFunctions.Log.Basic
import Mathlib.Analysis.SpecialFunctions.Sqrt

/-!
# Exact scalars

The real numbers as scalars: no sum is rounded, and no scalar is infinite.
-/

set_option autoImplicit false

namespace EGraphSearch

open Classical in
noncomputable instance : Scalar ℝ where
  ofNat n := n
  below x y := decide (x < y)
  atMost x y := decide (x ≤ y)
  sqrt := Real.sqrt
  log := Real.log
  belowInfinity _ := true

theorem scalar_zero_real : (Scalar.zero : ℝ) = 0 := Nat.cast_zero

theorem foldl_add_real (xs : List ℝ) : xs.foldl (· + ·) Scalar.zero = xs.sum := by
  rw [scalar_zero_real, List.sum_eq_foldl]

theorem scalar_max_real (x y : ℝ) : Scalar.max x y = max x y := by
  have unfolded : Scalar.max x y = if x < y then y else x := by
    simp [Scalar.max, Scalar.below]
  rw [unfolded]
  split
  · rename_i less
    exact (max_eq_right (le_of_lt less)).symm
  · rename_i notLess
    exact (max_eq_left (not_lt.mp notLess)).symm

end EGraphSearch

import EGraphSearch.Number.Binary64
import Mathlib

/-!
# Whole numbers beyond the doubles

The largest finite double is `(2 ^ 53 - 1) * 2 ^ 971`, and half a last place above it numbers
already round to infinity.  So a whole number has a nearest double exactly if its magnitude is
below `(2 ^ 54 - 1) * 2 ^ 970`.
-/

set_option autoImplicit false

namespace EGraphSearch.Binary64

open Float.Model

/-! ## Infinite bit patterns -/

theorem infinityBits_eq : infinityBits = 2047 * 2 ^ 52 := by decide

theorem unpackExponent_ne {bits : UInt64} (small : bits.toNat < infinityBits) :
    @UnpackedFloat.unpackExponent Format.binary64 bits.toBitVec ≠ -1#11 := by
  intro full
  have field := congrArg BitVec.toNat full
  rw [UnpackedFloat.unpackExponent_def, BitVec.extractLsb'_toNat, UInt64.toNat_toBitVec,
    Nat.shiftRight_eq_div_pow] at field
  have field : bits.toNat / 2 ^ 52 % 2 ^ 11 = 2047 := field
  have := infinityBits_eq
  omega

theorem isInf_ofBits_of_lt {bits : UInt64} (small : bits.toNat < infinityBits) :
    (Float.ofBits bits).isInf = false := by
  have notFull := unpackExponent_ne small
  have valid : Format.binary64.Valid bits.toBitVec := ⟨fun full => absurd full notFull⟩
  have back : (Float.ofBits bits).isInf =
      (UnpackedFloat.unpack Format.binary64 bits.toBitVec).isInf := by
    show (UnpackedFloat.unpack Format.binary64 (UnpackedFloat.pack Format.binary64 _)).isInf = _
    rw [UnpackedFloat.pack_unpack_of_valid valid]
  rw [back]
  unfold UnpackedFloat.unpack
  rw [if_neg notFull]
  split
  · split <;> rfl
  · rfl

theorem isInf_ofBits_iff {bits : Nat} (bounded : bits ≤ infinityBits) :
    (Float.ofBits bits.toUInt64).isInf = true ↔ bits = infinityBits := by
  constructor
  · intro infinite
    by_contra other
    have fits : bits.toUInt64.toNat = bits := UInt64.toNat_ofNat_of_lt' (by
      have : UInt64.size = 2 ^ 64 := rfl
      have := infinityBits_eq
      omega)
    have finite := isInf_ofBits_of_lt (show bits.toUInt64.toNat < infinityBits by omega)
    rw [infinite] at finite
    cases finite
  · rintro rfl
    decide

/-! ## Rounding -/

/-- A tie next to an odd number goes up. -/
theorem lt_roundDiv_iff {num den q : Nat} (pos : 0 < den) (odd : q % 2 = 1) :
    q < roundDiv num den ↔ (2 * q + 1) * den ≤ 2 * num := by
  have whole := Nat.div_add_mod num den
  have rest := Nat.mod_lt num pos
  have expand : (2 * q + 1) * den = 2 * (den * q) + den := by ring
  simp only [roundDiv]
  rcases Nat.lt_trichotomy (num / den) q with below | same | above
  · have : den * (num / den) + den ≤ den * q := by
      rw [← Nat.mul_succ]
      exact Nat.mul_le_mul_left den below
    split
    · omega
    · split <;> omega
  · rw [same] at whole ⊢
    split
    · omega
    · split <;> omega
  · have : den * q + den ≤ den * (num / den) := by
      rw [← Nat.mul_succ]
      exact Nat.mul_le_mul_left den above
    split
    · omega
    · split <;> omega

theorem roundDiv_le_succ (num den : Nat) : roundDiv num den ≤ num / den + 1 := by
  simp only [roundDiv]
  split
  · omega
  · split <;> omega

theorem le_roundDiv (num den : Nat) : num / den ≤ roundDiv num den := by
  simp only [roundDiv]
  split
  · omega
  · split <;> omega

theorem floorLog2_one (n : Nat) (pos : n ≠ 0) : floorLog2 n 1 = n.log2 := by
  have reached : 2 ^ n.log2 ≤ n := Nat.log2_self_le pos
  have start : (n.log2 : Int) - ((1 : Nat).log2 : Int) = Int.ofNat n.log2 :=
    Int.sub_zero _
  simp only [floorLog2, start, Nat.one_mul, Nat.pow_eq, reached, decide_true, if_true]
  rfl

/-- The bits of a number that needs at least the full significand. -/
theorem nearestBits_large {n k : Nat} (size : n.log2 = k + 52) :
    nearestBits n 1 = min ((k + 1074) * 2 ^ 52 + roundDiv n (2 ^ k)) infinityBits := by
  have pos : n ≠ 0 := by
    rintro rfl
    simp at size
  have unit : max (((k + 52 : Nat) : Int) - 52) leastUnit = Int.ofNat k := by
    simp only [leastUnit, Int.ofNat_eq_natCast]
    omega
  have places : (Int.ofNat k - leastUnit).toNat = k + 1074 := by
    simp only [leastUnit, Int.ofNat_eq_natCast]
    omega
  simp only [nearestBits, if_neg pos, floorLog2_one n pos, size, unit, places, roundInUnits,
    Nat.one_mul]
  rfl

theorem nearestBits_small {n : Nat} (size : n.log2 < 52) : nearestBits n 1 < infinityBits := by
  have limit := infinityBits_eq
  by_cases zero : n = 0
  · subst zero
    decide
  · obtain ⟨k, total⟩ : ∃ k, n.log2 + (k + 1) = 52 := ⟨51 - n.log2, by omega⟩
    have unit : max ((n.log2 : Int) - 52) leastUnit = Int.negSucc k := by
      simp only [leastUnit]
      omega
    have places : (Int.negSucc k - leastUnit).toNat = n.log2 + 1022 := by
      simp only [leastUnit]
      omega
    have significand : roundDiv (n * 2 ^ (k + 1)) 1 ≤ 2 ^ 53 := by
      have below : n < 2 ^ (n.log2 + 1) := Nat.lt_log2_self
      have shifted : n * 2 ^ (k + 1) < 2 ^ (n.log2 + 1) * 2 ^ (k + 1) :=
        Nat.mul_lt_mul_of_pos_right below (by positivity)
      rw [← Nat.pow_add, show n.log2 + 1 + (k + 1) = 53 by omega] at shifted
      have := roundDiv_le_succ (n * 2 ^ (k + 1)) 1
      rw [Nat.div_one] at this
      omega
    have bits : nearestBits n 1 ≤ (n.log2 + 1022) * 2 ^ 52 + roundDiv (n * 2 ^ (k + 1)) 1 := by
      simp only [nearestBits, if_neg zero, floorLog2_one n zero, unit, places, roundInUnits]
      exact Nat.min_le_left _ _
    omega

theorem nearestBits_eq_infinity_iff (n : Nat) :
    nearestBits n 1 = infinityBits ↔ (2 ^ 54 - 1) * 2 ^ 970 ≤ n := by
  have limit := infinityBits_eq
  have below : n < 2 ^ (n.log2 + 1) := Nat.lt_log2_self
  -- the power stays folded: it is too long a numeral to compute with
  obtain ⟨unit, power⟩ : ∃ unit, unit = 2 ^ 970 := ⟨_, rfl⟩
  rw [← power]
  have raised (j k : Nat) (le : j + 970 ≤ k) : 2 ^ j * unit ≤ 2 ^ k := by
    rw [power, ← Nat.pow_add]
    exact Nat.pow_le_pow_right (by decide) le
  have lowered (j k : Nat) (le : k ≤ j + 970) : 2 ^ k ≤ 2 ^ j * unit := by
    rw [power, ← Nat.pow_add]
    exact Nat.pow_le_pow_right (by decide) le
  by_cases size : n.log2 < 52
  · have finite := nearestBits_small size
    have := lowered 0 (n.log2 + 1) (by omega)
    omega
  · obtain ⟨k, size⟩ : ∃ k, n.log2 = k + 52 := ⟨n.log2 - 52, by omega⟩
    have above : 2 ^ (k + 52) ≤ n := size ▸ Nat.log2_self_le (by rintro rfl; simp at size)
    rw [size, show k + 52 + 1 = k + 53 from rfl] at below
    have least : 2 ^ 52 ≤ roundDiv n (2 ^ k) := by
      refine le_trans ?_ (le_roundDiv _ _)
      rw [Nat.le_div_iff_mul_le (Nat.two_pow_pos k), ← Nat.pow_add, Nat.add_comm]
      exact above
    have most : roundDiv n (2 ^ k) ≤ 2 ^ 53 := by
      refine le_trans (roundDiv_le_succ _ _) (Nat.succ_le_of_lt ?_)
      rw [Nat.div_lt_iff_lt_mul (Nat.two_pow_pos k), ← Nat.pow_add, Nat.add_comm]
      exact below
    rw [nearestBits_large size]
    rcases Nat.lt_trichotomy k 971 with small | edge | large
    · have := lowered 53 (k + 53) (by omega)
      omega
    · have odd : (2 ^ 53 - 1) % 2 = 1 := by decide
      have tie := @lt_roundDiv_iff n (2 ^ k) (2 ^ 53 - 1) (Nat.two_pow_pos k) odd
      have doubled : 2 ^ k = 2 * unit :=
        le_antisymm (lowered 1 k (by omega)) (raised 1 k (by omega))
      rw [doubled] at tie least most ⊢
      omega
    · have := raised 54 (k + 52) (by omega)
      omega

theorem ofInt?_eq_none_iff (i : Int) :
    ofInt? i = none ↔ (2 ^ 54 - 1) * 2 ^ 970 ≤ i.natAbs := by
  rw [← nearestBits_eq_infinity_iff, ← isInf_ofBits_iff]
  · have unfolded : ofInt? i = if (Float.ofBits (nearestBits i.natAbs 1).toUInt64).isInf then none
        else some (if i < 0 then -ofRatio i.natAbs 1 else ofRatio i.natAbs 1) := rfl
    rw [unfolded]
    generalize (Float.ofBits (nearestBits i.natAbs 1).toUInt64).isInf = infinite
    cases infinite <;> simp
  · unfold nearestBits
    split
    · exact Nat.zero_le _
    · exact Nat.min_le_right _ _

end EGraphSearch.Binary64

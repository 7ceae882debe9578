import EGraphSearch.Proofs.Number.Doubles
import EGraphSearch.Proofs.Number.Overflow
import EGraphSearch.Proofs.Number.Rounding

/-!
# What doubles stand for

A finite double stands for a real number.  Sums, differences and quotients of doubles are near those
of the real numbers, by one rounding (two for a quotient), opposites and absolute values are exact,
and the order of doubles is the order of what they stand for.  Whole numbers below `2 ^ 52` and
fractions with the denominator `2 ^ 53` stand for themselves.
-/

set_option autoImplicit false

namespace EGraphSearch.Rounding

open Float.Model
open Float.Model.UnpackedFloat (Sign)
open Doubles (point? point?_neg unpack_neg placeOf)

-- quotients of reals are those of the field
attribute [-instance] Scalar.toDiv

/-- The double is finite and stands for the number. -/
def Stands (x : Float) (v : ℝ) : Prop := point? x.toModel.unpack = some (v : EReal)

/-- The double is finite, and what it stands for is not farther than `err` from `v`. -/
def Near (x : Float) (v err : ℝ) : Prop := ∃ w, Stands x w ∧ |w - v| ≤ err

section Values

variable {x y : Float} {v w a b : ℝ} {N : Int}

theorem Stands.unique (first : Stands x v) (second : Stands x w) : v = w :=
  EReal.coe_eq_coe_iff.mp (Option.some.inj (first.symm.trans second))

theorem Stands.near (stands : Stands x v) : Near x v 0 := ⟨v, stands, by simp⟩

theorem Stands.canonical (stands : Stands x v) : Canonical x.toModel.unpack := by
  apply canonical_of_isFinite
  change x.toModel.unpack.isFinite = true
  unfold Stands at stands
  cases unpacked : x.toModel.unpack with
  | notANumber =>
      rw [unpacked] at stands
      cases stands
  | infinity s =>
      rw [unpacked] at stands
      cases s with
      | positive => exact absurd (Option.some.inj stands).symm (EReal.coe_ne_top v)
      | negative => exact absurd (Option.some.inj stands).symm (EReal.coe_ne_bot v)
  | zero s => rfl
  | finite s m e pos => rfl

theorem Stands.not_nan (stands : Stands x v) : x.isNaN = false := by
  change x.toModel.unpack.isNaN = false
  have canonical := stands.canonical
  cases unpacked : x.toModel.unpack with
  | notANumber =>
      rw [unpacked] at canonical
      exact canonical.elim
  | _ => rfl

theorem stands_pack {f : UnpackedFloat} (canonical : Canonical f)
    (point : point? f = some (v : EReal)) : Stands (.ofModel (Float.Model.pack f)) v :=
  (congrArg point? (unpack_pack canonical)).trans point

theorem Stands.cases (stands : Stands x v) :
    (∃ s, x.toModel.unpack = .zero s ∧ v = 0) ∨
      ∃ s m e pos, x.toModel.unpack = .finite s m e pos ∧ v = ((s.apply m : ℤ) : ℝ) * 2 ^ e := by
  have canonical := stands.canonical
  unfold Stands at stands
  cases unpacked : x.toModel.unpack with
  | notANumber =>
      rw [unpacked] at canonical
      exact canonical.elim
  | infinity s =>
      rw [unpacked] at canonical
      exact canonical.elim
  | zero s =>
      rw [unpacked] at stands
      exact .inl ⟨s, rfl, (EReal.coe_eq_coe_iff.mp (Option.some.inj stands)).symm⟩
  | finite s m e pos =>
      rw [unpacked, point?_finite] at stands
      exact .inr ⟨s, m, e, pos, rfl, (EReal.coe_eq_coe_iff.mp (Option.some.inj stands)).symm⟩

theorem decreased (s : Sign) (m : Nat) {e t : Int} (le : t ≤ e) :
    ((s.apply (UnpackedFloat.decreaseExponent m e t).1 : ℤ) : ℝ) * 2 ^ t =
      ((s.apply m : ℤ) : ℝ) * 2 ^ e := by
  obtain ⟨k, rfl⟩ := Int.le.dest le
  have amount : (t + k - t).toNat = k := by omega
  have same := shiftLeft_mul m k (t + k)
  rw [add_sub_cancel_right] at same
  simp only [UnpackedFloat.decreaseExponent, amount]
  rw [apply_eq, apply_eq s m, mul_assoc, mul_assoc]
  exact congrArg _ same

theorem add_eq (x y : Float) : x + y = .ofModel (Float.Model.pack
    (UnpackedFloat.add Format.binary64 x.toModel.unpack y.toModel.unpack)) := rfl

theorem Stands.unpack_zero (stands : Stands x 0) : ∃ s, x.toModel.unpack = .zero s := by
  rcases stands.cases with ⟨s, unpacked, _⟩ | ⟨s, m, e, pos, _, none_⟩
  · exact ⟨s, unpacked⟩
  · have : (0 : ℝ) < m * 2 ^ e := by positivity
    cases s <;> simp only [Sign.apply, Int.cast_neg, Int.cast_natCast, neg_mul] at none_ <;>
      linarith

theorem Stands.zero_add (first : Stands x 0) (second : Stands y w) : Stands (x + y) w := by
  obtain ⟨s, unpackedX⟩ := first.unpack_zero
  have canonical := second.canonical
  rw [add_eq, unpackedX]
  rcases second.cases with ⟨s', unpackedY, rfl⟩ | ⟨s', m, e, pos, unpackedY, rfl⟩ <;>
    rw [unpackedY] at canonical ⊢
  · refine stands_pack ?_ ?_ <;> cases s <;> cases s' <;> trivial
  · exact stands_pack canonical (point?_finite _ _ _ _)

theorem Stands.add_zero (first : Stands x v) (second : Stands y 0) : Stands (x + y) v := by
  obtain ⟨s', unpackedY⟩ := second.unpack_zero
  have canonical := first.canonical
  rw [add_eq, unpackedY]
  rcases first.cases with ⟨s, unpackedX, rfl⟩ | ⟨s, m, e, pos, unpackedX, rfl⟩ <;>
    rw [unpackedX] at canonical ⊢
  · refine stands_pack ?_ ?_ <;> cases s <;> cases s' <;> trivial
  · exact stands_pack canonical (point?_finite _ _ _ _)

/-- A sum is rounded once. -/
theorem Stands.add (first : Stands x v) (second : Stands y w) (lo : -1022 ≤ N) (hi : N ≤ 1022)
    (small : |v + w| ≤ 2 ^ N) : Near (x + y) (v + w) (2 ^ (N - 52)) := by
  have error : (0 : ℝ) ≤ 2 ^ (N - 52) := by positivity
  rcases first.cases with ⟨_, _, rfl⟩ | ⟨s, m, e, pos, unpackedX, rfl⟩
  · exact ⟨w, first.zero_add second, by simpa using error⟩
  · rcases second.cases with ⟨_, _, rfl⟩ | ⟨s', m', e', pos', unpackedY, rfl⟩
    · exact ⟨_, first.add_zero second, by simpa using error⟩
    · have aligned := congrArg₂ (· + ·) (decreased s m (min_le_left e e'))
        (decreased s' m' (min_le_right e e'))
      rw [← add_mul, ← Int.cast_add] at aligned
      rw [← aligned] at small ⊢
      obtain ⟨canonical, r, point, near⟩ := normalize_near lo hi small .positive
      rw [add_eq, unpackedX, unpackedY]
      exact ⟨r, stands_pack canonical point, near⟩

theorem Near.zero_add (first : Near x 0 0) (second : Near y w b) : Near (x + y) w b := by
  obtain ⟨v, standsX, errorX⟩ := first
  obtain ⟨w', standsY, errorY⟩ := second
  obtain rfl : v = 0 := by simpa using errorX
  exact ⟨w', standsX.zero_add standsY, errorY⟩

theorem Near.add_zero (first : Near x v a) (second : Near y 0 0) : Near (x + y) v a := by
  obtain ⟨v', standsX, errorX⟩ := first
  obtain ⟨w, standsY, errorY⟩ := second
  obtain rfl : w = 0 := by simpa using errorY
  exact ⟨v', standsX.add_zero standsY, errorX⟩

theorem minus_eq (x y : Float) : x - y = x + -y := by
  have unpacked (f g : UnpackedFloat) :
      UnpackedFloat.sub Format.binary64 f g = UnpackedFloat.add Format.binary64 f g.neg := by
    cases f <;> cases g <;> try rfl
    rename_i s m e pos s' m' e' pos'
    have opposite (n : Nat) : (-s').apply n = -s'.apply n := by cases s' <;> simp [Sign.apply]
    simp only [UnpackedFloat.sub, UnpackedFloat.neg, UnpackedFloat.add, opposite,
      Int.sub_eq_add_neg]
  have difference : x - y = .ofModel (Float.Model.pack
    (UnpackedFloat.sub Format.binary64 x.toModel.unpack y.toModel.unpack)) := rfl
  rw [difference, add_eq, unpacked, unpack_neg]

theorem Stands.neg (stands : Stands x v) : Stands (-x) (-v) := by
  unfold Stands at stands ⊢
  rw [unpack_neg, point?_neg, stands]
  simp

theorem Near.neg (near : Near x v a) : Near (-x) (-v) a := by
  obtain ⟨w, stands, error⟩ := near
  refine ⟨-w, stands.neg, ?_⟩
  rwa [neg_sub_neg, abs_sub_comm]

theorem Near.add (first : Near x v a) (second : Near y w b) (lo : -1022 ≤ N) (hi : N ≤ 1022)
    (small : |v + w| + a + b ≤ 2 ^ N) : Near (x + y) (v + w) (a + b + 2 ^ (N - 52)) := by
  obtain ⟨v', standsX, errorX⟩ := first
  obtain ⟨w', standsY, errorY⟩ := second
  have apart : |v' + w' - (v + w)| ≤ a + b := by
    rw [add_sub_add_comm]
    exact le_trans (abs_add_le _ _) (add_le_add errorX errorY)
  have within : |v' + w'| ≤ 2 ^ N := by
    have := abs_sub_abs_le_abs_sub (v' + w') (v + w)
    linarith
  obtain ⟨r, stands, error⟩ := standsX.add standsY lo hi within
  refine ⟨r, stands, ?_⟩
  have := abs_sub_le r (v' + w') (v + w)
  linarith

theorem Near.sub (first : Near x v a) (second : Near y w b) (lo : -1022 ≤ N) (hi : N ≤ 1022)
    (small : |v - w| + a + b ≤ 2 ^ N) : Near (x - y) (v - w) (a + b + 2 ^ (N - 52)) := by
  rw [sub_eq_add_neg] at *
  rw [minus_eq]
  exact first.add second.neg lo hi small

theorem Stands.abs (stands : Stands x v) : Stands x.abs |v| := by
  have canonical := stands.canonical
  have same : x.abs = .ofModel (Float.Model.pack x.toModel.unpack.abs) := rfl
  rw [same]
  rcases stands.cases with ⟨s, unpacked, rfl⟩ | ⟨s, m, e, pos, unpacked, rfl⟩ <;>
    rw [unpacked] at canonical ⊢
  · exact stands_pack trivial (by simp [UnpackedFloat.abs, point?])
  · have magnitude : |((s.apply m : ℤ) : ℝ) * 2 ^ e| =
        ((Sign.positive.apply m : ℤ) : ℝ) * 2 ^ e := by
      rw [abs_mul, abs_of_pos (by positivity : (0 : ℝ) < 2 ^ e)]
      cases s <;> simp [Sign.apply]
    rw [magnitude]
    exact stands_pack (f := .finite .positive m e pos) canonical (point?_finite _ _ _ _)

theorem Near.mono {c : ℝ} (near : Near x v a) (le : a ≤ c) : Near x v c := by
  obtain ⟨w, stands, error⟩ := near
  exact ⟨w, stands, error.trans le⟩

/-! ## Quotients -/

theorem Stands.cases_pos (stands : Stands x v) (positive : 0 < v) :
    ∃ m e pos, x.toModel.unpack = .finite .positive m e pos ∧ v = m * 2 ^ e := by
  rcases stands.cases with ⟨s, _, rfl⟩ | ⟨s, m, e, pos, unpacked, rfl⟩
  · exact absurd positive (lt_irrefl 0)
  · cases s with
    | positive => exact ⟨m, e, pos, unpacked, by simp [Sign.apply]⟩
    | negative =>
        have : (0 : ℝ) < m * 2 ^ e := by positivity
        simp only [Sign.apply, Int.cast_neg, Int.cast_natCast, neg_mul,
          Left.neg_pos_iff] at positive
        exact absurd positive this.asymm

/-- The exponent of the place at which a quotient is cut off, and what it is cut to. -/
theorem divCore_eq (m : Nat) (e : Int) (m' : Nat) (e' : Int) :
    UnpackedFloat.divCore Format.binary64 m e m' e' =
      let t := min (e - e') (max (m.log2 + e - (m'.log2 + e') - 53) (-1074))
      let n := m <<< (e - e' - t).toNat
      (n / m', t, UnpackedFloat.accuracyOfFraction (n % m') m') := by
  have places : totalExponent m e - totalExponent m' e' = m.log2 + e - (m'.log2 + e') := by
    simp only [totalExponent]
    ring
  have bits : (Format.binary64.mantissaBits : Int) = 53 := rfl
  have least : Format.binary64.minExponent = -1074 := rfl
  simp only [UnpackedFloat.divCore, Format.targetExponent, places, bits, least]

theorem log2_ratio_le {m m' : Nat} {e e' N : Int} (pos : 0 < m) (pos' : 0 < m')
    (small : (m : ℝ) * 2 ^ e / (m' * 2 ^ e') ≤ 2 ^ N) :
    m.log2 + e - (m'.log2 + e') ≤ N + 1 := by
  have low : ((2 : ℝ) ^ (m.log2 : ℤ)) ≤ m := by
    rw [zpow_natCast]
    exact_mod_cast Nat.log2_self_le (Nat.ne_of_gt pos)
  have high : (m' : ℝ) ≤ 2 ^ ((m'.log2 : ℤ) + 1) := by
    have := Nat.lt_log2_self (n := m')
    exact_mod_cast this.le
  have power : (2 : ℝ) ^ ((m.log2 : ℤ) + e - ((m'.log2 : ℤ) + 1 + e')) ≤ 2 ^ N := by
    refine le_trans ?_ small
    rw [zpow_sub₀ (by norm_num), zpow_add₀ (by norm_num) _ e, zpow_add₀ (by norm_num) _ e']
    gcongr
  have := (zpow_le_zpow_iff_right₀ (by norm_num : (1 : ℝ) < 2)).mp power
  omega

theorem long_quotient {m m' : Nat} {d t : Int} (pos : 0 < m) (pos' : 0 < m') (le : t ≤ d)
    (place : t ≤ m.log2 - m'.log2 + d - 53) : 52 ≤ (m <<< (d - t).toNat / m').log2 := by
  have high : m' < 2 ^ (m'.log2 + 1) := Nat.lt_log2_self
  have shifted := log2_shiftLeft pos (d - t).toNat
  have enough : 2 ^ 52 ≤ m <<< (d - t).toNat / m' := by
    rw [Nat.le_div_iff_mul_le pos']
    calc 2 ^ 52 * m' ≤ 2 ^ 52 * 2 ^ (m'.log2 + 1) := Nat.mul_le_mul_left _ high.le
      _ = 2 ^ (m'.log2 + 53) := by
        rw [← Nat.pow_add, show 52 + (m'.log2 + 1) = m'.log2 + 53 by omega]
      _ ≤ 2 ^ (m <<< (d - t).toNat).log2 := Nat.pow_le_pow_right (by decide) (by omega)
      _ ≤ m <<< (d - t).toNat :=
        Nat.log2_self_le (Nat.ne_of_gt (Nat.shiftLeft_pos_iff.mpr pos))
  exact (Nat.le_log2 (by omega)).mpr enough

/-- A quotient is cut off and rounded once. -/
theorem Stands.div (first : Stands x v) (second : Stands y w) (positiveV : 0 < v)
    (positiveW : 0 < w) (lo : -1022 ≤ N) (hi : N ≤ 1022) (small : v / w ≤ 2 ^ N) :
    Near (x / y) (v / w) (2 ^ (N - 51)) := by
  obtain ⟨m, e, pos, unpackedX, rfl⟩ := first.cases_pos positiveV
  obtain ⟨m', e', pos', unpackedY, rfl⟩ := second.cases_pos positiveW
  have quotient : x / y = .ofModel (Float.Model.pack
    (UnpackedFloat.div Format.binary64 x.toModel.unpack y.toModel.unpack)) := rfl
  rw [quotient, unpackedX, unpackedY]
  have ratio := log2_ratio_le pos pos' small
  simp only [UnpackedFloat.div, divCore_eq]
  generalize place : min (e - e') (max (m.log2 + e - (m'.log2 + e') - 53) (-1074)) = t
  generalize amount : (e - e' - t).toNat = k
  generalize UnpackedFloat.accuracyOfFraction _ _ = accuracy
  have long : 52 ≤ (m <<< k / m').log2 ∨ t ≤ -1074 := by
    by_cases tiny : t ≤ -1074
    · exact .inr tiny
    · left
      rw [← amount]
      exact long_quotient pos pos' (by omega) (by omega)
  have whole : (m : ℝ) * 2 ^ e / (m' * 2 ^ e') = ((m <<< k : Nat) : ℝ) / m' * 2 ^ t := by
    have shifted := shiftLeft_mul m k (e - e')
    rw [show e - e' - k = t by omega] at shifted
    rw [div_mul_eq_mul_div, shifted, zpow_sub₀ (by norm_num)]
    field_simp
  have cut : ((m <<< k / m' : Nat) : ℝ) * 2 ^ t ≤ m * 2 ^ e / (m' * 2 ^ e') := by
    rw [whole]
    exact mul_le_mul_of_nonneg_right Nat.cast_div_le (by positivity)
  have lost : (m : ℝ) * 2 ^ e / (m' * 2 ^ e') ≤ (((m <<< k / m' : Nat) : ℝ) + 1) * 2 ^ t := by
    rw [whole]
    refine mul_le_mul_of_nonneg_right ?_ (by positivity)
    rw [div_le_iff₀ (by exact_mod_cast pos')]
    exact_mod_cast (by
      rw [Nat.mul_comm]
      exact (Nat.lt_mul_div_succ _ pos').le : m <<< k ≤ (m <<< k / m' + 1) * m')
  obtain ⟨r, error, rounded⟩ := rounds_withAccuracy accuracy long lo hi (cut.trans small)
  obtain ⟨canonical, point⟩ := rounded (.positive / .positive)
  refine ⟨r, stands_pack canonical ?_, ?_⟩
  · rw [point]
    simp [show (Sign.positive / Sign.positive) = .positive from rfl, Sign.apply]
  · have placed : (2 : ℝ) ^ t ≤ 2 ^ (N - 52) := zpow_le_zpow_right₀ (by norm_num) (by omega)
    have doubled : (2 : ℝ) ^ (N - 51) = 2 * 2 ^ (N - 52) := by
      rw [show N - 51 = N - 52 + 1 by ring, zpow_add_one₀ (by norm_num), mul_comm]
    rw [abs_le] at error ⊢
    rw [add_mul, one_mul] at lost
    constructor <;> linarith

/-- Divided by itself, a positive double is one. -/
theorem Stands.div_self (stands : Stands x v) (positive : 0 < v) : Stands (x / x) 1 := by
  obtain ⟨m, e, pos, unpacked, rfl⟩ := stands.cases_pos positive
  have quotient : x / x = .ofModel (Float.Model.pack
    (UnpackedFloat.div Format.binary64 x.toModel.unpack x.toModel.unpack)) := rfl
  have place : min (e - e) (max (m.log2 + e - (m.log2 + e) - 53) (-1074)) = -53 := by omega
  have amount : (e - e - -53).toNat = 53 := by omega
  have whole : m <<< 53 / m = 2 ^ 53 := by
    rw [Nat.shiftLeft_eq, Nat.mul_div_cancel_left _ pos]
  have rest : m <<< 53 % m = 0 := by
    rw [Nat.shiftLeft_eq, Nat.mul_mod_right]
  rw [quotient, unpacked]
  simp only [UnpackedFloat.div, divCore_eq, place, amount, whole, rest]
  have exact_ : UnpackedFloat.accuracyOfFraction 0 m = .exact := if_pos rfl
  have rounded : UnpackedFloat.roundWithAccuracy Format.binary64 (.positive / .positive) (2 ^ 53)
      (-53) .exact = .finite .positive (2 ^ 52) (-52) (by decide) := by
    with_unfolding_all rfl
  rw [exact_, rounded]
  refine stands_pack ⟨by decide, by decide, by decide, .inl (Nat.le_refl _)⟩ ?_
  rw [point?_finite]
  norm_num [Sign.apply]

/-! ## The order of values -/

theorem magnitude_lt {m m' : Nat} {e e' : Int} (fits : m < 2 ^ 53)
    (normal : 2 ^ 52 ≤ m' ∨ e' = -1074) (lo : -1074 ≤ e)
    (before : e < e' ∨ e = e' ∧ m < m') : (m : ℝ) * 2 ^ e < m' * 2 ^ e' := by
  rcases before with lower | ⟨rfl, smaller⟩
  · have large : (2 : ℝ) ^ 52 ≤ m' := by
      exact_mod_cast normal.resolve_right (by omega)
    have small : (m : ℝ) < 2 ^ 53 := by exact_mod_cast fits
    obtain ⟨k, rfl⟩ : ∃ k : ℕ, e' = e + 1 + k := ⟨(e' - e - 1).toNat, by omega⟩
    have grown : (2 : ℝ) ^ (e + 1) ≤ 2 ^ (e + 1 + k) := zpow_le_zpow_right₀ (by norm_num) (by omega)
    calc (m : ℝ) * 2 ^ e < 2 ^ 53 * 2 ^ e := mul_lt_mul_of_pos_right small (by positivity)
      _ = 2 ^ 52 * 2 ^ (e + 1) := by rw [zpow_add_one₀ (by norm_num)]; ring
      _ ≤ m' * 2 ^ (e + 1 + k) := by gcongr
  · have : (m : ℝ) < m' := by exact_mod_cast smaller
    exact mul_lt_mul_of_pos_right this (by positivity)

theorem before_of_magnitude_lt {m m' : Nat} {e e' : Int} (fits' : m' < 2 ^ 53)
    (normal : 2 ^ 52 ≤ m ∨ e = -1074) (lo' : -1074 ≤ e')
    (lt : (m : ℝ) * 2 ^ e < m' * 2 ^ e') : e < e' ∨ e = e' ∧ m < m' := by
  by_contra notBefore
  by_cases same : e = e' ∧ m = m'
  · obtain ⟨rfl, rfl⟩ := same
    exact lt_irrefl _ lt
  · exact lt_asymm lt (magnitude_lt fits' normal lo' (by omega))

/-- Doubles are ordered as what they stand for. -/
theorem Stands.lt (first : Stands x v) (second : Stands y w) (lt : v < w) : x < y := by
  rw [Doubles.lt_iff, placeOf, placeOf]
  have canonicalX := first.canonical
  have canonicalY := second.canonical
  have positive (m : Nat) (e : Int) (pos : 0 < m) : (0 : ℝ) < m * 2 ^ e := by positivity
  rcases first.cases with ⟨s, unpackedX, rfl⟩ | ⟨s, m, e, pos, unpackedX, rfl⟩ <;>
    rcases second.cases with ⟨s', unpackedY, rfl⟩ | ⟨s', m', e', pos', unpackedY, rfl⟩ <;>
    rw [unpackedX] at canonicalX ⊢ <;> rw [unpackedY] at canonicalY ⊢
  · exact absurd lt (lt_irrefl _)
  · have := positive m' e' pos'
    cases s' with
    | positive => exact ⟨_, _, rfl, rfl, .inl (show (0 : Int) < 1 by decide)⟩
    | negative =>
        simp only [Sign.apply, Int.cast_neg, Int.cast_natCast] at lt
        linarith
  · have := positive m e pos
    cases s with
    | positive =>
        simp only [Sign.apply, Int.cast_natCast] at lt
        linarith
    | negative => exact ⟨_, _, rfl, rfl, .inl (show (-1 : Int) < 0 by decide)⟩
  · have aboveX := positive m e pos
    have aboveY := positive m' e' pos'
    obtain ⟨fits, lo, _, normal⟩ := canonicalX
    obtain ⟨fits', lo', _, normal'⟩ := canonicalY
    cases s <;> cases s' <;>
      simp only [Sign.apply, Int.cast_neg, Int.cast_natCast, neg_mul, neg_lt_neg_iff] at lt
    · have before := before_of_magnitude_lt fits normal' lo lt
      exact ⟨_, _, rfl, rfl, .inr ⟨rfl, by simp only; omega⟩⟩
    · exact ⟨_, _, rfl, rfl, .inl (show (-1 : Int) < 1 by decide)⟩
    · linarith
    · have before := before_of_magnitude_lt fits' normal lo' lt
      exact ⟨_, _, rfl, rfl, .inr ⟨rfl, by simp only; omega⟩⟩

/-! ## Bit patterns -/

theorem toNat_packComponents (exponent : BitVec 11) (fraction : BitVec 52) :
    (UnpackedFloat.packComponents Format.binary64 .positive exponent fraction).toNat =
      exponent.toNat * 2 ^ 52 + fraction.toNat := by
  have field : ((0#1 : BitVec 1) ++ exponent).toNat = exponent.toNat := by
    rw [BitVec.toNat_append]
    simp
  change ((0#1 ++ exponent) ++ fraction).toNat = _
  rw [BitVec.toNat_append, field, ← Nat.shiftLeft_add_eq_or_of_lt fraction.isLt, Nat.shiftLeft_eq]

theorem unpack_bits {p r : Nat} (normal : 2 ^ 52 ≤ r) (fits : r < 2 ^ 53) (hi : p ≤ 2045) :
    UnpackedFloat.unpack Format.binary64 (p * 2 ^ 52 + r).toUInt64.toBitVec =
      .finite .positive r ((p : ℤ) - 1074) (by omega) := by
  have exponent : (BitVec.ofNat 11 (p + 1)).toNat = p + 1 := by
    rw [BitVec.toNat_ofNat, Nat.mod_eq_of_lt (by omega)]
  have fraction : (BitVec.ofNat 52 r).toNat = r - 2 ^ 52 := by
    rw [BitVec.toNat_ofNat]
    omega
  have word : (p * 2 ^ 52 + r).toUInt64.toNat = p * 2 ^ 52 + r :=
    UInt64.toNat_ofNat_of_lt' (by
      have : UInt64.size = 2 ^ 64 := rfl
      omega)
  have bits : (p * 2 ^ 52 + r).toUInt64.toBitVec = UnpackedFloat.packComponents Format.binary64
      .positive (.ofNat 11 (p + 1)) (.ofNat 52 r) := by
    apply BitVec.eq_of_toNat_eq
    rw [toNat_packComponents, exponent, fraction, UInt64.toNat_toBitVec, word]
    omega
  rw [bits]
  exact unpack_normal _ _ normal fits (by omega) (by omega) (by push_cast; ring)

theorem stands_ofBits {p r : Nat} (normal : 2 ^ 52 ≤ r) (fits : r < 2 ^ 53) (hi : p ≤ 2045) :
    Stands (Float.ofBits (p * 2 ^ 52 + r).toUInt64) (r * 2 ^ ((p : ℤ) - 1074)) := by
  have canonical : Canonical (.finite .positive r ((p : ℤ) - 1074) (by omega)) :=
    ⟨fits, by omega, by omega, .inl normal⟩
  have packed : Float.ofBits (p * 2 ^ 52 + r).toUInt64 = .ofModel (Float.Model.pack
    (UnpackedFloat.unpack Format.binary64 (p * 2 ^ 52 + r).toUInt64.toBitVec)) := rfl
  rw [packed, unpack_bits normal fits hi]
  refine stands_pack canonical ?_
  rw [point?_finite]
  simp [Sign.apply]

/-- A ratio that fits into a significand is not rounded. -/
theorem stands_ofRatio {num den r : Nat} {k : Nat} (some_ : num ≠ 0)
    (log : Binary64.floorLog2 num den = Int.negSucc k + 52) (range : k ≤ 1000)
    (whole : Binary64.roundDiv (num * 2 ^ (k + 1)) den = r) (normal : 2 ^ 52 ≤ r)
    (fits : r < 2 ^ 53) :
    Stands (Binary64.ofRatio num den) (r * 2 ^ (-(k + 1 : ℤ))) := by
  have unit : max (Int.negSucc k + 52 - 52) Binary64.leastUnit = Int.negSucc k := by
    simp only [Binary64.leastUnit]
    omega
  have places : (Int.negSucc k - Binary64.leastUnit).toNat = 1073 - k := by
    simp only [Binary64.leastUnit]
    omega
  have bits : Binary64.nearestBits num den = (1073 - k) * 2 ^ 52 + r := by
    have limit := Binary64.infinityBits_eq
    simp only [Binary64.nearestBits, if_neg some_, log, unit, places, Binary64.roundInUnits,
      Nat.pow_eq, whole]
    omega
  have place : ((1073 - k : Nat) : ℤ) - 1074 = -(k + 1 : ℤ) := by omega
  unfold Binary64.ofRatio
  rw [bits, ← place]
  exact stands_ofBits normal fits (by omega)

theorem roundDiv_mul (q : Nat) {den : Nat} (pos : 0 < den) :
    Binary64.roundDiv (q * den) den = q := by
  simp only [Binary64.roundDiv, Nat.mul_div_cancel _ pos, Nat.mul_mod_left, Nat.mul_zero,
    if_pos pos]

theorem normal_shift {n k : Nat} (pos : 0 < n) (total : n.log2 + k = 52) :
    2 ^ 52 ≤ n * 2 ^ k ∧ n * 2 ^ k < 2 ^ 53 := by
  have := log2_shiftLeft pos k
  rw [total, Nat.shiftLeft_eq] at this
  exact (Nat.log2_eq_iff (by positivity)).mp this

/-- Whole numbers that fit into a significand are not rounded. -/
theorem stands_ofNat {n : Nat} (fits : n < 2 ^ 52) : Stands (Binary64.ofNat n) n := by
  rcases Nat.eq_zero_or_pos n with rfl | pos
  · have zero : Stands (Binary64.ofNat 0) 0 := by
      unfold Stands
      rw [show (Binary64.ofNat 0).toModel.unpack = .zero .positive by with_unfolding_all rfl]
      rfl
    exact_mod_cast zero
  · have size : n.log2 < 52 := (Nat.log2_lt (Nat.ne_of_gt pos)).mpr fits
    obtain ⟨k, total⟩ : ∃ k, n.log2 + (k + 1) = 52 := ⟨51 - n.log2, by omega⟩
    obtain ⟨normal, short⟩ := normal_shift pos total
    have log : Binary64.floorLog2 n 1 = Int.negSucc k + 52 := by
      rw [Binary64.floorLog2_one n (Nat.ne_of_gt pos)]
      omega
    have whole : Binary64.roundDiv (n * 2 ^ (k + 1)) 1 = n * 2 ^ (k + 1) := by
      conv_lhs => rw [← Nat.mul_one (n * 2 ^ (k + 1))]
      exact roundDiv_mul _ Nat.one_pos
    have stands := stands_ofRatio (Nat.ne_of_gt pos) log (by omega) whole normal short
    have value : ((n * 2 ^ (k + 1) : Nat) : ℝ) * 2 ^ (-(k + 1 : ℤ)) = n := by
      rw [Nat.cast_mul, Nat.cast_pow, Nat.cast_ofNat, zpow_neg, ← Nat.cast_succ, zpow_natCast]
      exact mul_inv_cancel_right₀ (by positivity) _
    rwa [value] at stands

theorem stands_zero : Stands (0 : Float) 0 := by
  have stands := stands_ofNat (n := 0) (by decide)
  rwa [show Binary64.ofNat 0 = 0 by decide, Nat.cast_zero] at stands

theorem stands_one : Stands (1 : Float) 1 := by
  have stands := stands_ofNat (n := 1) (by decide)
  rwa [show Binary64.ofNat 1 = 1 by decide, Nat.cast_one] at stands

theorem floorLog2_unit {n : Nat} (pos : 0 < n) (fits : n < 2 ^ 53) :
    Binary64.floorLog2 n (2 ^ 53) = n.log2 - 53 := by
  have size : n.log2 < 53 := (Nat.log2_lt (Nat.ne_of_gt pos)).mpr fits
  obtain ⟨k, total⟩ : ∃ k, n.log2 + k = 52 := ⟨52 - n.log2, by omega⟩
  have guess : (n.log2 : ℤ) - ((2 ^ 53 : Nat).log2 : ℤ) = Int.negSucc k := by
    rw [Nat.log2_two_pow]
    omega
  have reached : 2 ^ 53 ≤ n * 2 ^ (k + 1) := by
    have := (normal_shift pos total).1
    rw [Nat.pow_succ 2 k, ← Nat.mul_assoc]
    omega
  simp only [Binary64.floorLog2, guess, Nat.pow_eq, reached, decide_true, if_true]
  omega

/-- A fraction with the denominator `2 ^ 53` is not rounded either. -/
theorem stands_unit {n : Nat} (fits : n < 2 ^ 53) :
    Stands (Binary64.ofRatio n (2 ^ 53)) (n / 2 ^ 53) := by
  rcases Nat.eq_zero_or_pos n with rfl | pos
  · have zero : Stands (Binary64.ofRatio 0 (2 ^ 53)) 0 := by
      unfold Stands
      rw [show (Binary64.ofRatio 0 (2 ^ 53)).toModel.unpack = .zero .positive by
        with_unfolding_all rfl]
      rfl
    simpa using zero
  · have size : n.log2 < 53 := (Nat.log2_lt (Nat.ne_of_gt pos)).mpr fits
    obtain ⟨k, total⟩ : ∃ k, n.log2 + k = 52 := ⟨52 - n.log2, by omega⟩
    obtain ⟨normal, short⟩ := normal_shift pos total
    have log : Binary64.floorLog2 n (2 ^ 53) = Int.negSucc (k + 52) + 52 := by
      rw [floorLog2_unit pos fits]
      omega
    have whole : Binary64.roundDiv (n * 2 ^ (k + 52 + 1)) (2 ^ 53) = n * 2 ^ k := by
      have shifted : n * 2 ^ (k + 52 + 1) = n * 2 ^ k * 2 ^ 53 := by
        rw [Nat.mul_assoc, ← Nat.pow_add]
      rw [shifted]
      exact roundDiv_mul _ (by decide)
    have stands := stands_ofRatio (Nat.ne_of_gt pos) log (by omega) whole normal short
    have value : ((n * 2 ^ k : Nat) : ℝ) * 2 ^ (-(((k + 52 : Nat) : ℤ) + 1)) = n / 2 ^ 53 := by
      have power : (2 : ℝ) ^ (-(((k + 52 : Nat) : ℤ) + 1)) = (2 ^ k * 2 ^ 53)⁻¹ := by
        rw [zpow_neg, ← Nat.cast_succ, zpow_natCast, ← pow_add]
      rw [power, Nat.cast_mul, Nat.cast_pow, Nat.cast_ofNat]
      field_simp
    rwa [value] at stands

end Values

end EGraphSearch.Rounding

import EGraphSearch.Proofs.Number.Extended

/-!
# What rounding does to a number

A finite double has a significand of at most 53 bits, and an exponent between those of the smallest
and of the largest doubles.  Rounding puts a significand into its last place, down or up, so that a
number of at most `2 ^ N` moves by at most `2 ^ (N - 52)`, and the result survives being packed into
64 bits.
-/

set_option autoImplicit false

namespace EGraphSearch.Rounding

open Float.Model
open Float.Model.UnpackedFloat (Sign Accuracy ExtendedMantissa)
open Doubles (point?)

/-! ## Finite doubles -/

/-- Zero, or a significand and an exponent as a finite double has them. -/
def Canonical : UnpackedFloat → Prop
  | .zero _ => True
  | .finite _ m e _ => m < 2 ^ 53 ∧ -1074 ≤ e ∧ e ≤ 971 ∧ (2 ^ 52 ≤ m ∨ e = -1074)
  | _ => False

theorem finite_congr {s : Sign} {m m' : Nat} {e e' : Int} {pos : 0 < m} {pos' : 0 < m'}
    (significand : m = m') (exponent : e = e') :
    UnpackedFloat.finite s m e pos = .finite s m' e' pos' := by
  subst significand exponent
  rfl

theorem toNat_implicit (v : BitVec 52) : ((1#1 : BitVec 1) ++ v).toNat = 2 ^ 52 + v.toNat := by
  rw [BitVec.toNat_append, ← Nat.shiftLeft_add_eq_or_of_lt v.isLt]
  rfl

theorem unpack_components (s : Sign) (exponent : BitVec 11) (fraction : BitVec 52)
    (finite : exponent ≠ -1#11) :
    UnpackedFloat.unpack Format.binary64
        (UnpackedFloat.packComponents Format.binary64 s exponent fraction) =
      if exponent = 0#11 then
        if h : fraction = 0#52 then .zero s
        else .finite s fraction.toNat (exponent.toNat - 1074)
          (by simpa [BitVec.toNat_pos, BitVec.pos_iff_ne_zero])
      else .finite s (2 ^ 52 + fraction.toNat) (exponent.toNat - 1075) (by omega) := by
  simp only [UnpackedFloat.unpack, UnpackedFloat.unpackSign_packComponents,
    UnpackedFloat.unpackExponent_packComponents, UnpackedFloat.unpackMantissa_packComponents,
    Sign.ofBitVec_toBitVec, if_neg finite]
  have bias : Format.binary64.exponentBias = 1023 := rfl
  split
  · split
    · rfl
    · congr 1
      omega
  · congr 1
    · exact toNat_implicit fraction

theorem ofNat_ne {w n : Nat} {b : BitVec w} (fits : n < 2 ^ w) (apart : n ≠ b.toNat) :
    BitVec.ofNat w n ≠ b := by
  rintro rfl
  rw [BitVec.toNat_ofNat, Nat.mod_eq_of_lt fits] at apart
  exact apart rfl

theorem unpack_normal (s : Sign) {m q : Nat} {e : Int} (pos : 0 < m) (normal : 2 ^ 52 ≤ m)
    (fits : m < 2 ^ 53) (some_ : 0 < q) (short : q < 2047) (place : e = q - 1075) :
    UnpackedFloat.unpack Format.binary64
        (UnpackedFloat.packComponents Format.binary64 s (.ofNat 11 q) (.ofNat 52 m)) =
      .finite s m e pos := by
  have exponent : (BitVec.ofNat 11 q).toNat = q := by
    rw [BitVec.toNat_ofNat]
    omega
  have fraction : (BitVec.ofNat 52 m).toNat = m - 2 ^ 52 := by
    rw [BitVec.toNat_ofNat]
    omega
  have notFull : BitVec.ofNat 11 q ≠ -1#11 := ofNat_ne (by omega) (show q ≠ 2047 by omega)
  have notZero : BitVec.ofNat 11 q ≠ 0#11 := ofNat_ne (by omega) (show q ≠ 0 by omega)
  rw [unpack_components _ _ _ notFull, if_neg notZero]
  exact finite_congr (by omega) (by omega)

theorem unpack_subnormal (s : Sign) {m : Nat} (pos : 0 < m) (small : m < 2 ^ 52) :
    UnpackedFloat.unpack Format.binary64
        (UnpackedFloat.packComponents Format.binary64 s 0#11 (.ofNat 52 m)) =
      .finite s m (-1074) pos := by
  have fraction : (BitVec.ofNat 52 m).toNat = m := by
    rw [BitVec.toNat_ofNat, Nat.mod_eq_of_lt small]
  have notZero : BitVec.ofNat 52 m ≠ 0#52 := ofNat_ne small (show m ≠ 0 by omega)
  rw [unpack_components _ _ _ (by decide), if_pos rfl, dif_neg notZero]
  exact finite_congr fraction rfl

theorem unpack_pack {f : UnpackedFloat} (canonical : Canonical f) :
    (Float.Model.pack f).unpack = f := by
  change UnpackedFloat.unpack Format.binary64 (UnpackedFloat.pack Format.binary64 f) = f
  cases f with
  | notANumber => exact canonical.elim
  | infinity s => exact canonical.elim
  | zero s => exact unpack_components s 0 0 (by decide)
  | finite s m e pos =>
      obtain ⟨fits, lo, hi, normal⟩ := canonical
      have field : (e + (Format.binary64.exponentBias : Int) + (52 : Nat)).toNat =
          (e + 1075).toNat := by
        have : Format.binary64.exponentBias = 1023 := rfl
        omega
      have bounded : ¬ 2 ^ 11 ≤ (e + 1075).toNat + 1 := by omega
      simp only [UnpackedFloat.pack, field, if_neg bounded]
      by_cases large : 2 ^ 52 ≤ m
      · have bits : m.log2 + 1 = Format.binary64.mantissaBits :=
          congrArg (· + 1) ((Nat.log2_eq_iff (by omega)).mpr ⟨large, fits⟩)
        rw [if_pos bits]
        exact unpack_normal s pos large fits (by omega) (by omega) (by omega)
      · obtain rfl : e = -1074 := normal.resolve_left large
        have bits : ¬ m.log2 + 1 = Format.binary64.mantissaBits := by
          intro bits
          exact large (((Nat.log2_eq_iff (by omega)).mp (Nat.succ.inj bits)).1)
        rw [if_neg bits]
        exact unpack_subnormal s pos (by omega)

theorem canonical_of_isFinite {x : Float} (finite : x.isFinite = true) :
    Canonical x.toModel.unpack := by
  have finite : x.toModel.unpack.isFinite = true := finite
  change UnpackedFloat.isFinite (UnpackedFloat.unpack Format.binary64 _) = true at finite
  change Canonical (UnpackedFloat.unpack Format.binary64 _)
  generalize x.toModel.toBits.toBitVec = b at finite ⊢
  have bias : Format.binary64.exponentBias = 1023 := rfl
  have fraction : (@UnpackedFloat.unpackMantissa Format.binary64 b).toNat < 2 ^ 52 :=
    BitVec.isLt _
  have exponent : (@UnpackedFloat.unpackExponent Format.binary64 b).toNat < 2 ^ 11 :=
    BitVec.isLt _
  unfold UnpackedFloat.unpack at finite ⊢
  dsimp only at finite ⊢
  split at finite
  · split at finite <;> cases finite
  · rename_i notFull
    rw [if_neg notFull]
    split
    · rename_i none_
      split
      · trivial
      · rw [none_]
        exact ⟨by omega, by decide, by decide, .inr (by decide)⟩
    · rename_i some_
      have notFull : (@UnpackedFloat.unpackExponent Format.binary64 b).toNat ≠ 2047 :=
        fun full => notFull (BitVec.eq_of_toNat_eq full)
      have some_ : (@UnpackedFloat.unpackExponent Format.binary64 b).toNat ≠ 0 :=
        fun none_ => some_ (BitVec.eq_of_toNat_eq none_)
      have implicit := toNat_implicit (@UnpackedFloat.unpackMantissa Format.binary64 b)
      exact ⟨by omega, by omega, by omega, .inl (by omega)⟩

/-! ## Rounding -/

theorem shifted_mantissa (em : ExtendedMantissa) (k : Nat) :
    (em >>> k).mantissa = em.mantissa / 2 ^ k := by
  induction k with
  | zero => exact (Nat.div_one _).symm
  | succ k ih =>
      have step : (em >>> (k + 1)).mantissa = (em >>> k).mantissa / 2 := rfl
      rw [step, ih, Nat.div_div_eq_div_mul, Nat.pow_succ]

theorem roundedMantissa_bounds (em : ExtendedMantissa) :
    em.mantissa ≤ em.roundedMantissa ∧ em.roundedMantissa ≤ em.mantissa + 1 := by
  obtain ⟨m, r, s⟩ := em
  cases r <;> cases s <;>
    simp only [ExtendedMantissa.roundedMantissa, ExtendedMantissa.accuracy,
      Accuracy.roundToNearestEven] <;>
    omega

theorem ofMantissaAndAccuracy_mantissa (m : Nat) (a : Accuracy) :
    (ExtendedMantissa.ofMantissaAndAccuracy m a).mantissa = m := by
  cases a with
  | exact => rfl
  | inexact o => cases o <;> rfl

/-- The exponent of the last place of `m * 2 ^ e`. -/
def lastPlace (m : Nat) (e : Int) : Int := max (m.log2 + e - 52) (-1074)

theorem targetExponent_eq (m : Nat) (e : Int) :
    Format.binary64.targetExponent (totalExponent m e) = lastPlace m e := by
  have bits : (Format.binary64.mantissaBits : Int) = 53 := rfl
  have least : Format.binary64.minExponent = -1074 := rfl
  simp only [Format.targetExponent, totalExponent, lastPlace, bits, least]
  omega

theorem shiftToTargetExponent_eq (m : Nat) (e : Int) (a : Accuracy) :
    UnpackedFloat.shiftToTargetExponent Format.binary64 m e a =
      (ExtendedMantissa.ofMantissaAndAccuracy m a >>> (lastPlace m e - e).toNat,
        e + (lastPlace m e - e).toNat) := by
  unfold UnpackedFloat.shiftToTargetExponent UnpackedFloat.shiftToExponent
  rw [targetExponent_eq]

theorem point?_finite (s : Sign) (m : Nat) (e : Int) (pos : 0 < m) :
    point? (.finite s m e pos) = some ((((s.apply m : ℤ) : ℝ) * 2 ^ e : ℝ) : EReal) := by
  simp only [point?, Nat.cast_ofNat]

/-- A rounded significand in its place; one that has become too long moves up by one. -/
def settled (s : Sign) (r : Nat) (t : Int) : UnpackedFloat :=
  if pos : r = 0 then .zero s
  else if r < 2 ^ 53 then .finite s r t (Nat.pos_of_ne_zero pos)
  else .finite s (2 ^ 52) (t + 1) (by decide)

theorem canonical_settled {s : Sign} {r : Nat} {t : Int} (lo : -1074 ≤ t) (hi : t ≤ 970)
    (normal : 2 ^ 52 ≤ r ∨ t = -1074) : Canonical (settled s r t) := by
  unfold settled
  split
  · trivial
  · split
    · exact ⟨‹_›, lo, by omega, normal⟩
    · exact ⟨by decide, by omega, by omega, .inl (Nat.le_refl _)⟩

theorem point?_settled (s : Sign) {r : Nat} (fits : r ≤ 2 ^ 53) (t : Int) :
    point? (settled s r t) = some ((((s.apply r : ℤ) : ℝ) * 2 ^ t : ℝ) : EReal) := by
  unfold settled
  split
  · rename_i none_
    subst none_
    cases s <;> simp [point?, Sign.apply]
  · split
    · exact point?_finite _ _ _ _
    · obtain rfl : r = 2 ^ 53 := by omega
      have doubled : ((2 : ℝ) ^ (t + 1)) = 2 * 2 ^ t := by
        rw [zpow_add_one₀ (by norm_num), mul_comm]
      have same : ((s.apply ((2 ^ 52 : Nat) : ℤ) : ℤ) : ℝ) * 2 ^ (t + 1) =
          ((s.apply ((2 ^ 53 : Nat) : ℤ) : ℤ) : ℝ) * 2 ^ t := by
        rw [doubled]
        cases s <;> simp only [Sign.apply] <;> push_cast <;> ring
      rw [point?_finite, same]

theorem log2_le_of_lt {r k : Nat} (small : r < 2 ^ (k + 1)) : r.log2 ≤ k := by
  rcases Nat.eq_zero_or_pos r with rfl | pos
  · exact Nat.zero_le _
  · have := (Nat.log2_lt (Nat.ne_of_gt pos)).mpr small
    omega

theorem shift_settled (s : Sign) {r : Nat} {t : Int} (fits : r ≤ 2 ^ 53) (lo : -1074 ≤ t) :
    (let (em, e) := UnpackedFloat.shiftToTargetExponent Format.binary64 r t .exact
      if none_ : em.mantissa = 0 then UnpackedFloat.zero s
      else .finite s em.mantissa e (Nat.pos_of_ne_zero none_)) = settled s r t := by
  rw [shiftToTargetExponent_eq]
  simp only [shifted_mantissa, ofMantissaAndAccuracy_mantissa]
  rcases Nat.lt_or_eq_of_le fits with small | rfl
  · have bits : r.log2 ≤ 52 := log2_le_of_lt small
    have stays : (lastPlace r t - t).toNat = 0 := by
      simp only [lastPlace]
      omega
    simp only [stays, settled, if_pos small, Nat.pow_zero, Nat.div_one, Nat.cast_zero, add_zero]
  · have moves : (lastPlace (2 ^ 53) t - t).toNat = 1 := by
      simp only [lastPlace, Nat.log2_two_pow]
      omega
    simp only [moves]
    rfl

/-- Rounding puts the significand into the last place, rounded down or up. -/
theorem roundWithAccuracy_eq (m : Nat) (e : Int) (a : Accuracy)
    (long : 52 ≤ m.log2 ∨ e ≤ -1074) :
    ∃ r, m / 2 ^ (lastPlace m e - e).toNat ≤ r ∧ r ≤ m / 2 ^ (lastPlace m e - e).toNat + 1 ∧
      r ≤ 2 ^ 53 ∧ (2 ^ 52 ≤ r ∨ lastPlace m e = -1074) ∧
      ∀ s, UnpackedFloat.roundWithAccuracy Format.binary64 s m e a =
        settled s r (lastPlace m e) := by
  have place : e + (lastPlace m e - e).toNat = lastPlace m e := by
    simp only [lastPlace]
    omega
  have bounds := roundedMantissa_bounds
    (ExtendedMantissa.ofMantissaAndAccuracy m a >>> (lastPlace m e - e).toNat)
  rw [shifted_mantissa, ofMantissaAndAccuracy_mantissa] at bounds
  have short : m / 2 ^ (lastPlace m e - e).toNat < 2 ^ 53 := by
    rw [Nat.div_lt_iff_lt_mul (Nat.two_pow_pos _), ← Nat.pow_add]
    exact Nat.lt_of_lt_of_le Nat.lt_log2_self
      (Nat.pow_le_pow_right (by decide) (by simp only [lastPlace]; omega))
  refine ⟨_, bounds.1, bounds.2, by omega, ?_, ?_⟩
  · by_cases least : lastPlace m e = -1074
    · exact .inr least
    · left
      have some_ : m ≠ 0 := by
        rintro rfl
        simp only [lastPlace, Nat.log2_zero] at least long
        omega
      refine le_trans ?_ bounds.1
      rw [Nat.le_div_iff_mul_le (Nat.two_pow_pos _), ← Nat.pow_add]
      exact le_trans (Nat.pow_le_pow_right (by decide) (by simp only [lastPlace] at least ⊢; omega))
        (Nat.log2_self_le some_)
  · intro s
    unfold UnpackedFloat.roundWithAccuracy
    rw [shiftToTargetExponent_eq]
    dsimp only
    rw [place, ← shift_settled s (by omega) (by simp only [lastPlace]; omega)]

theorem lastPlace_le {m : Nat} {e N : Int} (long : 52 ≤ m.log2 ∨ e ≤ -1074) (lo : -1022 ≤ N)
    (small : (m : ℝ) * 2 ^ e ≤ 2 ^ N) : lastPlace m e ≤ N - 52 := by
  rcases Nat.eq_zero_or_pos m with rfl | pos
  · simp only [lastPlace, Nat.log2_zero] at long ⊢
    omega
  · have least : ((2 : ℝ) ^ m.log2) ≤ m := by
      exact_mod_cast Nat.log2_self_le (Nat.ne_of_gt pos)
    have power : (2 : ℝ) ^ ((m.log2 : ℤ) + e) ≤ 2 ^ N := by
      rw [zpow_add₀ (by norm_num), zpow_natCast]
      exact le_trans (mul_le_mul_of_nonneg_right least (by positivity)) small
    have := (zpow_le_zpow_iff_right₀ (by norm_num : (1 : ℝ) < 2)).mp power
    simp only [lastPlace]
    omega

/-- Under either sign the result is a finite double not farther than `err` from `v`. -/
def Rounds (f : Sign → UnpackedFloat) (v err : ℝ) : Prop :=
  ∃ r : ℝ, |r - v| ≤ err ∧ ∀ s, Canonical (f s) ∧
    point? (f s) = some ((((s.apply 1 : ℤ) : ℝ) * r : ℝ) : EReal)

theorem apply_eq (s : Sign) (n : ℤ) : ((s.apply n : ℤ) : ℝ) = ((s.apply 1 : ℤ) : ℝ) * n := by
  cases s <;> simp [Sign.apply]

theorem rounds_withAccuracy {m : Nat} {e N : Int} (a : Accuracy) (long : 52 ≤ m.log2 ∨ e ≤ -1074)
    (lo : -1022 ≤ N) (hi : N ≤ 1022) (small : (m : ℝ) * 2 ^ e ≤ 2 ^ N) :
    Rounds (fun s => UnpackedFloat.roundWithAccuracy Format.binary64 s m e a) (m * 2 ^ e)
      (2 ^ (N - 52)) := by
  have place := lastPlace_le long lo small
  obtain ⟨r, low, high, fits, normal, same⟩ := roundWithAccuracy_eq m e a long
  refine ⟨r * 2 ^ lastPlace m e, ?_, fun s => ⟨?_, ?_⟩⟩
  · generalize split : (lastPlace m e - e).toNat = k at low high
    have shifted : lastPlace m e = k + e := by
      simp only [lastPlace] at split ⊢
      omega
    have below : m / 2 ^ k * 2 ^ k ≤ m := Nat.div_mul_le_self m _
    have above : m < (m / 2 ^ k + 1) * 2 ^ k := by
      rw [mul_comm]
      exact Nat.lt_mul_div_succ m (Nat.two_pow_pos k)
    have most : r * 2 ^ k ≤ m + 2 ^ k := by nlinarith
    have least : m ≤ r * 2 ^ k + 2 ^ k := by nlinarith
    have most : (r : ℝ) * 2 ^ k ≤ m + 2 ^ k := by exact_mod_cast most
    have least : (m : ℝ) ≤ r * 2 ^ k + 2 ^ k := by exact_mod_cast least
    have error : |(r : ℝ) * 2 ^ lastPlace m e - m * 2 ^ e| ≤ 2 ^ lastPlace m e := by
      rw [shifted, zpow_add₀ (by norm_num), zpow_natCast, ← mul_assoc, ← sub_mul, abs_mul,
        abs_of_pos (by positivity : (0 : ℝ) < 2 ^ e)]
      exact mul_le_mul_of_nonneg_right (abs_le.mpr ⟨by linarith, by linarith⟩) (by positivity)
    exact le_trans error (zpow_le_zpow_right₀ (by norm_num) place)
  · beta_reduce
    rw [same]
    exact canonical_settled (by simp only [lastPlace]; omega) (by omega) normal
  · beta_reduce
    rw [same, point?_settled s fits, apply_eq, Int.cast_natCast, mul_assoc]

theorem log2_shiftLeft {m : Nat} (pos : 0 < m) (k : Nat) : (m <<< k).log2 = m.log2 + k := by
  rw [Nat.shiftLeft_eq, Nat.log2_eq_iff (by positivity)]
  have low := Nat.log2_self_le (Nat.ne_of_gt pos)
  have high : m < 2 ^ (m.log2 + 1) := Nat.lt_log2_self
  constructor
  · rw [Nat.pow_add]
    exact Nat.mul_le_mul_right _ low
  · rw [show m.log2 + k + 1 = m.log2 + 1 + k by omega, Nat.pow_add]
    exact Nat.mul_lt_mul_of_pos_right high (Nat.two_pow_pos k)

theorem shiftLeft_mul (m k : Nat) (e : Int) :
    ((m <<< k : Nat) : ℝ) * 2 ^ (e - k) = m * 2 ^ e := by
  rw [Nat.shiftLeft_eq, Nat.cast_mul, Nat.cast_pow, Nat.cast_ofNat, mul_assoc, ← zpow_natCast,
    ← zpow_add₀ (by norm_num), add_sub_cancel]

theorem rounds_round {m : Nat} {e N : Int} (pos : 0 < m) (lo : -1022 ≤ N) (hi : N ≤ 1022)
    (small : (m : ℝ) * 2 ^ e ≤ 2 ^ N) :
    Rounds (fun s => UnpackedFloat.round Format.binary64 s m e) (m * 2 ^ e)
      (2 ^ (N - 52)) := by
  simp only [UnpackedFloat.round, UnpackedFloat.decreaseExponent, targetExponent_eq]
  generalize amount : (e - lastPlace m e).toNat = k
  have long : 52 ≤ (m <<< k).log2 ∨ e - k ≤ -1074 := by
    rw [log2_shiftLeft pos]
    simp only [lastPlace] at amount
    omega
  rw [← shiftLeft_mul m k e] at small ⊢
  exact rounds_withAccuracy .exact long lo hi small

theorem normalize_near {m : Int} {e N : Int} (lo : -1022 ≤ N) (hi : N ≤ 1022)
    (small : |(m : ℝ) * 2 ^ e| ≤ 2 ^ N) (zero : Sign) :
    Canonical (UnpackedFloat.normalize Format.binary64 m e zero) ∧
      ∃ w : ℝ, point? (UnpackedFloat.normalize Format.binary64 m e zero) = some (w : EReal) ∧
        |w - m * 2 ^ e| ≤ 2 ^ (N - 52) := by
  have positive : (0 : ℝ) < 2 ^ e := by positivity
  unfold UnpackedFloat.normalize
  rcases Int.lt_trichotomy m 0 with negative | rfl | above
  · rw [Int.compare_eq_lt.mpr negative]
    have magnitude : ((-m).toNat : ℝ) = -(m : ℝ) := by
      have : ((-m).toNat : ℤ) = -m := by omega
      exact_mod_cast this
    have size : |(m : ℝ) * 2 ^ e| = ((-m).toNat : ℝ) * 2 ^ e := by
      rw [abs_mul, abs_of_pos positive, magnitude, abs_of_neg (by exact_mod_cast negative)]
    rw [size] at small
    obtain ⟨r, error, rounded⟩ := rounds_round (show 0 < (-m).toNat by omega) lo hi small
    refine ⟨(rounded .negative).1, _, (rounded .negative).2, ?_⟩
    rw [magnitude] at error
    rw [← abs_neg]
    have opposite : -(((Sign.negative.apply 1 : ℤ) : ℝ) * r - m * 2 ^ e) = r - -m * 2 ^ e := by
      simp only [Sign.apply]
      push_cast
      ring
    rwa [opposite]
  · exact ⟨trivial, 0, rfl, by simp only [Int.cast_zero, zero_mul, sub_zero, abs_zero]; positivity⟩
  · rw [Int.compare_eq_gt.mpr above]
    have magnitude : (m.toNat : ℝ) = m := by
      have : (m.toNat : ℤ) = m := by omega
      exact_mod_cast this
    have size : |(m : ℝ) * 2 ^ e| = (m.toNat : ℝ) * 2 ^ e := by
      rw [magnitude]
      exact abs_of_pos (mul_pos (by exact_mod_cast above) positive)
    rw [size] at small
    obtain ⟨r, error, rounded⟩ := rounds_round (show 0 < m.toNat by omega) lo hi small
    refine ⟨(rounded .positive).1, _, (rounded .positive).2, ?_⟩
    rw [magnitude] at error
    simpa only [Sign.apply, Int.cast_one, one_mul] using error

end EGraphSearch.Rounding

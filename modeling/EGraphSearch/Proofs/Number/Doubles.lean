import EGraphSearch.Rollout
import Mathlib

/-!
# The order of doubles

Comparing doubles is comparing places on a line, on which not-a-number has none.  So the strict
order is asymmetric, and on numbers the other order is total and transitive.  Doubles without a sign
are not below zero, and sums and quotients of them have none.
-/

set_option autoImplicit false

namespace EGraphSearch.Doubles

open Float.Model
open Float.Model.UnpackedFloat (Sign)

/-! ## Places -/

/-- Where a number stands: its kind and sign, the exponent, and the significand. -/
abbrev Place := Int × Int × Int

def place : UnpackedFloat → Option Place
  | .notANumber => none
  | .infinity .positive => some (2, 0, 0)
  | .infinity .negative => some (-2, 0, 0)
  | .zero _ => some (0, 0, 0)
  | .finite .positive m e _ => some (1, e, m)
  | .finite .negative m e _ => some (-1, -e, -m)

def Before (a b : Place) : Prop :=
  a.1 < b.1 ∨ a.1 = b.1 ∧ (a.2.1 < b.2.1 ∨ a.2.1 = b.2.1 ∧ a.2.2 < b.2.2)

theorem lt_unpacked_iff (x y : UnpackedFloat) :
    x.lt y = true ↔ ∃ a b, place x = some a ∧ place y = some b ∧ Before a b := by
  unfold UnpackedFloat.lt
  rcases x with (_ | _) | _ | (_ | _) | ⟨_ | _, m, e, _⟩ <;>
    rcases y with (_ | _) | _ | (_ | _) | ⟨_ | _, m', e', _⟩ <;>
    simp [UnpackedFloat.compare, place, Before, Ordering.then_eq_lt, Ordering.then_eq_gt,
      Int.compare_eq_lt, Int.compare_eq_gt, Nat.compare_eq_lt,
      Nat.compare_eq_gt, show compare Sign.negative Sign.negative = .eq from rfl,
      show compare Sign.negative Sign.positive = .lt from rfl,
      show compare Sign.positive Sign.negative = .gt from rfl,
      show compare Sign.positive Sign.positive = .eq from rfl]

def placeOf (x : Float) : Option Place := place x.toModel.unpack

theorem lt_iff (x y : Float) :
    x < y ↔ ∃ a b, placeOf x = some a ∧ placeOf y = some b ∧ Before a b := by
  have unfolded : x < y ↔
      decide (UnpackedFloat.lt x.toModel.unpack y.toModel.unpack = true) = true := Iff.rfl
  rw [unfolded, decide_eq_true_iff]
  exact lt_unpacked_iff _ _

theorem lt_asymm {x y : Float} (lt : x < y) : ¬ y < x := by
  rw [lt_iff] at *
  obtain ⟨a, b, placeX, placeY, before⟩ := lt
  rintro ⟨b', a', placeY', placeX', after⟩
  cases placeX.symm.trans placeX'
  cases placeY.symm.trans placeY'
  simp only [Before] at before after
  omega

theorem placeOf_isSome {x : Float} (number : x.isNaN = false) : (placeOf x).isSome := by
  have number : x.toModel.unpack.isNaN = false := number
  unfold placeOf
  cases unpacked : x.toModel.unpack with
  | notANumber =>
      rw [unpacked] at number
      simp [UnpackedFloat.isNaN] at number
  | infinity s => cases s <;> rfl
  | zero s => rfl
  | finite s m e pos => cases s <;> rfl

theorem placeOf_zero : placeOf 0 = some (0, 0, 0) := by decide

theorem neg_of_isInf {x : Float} (infinite : x.isInf = true) (notPositive : ¬ 0 < x) : x < 0 := by
  have infinite : x.toModel.unpack.isInf = true := infinite
  rw [lt_iff] at *
  cases unpacked : x.toModel.unpack with
  | infinity s =>
      cases s with
      | positive =>
          have place : placeOf x = some (2, 0, 0) := by rw [placeOf, unpacked]; rfl
          exact absurd ⟨_, _, placeOf_zero, place, by simp [Before]⟩ notPositive
      | negative =>
          have place : placeOf x = some (-2, 0, 0) := by rw [placeOf, unpacked]; rfl
          exact ⟨_, _, place, placeOf_zero, by simp [Before]⟩
  | _ =>
      rw [unpacked] at infinite
      simp [UnpackedFloat.isInf] at infinite

theorem beq_unpacked_iff (x y : UnpackedFloat) :
    x.beq y = true ↔ ∃ a b, place x = some a ∧ place y = some b ∧ a = b := by
  unfold UnpackedFloat.beq
  rcases x with (_ | _) | _ | (_ | _) | ⟨_ | _, m, e, _⟩ <;>
    rcases y with (_ | _) | _ | (_ | _) | ⟨_ | _, m', e', _⟩ <;>
    simp [UnpackedFloat.compare, place, Ordering.then_eq_eq,
      show compare Sign.negative Sign.negative = .eq from rfl,
      show compare Sign.negative Sign.positive = .lt from rfl,
      show compare Sign.positive Sign.negative = .gt from rfl,
      show compare Sign.positive Sign.positive = .eq from rfl] <;> omega

theorem le_unpacked_iff (x y : UnpackedFloat) :
    x.le y = true ↔ ∃ a b, place x = some a ∧ place y = some b ∧ ¬ Before b a := by
  have split_ : x.le y = true ↔ x.lt y = true ∨ x.beq y = true := by
    unfold UnpackedFloat.le UnpackedFloat.lt UnpackedFloat.beq
    rcases x.compare y with _ | _ | _ | _ <;> simp
  rw [split_, lt_unpacked_iff, beq_unpacked_iff]
  constructor
  · rintro (⟨a, b, placeX, placeY, before⟩ | ⟨a, _, placeX, placeY, rfl⟩)
    · refine ⟨a, b, placeX, placeY, ?_⟩
      simp only [Before] at before ⊢
      omega
    · refine ⟨a, a, placeX, placeY, ?_⟩
      simp only [Before]
      omega
  · rintro ⟨a, b, placeX, placeY, notAfter⟩
    by_cases before : Before a b
    · exact .inl ⟨a, b, placeX, placeY, before⟩
    · have same : a = b := by
        simp only [Before] at before notAfter
        exact Prod.ext (by omega) (Prod.ext (by omega) (by omega))
      exact .inr ⟨a, b, placeX, placeY, same⟩

theorem le_iff (x y : Float) :
    x ≤ y ↔ ∃ a b, placeOf x = some a ∧ placeOf y = some b ∧ ¬ Before b a := by
  have unfolded : x ≤ y ↔
      decide (UnpackedFloat.le x.toModel.unpack y.toModel.unpack = true) = true := Iff.rfl
  rw [unfolded, decide_eq_true_iff]
  exact le_unpacked_iff _ _

theorem le_of_not_lt {x y : Float} (numberX : x.isNaN = false) (numberY : y.isNaN = false)
    (notAfter : ¬ y < x) : x ≤ y := by
  obtain ⟨a, placeX⟩ := Option.isSome_iff_exists.mp (placeOf_isSome numberX)
  obtain ⟨b, placeY⟩ := Option.isSome_iff_exists.mp (placeOf_isSome numberY)
  exact (le_iff x y).mpr
    ⟨a, b, placeX, placeY, fun before => notAfter ((lt_iff y x).mpr ⟨b, a, placeY, placeX, before⟩)⟩

theorem le_of_lt {x y : Float} (lt : x < y) : x ≤ y := by
  rw [lt_iff] at lt
  rw [le_iff]
  obtain ⟨a, b, placeX, placeY, before⟩ := lt
  refine ⟨a, b, placeX, placeY, ?_⟩
  simp only [Before] at before ⊢
  omega

theorem le_trans {x y z : Float} (first : x ≤ y) (second : y ≤ z) : x ≤ z := by
  rw [le_iff] at *
  obtain ⟨a, b, placeX, placeY, notAfter⟩ := first
  obtain ⟨b', c, placeY', placeZ, notAfter'⟩ := second
  cases placeY.symm.trans placeY'
  refine ⟨a, c, placeX, placeZ, ?_⟩
  simp only [Before] at notAfter notAfter' ⊢
  omega

theorem lt_of_lt_of_le {x y z : Float} (first : x < y) (second : y ≤ z) : x < z := by
  rw [lt_iff] at *
  rw [le_iff] at second
  obtain ⟨a, b, placeX, placeY, before⟩ := first
  obtain ⟨b', c, placeY', placeZ, notAfter⟩ := second
  cases placeY.symm.trans placeY'
  refine ⟨a, c, placeX, placeZ, ?_⟩
  simp only [Before] at before notAfter ⊢
  omega

theorem le_refl {x : Float} (number : x.isNaN = false) : x ≤ x :=
  le_of_not_lt number number fun lt => lt_asymm lt lt

/-! ## Doubles without a sign -/

/-- Not a number, or a number with a positive sign. -/
def Unsigned : UnpackedFloat → Prop
  | .notANumber => True
  | .infinity s => s = .positive
  | .zero s => s = .positive
  | .finite s _ _ _ => s = .positive

instance decidableEqSign : DecidableEq Sign
  | .positive, .positive => isTrue rfl
  | .negative, .negative => isTrue rfl
  | .positive, .negative => isFalse nofun
  | .negative, .positive => isFalse nofun

instance : DecidablePred Unsigned
  | .notANumber => isTrue trivial
  | .infinity s => inferInstanceAs (Decidable (s = .positive))
  | .zero s => inferInstanceAs (Decidable (s = .positive))
  | .finite s _ _ _ => inferInstanceAs (Decidable (s = .positive))

theorem unsigned_unpack {b : BitVec Format.binary64.numBits}
    (unsigned : UnpackedFloat.unpackSign b = 0#1) :
    Unsigned (UnpackedFloat.unpack Format.binary64 b) := by
  unfold UnpackedFloat.unpack
  simp only [unsigned]
  split
  · split <;> simp [Unsigned, Sign.ofBitVec]
  · split
    · split <;> simp [Unsigned, Sign.ofBitVec]
    · simp [Unsigned, Sign.ofBitVec]

theorem unpackSign_pack {f : UnpackedFloat} (unsigned : Unsigned f) :
    UnpackedFloat.unpackSign (UnpackedFloat.pack Format.binary64 f) = 0#1 := by
  cases f with
  | notANumber => exact UnpackedFloat.unpackSign_packComponents _ _ _
  | infinity s =>
      obtain rfl : s = .positive := unsigned
      exact UnpackedFloat.unpackSign_packComponents _ _ _
  | zero s =>
      obtain rfl : s = .positive := unsigned
      exact UnpackedFloat.unpackSign_packComponents _ _ _
  | finite s m e pos =>
      obtain rfl : s = .positive := unsigned
      simp only [UnpackedFloat.pack]
      split
      · exact UnpackedFloat.unpackSign_packComponents _ _ _
      · split <;> exact UnpackedFloat.unpackSign_packComponents _ _ _

theorem unsigned_round (spec : Format) (m : Nat) (e : Int)
    (accuracy : UnpackedFloat.Accuracy) :
    Unsigned (UnpackedFloat.roundWithAccuracy spec .positive m e accuracy) := by
  simp only [UnpackedFloat.roundWithAccuracy]
  split <;> rfl

theorem Unsigned.add {spec : Format} {x y : UnpackedFloat} (first : Unsigned x)
    (second : Unsigned y) : Unsigned (UnpackedFloat.add spec x y) := by
  cases x <;> cases y <;> simp only [Unsigned] at first second <;> subst_vars <;>
    first
      | trivial
      | rfl
      | skip
  -- two finite numbers: their significands, shifted to one exponent, add up to a positive one
  simp only [UnpackedFloat.add, Sign.apply, UnpackedFloat.normalize]
  split
  · rename_i negative
    have := Int.compare_eq_lt.mp negative
    omega
  · rfl
  · exact unsigned_round _ _ _ _

theorem Unsigned.div {spec : Format} {x y : UnpackedFloat} (first : Unsigned x)
    (second : Unsigned y) : Unsigned (UnpackedFloat.div spec x y) := by
  cases x <;> cases y <;> simp only [Unsigned] at first second <;> subst_vars <;>
    first
      | trivial
      | rfl
      | exact unsigned_round _ _ _ _

/-- A double without a sign. -/
def NoSign (x : Float) : Prop := Unsigned x.toModel.unpack

theorem noSign_pack {f : UnpackedFloat} (unsigned : Unsigned f) :
    NoSign (.ofModel (Float.Model.pack f)) :=
  unsigned_unpack (unpackSign_pack unsigned)

theorem NoSign.add {x y : Float} (first : NoSign x) (second : NoSign y) : NoSign (x + y) :=
  noSign_pack (Unsigned.add first second)

theorem NoSign.div {x y : Float} (first : NoSign x) (second : NoSign y) : NoSign (x / y) :=
  noSign_pack (Unsigned.div first second)

theorem noSign_ofBits {bits : UInt64} (small : bits.toNat < 0x8000000000000000) :
    NoSign (Float.ofBits bits) := by
  apply noSign_pack
  apply unsigned_unpack
  apply BitVec.eq_of_toNat_eq
  simp only [UnpackedFloat.unpackSign, BitVec.extractLsb, BitVec.toNat_cast,
    BitVec.extractLsb'_toNat, Nat.shiftRight_eq_div_pow, UInt64.toNat_toBitVec]
  rw [Nat.div_eq_of_lt (show bits.toNat < 2 ^ 63 from small)]
  rfl

theorem noSign_ofNat (n : Nat) : NoSign (Binary64.ofNat n) := by
  apply noSign_ofBits
  have bounded : Binary64.nearestBits n 1 ≤ Binary64.infinityBits := by
    unfold Binary64.nearestBits
    split
    · exact Nat.zero_le _
    · exact Nat.min_le_right _ _
  have limit : Binary64.infinityBits < 0x8000000000000000 := by decide
  have fits : (Binary64.nearestBits n 1).toUInt64.toNat = Binary64.nearestBits n 1 :=
    UInt64.toNat_ofNat_of_lt' (by
      have : UInt64.size = 2 ^ 64 := rfl
      omega)
  omega

/-- Doubles without a sign are not below zero. -/
theorem NoSign.not_neg {x : Float} (noSign : NoSign x) : ¬ x < 0 := by
  rw [lt_iff]
  rintro ⟨a, b, placeX, placeZero, before⟩
  cases placeOf_zero.symm.trans placeZero
  unfold placeOf at placeX
  unfold NoSign at noSign
  cases unpacked : x.toModel.unpack <;> rw [unpacked] at placeX noSign <;>
    simp only [Unsigned] at noSign <;> subst_vars <;> simp [place] at placeX <;>
    subst_vars <;> simp [Before] at before

theorem levelWeight_not_neg (g : EGraph) (n : Nat) : ¬ levelWeight g n < 0 := by
  unfold levelWeight
  have one : NoSign 1 := by
    show Unsigned _
    decide
  cases g.nodeLevel n with
  | finite level => exact (one.div (one.add (noSign_ofNat level))).not_neg
  | infinite => exact fun lt => lt_asymm lt lt

end EGraphSearch.Doubles

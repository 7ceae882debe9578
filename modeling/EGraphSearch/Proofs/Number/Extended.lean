import EGraphSearch.Number.Basic
import Mathlib

/-!
# Exact values of numbers

Every number but not-a-number stands for a point of the real line with both infinities: a whole
number for itself, a finite double for its significand times a power of two.  Taking the opposite of
a number takes the opposite of its point, without rounding.
-/

set_option autoImplicit false

namespace EGraphSearch

open Float.Model
open Float.Model.UnpackedFloat (Sign)

namespace Doubles

/-- The point that a double stands for; not-a-number has none. -/
noncomputable def point? : UnpackedFloat → Option EReal
  | .notANumber => none
  | .infinity .positive => some ⊤
  | .infinity .negative => some ⊥
  | .zero _ => some 0
  | .finite s m e _ => some (((s.apply m : ℤ) * ((2 : ℕ) : ℝ) ^ e : ℝ) : EReal)

theorem point?_neg (f : UnpackedFloat) : point? f.neg = (point? f).map (- ·) := by
  cases f with
  | notANumber => rfl
  | infinity s =>
      cases s with
      | positive => exact congrArg some EReal.neg_top.symm
      | negative => exact congrArg some EReal.neg_bot.symm
  | zero s => exact congrArg some neg_zero.symm
  | finite s m e pos =>
      have opposite : (((-s).apply m : ℤ) : ℝ) = -((s.apply m : ℤ) : ℝ) := by
        cases s with
        | positive => exact Int.cast_neg _
        | negative => exact (neg_eq_iff_eq_neg.mp (Int.cast_neg _).symm)
      refine congrArg some ?_
      rw [opposite, neg_mul, EReal.coe_neg]

/-! ## Negation of bits -/

theorem unpack_pack_unpack (b : BitVec Format.binary64.numBits) :
    UnpackedFloat.unpack Format.binary64 (UnpackedFloat.pack Format.binary64
      (UnpackedFloat.unpack Format.binary64 b)) = UnpackedFloat.unpack Format.binary64 b := by
  rw [UnpackedFloat.pack_unpack]
  split
  · rename_i isNaN
    obtain ⟨exponent, mantissa⟩ := of_decide_eq_true isNaN
    rw [UnpackedFloat.unpack_packedNaN]
    simp only [UnpackedFloat.unpack, exponent, mantissa, if_true, if_false]
  · rfl

def flip (b : BitVec Format.binary64.numBits) : BitVec Format.binary64.numBits :=
  UnpackedFloat.packComponents Format.binary64 (-Sign.ofBitVec (UnpackedFloat.unpackSign b))
    (UnpackedFloat.unpackExponent b) (UnpackedFloat.unpackMantissa b)

theorem unpack_flip (b : BitVec Format.binary64.numBits) :
    UnpackedFloat.unpack Format.binary64 (flip b) =
      (UnpackedFloat.unpack Format.binary64 b).neg := by
  simp only [UnpackedFloat.unpack, flip, UnpackedFloat.unpackSign_packComponents,
    UnpackedFloat.unpackExponent_packComponents, UnpackedFloat.unpackMantissa_packComponents,
    Sign.ofBitVec_toBitVec]
  split
  · split <;> rfl
  · split
    · split <;> rfl
    · rfl

theorem unpack_neg (x : Float) : (-x).toModel.unpack = x.toModel.unpack.neg := by
  change UnpackedFloat.unpack Format.binary64 (UnpackedFloat.pack Format.binary64
    (UnpackedFloat.unpack Format.binary64 x.toModel.toBits.toBitVec).neg) = _
  rw [← unpack_flip, unpack_pack_unpack, unpack_flip]
  rfl

end Doubles

/-! ## Points of numbers -/

namespace Number

/-- The point that a number stands for. -/
noncomputable def point? : Number → Option EReal
  | truth b => some ((ofTruth b : ℝ) : EReal)
  | int i => some ((i : ℝ) : EReal)
  | float x => Doubles.point? x.toModel.unpack

theorem point?_negate (n : Number) : n.negate.point? = n.point?.map (- ·) := by
  cases n with
  | truth b => simp [negate, point?]
  | int i => simp [negate, point?]
  | float x => exact (congrArg Doubles.point? (Doubles.unpack_neg x)).trans (Doubles.point?_neg _)

end Number

end EGraphSearch

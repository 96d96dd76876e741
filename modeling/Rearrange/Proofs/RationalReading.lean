import Mathlib
import Rearrange.Proofs.FieldValue

namespace Rearrange

namespace Number

open Float.Model (Format UnpackedFloat)

open Float.Model.UnpackedFloat

/-- The sign, mantissa and exponent of a double, or which special value it is. -/
def parts (x : Float) : UnpackedFloat := x.toModel.unpack

theorem unpack_pack_unpack (b : BitVec Format.binary64.numBits) :
    unpack .binary64 (UnpackedFloat.pack .binary64 (unpack .binary64 b)) = unpack .binary64 b := by
  rw [pack_unpack]
  split
  next hnan =>
    have hfields : unpackExponent b = -1#_ ∧ unpackMantissa b ≠ 0#_ := by
      simpa [isNaNBits] using hnan
    rw [unpack_packedNaN]
    simp [unpack, hfields]
  next => rfl

theorem unpack_setSign {b : BitVec Format.binary64.numBits} {s : Sign} {m : Nat} {e : Int}
    {h : 0 < m} (t : Sign) (hb : unpack .binary64 b = .finite s m e h) :
    unpack .binary64 (packComponents .binary64 t (unpackExponent b) (unpackMantissa b)) =
      .finite t m e h := by
  unfold unpack at hb ⊢
  simp only [unpackMantissa_packComponents, unpackExponent_packComponents,
    unpackSign_packComponents, Sign.ofBitVec_toBitVec] at hb ⊢
  split at hb
  next => split at hb <;> simp at hb
  next hmax =>
    rw [if_neg hmax]
    split at hb
    next hzero =>
      rw [if_pos hzero]
      split at hb
      next => simp at hb
      next hm0 =>
        obtain ⟨-, rfl, rfl⟩ := UnpackedFloat.finite.inj hb
        rw [dif_neg hm0]
    next hne =>
      obtain ⟨-, rfl, rfl⟩ := UnpackedFloat.finite.inj hb
      rw [if_neg hne]

theorem parts_neg (x : Float) : parts (-x) = (parts x).neg := by
  change unpack .binary64 (UnpackedFloat.pack .binary64 (parts x).neg) = _
  cases hx : parts x with
  | notANumber => rfl
  | infinity s => cases s <;> rfl
  | zero s => cases s <;> rfl
  | finite s m e h => rw [UnpackedFloat.neg, ← unpack_setSign (-s) hx, unpack_pack_unpack]

def rational (x : Float) : ℚ :=
  match parts x with
  | .finite s m e _ => s.apply m * 2 ^ e
  | _ => 0

theorem rational_neg (x : Float) : rational (-x) = -rational x := by
  have hs (s : Sign) (m : Nat) : (-s).apply m = -s.apply m := by
    cases s
    · exact (neg_neg _).symm
    · rfl
  unfold rational
  rw [parts_neg]
  cases parts x with
  | finite s m e h =>
    change ((-s).apply m : ℚ) * 2 ^ e = -(s.apply m * 2 ^ e)
    rw [hs, Int.cast_neg, neg_mul]
  | _ => exact neg_zero.symm

end Number

def rationalReading : Reading ℚ where
  value := Number.rational
  zero := rfl
  one := by
    have h : Number.parts 1 = .finite .positive (2 ^ 52) (-52) (by decide) := rfl
    rw [Number.rational, h]
    norm_num [Float.Model.UnpackedFloat.Sign.apply]
  two := by
    have h : Number.parts 2 = .finite .positive (2 ^ 52) (-51) (by decide) := rfl
    rw [Number.rational, h]
    norm_num [Float.Model.UnpackedFloat.Sign.apply]
  neg := Number.rational_neg
  same h := by
    rcases Number.same_iff.mp h with rfl | ⟨rfl, rfl⟩ | ⟨rfl, rfl⟩ <;> rfl

end Rearrange

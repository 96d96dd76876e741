import Rearrange.Proofs.RationalReading

namespace Rearrange

section

open Float.Model (Format UnpackedFloat)

open Float.Model.UnpackedFloat

namespace Number

theorem parts_injective : Function.Injective parts := by
  intro x y h
  have hbits := (unpack_inj_of_valid x.toModel.valid y.toModel.valid).mp h
  exact Float.toBits_inj.mp (UInt64.toBitVec_inj.mp hbits)

theorem isFinite_iff {x : Float} :
    x.isFinite = true ↔ (∃ s, parts x = .zero s) ∨ ∃ s m e h, parts x = .finite s m e h := by
  change (parts x).isFinite = true ↔ _
  cases parts x with
  | finite s m e h => simp [UnpackedFloat.isFinite, h]
  | _ => simp [UnpackedFloat.isFinite]

theorem isNaN_of_isFinite {x : Float} (h : x.isFinite = true) : x.isNaN = false := by
  change (parts x).isNaN = false
  rcases isFinite_iff.mp h with ⟨s, hx⟩ | ⟨s, m, e, hm, hx⟩ <;> rw [hx] <;> rfl

theorem sign_neg_neg (s : Sign) : - -s = s := by
  cases s <;> rfl

theorem neg_neg (x : Float) : -(-x) = x := by
  apply parts_injective
  rw [parts_neg, parts_neg]
  cases parts x <;> simp only [UnpackedFloat.neg, sign_neg_neg]

theorem isFinite_neg (x : Float) : (-x).isFinite = x.isFinite := by
  change (parts (-x)).isFinite = (parts x).isFinite
  rw [parts_neg]
  cases parts x <;> rfl

end Number

namespace Binary64

open Number (parts)

variable {x : Float} {s : Sign}

theorem toNat_unpackMantissa (b : BitVec Format.binary64.numBits) :
    (unpackMantissa b).toNat = b.toNat % 2 ^ 52 := by
  rw [unpackMantissa_def, BitVec.extractLsb'_toNat, Nat.shiftRight_zero]

theorem toNat_unpackExponent (b : BitVec Format.binary64.numBits) :
    (unpackExponent b).toNat = b.toNat / 2 ^ 52 % 2 ^ 11 := by
  rw [unpackExponent_def, BitVec.extractLsb'_toNat, Nat.shiftRight_eq_div_pow]

theorem toNat_unpackSign (b : BitVec Format.binary64.numBits) :
    (unpackSign b).toNat = b.toNat / 2 ^ 63 := by
  have hb : b.toNat < 2 ^ 64 := b.isLt
  rw [unpackSign_def, BitVec.extractLsb'_toNat, Nat.shiftRight_eq_div_pow]
  change b.toNat / 2 ^ 63 % 2 ^ 1 = _
  omega

theorem ofFloat_eq {b : BitVec Format.binary64.numBits} (hb : x.toModel.toBits.toBitVec = b) :
    ofFloat x =
      if (unpackExponent b).toNat = 0 then
        ⟨Sign.ofBitVec (unpackSign b) == .negative, (unpackMantissa b).toNat, -1074, false⟩
      else
        ⟨Sign.ofBitVec (unpackSign b) == .negative, 2 ^ 52 + (unpackMantissa b).toNat,
          (unpackExponent b).toNat - 1075,
          (unpackMantissa b).toNat = 0 && 1 < (unpackExponent b).toNat⟩ := by
  have hx : x.toBits.toNat = b.toNat := by rw [← hb]; rfl
  have hsign (v : BitVec 1) : (Sign.ofBitVec v == .negative) = decide (v.toNat = 1) := by
    decide +revert
  rw [hsign, toNat_unpackSign, toNat_unpackExponent, toNat_unpackMantissa, ← hx]
  rfl

theorem toNat_one_append (v : BitVec 52) : (1#1 ++ v).toNat = 2 ^ 52 + v.toNat := by
  rw [BitVec.toNat_append, ← Nat.shiftLeft_add_eq_or_of_lt v.isLt]
  rfl

theorem ofFloat_of_zero (h : parts x = .zero s) :
    ofFloat x = ⟨s == .negative, 0, -1074, false⟩ := by
  rw [ofFloat_eq rfl]
  unfold parts Float.Model.unpack unpack at h
  simp only at h
  split at h
  next => split at h <;> cases h
  next =>
    split at h
    next hexponent =>
      split at h
      next hmantissa =>
        cases h
        rw [hexponent, hmantissa]
        rfl
      next => cases h
    next => cases h

/-- The fields of a finite number that is not zero: without an exponent it is subnormal, and else
the first bit of the mantissa is left out. -/
theorem fields_of_finite {m : Nat} {e : Int} {hm : 0 < m} {b : BitVec Format.binary64.numBits}
    (hb : x.toModel.toBits.toBitVec = b) (h : parts x = .finite s m e hm) :
    s = Sign.ofBitVec (unpackSign b) ∧ (unpackMantissa b).toNat < 2 ^ 52 ∧
      ((unpackExponent b).toNat = 0 ∧ m = (unpackMantissa b).toNat ∧ e = -1074 ∨
        0 < (unpackExponent b).toNat ∧ (unpackExponent b).toNat < 2047 ∧
          m = 2 ^ 52 + (unpackMantissa b).toNat ∧ e = (unpackExponent b).toNat - 1075) := by
  have hparts : parts x = unpack .binary64 b := by
    rw [← hb]
    rfl
  rw [hparts] at h
  unfold unpack at h
  simp only at h
  split at h
  next => split at h <;> cases h
  next hmax =>
    split at h
    next hexponent =>
      split at h
      next => cases h
      next =>
        obtain ⟨rfl, rfl, rfl⟩ := UnpackedFloat.finite.inj h
        rw [hexponent]
        exact ⟨rfl, BitVec.isLt _, Or.inl ⟨rfl, rfl, rfl⟩⟩
    next hexponent =>
      obtain ⟨rfl, rfl, rfl⟩ := UnpackedFloat.finite.inj h
      have hzero : (unpackExponent b).toNat ≠ 0 := fun h0 => hexponent (BitVec.toNat_inj.mp h0)
      have hlast : (unpackExponent b).toNat ≠ 2047 := fun h0 => hmax (BitVec.toNat_inj.mp h0)
      have hlt : (unpackExponent b).toNat < 2048 := (unpackExponent b).isLt
      exact ⟨rfl, BitVec.isLt _, Or.inr ⟨by omega, by omega, toNat_one_append _, rfl⟩⟩

theorem ofFloat_of_finite {m : Nat} {e : Int} {hm : 0 < m} (h : parts x = .finite s m e hm) :
    ofFloat x = ⟨s == .negative, m, e, m = 2 ^ 52 && -1074 < e⟩ := by
  obtain ⟨rfl, hlt, ⟨hexponent, rfl, rfl⟩ | ⟨hpos, -, rfl, rfl⟩⟩ := fields_of_finite rfl h
  · rw [ofFloat_eq rfl, if_pos hexponent]
    simp
  · have hhalved (k m : Nat) :
        (decide (m = 0) && decide (1 < k)) =
          (decide (2 ^ 52 + m = 2 ^ 52) && decide ((-1074 : Int) < k - 1075)) := by
      rw [Bool.eq_iff_iff]
      simp
      omega
    rw [ofFloat_eq rfl, if_neg hpos.ne', hhalved]

theorem parts_of_mantissa (h : x.isFinite = true) (hneg : (ofFloat x).negative = false)
    (hm : 0 < (ofFloat x).mantissa) :
    parts x = .finite .positive (ofFloat x).mantissa (ofFloat x).exponent hm := by
  rcases Number.isFinite_iff.mp h with ⟨s, hx⟩ | ⟨s, m, e, hpos, hx⟩
  · rw [ofFloat_of_zero hx] at hm
    exact absurd hm (lt_irrefl 0)
  · cases s with
    | negative =>
      rw [ofFloat_of_finite hx] at hneg
      cases hneg
    | positive =>
      have hfloat := ofFloat_of_finite hx
      simp only [hfloat]
      exact hx

theorem ofFloat_neg (h : x.isFinite = true) :
    ofFloat (-x) = { ofFloat x with negative := !(ofFloat x).negative } := by
  have hsign (s : Sign) : (-s == .negative) = !(s == .negative) := by cases s <;> rfl
  rcases Number.isFinite_iff.mp h with ⟨s, hx⟩ | ⟨s, m, e, hm, hx⟩
  · have hneg : parts (-x) = .zero (-s) := by rw [Number.parts_neg, hx]; rfl
    rw [ofFloat_of_zero hx, ofFloat_of_zero hneg, hsign]
  · have hneg : parts (-x) = .finite (-s) m e hm := by rw [Number.parts_neg, hx]; rfl
    rw [ofFloat_of_finite hx, ofFloat_of_finite hneg, hsign]

end Binary64

end

namespace Number

variable {x : Float}

def isNegative (x : Float) : Bool := (Binary64.ofFloat x).negative

def magnitude (x : Float) : List Char := ((Binary64.ofFloat x).shortest .up).positional

theorem isNegative_neg (h : x.isFinite = true) : isNegative (-x) = !isNegative x := by
  rw [isNegative, Binary64.ofFloat_neg h]
  rfl

theorem text_of_isFinite (h : x.isFinite = true) :
    text x = String.ofList (if isNegative x then '-' :: magnitude x else magnitude x) := by
  simp only [text, isNaN_of_isFinite h, h]
  rfl

end Number

end Rearrange

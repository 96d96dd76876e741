import Rearrange.Proofs.Rounding
import Rearrange.Proofs.SignBit

namespace Rearrange

namespace Rounding

open Float.Model (Format UnpackedFloat totalExponent)

open Float.Model.UnpackedFloat

section

variable {m m₁ m₂ : ℕ} {e e₁ e₂ : ℤ}

theorem mul_eq (hm : Canonical m e) (h₁ : 0 < m₁) (h₂ : 0 < m₂) (hlong : 2 ^ 52 ≤ m₁ * m₂)
    (hv : RoundsTo m e (m₁ * 2 ^ e₁ * (m₂ * 2 ^ e₂))) :
    UnpackedFloat.mul .binary64 (.finite .positive m₁ e₁ h₁) (.finite .positive m₂ e₂ h₂) =
      .finite .positive m e hm.pos := by
  have hlog : 52 ≤ (m₁ * m₂).log2 := (Nat.le_log2 (Nat.mul_pos h₁ h₂).ne').mpr hlong
  have hvalue : (m₁ * 2 ^ e₁ * (m₂ * 2 ^ e₂) : ℚ) = (m₁ * m₂ : ℕ) * 2 ^ (e₁ + e₂) := by
    rw [zpow_add₀ two_ne_zero]
    push_cast
    ring
  rw [hvalue] at hv
  exact roundWithAccuracy_eq hm (represents_exact (m₁ * m₂)) (by rw [exponentOf_eq]; omega) hv

theorem le_exponentOf_quotient (h₁ : 0 < m₁) (h₂ : 0 < m₂) {t : ℤ} {k : ℕ}
    (hk : e₁ - e₂ - t = k)
    (ht : t ≤ Format.targetExponent .binary64 (totalExponent m₁ e₁ - totalExponent m₂ e₂)) :
    t ≤ exponentOf (m₁ * 2 ^ k / m₂) t := by
  have htarget : t ≤ max (m₁.log2 + 1 + e₁ - (m₂.log2 + 1 + e₂) - 53) (-1074) := ht
  rw [exponentOf_eq]
  by_cases hmin : t ≤ -1074
  · omega
  · have hlong : 2 ^ 52 ≤ m₁ * 2 ^ k / m₂ := by
      rw [Nat.le_div_iff_mul_le h₂]
      calc 2 ^ 52 * m₂ ≤ 2 ^ 52 * 2 ^ (m₂.log2 + 1) :=
            Nat.mul_le_mul_left _ Nat.lt_log2_self.le
        _ = 2 ^ (52 + (m₂.log2 + 1)) := (pow_add 2 52 _).symm
        _ ≤ 2 ^ (m₁.log2 + k) := Nat.pow_le_pow_right two_pos (by omega)
        _ = 2 ^ m₁.log2 * 2 ^ k := pow_add 2 _ _
        _ ≤ m₁ * 2 ^ k := Nat.mul_le_mul_right _ (Nat.log2_self_le h₁.ne')
    have hlog : 52 ≤ (m₁ * 2 ^ k / m₂).log2 := (Nat.le_log2 (by omega)).mpr hlong
    omega

theorem div_eq (hm : Canonical m e) (h₁ : 0 < m₁) (h₂ : 0 < m₂)
    (hv : RoundsTo m e (m₁ * 2 ^ e₁ / (m₂ * 2 ^ e₂))) :
    UnpackedFloat.div .binary64 (.finite .positive m₁ e₁ h₁) (.finite .positive m₂ e₂ h₂) =
      .finite .positive m e hm.pos := by
  obtain ⟨t, ht⟩ : ∃ t, t = min (e₁ - e₂)
      (Format.targetExponent .binary64 (totalExponent m₁ e₁ - totalExponent m₂ e₂)) := ⟨_, rfl⟩
  obtain ⟨k, hk⟩ : ∃ k : ℕ, e₁ - e₂ - t = k := Int.eq_ofNat_of_zero_le (by omega)
  have hcore : divCore .binary64 m₁ e₁ m₂ e₂ =
      (m₁ * 2 ^ k / m₂, t, accuracyOfFraction (m₁ * 2 ^ k % m₂) m₂) := by
    have hshift : (e₁ - e₂ - t).toNat = k := by omega
    unfold divCore
    simp only [← ht, hshift, Nat.shiftLeft_eq]
  have hvalue : (m₁ * 2 ^ e₁ / (m₂ * 2 ^ e₂) : ℚ) = ((m₁ * 2 ^ k : ℕ) : ℚ) / m₂ * 2 ^ t := by
    have hpow : (2 : ℚ) ^ k = 2 ^ (e₁ - e₂ - t) := by rw [hk, zpow_natCast]
    push_cast
    rw [hpow, zpow_sub₀ two_ne_zero, zpow_sub₀ two_ne_zero]
    field_simp
  have hround := roundWithAccuracy_eq hm (represents_quotient (m₁ * 2 ^ k) h₂)
    (le_exponentOf_quotient h₁ h₂ hk (by omega)) (by rwa [← hvalue])
  unfold UnpackedFloat.div
  simp only [hcore]
  exact hround

end

theorem ofModel_pack {x : Float} {u : UnpackedFloat} (h : Number.parts x = u) :
    Float.ofModel (Float.Model.pack u) = x := by
  apply Number.parts_injective
  subst h
  exact Number.unpack_pack_unpack _

theorem canonical_of_parts {x : Float} {s : Sign} {m : ℕ} {e : ℤ} {hm : 0 < m}
    (h : Number.parts x = .finite s m e hm) : Canonical m e := by
  obtain ⟨-, hlt, ⟨-, rfl, rfl⟩ | ⟨hpos, hmax, rfl, rfl⟩⟩ := Binary64.fields_of_finite rfl h
  · exact ⟨hm, by omega, by omega, by omega, Or.inr rfl⟩
  · exact ⟨hm, by omega, by omega, by omega, Or.inl (Nat.le_add_right _ _)⟩

theorem unpack_pack_normal {m : ℕ} {e : ℤ} (hm : Canonical m e) (hnormal : 2 ^ 52 ≤ m) :
    unpack .binary64 (UnpackedFloat.pack .binary64 (.finite .positive m e hm.pos)) =
      .finite .positive m e hm.pos := by
  obtain ⟨hpos, hlt, hle, hge, -⟩ := hm
  have hlog : m.log2 + 1 = 53 := by
    have hl := (Nat.le_log2 hpos.ne').mpr hnormal
    have hu := (Nat.log2_lt hpos.ne').mpr hlt
    omega
  obtain ⟨k, hk⟩ : ∃ k : ℕ, e + 1075 = k := Int.eq_ofNat_of_zero_le (by omega)
  have hbiased : (e + (1023 : ℕ) + (52 : ℕ)).toNat = k := by omega
  have hpack : UnpackedFloat.pack .binary64 (.finite .positive m e hpos) =
      packComponents .binary64 .positive (BitVec.ofNat 11 k) (BitVec.ofNat 52 m) := by
    change (if 2 ^ 11 ≤ (e + (1023 : ℕ) + (52 : ℕ)).toNat + 1 then _
      else if m.log2 + 1 = 53 then
        packComponents .binary64 .positive
          (BitVec.ofNat 11 (e + (1023 : ℕ) + (52 : ℕ)).toNat) (BitVec.ofNat 52 m)
      else _) = _
    rw [hbiased, if_neg (by omega), if_pos hlog]
  have hexponent : (BitVec.ofNat 11 k).toNat = k := by
    rw [BitVec.toNat_ofNat, Nat.mod_eq_of_lt (by omega)]
  have hne {b : BitVec 11} (hb : k ≠ b.toNat) : BitVec.ofNat 11 k ≠ b := by
    rintro rfl
    exact hb hexponent.symm
  have hmax : BitVec.ofNat 11 k ≠ -1#11 := hne (by change k ≠ 2047; omega)
  have hzero : BitVec.ofNat 11 k ≠ 0#11 := hne (by change k ≠ 0; omega)
  have hmantissa : (1#1 ++ BitVec.ofNat 52 m).toNat = m := by
    rw [Binary64.toNat_one_append, BitVec.toNat_ofNat]
    omega
  rw [hpack]
  unfold unpack
  simp only [unpackMantissa_packComponents, unpackExponent_packComponents,
    unpackSign_packComponents]
  rw [if_neg hmax, if_neg hzero]
  have he : (k : ℤ) - ((1023 : ℕ) + (52 : ℕ)) = e := by omega
  simp only [hmantissa, hexponent]
  change UnpackedFloat.finite .positive m ((k : ℤ) - ((1023 : ℕ) + (52 : ℕ))) _ = _
  simp only [he]

theorem ofUInt64_eq {n k : ℕ} (hm : Canonical (n * 2 ^ k) (-k)) (hk : n.log2 + k = 52) :
    ofUInt64 .binary64 n.toUInt64 = .finite .positive (n * 2 ^ k) (-k) hm.pos := by
  have hpos : 0 < n := Nat.pos_of_mul_pos_right hm.pos
  have hlt : n < 2 ^ 53 := (Nat.log2_lt hpos.ne').mp (by omega)
  have hnat : n.toUInt64.toNat = n := UInt64.toNat_ofNat_of_lt (by
    change n < 2 ^ 64
    omega)
  have hcompare : compare (n : ℤ) 0 = .gt := Int.compare_eq_gt.mpr (by omega)
  have hdecrease : decreaseExponent n 0 (exponentOf n 0) = (n * 2 ^ k, -(k : ℤ)) := by
    have hshift : (-exponentOf n 0).toNat = k := by
      rw [exponentOf_eq]
      omega
    rw [decreaseExponent]
    simp only [zero_sub, hshift, Nat.shiftLeft_eq]
  change UnpackedFloat.normalize .binary64 (n.toUInt64.toNat : ℤ) 0 .positive = _
  rw [hnat, UnpackedFloat.normalize, hcompare]
  simp only [Int.toNat_natCast]
  change roundWithAccuracy .binary64 .positive (decreaseExponent n 0 (exponentOf n 0)).1
    (decreaseExponent n 0 (exponentOf n 0)).2 .exact = _
  rw [hdecrease]
  exact roundWithAccuracy_eq hm (represents_exact _) hm.exponentOf_eq.ge (RoundsTo.self _ _)

theorem parts_toFloat {n : ℕ} (hpos : 0 < n) (hlt : n < 2 ^ 53) :
    ∃ m e h, Number.parts n.toUInt64.toFloat = .finite .positive m e h ∧ 2 ^ 52 ≤ m ∧
      (m : ℚ) * 2 ^ e = n := by
  have hlog : n.log2 < 53 := (Nat.log2_lt hpos.ne').mpr hlt
  obtain ⟨k, hk⟩ : ∃ k, n.log2 + k = 52 := ⟨52 - n.log2, by omega⟩
  have hlong : 2 ^ 52 ≤ n * 2 ^ k := by
    rw [← hk, pow_add]
    exact Nat.mul_le_mul_right _ (Nat.log2_self_le hpos.ne')
  have hshort : n * 2 ^ k < 2 ^ 53 := by
    have h53 : n.log2 + 1 + k = 53 := by omega
    rw [← h53, pow_add]
    exact Nat.mul_lt_mul_of_pos_right Nat.lt_log2_self (by positivity)
  have hcanonical : Canonical (n * 2 ^ k) (-k) :=
    ⟨by positivity, hshort, by omega, by omega, Or.inl hlong⟩
  refine ⟨n * 2 ^ k, -k, hcanonical.pos, ?_, hlong, ?_⟩
  · change unpack .binary64 (UnpackedFloat.pack .binary64 (ofUInt64 .binary64 n.toUInt64)) = _
    rw [ofUInt64_eq hcanonical hk, unpack_pack_normal hcanonical hlong]
  · push_cast
    rw [mul_assoc, ← zpow_natCast, ← zpow_add₀ two_ne_zero, add_neg_cancel, zpow_zero, mul_one]

theorem zpow_eq_div {b : ℚ} (hb : b ≠ 0) (k : ℤ) : b ^ k = b ^ k.toNat / b ^ (-k).toNat := by
  have hk : k = (k.toNat : ℤ) - (-k).toNat := by omega
  conv_lhs => rw [hk, zpow_sub₀ hb, zpow_natCast, zpow_natCast]

def IsPowerOfTen (k : ℕ) (x : Float) : Prop :=
  x.isFinite = true ∧ (Binary64.ofFloat x).negative = false ∧
    2 ^ 52 ≤ (Binary64.ofFloat x).mantissa ∧
      (Binary64.ofFloat x).mantissa * 2 ^ (Binary64.ofFloat x).exponent.toNat =
        10 ^ k * 2 ^ (-(Binary64.ofFloat x).exponent).toNat

instance (k : ℕ) (x : Float) : Decidable (IsPowerOfTen k x) :=
  inferInstanceAs (Decidable (_ ∧ _))

theorem isPowerOfTen_of_lt : ∀ k, (hk : k < Float.exactlyRepresentablePowersOfTen.size) →
    IsPowerOfTen k Float.exactlyRepresentablePowersOfTen[k] := by
  decide +kernel

theorem IsPowerOfTen.parts {k : ℕ} {x : Float} (h : IsPowerOfTen k x) :
    ∃ m e hm, Number.parts x = .finite .positive m e hm ∧ 2 ^ 52 ≤ m ∧
      (m : ℚ) * 2 ^ e = 10 ^ k := by
  obtain ⟨hfinite, hneg, hlong, hvalue⟩ := h
  have hpos : 0 < (Binary64.ofFloat x).mantissa := by omega
  refine ⟨_, _, hpos, Binary64.parts_of_mantissa hfinite hneg hpos, hlong, ?_⟩
  rw [zpow_eq_div two_ne_zero, ← mul_div_assoc, div_eq_iff (by positivity)]
  exact_mod_cast hvalue

section

variable {m n : ℕ} {e k : ℤ}

theorem RoundsTo.lt {v : ℚ} (hm : Canonical m e) (hv : RoundsTo m e v) : v < 2 ^ (1024 : ℤ) := by
  have hge := hm.ge
  exact (hv.lt_pow hm).trans_le (zpow_le_zpow_right₀ one_le_two (by omega))

theorem RoundsTo.le {v : ℚ} (hm : Canonical m e) (hv : RoundsTo m e v) : 2 ^ (-1075 : ℤ) ≤ v := by
  have hpos : (1 : ℚ) ≤ m := by exact_mod_cast hm.pos
  have hle := hv.nearest.le
  have hpow : (0 : ℚ) < 2 ^ e := by positivity
  calc (2 : ℚ) ^ (-1075 : ℤ) ≤ 2 ^ (e - 1) := by
        refine zpow_le_zpow_right₀ one_le_two ?_
        have := hm.le
        omega
    _ = 1 / 2 * 2 ^ e := by rw [zpow_sub_one₀ two_ne_zero]; ring
    _ ≤ v / 2 ^ e * 2 ^ e := mul_le_mul_of_nonneg_right (by linarith) hpow.le
    _ = v := div_mul_cancel₀ v hpow.ne'

theorem RoundsTo.exponent_bounds (hm : Canonical m e) (hv : RoundsTo m e (n * 10 ^ k)) :
    0 < n ∧ k ≤ 2048 ∧ -(2048 + (n.log2 : ℤ)) ≤ k := by
  have hlow := hv.le hm
  have hhigh := hv.lt hm
  have hn : 0 < n := by
    rw [Nat.pos_iff_ne_zero]
    rintro rfl
    have hzero : (0 : ℚ) < 2 ^ (-1075 : ℤ) := by positivity
    rw [Nat.cast_zero, zero_mul] at hlow
    linarith
  have hn' : (1 : ℚ) ≤ n := by exact_mod_cast hn
  refine ⟨hn, ?_, ?_⟩
  · by_contra hk
    have hlarge : (2 : ℚ) ^ (1024 : ℤ) ≤ n * 10 ^ k := by
      calc (2 : ℚ) ^ (1024 : ℤ) ≤ 10 ^ (1024 : ℤ) :=
            zpow_le_zpow_left₀ (by norm_num) two_pos.le (by norm_num)
        _ ≤ 10 ^ k := zpow_le_zpow_right₀ (by norm_num) (by omega)
        _ ≤ n * 10 ^ k := le_mul_of_one_le_left (by positivity) hn'
    linarith
  · by_contra hk
    have hsmall : (n * 10 ^ k : ℚ) < 2 ^ (-1075 : ℤ) := by
      obtain ⟨j, hj⟩ : ∃ j : ℕ, -k = j := Int.eq_ofNat_of_zero_le (by omega)
      have hlog : (n : ℚ) < 2 ^ (n.log2 + 1) := by exact_mod_cast Nat.lt_log2_self
      have hten : (10 : ℚ) ^ k ≤ 2 ^ k := by
        have hk' : k = -(j : ℤ) := by omega
        rw [hk', zpow_neg, zpow_neg, zpow_natCast, zpow_natCast]
        exact inv_anti₀ (by positivity) (pow_le_pow_left₀ two_pos.le (by norm_num) j)
      calc (n * 10 ^ k : ℚ) < 2 ^ (n.log2 + 1) * 10 ^ k :=
            mul_lt_mul_of_pos_right hlog (by positivity)
        _ ≤ 2 ^ (n.log2 + 1) * 2 ^ k := mul_le_mul_of_nonneg_left hten (by positivity)
        _ = 2 ^ ((n.log2 + 1 : ℕ) + k) := by rw [zpow_add₀ two_ne_zero, zpow_natCast]
        _ ≤ 2 ^ (-1075 : ℤ) := zpow_le_zpow_right₀ one_le_two (by omega)
    linarith

theorem unpacked_ofScientific (hm : Canonical m e) (hv : RoundsTo m e (n * 10 ^ k)) :
    UnpackedFloat.ofScientific .binary64 n k = .finite .positive m e hm.pos := by
  obtain ⟨hn, hhigh, hlow⟩ := hv.exponent_bounds hm
  unfold UnpackedFloat.ofScientific
  have hbits : (2 : ℤ) ^ Format.binary64.exponentBits = 2048 := rfl
  rw [dif_neg hn.ne', if_neg (by omega), if_neg (by omega)]
  split
  next hk =>
    have hvalue : ((n <<< 53 : ℕ) : ℚ) * 2 ^ (-53 : ℤ) * ((10 ^ k.toNat : ℕ) * 2 ^ (0 : ℤ)) =
        n * 10 ^ k := by
      have hten : (10 : ℚ) ^ k = 10 ^ k.toNat := by
        rw [← zpow_natCast, Int.toNat_of_nonneg hk]
      rw [Nat.shiftLeft_eq, hten, zpow_neg, zpow_ofNat]
      push_cast
      field_simp
      norm_num
    refine mul_eq hm _ _ ?_ ?_
    · have hten : 1 ≤ 10 ^ k.toNat := Nat.one_le_pow _ _ (by decide)
      calc 2 ^ 52 ≤ 1 * 2 ^ 53 * 1 := by decide
        _ ≤ n * 2 ^ 53 * 10 ^ k.toNat := Nat.mul_le_mul (Nat.mul_le_mul_right _ hn) hten
        _ = n <<< 53 * 10 ^ k.toNat := by rw [Nat.shiftLeft_eq]
    · rw [← hvalue] at hv
      exact hv
  next hk =>
    have hvalue : (n * 2 ^ (0 : ℤ) / ((10 ^ (-k).toNat : ℕ) * 2 ^ (0 : ℤ)) : ℚ) = n * 10 ^ k := by
      rw [zpow_eq_div (by norm_num : (10 : ℚ) ≠ 0) k, Int.toNat_of_nonpos (by omega : k ≤ 0)]
      push_cast
      ring
    refine div_eq hm _ _ ?_
    rw [← hvalue] at hv
    exact hv

/-- The decimal that rounds to a positive double is read as this double. -/
theorem ofScientific_eq {x : Float} {hm : 0 < m} (hx : Number.parts x = .finite .positive m e hm)
    (hv : RoundsTo m e (n * 10 ^ k)) : Float.ofScientific n (k < 0) k.natAbs = x := by
  have hcanonical := canonical_of_parts hx
  obtain ⟨hn, -, -⟩ := hv.exponent_bounds hcanonical
  unfold Float.ofScientific
  split
  next hfast =>
    obtain ⟨m₁, e₁, h₁, hdigits, hlong₁, hvalue₁⟩ := parts_toFloat hn hfast.1
    have hindex : k.natAbs < Float.exactlyRepresentablePowersOfTen.size :=
      Nat.lt_succ_of_le hfast.2
    obtain ⟨m₂, e₂, h₂, hpower, hlong₂, hvalue₂⟩ := (isPowerOfTen_of_lt _ hindex).parts
    simp only
    split
    next hneg =>
      have hk : k = -(k.natAbs : ℤ) := by
        have := of_decide_eq_true hneg
        omega
      have hquotient : RoundsTo m e (m₁ * 2 ^ e₁ / (m₂ * 2 ^ e₂)) := by
        rwa [hvalue₁, hvalue₂, div_eq_mul_inv, ← zpow_natCast, ← zpow_neg, ← hk]
      apply ofModel_pack
      change _ = UnpackedFloat.div .binary64 (Number.parts _) (Number.parts _)
      rw [hx, hdigits, hpower, div_eq hcanonical h₁ h₂ hquotient]
    next hnonneg =>
      have hk : k = (k.natAbs : ℤ) := by
        have : ¬ k < 0 := fun h => hnonneg (decide_eq_true h)
        omega
      have hproduct : RoundsTo m e (m₁ * 2 ^ e₁ * (m₂ * 2 ^ e₂)) := by
        rwa [hvalue₁, hvalue₂, ← zpow_natCast, ← hk]
      have hlong : 2 ^ 52 ≤ m₁ * m₂ := Nat.le_trans hlong₁ (Nat.le_mul_of_pos_right m₁ h₂)
      apply ofModel_pack
      change _ = UnpackedFloat.mul .binary64 (Number.parts _) (Number.parts _)
      rw [hx, hdigits, hpower, mul_eq hcanonical h₁ h₂ hlong hproduct]
  next hslow =>
    have hk : (if decide (k < 0) then Int.negOfNat k.natAbs else Int.ofNat k.natAbs) = k := by
      by_cases hneg : k < 0
      · rw [if_pos (decide_eq_true hneg), Int.negOfNat_eq]
        change -(k.natAbs : ℤ) = k
        omega
      · rw [if_neg (by simp [hneg])]
        change (k.natAbs : ℤ) = k
        omega
    simp only [hk]
    apply ofModel_pack
    rw [hx, unpacked_ofScientific hcanonical hv]

end

end Rounding

end Rearrange

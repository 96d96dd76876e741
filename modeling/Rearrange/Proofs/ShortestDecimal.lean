import Rearrange.Proofs.DecimalRounding
import Rearrange.Proofs.DecimalText

namespace Rearrange

open Rounding

namespace Binary64.Rounding

variable (r : Binary64.Rounding) (e : ℤ) (n k : ℕ)

theorem cast_numerator :
    (r.numerator e n : ℚ) = n * 2 ^ r.unit * (2 ^ (-r.unit).toNat * 10 ^ (-e).toNat) := by
  rw [numerator, Nat.pow_eq, Nat.pow_eq, zpow_eq_div two_ne_zero r.unit]
  push_cast
  field_simp

theorem cast_denominator :
    (r.denominator e : ℚ) = 10 ^ e * (2 ^ (-r.unit).toNat * 10 ^ (-e).toNat) := by
  rw [denominator, Nat.pow_eq, Nat.pow_eq, zpow_eq_div (by norm_num : (10 : ℚ) ≠ 0) e]
  push_cast
  field_simp

theorem numerator_le_iff :
    r.numerator e n ≤ k * r.denominator e ↔ (n * 2 ^ r.unit : ℚ) ≤ k * 10 ^ e := by
  have hscale : (0 : ℚ) < 2 ^ (-r.unit).toNat * 10 ^ (-e).toNat := by positivity
  rw [← Nat.cast_le (α := ℚ), Nat.cast_mul, cast_numerator, cast_denominator, ← mul_assoc (k : ℚ),
    mul_le_mul_iff_left₀ hscale]

theorem le_numerator_iff :
    k * r.denominator e ≤ r.numerator e n ↔ (k * 10 ^ e : ℚ) ≤ n * 2 ^ r.unit := by
  have hscale : (0 : ℚ) < 2 ^ (-r.unit).toNat * 10 ^ (-e).toNat := by positivity
  rw [← Nat.cast_le (α := ℚ), Nat.cast_mul, cast_numerator, cast_denominator, ← mul_assoc (k : ℚ),
    mul_le_mul_iff_left₀ hscale]

theorem contains_iff :
    r.contains e k = true ↔
      if r.closed then
        (r.low * 2 ^ r.unit : ℚ) ≤ k * 10 ^ e ∧ (k * 10 ^ e : ℚ) ≤ r.high * 2 ^ r.unit
      else (r.low * 2 ^ r.unit : ℚ) < k * 10 ^ e ∧ (k * 10 ^ e : ℚ) < r.high * 2 ^ r.unit := by
  unfold contains
  split
  · rw [Bool.and_eq_true, decide_eq_true_iff, decide_eq_true_iff, numerator_le_iff,
      le_numerator_iff]
  · rw [Bool.and_eq_true, decide_eq_true_iff, decide_eq_true_iff, ← Nat.not_le, ← Nat.not_le,
      le_numerator_iff, numerator_le_iff, not_le, not_le]

theorem contains_of_nearest {tie : Tie} {r : Binary64.Rounding} {e : ℤ} {n : ℕ}
    (h : r.nearest tie e = some n) : r.contains e n = true := by
  unfold nearest at h
  simp only at h
  split at h
  next hlow hhigh =>
    split at h <;> cases h
    · exact hlow
    · exact hhigh
  next hlow hhigh => cases h; exact hlow
  next hlow hhigh => cases h; exact hhigh
  next => cases h

theorem nearest_ne_none {tie : Tie} {r : Binary64.Rounding} {e : ℤ}
    (h : r.contains e (r.floor e) = true) : r.nearest tie e ≠ none := by
  unfold nearest
  simp only [h]
  split
  next => split <;> exact nofun
  next => exact nofun
  next => cases ‹true = false›
  next => cases ‹true = false›

/-- A grid that is finer than a quarter of the last bit has a number close below the double. -/
theorem contains_floor {r : Binary64.Rounding} {e : ℤ} (hlow : r.low < r.value)
    (hhigh : r.value < r.high) (hfine : (10 : ℚ) ^ e ≤ 2 ^ r.unit) :
    r.contains e (r.floor e) = true := by
  have hden : 0 < r.denominator e := by
    rw [denominator, Nat.pow_eq, Nat.pow_eq]
    positivity
  have hbelow : (r.floor e * 10 ^ e : ℚ) ≤ r.value * 2 ^ r.unit :=
    (le_numerator_iff r e _ _).mp (Nat.div_mul_le_self _ _)
  have habove : (r.value * 2 ^ r.unit : ℚ) < (r.floor e + 1) * 10 ^ e := by
    have hnext : ¬ (r.floor e + 1) * r.denominator e ≤ r.numerator e r.value :=
      Nat.not_le.mpr ((Nat.div_lt_iff_lt_mul hden).mp (Nat.lt_succ_self _))
    rw [le_numerator_iff, not_le] at hnext
    exact_mod_cast hnext
  have hunit : (0 : ℚ) < 2 ^ r.unit := by positivity
  have hlow' : (r.low * 2 ^ r.unit : ℚ) < r.floor e * 10 ^ e := by
    have hstep : (r.low : ℚ) + 1 ≤ r.value := by exact_mod_cast hlow
    have hscaled := mul_le_mul_of_nonneg_right hstep hunit.le
    linarith
  have hhigh' : (r.floor e * 10 ^ e : ℚ) < r.high * 2 ^ r.unit := by
    have hstep : (r.value : ℚ) < r.high := by exact_mod_cast hhigh
    exact hbelow.trans_lt (mul_lt_mul_of_pos_right hstep hunit)
  rw [contains_iff]
  split
  · exact ⟨hlow'.le, hhigh'.le⟩
  · exact ⟨hlow', hhigh'⟩

theorem contains_search {tie : Tie} {r : Binary64.Rounding} {steps : ℕ} {e : ℤ}
    (hlow : r.low < r.value) (hhigh : r.value < r.high)
    (hfine : (10 : ℚ) ^ (e - steps) ≤ 2 ^ r.unit) :
    r.contains (r.search tie (steps + 1) e).exponent (r.search tie (steps + 1) e).digits =
      true := by
  induction steps generalizing e with
  | zero =>
    have hnearest : r.nearest tie e ≠ none :=
      nearest_ne_none (contains_floor hlow hhigh (by simpa using hfine))
    rw [search]
    split
    next n hn => exact contains_of_nearest hn
    next hnone => exact absurd hnone hnearest
  | succ steps ih =>
    rw [search]
    split
    next n hn => exact contains_of_nearest hn
    next =>
      refine ih ?_
      have hexponent : e - 1 - (steps : ℤ) = e - (steps + 1 : ℕ) := by
        push_cast
        ring
      rwa [hexponent]

theorem pow_ten_le {c u : ℤ} (h : 100000 * (c + 22) ≤ 30103 * (55 + u)) (hlow : -1076 ≤ u)
    (hhigh : u ≤ 969) : (10 : ℚ) ^ c ≤ 2 ^ u := by
  by_cases hc : 0 ≤ c
  · -- A thousand is less than `2 ^ 10`.
    refine (pow_le_pow_iff_left₀ (by positivity) (by positivity) (by decide : 3 ≠ 0)).mp ?_
    calc ((10 : ℚ) ^ c) ^ 3 = (10 ^ 3) ^ c := by
          rw [← zpow_natCast, ← zpow_natCast, ← zpow_mul, ← zpow_mul, mul_comm]
      _ ≤ (2 ^ 10) ^ c := zpow_le_zpow_left₀ hc (by norm_num) (by norm_num)
      _ = 2 ^ (10 * c) := by rw [← zpow_natCast, ← zpow_mul]; rfl
      _ ≤ 2 ^ (u * 3) := zpow_le_zpow_right₀ one_le_two (by omega)
      _ = (2 ^ u) ^ 3 := by rw [zpow_mul]; rfl
  · -- Among the powers of ten, `10 ^ 28` lies close above a power of two.
    obtain ⟨j, hj⟩ : ∃ j : ℕ, -c = j := Int.eq_ofNat_of_zero_le (by omega)
    have hc' : c = -(j : ℤ) := by omega
    refine (pow_le_pow_iff_left₀ (by positivity) (by positivity) (by decide : 28 ≠ 0)).mp ?_
    calc ((10 : ℚ) ^ c) ^ 28 = ((10 ^ 28) ^ j)⁻¹ := by
          rw [hc', zpow_neg, zpow_natCast, inv_pow, ← pow_mul, ← pow_mul, mul_comm]
      _ ≤ ((2 ^ 93) ^ j)⁻¹ :=
          inv_anti₀ (by positivity) (pow_le_pow_left₀ (by norm_num) (by norm_num) j)
      _ = 2 ^ (93 * c) := by
          rw [hc', ← pow_mul, mul_neg, zpow_neg, ← zpow_natCast]
          rfl
      _ ≤ 2 ^ (u * 28) := zpow_le_zpow_right₀ one_le_two (by omega)
      _ = (2 ^ u) ^ 28 := by rw [zpow_mul]; rfl

theorem contains_shortest {tie : Tie} {r : Binary64.Rounding} (hlow : r.low < r.value)
    (hhigh : r.value < r.high) (hvalue : r.value < 2 ^ 55) (hmin : -1076 ≤ r.unit)
    (hmax : r.unit ≤ 969) :
    r.contains (r.shortest tie).exponent (r.shortest tie).digits = true := by
  have hlog : r.value.log2 < 55 := (Nat.log2_lt (by omega)).mpr hvalue
  have hfine : (10 : ℚ) ^ (r.coarsest - (23 : ℕ)) ≤ 2 ^ r.unit := by
    refine pow_ten_le ?_ hmin hmax
    rw [coarsest]
    omega
  exact contains_search hlow hhigh hfine

end Binary64.Rounding

def Decimal.value (d : Decimal) : ℚ := d.digits * 10 ^ d.exponent

theorem Decimal.value_unscaled (d : Decimal) : d.unscaled.value = d.value := by
  have hexponent : d.exponent = d.exponent.toNat + min d.exponent 0 := by omega
  have hten : (10 : ℚ) ≠ 0 := by norm_num
  rw [value, value, unscaled]
  conv_rhs => rw [hexponent, zpow_add₀ hten, zpow_natCast]
  push_cast
  ring

theorem Decimal.toFloat_eq {d : Decimal} {x : Float} {m : ℕ} {e : ℤ} {hm : 0 < m}
    (hx : Number.parts x = .finite .positive m e hm) (hv : RoundsTo m e d.value) :
    d.toFloat = x :=
  ofScientific_eq hx hv

namespace Binary64

theorem cast_low {b : Binary64} (hm : 0 < b.mantissa) :
    (b.rounding.low : ℚ) = 4 * b.mantissa - if b.lowerGapHalved then 1 else 2 := by
  rw [rounding, Nat.cast_sub]
  · split <;> push_cast <;> rfl
  · split <;> omega

theorem roundsTo_of_contains {b : Binary64} (hm : 0 < b.mantissa)
    (hhalved : b.lowerGapHalved = (b.mantissa = 2 ^ 52 && -1074 < b.exponent)) {e : ℤ} {k : ℕ}
    (h : b.rounding.contains e k = true) : RoundsTo b.mantissa b.exponent (k * 10 ^ e) := by
  have hpow : (0 : ℚ) < 2 ^ b.exponent := by positivity
  have hunit : (2 : ℚ) ^ b.rounding.unit = 2 ^ b.exponent / 4 := by
    change (2 : ℚ) ^ (b.exponent - 2) = _
    rw [zpow_sub₀ two_ne_zero]
    norm_num
  have hhigh : (b.rounding.high : ℚ) = 4 * b.mantissa + 2 := by
    change ((4 * b.mantissa + 2 : ℕ) : ℚ) = _
    push_cast
    rfl
  have hclosed : b.rounding.closed = decide (b.mantissa % 2 = 0) := rfl
  generalize hv : (k * 10 ^ e : ℚ) = v
  rw [Rounding.contains_iff, hunit, hhigh, cast_low hm, hclosed, hv] at h
  generalize hgap : (if b.lowerGapHalved then 1 else 2 : ℚ) = gap at h
  have hgap2 : gap ≤ 2 := by
    rw [← hgap]
    split <;> norm_num
  have hgap1 (hm52 : b.mantissa = 2 ^ 52) (he : -1074 < b.exponent) : gap = 1 := by
    rw [← hgap, hhalved]
    simp [hm52, he]
  obtain ⟨q, rfl⟩ : ∃ q, v = q * 2 ^ b.exponent :=
    ⟨v / 2 ^ b.exponent, (div_mul_cancel₀ v hpow.ne').symm⟩
  have hq : q * 2 ^ b.exponent / 2 ^ b.exponent = q := mul_div_cancel_right₀ q hpow.ne'
  have hbounds : (b.mantissa : ℚ) - gap / 4 ≤ q ∧ q ≤ b.mantissa + 1 / 2 := by
    split at h
    · exact ⟨le_of_mul_le_mul_right (by linarith) hpow, le_of_mul_le_mul_right (by linarith) hpow⟩
    · exact ⟨le_of_mul_le_mul_right (by linarith) hpow, le_of_mul_le_mul_right (by linarith) hpow⟩
  have hodd (hodd : b.mantissa % 2 = 1) :
      (b.mantissa : ℚ) - gap / 4 < q ∧ q < b.mantissa + 1 / 2 := by
    rw [if_neg (by simp [hodd])] at h
    exact ⟨lt_of_mul_lt_mul_right (by linarith) hpow.le,
      lt_of_mul_lt_mul_right (by linarith) hpow.le⟩
  refine ⟨⟨?_, ?_, fun h1 => ⟨?_, ?_⟩⟩, fun hm52 he => ?_⟩ <;> rw [hq]
  · linarith [hbounds.1]
  · exact hbounds.2
  · linarith [(hodd h1).1]
  · exact (hodd h1).2
  · have hone := hgap1 hm52 he
    linarith [hbounds.1]

theorem roundsTo_shortest {x : Float} {m : ℕ} {e : ℤ} {s : Float.Model.UnpackedFloat.Sign}
    {hm : 0 < m} (hx : Number.parts x = .finite s m e hm) (tie : Tie) :
    RoundsTo m e ((ofFloat x).shortest tie).value := by
  have hcanonical := canonical_of_parts hx
  have hfloat := ofFloat_of_finite hx
  have hmantissa : (ofFloat x).mantissa = m := by rw [hfloat]
  have hexponent : (ofFloat x).exponent = e := by rw [hfloat]
  have hhalved : (ofFloat x).lowerGapHalved = (m = 2 ^ 52 && -1074 < e) := by rw [hfloat]
  generalize ofFloat x = b at hmantissa hexponent hhalved
  subst hmantissa hexponent
  have hshortest : b.shortest tie = b.rounding.shortest tie := by rw [shortest, if_neg hm.ne']
  rw [hshortest]
  refine roundsTo_of_contains hm hhalved (Rounding.contains_shortest ?_ ?_ ?_ ?_ ?_)
  · change 4 * b.mantissa - (if b.lowerGapHalved then 1 else 2) < 4 * b.mantissa
    split <;> omega
  · exact Nat.lt_add_of_pos_right two_pos
  · have := hcanonical.lt
    change 4 * b.mantissa < 2 ^ 55
    omega
  · have := hcanonical.le
    change -1076 ≤ b.exponent - 2
    omega
  · have := hcanonical.ge
    change b.exponent - 2 ≤ 969
    omega

end Binary64

namespace Number

theorem read_magnitude {x : Float} (h : x.isFinite = true) :
    read (String.ofList (magnitude x)) = some (if isNegative x then -x else x) := by
  have hread : read (String.ofList (magnitude x)) =
      some ((Binary64.ofFloat x).shortest .up).unscaled.toFloat := by
    rw [read, String.toList_ofList, magnitude, Decimal.read_positional]
    rfl
  rw [hread]
  -- The sign does not matter for what is written.
  have hpositive (y : Float) (hy : y.isFinite = true) (hneg : isNegative y = false) :
      ((Binary64.ofFloat y).shortest .up).unscaled.toFloat = y := by
    rcases isFinite_iff.mp hy with ⟨s, hparts⟩ | ⟨s, m, e, hm, hparts⟩
    · cases s with
      | negative =>
        rw [isNegative, Binary64.ofFloat_of_zero hparts] at hneg
        cases hneg
      | positive =>
        have hzero : y = 0 := parts_injective hparts
        rw [hzero]
        decide +kernel
    · cases s with
      | negative =>
        rw [isNegative, Binary64.ofFloat_of_finite hparts] at hneg
        cases hneg
      | positive =>
        refine Decimal.toFloat_eq hparts ?_
        rw [Decimal.value_unscaled]
        exact Binary64.roundsTo_shortest hparts .up
  split
  next hneg =>
    have hopposite : isNegative (-x) = false := by rw [isNegative_neg h, hneg]; rfl
    have hneg := hpositive (-x) (by rwa [isFinite_neg]) hopposite
    rw [Binary64.ofFloat_neg h] at hneg
    exact congrArg some hneg
  next hneg => rw [hpositive x h (Bool.eq_false_iff.mpr hneg)]

end Number

end Rearrange

import Rearrange.Proofs.RationalReading

namespace Rearrange

namespace Rounding

open Float.Model (Format UnpackedFloat totalExponent)

open Float.Model.UnpackedFloat

/-- The numbers that a mantissa can stand for after some of its bits were shifted out. -/
def Represents (em : ExtendedMantissa) (q : ℚ) : Prop :=
  if em.roundBit then
    if em.stickyBit then (em.mantissa : ℚ) + 1 / 2 < q ∧ q < em.mantissa + 1
    else q = em.mantissa + 1 / 2
  else
    if em.stickyBit then (em.mantissa : ℚ) < q ∧ q < em.mantissa + 1 / 2
    else q = em.mantissa

/-- The numbers that are rounded to `m`: ties go to even numbers. -/
structure Nearest (m : ℕ) (q : ℚ) : Prop where
  le : (m : ℚ) ≤ q + 1 / 2
  ge : q ≤ m + 1 / 2
  odd : m % 2 = 1 → (m : ℚ) < q + 1 / 2 ∧ q < m + 1 / 2

theorem represents_exact (n : ℕ) : Represents (.ofMantissaAndAccuracy n .exact) n := by
  simp [Represents, ExtendedMantissa.ofMantissaAndAccuracy]

theorem Represents.shiftRightOne {em : ExtendedMantissa} {q : ℚ} (h : Represents em q) :
    Represents em.shiftRightOne (q / 2) := by
  obtain ⟨m, r, s⟩ := em
  have hm := Nat.mod_add_div m 2
  have hcast : ((m % 2 : ℕ) : ℚ) + 2 * ((m / 2 : ℕ) : ℚ) = m := by exact_mod_cast hm
  rcases Nat.mod_two_eq_zero_or_one m with hbit | hbit <;> cases r <;> cases s <;>
    simp_all [Represents, ExtendedMantissa.shiftRightOne] <;>
    (try constructor) <;> linarith

theorem Represents.shiftRight {em : ExtendedMantissa} {q : ℚ} (h : Represents em q) (n : ℕ) :
    Represents (em >>> n) (q / 2 ^ n) := by
  change Represents (n.repeat ExtendedMantissa.shiftRightOne em) _
  induction n with
  | zero => simpa [Nat.repeat] using h
  | succ n ih =>
    rw [Nat.repeat, pow_succ, ← div_div]
    exact ih.shiftRightOne

theorem Represents.bounds {em : ExtendedMantissa} {q : ℚ} (h : Represents em q) :
    (em.mantissa : ℚ) ≤ q ∧ q < em.mantissa + 1 := by
  obtain ⟨m, r, s⟩ := em
  cases r <;> cases s <;> simp_all [Represents] <;> (try constructor) <;> linarith

theorem le_of_cast_lt {a b : ℕ} (h : (a : ℚ) < b + 1) : a ≤ b :=
  Nat.lt_succ_iff.mp (by exact_mod_cast h)

theorem Represents.roundedMantissa {em : ExtendedMantissa} {q : ℚ} {m : ℕ} (h : Represents em q)
    (hq : Nearest m q) : em.roundedMantissa = m := by
  obtain ⟨hle, hge, hodd⟩ := hq
  obtain ⟨k, r, s⟩ := em
  cases r <;> cases s
  · -- Nothing was lost.
    have h : q = k := by simpa [Represents] using h
    have hmk : m ≤ k := le_of_cast_lt (by linarith)
    have hkm : k ≤ m := le_of_cast_lt (by linarith)
    exact Nat.le_antisymm hkm hmk
  · have h : (k : ℚ) < q ∧ q < k + 1 / 2 := by simpa [Represents] using h
    have hmk : m ≤ k := le_of_cast_lt (by linarith)
    have hkm : k ≤ m := le_of_cast_lt (by linarith)
    exact Nat.le_antisymm hkm hmk
  · -- Halfway between two mantissas, the even one is nearest.
    have h : q = k + 1 / 2 := by simpa [Represents] using h
    have hkm : k ≤ m := le_of_cast_lt (by linarith)
    have hmk : m ≤ k + 1 := le_of_cast_lt (by push_cast; linarith)
    have heven : m % 2 = 0 := by
      rcases Nat.mod_two_eq_zero_or_one m with hm | hm
      · exact hm
      · obtain ⟨hl, hg⟩ := hodd hm
        have hlt : k < m := by
          have : (k : ℚ) < m := by linarith
          exact_mod_cast this
        have hgt : m < k + 1 := by
          have : (m : ℚ) < k + 1 := by linarith
          exact_mod_cast this
        omega
    change k + k % 2 = m
    omega
  · have h : (k : ℚ) + 1 / 2 < q ∧ q < k + 1 := by simpa [Represents] using h
    have hkm : k + 1 ≤ m := by
      have : (k : ℚ) < m := by linarith
      exact_mod_cast this
    have hmk : m ≤ k + 1 := le_of_cast_lt (by push_cast; linarith)
    exact Nat.le_antisymm hkm hmk

structure Canonical (m : ℕ) (e : ℤ) : Prop where
  pos : 0 < m
  lt : m < 2 ^ 53
  le : -1074 ≤ e
  ge : e ≤ 971
  normal : 2 ^ 52 ≤ m ∨ e = -1074

/-- The numbers that are rounded to the double `m * 2 ^ e`. Below a power of two doubles lie closer
to each other. -/
structure RoundsTo (m : ℕ) (e : ℤ) (v : ℚ) : Prop where
  nearest : Nearest m (v / 2 ^ e)
  below : m = 2 ^ 52 → -1074 < e → (m : ℚ) ≤ v / 2 ^ e + 1 / 4

def exponentOf (n : ℕ) (t : ℤ) : ℤ := Format.targetExponent .binary64 (totalExponent n t)

theorem exponentOf_eq (n : ℕ) (t : ℤ) : exponentOf n t = max (n.log2 + 1 + t - 53) (-1074) := rfl

theorem Canonical.exponentOf_eq {m : ℕ} {e : ℤ} (h : Canonical m e) : exponentOf m e = e := by
  have hlog : m.log2 < 53 := (Nat.log2_lt h.pos.ne').mpr h.lt
  have hnormal : 52 ≤ m.log2 ∨ e = -1074 := h.normal.imp_left (Nat.le_log2 h.pos.ne').mpr
  have hle := h.le
  rw [Rounding.exponentOf_eq]
  omega

section

variable {m n : ℕ} {e t : ℤ} {acc : Accuracy} {r : ℚ}

theorem shiftToTargetExponent_eq (hr : Represents (.ofMantissaAndAccuracy n acc) r)
    (ht : t ≤ exponentOf n t) :
    ∃ em, shiftToTargetExponent .binary64 n t acc = (em, exponentOf n t) ∧
      Represents em (r * 2 ^ t / 2 ^ exponentOf n t) := by
  change ∃ em, shiftToExponent n t acc (exponentOf n t) = (em, exponentOf n t) ∧ _
  generalize exponentOf n t = u at ht ⊢
  have hnat : ((u - t).toNat : ℤ) = u - t := Int.toNat_of_nonneg (by omega)
  have hscale : r * 2 ^ t / 2 ^ u = r / 2 ^ (u - t).toNat := by
    rw [← zpow_natCast, hnat, zpow_sub₀ two_ne_zero, div_div_eq_mul_div]
  refine ⟨_, Prod.ext rfl ?_, ?_⟩
  · change t + ((u - t).toNat : ℤ) = u
    omega
  · rw [hscale]
    exact hr.shiftRight _

theorem RoundsTo.lt_pow {v : ℚ} (hm : Canonical m e) (hv : RoundsTo m e v) :
    v < 2 ^ (53 + e : ℤ) := by
  have hlt : (m : ℚ) + 1 ≤ 2 ^ 53 := by exact_mod_cast hm.lt
  have hge := hv.nearest.ge
  have hpow : (0 : ℚ) < 2 ^ e := by positivity
  calc v ≤ (m + 1 / 2) * 2 ^ e := (div_le_iff₀ hpow).mp hge
    _ < 2 ^ (53 : ℤ) * 2 ^ e := by
        refine mul_lt_mul_of_pos_right ?_ hpow
        rw [zpow_ofNat]
        linarith
    _ = 2 ^ (53 + e) := (zpow_add₀ two_ne_zero 53 e).symm

theorem lt_pow_log2 (h : r < n + 1) : r * 2 ^ t < 2 ^ (n.log2 + 1 + t : ℤ) := by
  have hn : (n : ℚ) + 1 ≤ 2 ^ (n.log2 + 1) := by exact_mod_cast Nat.lt_log2_self
  have hpow : (2 : ℚ) ^ (n.log2 + 1 + t : ℤ) = 2 ^ (n.log2 + 1) * 2 ^ t := by
    rw [zpow_add₀ two_ne_zero, ← zpow_natCast, Nat.cast_succ]
  rw [hpow]
  exact mul_lt_mul_of_pos_right (h.trans_le hn) (by positivity)

theorem pow_log2_le (hn : n ≠ 0) (h : (n : ℚ) ≤ r) : 2 ^ (n.log2 + t : ℤ) ≤ r * 2 ^ t := by
  have hlog : ((2 ^ n.log2 : ℕ) : ℚ) ≤ n := by exact_mod_cast Nat.log2_self_le hn
  rw [zpow_add₀ two_ne_zero, zpow_natCast]
  push_cast at hlog
  exact mul_le_mul_of_nonneg_right (hlog.trans h) (by positivity)

theorem exponentOf_le (hm : Canonical m e) (hlow : (n : ℚ) ≤ r) (ht : t ≤ exponentOf n t)
    (hv : RoundsTo m e (r * 2 ^ t)) : exponentOf n t ≤ e := by
  have hmin := hm.le
  rw [exponentOf_eq] at ht ⊢
  by_cases hn : n = 0
  · -- Without any bits there is nothing to shift, so the exponent is the least one.
    rw [hn, Nat.log2_zero] at ht ⊢
    omega
  · have hpow : (2 : ℚ) ^ (n.log2 + t : ℤ) < 2 ^ (53 + e) :=
      (pow_log2_le hn hlow).trans_lt (hv.lt_pow hm)
    have hlt := (zpow_lt_zpow_iff_right₀ one_lt_two).mp hpow
    omega

/-- The exponent to which a mantissa is shifted is the one of the double that it rounds to, or one
less if it lies just below a power of two. -/
theorem exponentOf_cases (hm : Canonical m e) (hlow : (n : ℚ) ≤ r) (hhigh : r < n + 1)
    (ht : t ≤ exponentOf n t) (hv : RoundsTo m e (r * 2 ^ t)) :
    exponentOf n t = e ∨
      exponentOf n t = e - 1 ∧ m = 2 ^ 52 ∧ Nearest (2 ^ 53) (r * 2 ^ t / 2 ^ (e - 1)) := by
  have hupper := exponentOf_le hm hlow ht hv
  have hbound : r * 2 ^ t < 2 ^ (n.log2 + 1 + t : ℤ) := lt_pow_log2 hhigh
  obtain ⟨⟨hle, hge, -⟩, hbelow⟩ := hv
  obtain ⟨hpos, hlt, hmin, -, hnormal⟩ := hm
  generalize r * 2 ^ t = v at hle hge hbelow hbound ⊢
  generalize hq : v / 2 ^ e = q at hle hge hbelow
  have hvq : v = q * 2 ^ e := by rw [← hq, div_mul_cancel₀]; positivity
  have hlower {k : ℕ} (hk : (2 : ℚ) ^ k ≤ q) : k + e < n.log2 + 1 + t := by
    have hleast : (2 : ℚ) ^ (k + e : ℤ) ≤ v := by
      rw [zpow_add₀ two_ne_zero, zpow_natCast, hvq]
      exact mul_le_mul_of_nonneg_right hk (by positivity)
    exact (zpow_lt_zpow_iff_right₀ one_lt_two).mp (hleast.trans_lt hbound)
  rw [exponentOf_eq] at hupper ⊢
  rcases hnormal with hnormal | hnormal
  · by_cases hq52 : (2 : ℚ) ^ 52 ≤ q
    · have := hlower hq52
      omega
    · -- The value lies below the power of two that it rounds to.
      have hm52 : m = 2 ^ 52 := by
        refine Nat.le_antisymm (le_of_cast_lt ?_) hnormal
        push_cast
        linarith
      by_cases hleast : e = -1074
      · omega
      have hgap := hbelow hm52 (by omega)
      rw [hm52] at hgap
      push_cast at hgap
      have := hlower (k := 51) (by linarith)
      have hcases : max (n.log2 + 1 + t - 53) (-1074) = e ∨
          max (n.log2 + 1 + t - 53) (-1074) = e - 1 := by omega
      refine hcases.imp_right fun hcut => ⟨hcut, hm52, ?_⟩
      have hdouble : v / 2 ^ (e - 1) = 2 * q := by
        rw [hvq, zpow_sub_one₀ two_ne_zero]
        field_simp
      rw [hdouble]
      refine ⟨?_, ?_, fun hodd => absurd hodd (by decide)⟩
      · push_cast
        linarith
      · push_cast
        linarith
  · omega

theorem shiftToTargetExponent_exact (ht : t ≤ e) (he : exponentOf n t = e)
    (hv : (n : ℚ) * 2 ^ t = m * 2 ^ e) :
    ∃ em, shiftToTargetExponent .binary64 n t .exact = (em, e) ∧ em.mantissa = m := by
  obtain ⟨em, hshift, hrep⟩ := shiftToTargetExponent_eq (represents_exact n) (ht.trans_eq he.symm)
  rw [he, hv, mul_div_cancel_right₀ _ (by positivity)] at hrep
  rw [he] at hshift
  obtain ⟨hle, hlt⟩ := hrep.bounds
  exact ⟨em, hshift, Nat.le_antisymm (by exact_mod_cast hle) (le_of_cast_lt hlt)⟩

theorem roundWithAccuracy_eq (hm : Canonical m e) (hr : Represents (.ofMantissaAndAccuracy n acc) r)
    (ht : t ≤ exponentOf n t) (hv : RoundsTo m e (r * 2 ^ t)) :
    roundWithAccuracy .binary64 .positive n t acc = .finite .positive m e hm.pos := by
  obtain ⟨em, hshift, hrep⟩ := shiftToTargetExponent_eq hr ht
  have hbounds : (n : ℚ) ≤ r ∧ r < n + 1 := by
    have hmantissa : (ExtendedMantissa.ofMantissaAndAccuracy n acc).mantissa = n := by
      cases acc with
      | exact => rfl
      | inexact o => cases o <;> rfl
    have := hr.bounds
    rwa [hmantissa] at this
  have hfinal : ∃ em', shiftToTargetExponent .binary64 em.roundedMantissa (exponentOf n t) .exact =
      (em', e) ∧ em'.mantissa = m := by
    rcases exponentOf_cases hm hbounds.1 hbounds.2 ht hv with he | ⟨he, hm52, hnearest⟩
    · rw [he] at hrep ⊢
      rw [hrep.roundedMantissa hv.nearest]
      exact shiftToTargetExponent_exact le_rfl hm.exponentOf_eq rfl
    · rw [he] at hrep ⊢
      rw [hrep.roundedMantissa hnearest]
      refine shiftToTargetExponent_exact (by omega) ?_ ?_
      · have hle := hm.le
        rw [exponentOf_eq, Nat.log2_two_pow]
        omega
      · rw [hm52, zpow_sub_one₀ two_ne_zero]
        push_cast
        ring
  obtain ⟨em', hshift', hmantissa⟩ := hfinal
  unfold roundWithAccuracy
  simp only [hshift, hshift']
  subst hmantissa
  rw [dif_neg hm.pos.ne']

theorem RoundsTo.self (m : ℕ) (e : ℤ) : RoundsTo m e (m * 2 ^ e) := by
  have hself : (m : ℚ) * 2 ^ e / 2 ^ e = m := mul_div_cancel_right₀ _ (by positivity)
  refine ⟨⟨?_, ?_, fun _ => ⟨?_, ?_⟩⟩, fun _ _ => ?_⟩ <;> rw [hself] <;> linarith

theorem represents_quotient (a : ℕ) {b : ℕ} (hb : 0 < b) :
    Represents (.ofMantissaAndAccuracy (a / b) (accuracyOfFraction (a % b) b)) (a / b : ℚ) := by
  have hlt := Nat.mod_lt a hb
  have hsum : (b : ℚ) * (a / b : ℕ) + (a % b : ℕ) = a := by exact_mod_cast Nat.div_add_mod a b
  have hquotient : (a / b : ℚ) = (a / b : ℕ) + ((a % b : ℕ) : ℚ) / b := by
    field_simp
    linarith
  have hb' : (0 : ℚ) < b := by exact_mod_cast hb
  rw [hquotient]
  generalize a % b = c at hlt
  unfold accuracyOfFraction
  split
  next h0 => simp [Represents, ExtendedMantissa.ofMantissaAndAccuracy, h0]
  next h0 =>
    have hpos : (0 : ℚ) < c / b := by
      have hc : (0 : ℚ) < c := by exact_mod_cast Nat.pos_of_ne_zero h0
      positivity
    have hone : (c : ℚ) / b < 1 := by
      rw [div_lt_one hb']
      exact_mod_cast hlt
    -- Twice the remainder tells on which side of one half the fraction lies.
    cases hcompare : compare (2 * c) b with
    | lt =>
      have hhalf : (2 * c : ℚ) < b := by exact_mod_cast Nat.compare_eq_lt.mp hcompare
      have hfraction : (c : ℚ) / b < 1 / 2 := by
        rw [div_lt_iff₀ hb']
        linarith
      simpa [Represents, ExtendedMantissa.ofMantissaAndAccuracy, hpos] using hfraction
    | eq =>
      have hhalf : (2 * c : ℚ) = b := by exact_mod_cast Nat.compare_eq_eq.mp hcompare
      have hfraction : (c : ℚ) / b = 1 / 2 := by
        rw [div_eq_iff hb'.ne']
        linarith
      simp [Represents, ExtendedMantissa.ofMantissaAndAccuracy, hfraction]
    | gt =>
      have hhalf : (b : ℚ) < 2 * c := by exact_mod_cast Nat.compare_eq_gt.mp hcompare
      have hfraction : 1 / 2 < (c : ℚ) / b := by
        rw [lt_div_iff₀ hb']
        linarith
      simpa [Represents, ExtendedMantissa.ofMantissaAndAccuracy, hone] using hfraction

end

end Rounding

end Rearrange

import Mathlib.Algebra.Order.Ring.Nat
import Rearrange.Proofs.NumberLexemes

namespace Rearrange

namespace Decimal

inductive Written : List Char → Prop
  | whole {ds : List Char} : ds ≠ [] → (∀ d ∈ ds, d.isDigit = true) → Written ds
  | point {ds es : List Char} : ds ≠ [] → (∀ d ∈ ds, d.isDigit = true) →
    (∀ d ∈ es, d.isDigit = true) → Written (ds ++ '.' :: es)

theorem digitsValue_eq (cs : List Char) : digitsValue cs = Nat.ofDigitChars 10 cs 0 :=
  Nat.ofDigitChars_eq_foldl.symm

theorem digitsValue_toDigits (n : Nat) : digitsValue (Nat.toDigits 10 n) = n := by
  rw [digitsValue_eq, Nat.ofDigitChars_ten_toDigits]

theorem digitsValue_append_zeros (cs : List Char) (n : Nat) :
    digitsValue (cs ++ List.replicate n '0') = digitsValue cs * 10 ^ n := by
  rw [digitsValue_eq, digitsValue_eq, Nat.ofDigitChars_append, Nat.ofDigitChars_replicate_zero,
    Nat.mul_comm]

theorem digitsValue_zeros_append (n : Nat) (cs : List Char) :
    digitsValue (List.replicate n '0' ++ cs) = digitsValue cs := by
  rw [digitsValue_eq, digitsValue_eq, Nat.ofDigitChars_append, Nat.ofDigitChars_replicate_zero,
    Nat.mul_zero]

theorem isDigit_of_mem_digits {n : Nat} {d : Char} (h : d ∈ Nat.toDigits 10 n) :
    d.isDigit = true :=
  Nat.isDigit_of_mem_toDigits (by decide) (by decide) h

theorem isDigit_of_mem_zeros {n : Nat} {d : Char} (h : d ∈ List.replicate n '0') :
    d.isDigit = true := by
  rw [List.eq_of_mem_replicate h]
  rfl

theorem positional_of_negSucc {d : Decimal} {n : Nat} (h : d.exponent = .negSucc n) :
    ∃ whole places, d.positional = whole ++ '.' :: places ∧ whole ≠ [] ∧
      (∀ c ∈ whole ++ places, c.isDigit = true) ∧ digitsValue (whole ++ places) = d.digits ∧
      places.length = n + 1 := by
  have hpos : 0 < (Nat.toDigits 10 d.digits).length := Nat.length_toDigits_pos
  unfold positional
  rw [h]
  simp only
  split
  next hlt =>
    refine ⟨_, _, rfl, ?_, ?_, ?_, ?_⟩
    · rw [ne_eq, List.take_eq_nil_iff, not_or]
      exact ⟨by omega, Nat.toDigits_ne_nil⟩
    · rw [List.take_append_drop]
      exact fun c => isDigit_of_mem_digits
    · rw [List.take_append_drop, digitsValue_toDigits]
    · rw [List.length_drop]
      omega
  next hle =>
    refine ⟨['0'], List.replicate (n + 1 - (Nat.toDigits 10 d.digits).length) '0' ++
      Nat.toDigits 10 d.digits, by simp, by simp, ?_, ?_, ?_⟩
    · intro c hc
      rw [List.singleton_append, List.mem_cons, List.mem_append] at hc
      rcases hc with rfl | hc | hc
      · rfl
      · exact isDigit_of_mem_zeros hc
      · exact isDigit_of_mem_digits hc
    · rw [← List.append_assoc, List.singleton_append, ← List.replicate_succ,
        digitsValue_zeros_append, digitsValue_toDigits]
    · rw [List.length_append, List.length_replicate]
      omega

theorem positional_of_ofNat {d : Decimal} {n : Nat} (h : d.exponent = .ofNat n) :
    d.positional ≠ [] ∧ (∀ c ∈ d.positional, c.isDigit = true) ∧
      digitsValue d.positional = d.digits * 10 ^ n := by
  have htext : d.positional = Nat.toDigits 10 d.digits ++ List.replicate n '0' := by
    unfold positional
    rw [h]
  rw [htext]
  refine ⟨List.append_ne_nil_of_left_ne_nil Nat.toDigits_ne_nil _, ?_, ?_⟩
  · intro c hc
    rcases List.mem_append.mp hc with hc | hc
    · exact isDigit_of_mem_digits hc
    · exact isDigit_of_mem_zeros hc
  · rw [digitsValue_append_zeros, digitsValue_toDigits]

theorem written_positional (d : Decimal) : Written d.positional := by
  cases h : d.exponent with
  | ofNat n =>
    obtain ⟨hne, hdigits, -⟩ := positional_of_ofNat h
    exact .whole hne hdigits
  | negSucc n =>
    obtain ⟨whole, places, htext, hne, hdigits, -, -⟩ := positional_of_negSucc h
    rw [htext]
    exact .point hne (fun c hc => hdigits c (List.mem_append_left _ hc))
      fun c hc => hdigits c (List.mem_append_right _ hc)

def unscaled (d : Decimal) : Decimal := ⟨d.digits * 10 ^ d.exponent.toNat, min d.exponent 0⟩

theorem read_positional (d : Decimal) : read d.positional = some d.unscaled := by
  cases h : d.exponent with
  | ofNat n =>
    obtain ⟨hne, hdigits, hvalue⟩ := positional_of_ofNat h
    have hread := read_whole_append (e := []) hne hdigits nofun
    rw [List.append_nil] at hread
    have hmin : min (Int.ofNat n) 0 = 0 := Int.min_eq_right (Int.natCast_nonneg n)
    rw [hread, hvalue, unscaled, h, hmin]
    rfl
  | negSucc n =>
    obtain ⟨whole, places, htext, hne, hdigits, hvalue, hlength⟩ := positional_of_negSucc h
    have hplaces : ∀ c ∈ places, c.isDigit = true := fun c hc =>
      hdigits c (List.mem_append_right _ hc)
    have hread := read_point_append (e := []) hne
      (fun c hc => hdigits c (List.mem_append_left _ hc)) hplaces nofun
    rw [List.append_nil] at hread
    rw [htext, hread, hvalue, hlength, unscaled, h]
    simp [readExponent]
    omega

end Decimal

end Rearrange

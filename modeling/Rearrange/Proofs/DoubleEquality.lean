import Mathlib
import Rearrange.Expr.Equality

namespace Rearrange

namespace Number

theorem same_iff {a b : Float} :
    same a b = true ↔ a = b ∨ a = 0 ∧ b = -0 ∨ a = -0 ∧ b = 0 := by
  rw [same, Bool.or_eq_true, Bool.and_eq_true, Float.beq_iff_ne_nan_and_eq,
    Float.isNaN_eq_decide_eq_nan, Float.isNaN_eq_decide_eq_nan, decide_eq_true_iff,
    decide_eq_true_iff]
  have h0 : (0 : Float) ≠ Float.nan := by decide +kernel
  have h0' : (-0 : Float) ≠ Float.nan := by decide +kernel
  constructor
  · rintro (⟨-, -, h⟩ | ⟨rfl, rfl⟩)
    · exact h
    · exact Or.inl rfl
  · rintro (rfl | ⟨rfl, rfl⟩ | ⟨rfl, rfl⟩)
    · by_cases ha : a = Float.nan
      · exact Or.inr ⟨ha, ha⟩
      · exact Or.inl ⟨ha, ha, Or.inl rfl⟩
    · exact Or.inl ⟨h0, h0', Or.inr (Or.inl ⟨rfl, rfl⟩)⟩
    · exact Or.inl ⟨h0', h0, Or.inr (Or.inr ⟨rfl, rfl⟩)⟩

theorem beq_zero_iff {x : Float} : (x == 0) = true ↔ x = 0 ∨ x = -0 := by
  have h0 : (0 : Float) ≠ Float.nan := by decide +kernel
  have h0' : (-0 : Float) ≠ Float.nan := by decide +kernel
  rw [Float.beq_iff_ne_nan_and_eq]
  constructor
  · rintro ⟨-, -, h | ⟨h, -⟩ | ⟨h, -⟩⟩
    · exact Or.inl h
    · exact Or.inl h
    · exact Or.inr h
  · rintro (rfl | rfl)
    · exact ⟨h0, h0, Or.inl rfl⟩
    · exact ⟨h0', h0, Or.inr (Or.inr ⟨rfl, rfl⟩)⟩

theorem same_refl (a : Float) : same a a = true := same_iff.mpr (Or.inl rfl)

theorem same_symm {a b : Float} (h : same a b = true) : same b a = true := by
  rw [same_iff] at h ⊢
  rcases h with rfl | ⟨ha, hb⟩ | ⟨ha, hb⟩
  · exact Or.inl rfl
  · exact Or.inr (Or.inr ⟨hb, ha⟩)
  · exact Or.inr (Or.inl ⟨hb, ha⟩)

theorem canonicalBits_eq (x : Float) :
    canonicalBits x = (if x == 0 then (0 : Float) else x).toBits := by
  unfold canonicalBits
  by_cases hn : x = Float.nan
  · subst hn
    rfl
  · rw [if_neg (by rwa [Float.isNaN_eq_decide_eq_nan, decide_eq_true_iff])]
    split <;> rfl

theorem canonicalBits_eq_iff {a b : Float} :
    canonicalBits a = canonicalBits b ↔ same a b = true := by
  rw [canonicalBits_eq, canonicalBits_eq, Float.toBits_inj, same_iff]
  have hzero : (0 : Float) ≠ -0 := by decide +kernel
  by_cases ha : (a == 0) = true
  · by_cases hb : (b == 0) = true
    · rw [if_pos ha, if_pos hb]
      rcases beq_zero_iff.mp ha with rfl | rfl <;> rcases beq_zero_iff.mp hb with rfl | rfl <;> simp
    · rw [if_pos ha, if_neg hb]
      have hb' := mt beq_zero_iff.mpr hb
      grind [beq_zero_iff]
  · by_cases hb : (b == 0) = true
    · rw [if_neg ha, if_pos hb]
      grind [beq_zero_iff]
    · rw [if_neg ha, if_neg hb]
      grind [beq_zero_iff]

theorem eq_of_same {a b : Float} (ha : a ≠ -0) (hb : b ≠ -0) (h : same a b = true) : a = b := by
  rcases same_iff.mp h with h | ⟨-, h⟩ | ⟨h, -⟩
  · exact h
  · exact absurd h hb
  · exact absurd h ha

theorem same_trans {a b c : Float} (hab : same a b = true) (hbc : same b c = true) :
    same a c = true :=
  canonicalBits_eq_iff.mp ((canonicalBits_eq_iff.mpr hab).trans (canonicalBits_eq_iff.mpr hbc))

end Number

end Rearrange

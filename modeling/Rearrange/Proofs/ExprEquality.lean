import Rearrange.Proofs.DoubleEquality
import Rearrange.Solve.Job

namespace Rearrange

namespace Expr

def constants : Expr → List Float
  | const c => [c]
  | var _ => []
  | neg e => e.constants
  | bin _ l r => l.constants ++ r.constants

theorem equal_refl (e : Expr) : (e == e) = true := by
  change equal e e = true
  induction e with
  | const c => exact Number.same_refl c
  | var n => simp [equal]
  | neg e ih => exact ih
  | bin op l r ihl ihr => simp [equal, ihl, ihr]

theorem equal_symm {a b : Expr} (h : (a == b) = true) : (b == a) = true := by
  change equal a b = true at h
  change equal b a = true
  fun_induction equal a b with
  | case1 c d => exact Number.same_symm h
  | case2 m n => rw [equal, beq_iff_eq.mp h, beq_self_eq_true]
  | case3 e f ih => exact ih h
  | case4 o a b p c d ihl ihr =>
    simp only [Bool.and_eq_true, beq_iff_eq] at h
    simp [equal, h.1.1, ihl h.1.2, ihr h.2]
  | case5 => cases h

end Expr

/-- No word of a code is the beginning of another, so that words can be written in a row. -/
def PrefixFree {α σ : Type} (code : α → List σ) : Prop :=
  ∀ {a b : α} {xs ys : List σ}, code a ++ xs = code b ++ ys → a = b ∧ xs = ys

/-- Prefix-free codes for the parts of an expression: its constructors and operators, the bits of
its constants, and its names. -/
structure ExprCode (σ : Type) where
  variant : Fin 4 → List σ
  bits : UInt64 → List σ
  text : String → List σ
  variant_free : PrefixFree variant
  bits_free : PrefixFree bits
  text_free : PrefixFree text

def BinOp.variant (op : BinOp) : Fin 4 := ⟨op.ctorIdx, by cases op <;> decide⟩

theorem BinOp.variant_inj {o p : BinOp} (h : o.variant = p.variant) : o = p := by
  cases o <;> cases p <;> first | rfl | cases h

namespace Expr

section

variable {σ : Type} {code : ExprCode σ} {a b c d : Expr}

def encode (code : ExprCode σ) : Expr → List σ
  | const c => code.variant 0 ++ code.bits (Number.canonicalBits c)
  | var n => code.variant 1 ++ code.text n
  | neg e => code.variant 2 ++ e.encode code
  | bin op l r => code.variant 3 ++ (code.variant op.variant ++ (l.encode code ++ r.encode code))

theorem encode_append_inj {xs ys : List σ} (h : a.encode code ++ xs = b.encode code ++ ys) :
    (a == b) = true ∧ xs = ys := by
  change equal a b = true ∧ xs = ys
  induction a generalizing b xs ys with
  | const c =>
    cases b <;> simp only [encode, List.append_assoc] at h
    case const d =>
      obtain ⟨hbits, hrest⟩ := code.bits_free (code.variant_free h).2
      exact ⟨Number.canonicalBits_eq_iff.mp hbits, hrest⟩
    all_goals cases (code.variant_free h).1
  | var n =>
    cases b <;> simp only [encode, List.append_assoc] at h
    case var m =>
      obtain ⟨hname, hrest⟩ := code.text_free (code.variant_free h).2
      exact ⟨by simp [equal, hname], hrest⟩
    all_goals cases (code.variant_free h).1
  | neg e ih =>
    cases b <;> simp only [encode, List.append_assoc] at h
    case neg f => exact ih (code.variant_free h).2
    all_goals cases (code.variant_free h).1
  | bin op l r ihl ihr =>
    cases b <;> simp only [encode, List.append_assoc] at h
    case bin op' l' r' =>
      obtain ⟨hop, hparts⟩ := code.variant_free (code.variant_free h).2
      obtain ⟨hl, htail⟩ := ihl hparts
      obtain ⟨hr, hrest⟩ := ihr htail
      exact ⟨by simp [equal, BinOp.variant_inj hop, hl, hr], hrest⟩
    all_goals cases (code.variant_free h).1

theorem encode_eq_of_equal (h : (a == b) = true) : a.encode code = b.encode code := by
  change equal a b = true at h
  fun_induction equal a b with
  | case1 c d => rw [encode, encode, Number.canonicalBits_eq_iff.mpr h]
  | case2 m n => rw [beq_iff_eq.mp h]
  | case3 e f ih => rw [encode, encode, ih h]
  | case4 o a b p c d ihl ihr =>
    simp only [Bool.and_eq_true, beq_iff_eq] at h
    rw [encode, encode, h.1.1, ihl h.1.2, ihr h.2]
  | case5 => cases h

theorem encode_eq_iff : a.encode code = b.encode code ↔ (a == b) = true := by
  refine ⟨fun h => ?_, encode_eq_of_equal⟩
  have happend : a.encode code ++ [] = b.encode code ++ [] := by rw [h]
  exact (encode_append_inj happend).1

theorem encode_append_eq_iff : a.encode code ++ b.encode code = c.encode code ++ d.encode code ↔
    (a == c) = true ∧ (b == d) = true := by
  constructor
  · intro h
    obtain ⟨hac, hbd⟩ := encode_append_inj h
    exact ⟨hac, encode_eq_iff.mp hbd⟩
  · rintro ⟨hac, hbd⟩
    rw [encode_eq_of_equal hac, encode_eq_of_equal hbd]

end

def keyCode : ExprCode Nat where
  variant i := [i]
  bits b := [b.toNat]
  text s := s.length :: s.toList.map Char.toNat
  variant_free h := (List.cons.inj h).imp_left Fin.ext
  bits_free h := (List.cons.inj h).imp_left UInt64.toNat_inj.mp
  text_free {m n xs ys} h := by
    obtain ⟨hlength, htail⟩ := List.cons.inj h
    have hlen : (m.toList.map Char.toNat).length = (n.toList.map Char.toNat).length := by
      rw [List.length_map, List.length_map, String.length_toList, String.length_toList, hlength]
    obtain ⟨hchars, hrest⟩ := List.append_inj htail hlen
    have hlist := (List.map_inj_right fun _ _ => Char.toNat_inj.mp).mp hchars
    exact ⟨String.toList_inj.mp hlist, hrest⟩

theorem key_eq_encode (e : Expr) : e.key = e.encode keyCode := by
  induction e with
  | const | var => rfl
  | neg e ih => rw [key, ih]; rfl
  | bin op l r ihl ihr => rw [key, ihl, ihr]; rfl

theorem key_eq_iff {a b : Expr} : a.key = b.key ↔ (a == b) = true := by
  rw [key_eq_encode, key_eq_encode, encode_eq_iff]

theorem equal_trans {a b c : Expr} (hab : (a == b) = true) (hbc : (b == c) = true) :
    (a == c) = true :=
  key_eq_iff.mp ((key_eq_iff.mpr hab).trans (key_eq_iff.mpr hbc))

theorem beq_congr {a b c d : Expr} (hac : (a == c) = true) (hbd : (b == d) = true) :
    (a == b) = (c == d) := by
  rw [Bool.eq_iff_iff, ← key_eq_iff, ← key_eq_iff, key_eq_iff.mpr hac, key_eq_iff.mpr hbd]

theorem equal_bin_iff {o p : BinOp} {a b c d : Expr} :
    (bin o a b == bin p c d) = true ↔ o = p ∧ (a == c) = true ∧ (b == d) = true := by
  change equal (bin o a b) (bin p c d) = true ↔ _
  rw [equal, Bool.and_eq_true, Bool.and_eq_true, beq_iff_eq, and_assoc]
  rfl

theorem eq_of_equal {a b : Expr} (ha : -0 ∉ a.constants) (hb : -0 ∉ b.constants)
    (h : (a == b) = true) : a = b := by
  change equal a b = true at h
  fun_induction equal a b with
  | case1 c d =>
    simp only [constants, List.mem_singleton] at ha hb
    rw [Number.eq_of_same (Ne.symm ha) (Ne.symm hb) h]
  | case2 m n => rw [beq_iff_eq.mp h]
  | case3 e f ih => rw [ih ha hb h]
  | case4 o a b p c d ihl ihr =>
    simp only [Bool.and_eq_true, beq_iff_eq] at h
    simp only [constants, List.mem_append, not_or] at ha hb
    rw [h.1.1, ihl ha.1 hb.1 h.1.2, ihr ha.2 hb.2 h.2]
  | case5 => cases h

theorem eq_of_equal_of_nonzero {a b : Expr} (hb : ∀ c ∈ b.constants, c ≠ 0 ∧ c ≠ -0)
    (h : (a == b) = true) : a = b := by
  change equal a b = true at h
  fun_induction equal a b with
  | case1 c d =>
    obtain ⟨hd, hd'⟩ := hb d (List.mem_singleton_self d)
    rcases Number.same_iff.mp h with h | ⟨-, h⟩ | ⟨-, h⟩
    · rw [h]
    · exact absurd h hd'
    · exact absurd h hd
  | case2 m n => rw [beq_iff_eq.mp h]
  | case3 e f ih => rw [ih hb h]
  | case4 o a b p c d ihl ihr =>
    simp only [Bool.and_eq_true, beq_iff_eq] at h
    simp only [constants, List.mem_append] at hb
    rw [h.1.1, ihl (fun c hc => hb c (Or.inl hc)) h.1.2, ihr (fun c hc => hb c (Or.inr hc)) h.2]
  | case5 => cases h

end Expr

namespace Job

theorem beq_iff {j k : Job} : (j == k) = true ↔ (j.lhs == k.lhs) = true ∧ (j.rhs == k.rhs) = true :=
  Bool.and_eq_true_iff

theorem beq_refl (j : Job) : (j == j) = true :=
  beq_iff.mpr ⟨Expr.equal_refl _, Expr.equal_refl _⟩

theorem beq_symm {j k : Job} (h : (j == k) = true) : (k == j) = true :=
  beq_iff.mpr ((beq_iff.mp h).imp Expr.equal_symm Expr.equal_symm)

theorem key_eq_iff {j k : Job} : j.key = k.key ↔ (j == k) = true := by
  rw [beq_iff, key, key, Expr.key_eq_encode, Expr.key_eq_encode, Expr.key_eq_encode,
    Expr.key_eq_encode, Expr.encode_append_eq_iff]

def constants (j : Job) : List Float := j.lhs.constants ++ j.rhs.constants

theorem mem_constants_mirrored {j : Job} {c : Float} :
    c ∈ j.mirrored.constants ↔ c ∈ j.constants := by
  simp only [constants, mirrored, List.mem_append]
  exact or_comm

theorem eq_of_beq {j k : Job} (hj : -0 ∉ j.constants) (hk : -0 ∉ k.constants)
    (h : (j == k) = true) : j = k := by
  simp only [constants, List.mem_append, not_or] at hj hk
  have hl := Expr.eq_of_equal hj.1 hk.1 (beq_iff.mp h).1
  have hr := Expr.eq_of_equal hj.2 hk.2 (beq_iff.mp h).2
  cases j
  cases k
  exact congr (congrArg mk hl) hr

theorem eq_of_beq_of_nonzero {j k : Job} (hk : ∀ c ∈ k.constants, c ≠ 0 ∧ c ≠ -0)
    (h : (j == k) = true) : j = k := by
  simp only [constants, List.mem_append] at hk
  have hl := Expr.eq_of_equal_of_nonzero (fun c hc => hk c (Or.inl hc)) (beq_iff.mp h).1
  have hr := Expr.eq_of_equal_of_nonzero (fun c hc => hk c (Or.inr hc)) (beq_iff.mp h).2
  cases j
  cases k
  exact congr (congrArg mk hl) hr

end Job

end Rearrange

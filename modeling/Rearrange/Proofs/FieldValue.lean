import Mathlib.Algebra.Field.Basic
import Rearrange.Proofs.ExprEquality
import Rearrange.Proofs.Folds

namespace Rearrange

/-- A way to read constants as elements of a field. -/
structure Reading (K : Type*) [Field K] where
  value : Float → K
  zero : value 0 = 0
  one : value 1 = 1
  two : value 2 = 2
  neg (c : Float) : value (-c) = -value c
  same {a b : Float} : Number.same a b = true → value a = value b

section

variable {K : Type*} [Field K]

def BinOp.apply : BinOp → K → K → K
  | add, a, b => a + b
  | sub, a, b => a - b
  | mul, a, b => a * b
  | div, a, b => a / b

/-- Doing the operation on doubles gives what doing it in the field gives. -/
def Fold.Exact (v : Reading K) (f : Fold) : Prop :=
  v.value (f.op.eval f.lhs f.rhs) = f.op.apply (v.value f.lhs) (v.value f.rhs)

instance [DecidableEq K] (v : Reading K) (f : Fold) : Decidable (f.Exact v) :=
  inferInstanceAs (Decidable (_ = _))

def Expr.value (v : Reading K) (ρ : String → K) : Expr → K
  | const c => v.value c
  | var n => ρ n
  | neg e => -e.value v ρ
  | bin op l r => op.apply (l.value v ρ) (r.value v ρ)

end

namespace Expr

variable {K : Type*} [Field K] {v : Reading K} {ρ : String → K}

theorem value_of_equal {a b : Expr} (h : (a == b) = true) : a.value v ρ = b.value v ρ := by
  change equal a b = true at h
  fun_induction equal a b with
  | case1 c d => exact v.same h
  | case2 m n => rw [beq_iff_eq.mp h]
  | case3 e f ih => rw [value, value, ih h]
  | case4 o a b p c d ihl ihr =>
    simp only [Bool.and_eq_true, beq_iff_eq] at h
    rw [value, value, h.1.1, ihl h.1.2, ihr h.2]
  | case5 => cases h

theorem value_of_isValue {e : Expr} {c : Float} (h : e.isValue c = true) :
    e.value v ρ = v.value c := by
  cases e with
  | const d =>
    have hd : (d == c) = true := h
    exact v.same (by rw [Number.same, hd, Bool.true_or])
  | _ => cases h

theorem value_of_rewrites {s : Step} {e e' : Expr} (h : s.Rewrites e e')
    (hfolds : ∀ f ∈ s.fold? e, f.Exact v) : e'.value v ρ = e.value v ρ := by
  cases h with
  | fold op a b => exact hfolds ⟨op, a, b⟩ rfl
  | negate a => exact v.neg a
  | doubleNegation => simp only [value, neg_neg]
  | zeroAdd hl => simp only [value, BinOp.apply, value_of_isValue hl, v.zero, zero_add]
  | addZero hr => simp only [value, BinOp.apply, value_of_isValue hr, v.zero, add_zero]
  | subtractZero hr => simp only [value, BinOp.apply, value_of_isValue hr, v.zero, sub_zero]
  | subtractFromZero hl => simp only [value, BinOp.apply, value_of_isValue hl, v.zero, zero_sub]
  | zeroMultiply hl => simp only [value, BinOp.apply, value_of_isValue hl, v.zero, zero_mul]
  | multiplyZero hr => simp only [value, BinOp.apply, value_of_isValue hr, v.zero, mul_zero]
  | oneMultiply hl => simp only [value, BinOp.apply, value_of_isValue hl, v.one, one_mul]
  | multiplyOne hr => simp only [value, BinOp.apply, value_of_isValue hr, v.one, mul_one]
  | divideZero hl => simp only [value, BinOp.apply, value_of_isValue hl, v.zero, zero_div]
  | cancel heq => simp only [value, BinOp.apply, value_of_equal heq, v.zero, sub_self]
  | combine heq => simp only [value, BinOp.apply, value_of_equal heq, v.two, two_mul]

theorem congruence_value : Congruence fun e e' => e.value v ρ = e'.value v ρ where
  refl _ := rfl
  trans := Eq.trans
  neg h := by rw [value, value, h]
  bin op _ _ _ _ hl hr := by rw [value, value, hl, hr]

theorem value_simplify {rules : RuleSet} {e : Expr}
    (hfolds : ∀ f ∈ e.folds rules, f.Exact v) : (e.simplify rules).value v ρ = e.value v ρ :=
  (congruence_value.simplify (fun _ _ _ hs hf => (value_of_rewrites hs hf).symm) hfolds).symm

end Expr

end Rearrange

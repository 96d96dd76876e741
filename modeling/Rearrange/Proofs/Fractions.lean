import Mathlib.Tactic.LinearCombination
import Rearrange.Proofs.Moves

namespace Rearrange

structure Fraction (K : Type*) where
  num : K
  den : K

section

variable {K : Type*} [Field K]

def BinOp.combine : BinOp → Fraction K → Fraction K → Fraction K
  | add, a, b => ⟨a.num * b.den + b.num * a.den, a.den * b.den⟩
  | sub, a, b => ⟨a.num * b.den - b.num * a.den, a.den * b.den⟩
  | mul, a, b => ⟨a.num * b.num, a.den * b.den⟩
  | div, a, b => ⟨a.num * b.den, a.den * b.num⟩

def Expr.fraction (v : Reading K) (ρ : String → K) : Expr → Fraction K
  | const c => ⟨v.value c, 1⟩
  | var n => ⟨ρ n, 1⟩
  | neg e => ⟨-(e.fraction v ρ).num, (e.fraction v ρ).den⟩
  | bin op l r => op.combine (l.fraction v ρ) (r.fraction v ρ)

/-- Both parts of `a` are those of `b`, multiplied by the same factor. -/
def Fraction.Extends (a b : Fraction K) : Prop := ∃ k, a.num = k * b.num ∧ a.den = k * b.den

/-- The products across are equal. -/
def Job.Balanced (v : Reading K) (ρ : String → K) (j : Job) : Prop :=
  (j.lhs.fraction v ρ).num * (j.rhs.fraction v ρ).den =
    (j.rhs.fraction v ρ).num * (j.lhs.fraction v ρ).den

def Fold.Regular (v : Reading K) (f : Fold) : Prop :=
  f.Exact v ∧ (f.op = .div → v.value f.rhs ≠ 0)

theorem Fraction.Extends.refl (a : Fraction K) : a.Extends a :=
  ⟨1, (one_mul _).symm, (one_mul _).symm⟩

theorem Fraction.Extends.trans {a b c : Fraction K} (hab : a.Extends b) (hbc : b.Extends c) :
    a.Extends c := by
  obtain ⟨k, hn, hd⟩ := hab
  obtain ⟨m, hn', hd'⟩ := hbc
  exact ⟨k * m, by rw [hn, hn', mul_assoc], by rw [hd, hd', mul_assoc]⟩

theorem Fraction.Extends.combine {a b c d : Fraction K} (op : BinOp) (hab : a.Extends b)
    (hcd : c.Extends d) : (op.combine a c).Extends (op.combine b d) := by
  obtain ⟨k, hn, hd⟩ := hab
  obtain ⟨m, hn', hd'⟩ := hcd
  refine ⟨k * m, ?_⟩
  cases op <;>
  · simp only [BinOp.combine, hn, hd, hn', hd']
    exact ⟨by ring, by ring⟩

section

variable (a : Fraction K)

theorem Fraction.zero_add : BinOp.add.combine ⟨0, 1⟩ a = a := by simp [BinOp.combine]

theorem Fraction.add_zero : BinOp.add.combine a ⟨0, 1⟩ = a := by simp [BinOp.combine]

theorem Fraction.sub_zero : BinOp.sub.combine a ⟨0, 1⟩ = a := by simp [BinOp.combine]

theorem Fraction.zero_sub : BinOp.sub.combine ⟨0, 1⟩ a = ⟨-a.num, a.den⟩ := by
  simp [BinOp.combine]

theorem Fraction.one_mul : BinOp.mul.combine ⟨1, 1⟩ a = a := by simp [BinOp.combine]

theorem Fraction.mul_one : BinOp.mul.combine a ⟨1, 1⟩ = a := by simp [BinOp.combine]

theorem Fraction.zero_mul : (BinOp.mul.combine ⟨0, 1⟩ a).Extends ⟨0, 1⟩ :=
  ⟨a.den, by simp [BinOp.combine], by simp [BinOp.combine]⟩

theorem Fraction.mul_zero : (BinOp.mul.combine a ⟨0, 1⟩).Extends ⟨0, 1⟩ :=
  ⟨a.den, by simp [BinOp.combine], by simp [BinOp.combine]⟩

theorem Fraction.zero_div : (BinOp.div.combine ⟨0, 1⟩ a).Extends ⟨0, 1⟩ :=
  ⟨a.num, by simp [BinOp.combine], by simp [BinOp.combine]⟩

theorem Fraction.sub_self : (BinOp.sub.combine a a).Extends ⟨0, 1⟩ :=
  ⟨a.den * a.den, by simp [BinOp.combine], by simp [BinOp.combine]⟩

theorem Fraction.add_self : (BinOp.add.combine a a).Extends (BinOp.mul.combine ⟨2, 1⟩ a) := by
  refine ⟨a.den, ?_, ?_⟩
  · simp only [BinOp.combine]
    ring
  · simp only [BinOp.combine]
    ring

end

variable {v : Reading K} {ρ : String → K}

theorem Expr.fraction_sub (l r : Expr) :
    (l - r).fraction v ρ = BinOp.sub.combine (l.fraction v ρ) (r.fraction v ρ) := rfl

theorem Expr.fraction_div (l r : Expr) :
    (l / r).fraction v ρ = BinOp.div.combine (l.fraction v ρ) (r.fraction v ρ) := rfl

theorem Expr.fraction_of_equal {a b : Expr} (h : (a == b) = true) :
    a.fraction v ρ = b.fraction v ρ := by
  change equal a b = true at h
  fun_induction equal a b with
  | case1 c d => rw [fraction, fraction, v.same h]
  | case2 m n => rw [beq_iff_eq.mp h]
  | case3 e f ih => rw [fraction, fraction, ih h]
  | case4 o a b p c d ihl ihr =>
    simp only [Bool.and_eq_true, beq_iff_eq] at h
    rw [fraction, fraction, h.1.1, ihl h.1.2, ihr h.2]
  | case5 => cases h

theorem Expr.fraction_of_isValue {e : Expr} {c : Float} (h : e.isValue c = true) :
    e.fraction v ρ = ⟨v.value c, 1⟩ := by
  cases e with
  | const d =>
    have hd : (d == c) = true := h
    rw [fraction, v.same (by rw [Number.same, hd, Bool.true_or])]
  | _ => cases h

theorem Fold.Regular.extends {f : Fold} (h : f.Regular v) :
    (f.op.combine ⟨v.value f.lhs, 1⟩ ⟨v.value f.rhs, 1⟩).Extends
      ⟨v.value (f.op.eval f.lhs f.rhs), 1⟩ := by
  obtain ⟨hexact, hdivisor⟩ := h
  rw [Exact] at hexact
  rw [hexact]
  cases hop : f.op with
  | add => exact ⟨1, by simp [BinOp.combine, BinOp.apply], by simp [BinOp.combine]⟩
  | sub => exact ⟨1, by simp [BinOp.combine, BinOp.apply], by simp [BinOp.combine]⟩
  | mul => exact ⟨1, by simp [BinOp.combine, BinOp.apply], by simp [BinOp.combine]⟩
  | div =>
    refine ⟨v.value f.rhs, ?_, by simp [BinOp.combine]⟩
    rw [BinOp.combine, BinOp.apply, mul_div_cancel₀ _ (hdivisor hop), mul_one]

theorem Step.Rewrites.fraction_extends {s : Step} {e e' : Expr} (h : s.Rewrites e e')
    (hfolds : ∀ f ∈ s.fold? e, f.Regular v) :
    (e.fraction v ρ).Extends (e'.fraction v ρ) := by
  cases h with
  | fold op a b => exact (hfolds ⟨op, a, b⟩ rfl).extends
  | negate a => rw [Expr.fraction, Expr.fraction, Expr.fraction, v.neg]; exact .refl _
  | doubleNegation => rw [Expr.fraction, Expr.fraction, neg_neg]; exact .refl _
  | zeroAdd hl =>
    rw [Expr.fraction, Expr.fraction_of_isValue hl, v.zero, Fraction.zero_add]
    exact .refl _
  | addZero hr =>
    rw [Expr.fraction, Expr.fraction_of_isValue hr, v.zero, Fraction.add_zero]
    exact .refl _
  | subtractZero hr =>
    rw [Expr.fraction, Expr.fraction_of_isValue hr, v.zero, Fraction.sub_zero]
    exact .refl _
  | subtractFromZero hl =>
    rw [Expr.fraction, Expr.fraction, Expr.fraction_of_isValue hl, v.zero, Fraction.zero_sub]
    exact .refl _
  | zeroMultiply hl =>
    rw [Expr.fraction, Expr.fraction, Expr.fraction_of_isValue hl, v.zero]
    exact Fraction.zero_mul _
  | multiplyZero hr =>
    rw [Expr.fraction, Expr.fraction, Expr.fraction_of_isValue hr, v.zero]
    exact Fraction.mul_zero _
  | oneMultiply hl =>
    rw [Expr.fraction, Expr.fraction_of_isValue hl, v.one, Fraction.one_mul]
    exact .refl _
  | multiplyOne hr =>
    rw [Expr.fraction, Expr.fraction_of_isValue hr, v.one, Fraction.mul_one]
    exact .refl _
  | divideZero hl =>
    rw [Expr.fraction, Expr.fraction, Expr.fraction_of_isValue hl, v.zero]
    exact Fraction.zero_div _
  | cancel heq =>
    rw [Expr.fraction, Expr.fraction, Expr.fraction_of_equal heq, v.zero]
    exact Fraction.sub_self _
  | combine heq =>
    rw [Expr.fraction, Expr.fraction, Expr.fraction, Expr.fraction_of_equal heq, v.two]
    exact Fraction.add_self _

theorem Expr.congruence_fraction :
    Congruence fun e e' => (e.fraction v ρ).Extends (e'.fraction v ρ) where
  refl _ := .refl _
  trans := .trans
  neg := by
    rintro a b ⟨k, hnum, hden⟩
    exact ⟨k, by simp [fraction, hnum], hden⟩
  bin op _ _ _ _ hl hr := hl.combine op hr

theorem Expr.fraction_extends_simplify {rules : RuleSet} {e : Expr}
    (hfolds : ∀ f ∈ e.folds rules, f.Regular v) :
    (e.fraction v ρ).Extends ((e.simplify rules).fraction v ρ) :=
  congruence_fraction.simplify (fun _ _ _ hs hf => hs.fraction_extends hf) hfolds

theorem Job.balanced_of_simplify {rules : RuleSet} {j : Job}
    (hfolds : ∀ f ∈ j.folds rules, f.Regular v) (h : (j.simplify rules).Balanced v ρ) :
    j.Balanced v ρ := by
  obtain ⟨k, hn, hd⟩ := Expr.fraction_extends_simplify (ρ := ρ)
    fun f hf => hfolds f (List.mem_append_left _ hf)
  obtain ⟨m, hn', hd'⟩ := Expr.fraction_extends_simplify (ρ := ρ)
    fun f hf => hfolds f (List.mem_append_right _ hf)
  have hbalanced : ((j.lhs.simplify rules).fraction v ρ).num *
      ((j.rhs.simplify rules).fraction v ρ).den = ((j.rhs.simplify rules).fraction v ρ).num *
        ((j.lhs.simplify rules).fraction v ρ).den := h
  rw [Balanced, hn, hd, hn', hd']
  linear_combination k * m * hbalanced

/-- The difference of the products across is the same before and after an operation is undone, up to
its sign. -/
theorem Solve.balanced_of_mem_rewrite {target : String} {side other : Expr} {j : Job}
    (hj : j ∈ rewrite target side other) (h : j.Balanced v ρ) :
    (Job.mk side other).Balanced v ρ := by
  unfold Job.Balanced at h ⊢
  cases side with
  | const c =>
    obtain rfl := List.mem_singleton.mp hj
    simp only [Expr.fraction, Expr.fraction_sub, BinOp.combine, v.zero] at h ⊢
    linear_combination h
  | var n =>
    rw [rewrite] at hj
    split at hj
    next => cases hj
    next =>
      obtain rfl := List.mem_singleton.mp hj
      simp only [Expr.fraction, Expr.fraction_sub, BinOp.combine, v.zero] at h ⊢
      linear_combination h
  | neg e =>
    obtain rfl := List.mem_singleton.mp hj
    simp only [Expr.fraction] at h ⊢
    linear_combination -h
  | bin op l r =>
    cases op with
    | add =>
      rcases List.mem_pair.mp hj with rfl | rfl <;>
      · simp only [Expr.fraction, Expr.fraction_sub, BinOp.combine] at h ⊢
        linear_combination h
    | sub =>
      rcases List.mem_pair.mp hj with rfl | rfl
      · simp only [Expr.fraction, BinOp.combine] at h ⊢
        linear_combination h
      · simp only [Expr.fraction, Expr.fraction_sub, BinOp.combine] at h ⊢
        linear_combination h
    | mul =>
      rcases List.mem_pair.mp hj with rfl | rfl <;>
      · simp only [Expr.fraction, Expr.fraction_div, BinOp.combine] at h ⊢
        linear_combination h
    | div =>
      rcases List.mem_pair.mp hj with rfl | rfl
      · simp only [Expr.fraction, BinOp.combine] at h ⊢
        linear_combination h
      · simp only [Expr.fraction, Expr.fraction_div, BinOp.combine, v.one] at h ⊢
        linear_combination h

theorem Job.balanced_mirrored {j : Job} : j.mirrored.Balanced v ρ ↔ j.Balanced v ρ :=
  eq_comm

theorem Job.balanced_of_mem_successors {target : String} {rules : RuleSet} {j k : Job}
    (hk : k ∈ j.successors target rules)
    (hfolds : ∀ f ∈ j.successorFolds target rules, f.Regular v) (h : k.Balanced v ρ) :
    j.Balanced v ρ := by
  obtain ⟨m, hm, rfl⟩ := List.mem_map.mp hk
  have hm' := balanced_of_simplify (fun f hf => hfolds f (List.mem_flatMap.mpr ⟨m, hm, hf⟩)) h
  rcases List.mem_append.mp hm with hm | hm
  · exact Solve.balanced_of_mem_rewrite hm hm'
  · exact balanced_mirrored.mp (Solve.balanced_of_mem_rewrite hm hm')

end

end Rearrange

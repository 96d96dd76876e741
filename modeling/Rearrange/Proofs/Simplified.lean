import Rearrange.Expr.Walk
import Rearrange.Proofs.NormalForm
import Rearrange.Proofs.RationalReading

namespace Rearrange

namespace Expr

inductive Context where
  | hole
  | neg (inner : Context)
  | lhs (op : BinOp) (inner : Context) (r : Expr)
  | rhs (op : BinOp) (l : Expr) (inner : Context)
deriving DecidableEq

def Context.fill : Context → Expr → Expr
  | hole, e => e
  | neg c, e => -c.fill e
  | lhs op c r, e => bin op (c.fill e) r
  | rhs op l c, e => bin op l (c.fill e)

theorem Settled.rewrite? {rules : RuleSet} {e : Expr} (h : e.Settled rules) {s : Step}
    (hs : s ∈ rules.table) : s.rewrite? e = none :=
  Option.map_eq_none_iff.mp (List.findSome?_eq_none_iff.mp h s hs)

theorem Normal.settled_of_mem_postOrder {rules : RuleSet} {e part : Expr} (h : e.Normal rules)
    (hpart : part ∈ e.postOrder) : part.Settled rules := by
  induction e with
  | const c => rw [List.mem_singleton.mp hpart]; exact h
  | var n => rw [List.mem_singleton.mp hpart]; exact h
  | neg e ih =>
    rcases List.mem_append.mp hpart with hpart | hpart
    · exact ih h.1 hpart
    · rw [List.mem_singleton.mp hpart]; exact h.2
  | bin op l r ihl ihr =>
    rcases List.mem_append.mp hpart with hpart | hpart
    · rcases List.mem_append.mp hpart with hpart | hpart
      · exact ihl h.1 hpart
      · exact ihr h.2.1 hpart
    · rw [List.mem_singleton.mp hpart]; exact h.2.2

theorem simplify_simplify (rules : RuleSet) (e : Expr) :
    (e.simplify rules).simplify rules = e.simplify rules :=
  (normal_simplify rules e).simplify_eq

/-- Children are simplified before their parents, so simplifying a part beforehand is no loss. -/
theorem Context.simplify_fill (rules : RuleSet) (c : Context) (e : Expr) :
    (c.fill (e.simplify rules)).simplify rules = (c.fill e).simplify rules := by
  induction c with
  | hole => exact simplify_simplify rules e
  | neg c ih =>
    change (Expr.neg _).simplify rules = (Expr.neg _).simplify rules
    rw [simplify_neg, simplify_neg, ih]
  | lhs op c r ih => rw [fill, fill, simplify_bin, simplify_bin, ih]
  | rhs op l c ih => rw [fill, fill, simplify_bin, simplify_bin, ih]

end Expr

open Rearrange.Expr

/-- No rule applies at any node of a simplified expression, simplifying it again changes nothing,
and it can stand for the expression it came from wherever that is a part of what is simplified. -/
theorem simplify_reaches_normal_form (rules : RuleSet) (e : Expr) :
    (∀ part ∈ (e.simplify rules).postOrder, ∀ s ∈ rules.table, s.rewrite? part = none) ∧
      (e.simplify rules).simplify rules = e.simplify rules ∧
        ∀ c : Context, (c.fill e).simplify rules = (c.fill (e.simplify rules)).simplify rules := by
  have hnormal := normal_simplify rules e
  exact ⟨fun part hpart s hs => (hnormal.settled_of_mem_postOrder hpart).rewrite? hs,
    simplify_simplify rules e, fun c => (c.simplify_fill rules e).symm⟩

/-- `0 - (a + a)`, for which two rules make new nodes. -/
def negatedSum : Expr := const 0 - (var "a" + var "a")

theorem simplify_reaches_normal_form_negatedSum :
    negatedSum.simplify .extended = -(const 2 * var "a") ∧
      Step.multiplyOne.rewrite? (const 2 * var "a") = none ∧
      (-negatedSum).simplify .extended = (-(-(const 2 * var "a"))).simplify .extended := by
  have hsimplified : negatedSum.simplify .extended = -(const 2 * var "a") := by decide +kernel
  obtain ⟨hrules, -, hcontext⟩ := simplify_reaches_normal_form .extended negatedSum
  rw [hsimplified] at hrules hcontext
  have hpart : const 2 * var "a" ∈ (-(const 2 * var "a")).postOrder :=
    List.mem_append_left _ (List.mem_append_right _ (List.mem_singleton.mpr rfl))
  exact ⟨hsimplified, hrules _ hpart .multiplyOne (by decide), hcontext (.neg .hole)⟩

/-- Simplifying keeps the value of an expression in every field and for every assignment, as long as
each operation on constants that it reports is exact. -/
theorem simplify_preserves_value {K : Type*} [Field K] (v : Reading K) (rules : RuleSet) (e : Expr) :
    (e.folds rules).length = (e.simplifySteps rules).2.count .foldConstants ∧
      ((∀ f ∈ e.folds rules, f.Exact v) →
        ∀ ρ : String → K, (e.simplify rules).value v ρ = e.value v ρ) :=
  ⟨length_folds rules e, fun hfolds _ => value_simplify hfolds⟩

/-- `(a - a) / b + (b + b) * (2 * 3 - 5)` -/
def foldedSum : Expr :=
  (var "a" - var "a") / var "b" + (var "b" + var "b") * (const 2 * const 3 - const 5)

theorem simplify_preserves_value_foldedSum :
    foldedSum.simplify .extended = const 2 * var "b" ∧
      foldedSum.folds .extended = [⟨.mul, 2, 3⟩, ⟨.sub, 6, 5⟩] ∧
      (∀ f ∈ foldedSum.folds .extended, f.Exact rationalReading) ∧
      ∀ ρ : String → ℚ, (foldedSum.simplify .extended).value rationalReading ρ =
        foldedSum.value rationalReading ρ := by
  have hfolds : ∀ f ∈ foldedSum.folds .extended, f.Exact rationalReading := by decide +kernel
  exact ⟨by decide +kernel, by decide +kernel, hfolds,
    (simplify_preserves_value rationalReading .extended foldedSum).2 hfolds⟩

end Rearrange

import Rearrange.Proofs.Settling

namespace Rearrange

namespace Expr

/-- No rule of the table applies at any node. -/
def Normal (rules : RuleSet) : Expr → Prop
  | const c => (const c).Settled rules
  | var n => (var n).Settled rules
  | neg e => e.Normal rules ∧ (neg e).Settled rules
  | bin op l r => l.Normal rules ∧ r.Normal rules ∧ (bin op l r).Settled rules

def NormalBelow (rules : RuleSet) : Expr → Prop
  | const _ | var _ => True
  | neg e => e.Normal rules
  | bin _ l r => l.Normal rules ∧ r.Normal rules

theorem normal_iff {rules : RuleSet} {e : Expr} :
    e.Normal rules ↔ e.NormalBelow rules ∧ e.Settled rules := by
  cases e <;> simp [Normal, NormalBelow, and_assoc]

theorem normal_const (rules : RuleSet) (c : Float) : (const c).Normal rules :=
  settled_const rules c

/-- A rule gives a leaf, a part of the old expression, or a new node over such parts. -/
theorem NormalBelow.rewrites {rules : RuleSet} {s : Step} {e e' : Expr}
    (h : e.NormalBelow rules) (hs : s.Rewrites e e') : e'.NormalBelow rules := by
  cases hs with
  | fold | negate | zeroMultiply | multiplyZero | divideZero | cancel => exact trivial
  | doubleNegation => exact (normal_iff.mp h.1).1
  | zeroAdd | oneMultiply => exact (normal_iff.mp h.2).1
  | addZero | subtractZero | multiplyOne => exact (normal_iff.mp h.1).1
  | subtractFromZero => exact h.2
  | combine => exact ⟨normal_const rules 2, h.1⟩

theorem NormalBelow.settle {rules : RuleSet} {e : Expr} (h : e.NormalBelow rules) :
    (settle rules e).1.Normal rules := by
  induction e using settle_induction rules with
  | settled e he => rw [settle_of_settled he]; exact normal_iff.mpr ⟨h, he⟩
  | step s e e' he ih =>
    rw [settle_of_first? he]
    exact ih (h.rewrites (Step.rewrites_of_first? he))

theorem normal_simplify (rules : RuleSet) (e : Expr) : (e.simplify rules).Normal rules := by
  induction e with
  | const c => rw [simplify_const]; exact normal_const rules c
  | var n => rw [simplify_var]; exact settled_var rules n
  | neg e ih => rw [simplify_neg]; exact NormalBelow.settle (e := .neg _) ih
  | bin op l r ihl ihr => rw [simplify_bin]; exact NormalBelow.settle (e := .bin ..) ⟨ihl, ihr⟩

theorem Normal.simplify_eq {rules : RuleSet} {e : Expr} (h : e.Normal rules) :
    e.simplify rules = e := by
  induction e with
  | const c => exact simplify_const rules c
  | var n => exact simplify_var rules n
  | neg e ih => rw [simplify_neg, ih h.1, settle_of_settled h.2]
  | bin op l r ihl ihr => rw [simplify_bin, ihl h.1, ihr h.2.1, settle_of_settled h.2.2]

end Expr

end Rearrange

import Rearrange.Simplify

namespace Rearrange

namespace Expr

def Settled (rules : RuleSet) (e : Expr) : Prop := Step.first? rules.table e = none

theorem settled_const (rules : RuleSet) (c : Float) : (const c).Settled rules := by
  cases rules <;> rfl

theorem settled_var (rules : RuleSet) (n : String) : (var n).Settled rules := by
  cases rules <;> rfl

theorem settle_of_settled {rules : RuleSet} {e : Expr} (h : e.Settled rules) :
    settle rules e = (e, []) := by
  rw [settle]
  split
  next => rfl
  next hs => rw [h] at hs; cases hs

theorem settle_of_first? {rules : RuleSet} {e e' : Expr} {s : Step}
    (h : Step.first? rules.table e = some (s, e')) :
    settle rules e = ((settle rules e').1, s :: (settle rules e').2) := by
  rw [settle]
  split
  next hs => rw [h] at hs; cases hs
  next hs => rw [h] at hs; cases hs; rfl

/-- A run at the root, from its end to its beginning: a fact that holds where no rule applies and
goes back over every rule holds of every run. -/
theorem settle_induction (rules : RuleSet) {motive : Expr → Prop}
    (settled : ∀ e, e.Settled rules → motive e)
    (step : ∀ s e e', Step.first? rules.table e = some (s, e') → motive e' → motive e)
    (e : Expr) : motive e := by
  cases h : Step.first? rules.table e with
  | none => exact settled e h
  | some p => exact step p.1 e p.2 h (settle_induction rules settled step p.2)
termination_by e.size + e.sums
decreasing_by exact (Step.rewrites_of_first? h).size_add_sums_lt

theorem simplify_const (rules : RuleSet) (c : Float) : (const c).simplify rules = const c := by
  rw [simplify, simplifySteps, settle_of_settled (settled_const rules c)]

theorem simplify_var (rules : RuleSet) (n : String) : (var n).simplify rules = var n := by
  rw [simplify, simplifySteps, settle_of_settled (settled_var rules n)]

theorem simplify_neg (rules : RuleSet) (e : Expr) :
    (neg e).simplify rules = (settle rules (neg (e.simplify rules))).1 := rfl

theorem simplify_bin (rules : RuleSet) (op : BinOp) (l r : Expr) :
    (bin op l r).simplify rules =
      (settle rules (bin op (l.simplify rules) (r.simplify rules))).1 := rfl

end Expr

end Rearrange

import Rearrange.Simplify.Rewrites

namespace Rearrange

namespace Expr

/-- Applies the rules at the root until none does. Gives the result and the steps taken. -/
def settle (rules : RuleSet) (e : Expr) : Expr × List Step :=
  match _h : Step.first? rules.table e with
  | none => (e, [])
  | some (s, e') =>
    let (result, steps) := settle rules e'
    (result, s :: steps)
termination_by e.size + e.sums
decreasing_by exact (Step.rewrites_of_first? (by assumption)).size_add_sums_lt

/-- Simplifies an expression, and lists the steps in the order they are taken. -/
def simplifySteps (rules : RuleSet) : Expr → Expr × List Step
  | const c => settle rules (const c)
  | var n => settle rules (var n)
  | neg e =>
    let (e', below) := simplifySteps rules e
    let (result, here) := settle rules (neg e')
    (result, below ++ here)
  | bin op l r =>
    let (l', left) := simplifySteps rules l
    let (r', right) := simplifySteps rules r
    let (result, here) := settle rules (bin op l' r')
    (result, left ++ right ++ here)

def simplify (rules : RuleSet) (e : Expr) : Expr := (simplifySteps rules e).1

end Expr

end Rearrange

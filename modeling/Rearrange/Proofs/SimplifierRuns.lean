import Rearrange.Proofs.Settling

namespace Rearrange

structure Rewrite where
  step : Step
  before : Expr
  after : Expr
deriving DecidableEq

namespace Expr

/-- `e.Settles rules trace r` says that the rules, applied at the root of `e` until none does, do
the rewrites of `trace` and end with `r`. -/
inductive Settles (rules : RuleSet) : Expr → List Rewrite → Expr → Prop
  | done {e : Expr} : e.Settled rules → Settles rules e [] e
  | round {s : Step} {e e' r : Expr} {trace : List Rewrite} :
    Step.first? rules.table e = some (s, e') → Settles rules e' trace r →
      Settles rules e (⟨s, e, e'⟩ :: trace) r

/-- `e.Simplifies rules trace r` says that simplifying `e` from the leaves up does the rewrites of
`trace` and ends with `r`. -/
inductive Simplifies (rules : RuleSet) : Expr → List Rewrite → Expr → Prop
  | const {c : Float} {trace : List Rewrite} {r : Expr} :
    (const c).Settles rules trace r → Simplifies rules (const c) trace r
  | var {n : String} {trace : List Rewrite} {r : Expr} :
    (var n).Settles rules trace r → Simplifies rules (var n) trace r
  | neg {e e' r : Expr} {below here : List Rewrite} :
    Simplifies rules e below e' → (neg e').Settles rules here r →
      Simplifies rules (neg e) (below ++ here) r
  | bin {op : BinOp} {a b a' b' r : Expr} {left right here : List Rewrite} :
    Simplifies rules a left a' → Simplifies rules b right b' →
      (bin op a' b').Settles rules here r → Simplifies rules (bin op a b) (left ++ right ++ here) r

theorem exists_settles (rules : RuleSet) (e : Expr) :
    ∃ trace, e.Settles rules trace (settle rules e).1 ∧
      trace.map Rewrite.step = (settle rules e).2 := by
  induction e using settle_induction rules with
  | settled e h =>
    rw [settle_of_settled h]
    exact ⟨[], .done h, rfl⟩
  | step s e e' h ih =>
    obtain ⟨trace, htrace, hsteps⟩ := ih
    rw [settle_of_first? h]
    exact ⟨⟨s, e, e'⟩ :: trace, .round h htrace, congrArg (s :: ·) hsteps⟩

theorem exists_simplifies (rules : RuleSet) (e : Expr) :
    ∃ trace, e.Simplifies rules trace (e.simplify rules) ∧
      trace.map Rewrite.step = (e.simplifySteps rules).2 := by
  induction e with
  | const c =>
    obtain ⟨trace, htrace, hsteps⟩ := exists_settles rules (const c)
    exact ⟨trace, .const htrace, hsteps⟩
  | var n =>
    obtain ⟨trace, htrace, hsteps⟩ := exists_settles rules (var n)
    exact ⟨trace, .var htrace, hsteps⟩
  | neg e ih =>
    obtain ⟨below, hbelow, hsteps⟩ := ih
    obtain ⟨here, hhere, hsteps'⟩ := exists_settles rules (neg (e.simplify rules))
    refine ⟨below ++ here, .neg hbelow hhere, ?_⟩
    rw [List.map_append, hsteps, hsteps']
    rfl
  | bin op l r ihl ihr =>
    obtain ⟨left, hleft, hstepsl⟩ := ihl
    obtain ⟨right, hright, hstepsr⟩ := ihr
    obtain ⟨here, hhere, hsteps⟩ :=
      exists_settles rules (bin op (l.simplify rules) (r.simplify rules))
    refine ⟨left ++ right ++ here, .bin hleft hright hhere, ?_⟩
    rw [List.map_append, List.map_append, hstepsl, hstepsr, hsteps]
    rfl

end Expr

end Rearrange

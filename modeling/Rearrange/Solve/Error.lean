import Rearrange.Expr
import Rearrange.Report

namespace Rearrange

inductive SolveError where
  | unsolvable (target : String) (explored : Nat)
  | nonFinite (target : String) (value : Expr)
deriving DecidableEq

namespace SolveError

open Report (highlight)

def message : SolveError → String
  | unsolvable target explored =>
    "could not isolate `" ++ target ++ "` after exploring " ++ toString explored ++ " jobs"
  | nonFinite target value =>
    "the solution `" ++ target ++ " = " ++ value.render ++ "` is not finite"

def report : SolveError → Report
  | unsolvable target explored => {
      message := "could not isolate `" ++ target ++ "`"
      labels := ["explored " ++ toString explored ++ " rearrangements of this equation"]
      help := some <|
        "the solver only undoes " ++ highlight "`+`, `-`, `*`, `/`, and negation" ++
          "; it cannot factor or collect terms that appear on both sides" }
  | nonFinite target value => {
      message := "the solution for `" ++ target ++ "` is not a finite number"
      labels := ["this equation gives `" ++ target ++ " = " ++ value.render ++ "`"]
      help := some "check the equation for a division by zero" }

def located (e : SolveError) (span : Span) : Located SolveError := ⟨e, [span], false⟩

end SolveError

end Rearrange

import Rearrange.Parser.Grammar
import Rearrange.Solve

namespace Rearrange

inductive Problem where
  | fault (f : Fault)
  | solve (e : SolveError)
  /-- An equation without a target that does not mention exactly one variable. -/
  | ambiguousTarget (candidates : List String)
deriving DecidableEq

def Problem.report : Problem → Report
  | fault f => f.report
  | solve e => e.report
  | ambiguousTarget candidates => {
      message :=
        if candidates.isEmpty then "there is no variable to isolate"
        else "cannot tell which of " ++ ", ".intercalate candidates ++ " to isolate"
      labels := ["in this equation"]
      help := some ("name the variable to isolate, as in " ++ Report.highlight "x: 2 * x = 8") }

namespace Equation

def vars (e : Equation) : List String := distinctNames (e.lhs.toExpr.names ++ e.rhs.toExpr.names)

def answer (e : Equation) (target : String) : Except (Located Problem) String :=
  match Rearrange.solve target e.lhs.toExpr e.rhs.toExpr with
  | .ok s => .ok (target ++ " = " ++ s.value.render)
  | .error err => .error ((err.located e.span).map .solve)

end Equation

/-- Isolates the variable that is asked for, or the only one of an equation, or simplifies an
expression. -/
def Statement.answer : Statement → Except (Located Problem) String
  | request r => r.equation.answer r.target
  | equation e =>
    match e.vars with
    | [target] => e.answer target
    | candidates => .error ⟨.ambiguousTarget candidates, [e.span], false⟩
  | phrase p => .ok (p.toExpr.simplify .baseline).render

def answer (line : String) : Except (Located Problem) String :=
  match Statement.ofSource line with
  | .ok s => s.answer
  | .error e => .error (e.map .fault)

end Rearrange

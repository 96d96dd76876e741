import Rearrange.Expr.Equality

namespace Rearrange

/-- Two expressions asserted to be equal. -/
structure Job where
  lhs : Expr
  rhs : Expr
deriving DecidableEq

namespace Job

def mirrored (j : Job) : Job := ⟨j.rhs, j.lhs⟩

def equal (a b : Job) : Bool := a.lhs == b.lhs && a.rhs == b.rhs

instance : BEq Job := ⟨equal⟩

def key (j : Job) : List Nat := j.lhs.key ++ j.rhs.key

def render (j : Job) : String := j.lhs.render ++ " = " ++ j.rhs.render

end Job

end Rearrange

import Rearrange.Number
import Rearrange.Phrase

namespace Rearrange

inductive Expr where
  | const (value : Float)
  | var (name : String)
  | neg (operand : Expr)
  | bin (op : BinOp) (lhs rhs : Expr)
deriving DecidableEq

namespace Expr

instance : Inhabited Expr := ⟨const 0⟩

instance : Add Expr := ⟨bin .add⟩

instance : Sub Expr := ⟨bin .sub⟩

instance : Mul Expr := ⟨bin .mul⟩

instance : Div Expr := ⟨bin .div⟩

instance : Neg Expr := ⟨neg⟩

def size : Expr → Nat
  | const _ | var _ => 1
  | neg e => e.size + 1
  | bin _ l r => l.size + r.size + 1

def asConst? : Expr → Option Float
  | const c => some c
  | _ => none

def asVar? : Expr → Option String
  | var n => some n
  | _ => none

def isVar (name : String) (e : Expr) : Bool := e.asVar? == some name

def mentions (name : String) : Expr → Bool
  | const _ => false
  | var n => n == name
  | neg e => e.mentions name
  | bin _ l r => l.mentions name || r.mentions name

def isFinite : Expr → Bool
  | const c => c.isFinite
  | var _ => true
  | neg e => e.isFinite
  | bin _ l r => l.isFinite && r.isFinite

/-- The variables that occur, from left to right, as often as they occur. -/
def names : Expr → List String
  | const _ => []
  | var n => [n]
  | neg e => e.names
  | bin _ l r => l.names ++ r.names

/-- The fully parenthesised text. -/
def render : Expr → String
  | const c => Number.text c
  | var n => n
  | neg e => "-(" ++ e.render ++ ")"
  | bin op l r => "(" ++ l.render ++ " " ++ op.symbol ++ " " ++ r.render ++ ")"

end Expr

def insertName (n : String) : List String → List String
  | [] => [n]
  | m :: ms => if n < m then n :: m :: ms else if n = m then m :: ms else m :: insertName n ms

/-- The different names of a list, in increasing order. -/
def distinctNames (ns : List String) : List String := ns.foldr insertName []

def Expr.vars (e : Expr) : List String := distinctNames e.names

def Phrase.toExpr : Phrase → Expr
  | number v _ => .const v
  | name n _ => .var n
  | paren e _ => e.toExpr
  | unary .neg _ e _ => .neg e.toExpr
  | binary op _ l r _ => .bin op l.toExpr r.toExpr

end Rearrange

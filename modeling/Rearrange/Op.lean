namespace Rearrange

/-- How tightly an operator binds its operands, loosest first. -/
inductive Prec where
  | any
  | term
  | factor
  | neg
deriving DecidableEq, Repr

namespace Prec

def rank : Prec → Nat
  | any => 0
  | term => 1
  | factor => 2
  | neg => 3

instance : LE Prec := ⟨fun a b => a.rank ≤ b.rank⟩

instance : LT Prec := ⟨fun a b => a.rank < b.rank⟩

instance (a b : Prec) : Decidable (a ≤ b) := inferInstanceAs (Decidable (a.rank ≤ b.rank))

instance (a b : Prec) : Decidable (a < b) := inferInstanceAs (Decidable (a.rank < b.rank))

instance : Ord Prec := ⟨fun a b => compare a.rank b.rank⟩

end Prec

inductive Assoc where
  | left
  | right
deriving DecidableEq, Repr

inductive BinOp where
  | add
  | sub
  | mul
  | div
deriving DecidableEq, Repr

namespace BinOp

def all : List BinOp := [add, sub, mul, div]

def symbol : BinOp → String
  | add => "+"
  | sub => "-"
  | mul => "*"
  | div => "/"

def prec : BinOp → Prec
  | add | sub => .term
  | mul | div => .factor

def assoc : BinOp → Assoc
  | add | sub | mul | div => .left

def isSum : BinOp → Bool
  | add | sub => true
  | mul | div => false

/-- The operation on doubles, rounded as usual; dividing by zero gives an infinity or NaN. -/
def eval : BinOp → Float → Float → Float
  | add, a, b => a + b
  | sub, a, b => a - b
  | mul, a, b => a * b
  | div, a, b => a / b

/-- Whether `next`, standing behind the right operand of `op`, takes that operand for itself. -/
def yieldsTo (op next : BinOp) : Bool :=
  op.prec < next.prec || (op.prec = next.prec && next.assoc = .right)

end BinOp

inductive UnaryOp where
  | neg
deriving DecidableEq, Repr

namespace UnaryOp

def prec : UnaryOp → Prec
  | neg => .neg

def assoc : UnaryOp → Assoc
  | neg => .right

end UnaryOp

end Rearrange

import Rearrange.Op
import Rearrange.Span

namespace Rearrange

/-- An expression as written, parentheses included. -/
inductive Phrase where
  | number (value : Float) (span : Span)
  | name (name : String) (span : Span)
  | paren (inner : Phrase) (span : Span)
  | unary (op : UnaryOp) (opSpan : Span) (operand : Phrase) (span : Span)
  | binary (op : BinOp) (opSpan : Span) (lhs rhs : Phrase) (span : Span)
deriving DecidableEq

namespace Phrase

def span : Phrase → Span
  | number _ s | name _ s | paren _ s | unary _ _ _ s | binary _ _ _ _ s => s

def join (op : BinOp) (opSpan : Span) (lhs rhs : Phrase) : Phrase :=
  binary op opSpan lhs rhs (lhs.span.join rhs.span)

/-- Adds an operator and an operand at the right end of a chain: the new operator takes the last
operands of those operators that yield to it. -/
def attach (op : BinOp) (opSpan : Span) : Phrase → Phrase → Phrase
  | binary o s l r t, rhs =>
    if o.yieldsTo op then join o s l (attach op opSpan r rhs)
    else join op opSpan (binary o s l r t) rhs
  | lhs, rhs => join op opSpan lhs rhs

end Phrase

structure Equation where
  lhs : Phrase
  rhs : Phrase
  span : Span
deriving DecidableEq

structure Request where
  target : String
  targetSpan : Span
  equation : Equation
  span : Span
deriving DecidableEq

inductive Statement where
  | request (r : Request)
  | equation (e : Equation)
  | phrase (p : Phrase)
deriving DecidableEq

def Statement.span : Statement → Span
  | request r => r.span
  | equation e => e.span
  | phrase p => p.span

end Rearrange

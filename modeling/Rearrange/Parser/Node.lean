import Rearrange.Parser.Grammar

namespace Rearrange

inductive NodeKind where
  | statement
  | request
  | equation
  | expr
  | binary
  | unary
  | primary
  | paren
  | literal
  | number
  | name
  | binOp
  | unaryOp
deriving DecidableEq, Repr

inductive Node where
  | statement (s : Statement)
  | request (r : Request)
  | equation (e : Equation)
  | phrase (p : Phrase)
  | binOp (op : BinOp) (span : Span)
  | unaryOp (op : UnaryOp) (span : Span)
deriving DecidableEq

def Node.span : Node → Span
  | statement s => s.span
  | request r => r.span
  | equation e => e.span
  | phrase p => p.span
  | binOp _ s | unaryOp _ s => s

def NodeKind.parse : NodeKind → Parse Node
  | statement => .statement <$> Parse.statement
  | request => .request <$> Parse.request
  | equation => .equation <$> Parse.equation
  | expr => .phrase <$> Parse.expr
  | binary => .phrase <$> Parse.binary
  | unary => .phrase <$> Parse.unary
  | primary => .phrase <$> Parse.primary
  | paren => .phrase <$> Parse.paren
  | literal => .phrase <$> Parse.literal
  | number => .phrase <$> Parse.number
  | name => .phrase <$> Parse.name
  | binOp => (fun (op, s) => .binOp op s) <$> Parse.binOp
  | unaryOp => (fun (op, s) => .unaryOp op s) <$> Parse.unaryOp

end Rearrange

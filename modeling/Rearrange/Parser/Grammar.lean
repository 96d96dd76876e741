import Rearrange.Number
import Rearrange.Parser
import Rearrange.Phrase

namespace Rearrange

namespace TokenKind

def binOp? : TokenKind → Option BinOp
  | add => some .add
  | sub => some .sub
  | mul => some .mul
  | div => some .div
  | _ => none

def unaryOp? : TokenKind → Option UnaryOp
  | sub => some .neg
  | _ => none

end TokenKind

namespace Parse

def binOp : Parse (BinOp × Span) := do
  let t ← next
  match t.kind.binOp? with
  | some op => pure (op, t.span)
  | none => throw (unexpected [.add, .sub, .mul, .div] t)

def unaryOp : Parse (UnaryOp × Span) := do
  let t ← next
  match t.kind.unaryOp? with
  | some op => pure (op, t.span)
  | none => throw (unexpected [.sub] t)

def number : Parse Phrase := do
  let t ← orElse (attempt (token .int)) (attempt (token .float))
  match Number.read t.lexeme with
  | some value => pure (.number value t.span)
  | none => throw ⟨.invalidNumber, [t.span], false⟩

def name : Parse Phrase := do
  let t ← attempt (token .name)
  pure (.name t.lexeme t.span)

def literal : Parse Phrase := orElse (attempt number) (attempt name)

def parenWith (expr : Parse Phrase) : Parse Phrase := do
  let opening ← attempt (token .openParen)
  let inner ← attempt expr
  let closing ← mapError (fun _ => ⟨.unclosedParen true, [opening.span], true⟩)
    (attempt (token .closeParen))
  pure (.paren inner (opening.span.join closing.span))

def primaryWith (expr : Parse Phrase) : Parse Phrase :=
  orElse (attempt literal) (attempt (parenWith expr))

def unaryWith (operand : Parse Phrase) : Parse Phrase := do
  let (op, opSpan) ← attempt unaryOp
  let inner ← operand
  pure (.unary op opSpan inner (opSpan.join inner.span))

def operandWith (operand expr : Parse Phrase) : Parse Phrase :=
  orElse (attempt (unaryWith operand)) (attempt (primaryWith expr))

def operator (prec : Prec) : Parse (BinOp × Span) :=
  attemptThen binOp fun op p => if prec ≤ op.1.prec then none else some (errorAt p .internal)

def chainWith (operand : Parse Phrase) (go : Phrase → Parse Phrase) (prec : Prec) (lhs : Phrase) :
    Parse Phrase := fun p =>
  match operator prec p with
  | .error _ _ => .ok lhs p
  | .ok (op, opSpan) q => (operand >>= fun rhs => go (lhs.attach op opSpan rhs)) q

/-- An expression must not begin with a closing parenthesis. -/
def exprWith (operand : Parse Phrase) (chain : Phrase → Parse Phrase) : Parse Phrase := fun p =>
  match ahead (token .closeParen) p with
  | some _ => failFatal (.unclosedParen false) p
  | none => (attempt operand >>= chain) p

mutual

def operandAt : Nat → Parse Phrase
  | 0 => fail .internal
  | n + 1 => operandWith (operandAt n) (exprAt n)

def exprAt : Nat → Parse Phrase
  | 0 => fail .internal
  | n + 1 => exprWith (operandAt n) (chainAt n .any)

def chainAt : Nat → Prec → Phrase → Parse Phrase
  | 0, _, _ => fail .internal
  | n + 1, prec, lhs => chainWith (operandAt n) (chainAt n prec) prec lhs

end

end Parse

/-- Every two calls pass a token, so the depth of calls is at most linear in the tokens left. -/
def Parser.depth (p : Parser) : Nat := 2 * p.after.length + 2

namespace Parse

def operand : Parse Phrase := fun p => operandAt p.depth p

def expr : Parse Phrase := fun p => exprAt p.depth p

def chain (prec : Prec) (lhs : Phrase) : Parse Phrase := fun p => chainAt p.depth prec lhs p

def paren : Parse Phrase := parenWith expr

def primary : Parse Phrase := primaryWith expr

def unary : Parse Phrase := unaryWith operand

def climb (prec : Prec) : Parse Phrase := operand >>= chain prec

def binary : Parse Phrase := do
  let e ← climb .any
  match e with
  | .binary .. => pure e
  | _ => fail .internal

def equationWith (lhs : Phrase) : Parse Equation := do
  let eq ← attempt (token .assign)
  let rhs ← attempt expr
  match ahead (token .assign) (← get) with
  | some second => throw ⟨.chainedEquality, [eq.span, second.span], true⟩
  | none => pure ⟨lhs, rhs, lhs.span.join rhs.span⟩

def equation : Parse Equation := attempt expr >>= equationWith

/-- A variable, a colon and an equation. Behind the colon every failure is fatal, since nothing
else can be meant. -/
def request : Parse Request := do
  let target ← attempt (token .name)
  let _ ← attempt (token .colon)
  let e ← mapError (fun e => { e with fatal := true }) (attempt equation)
  pure ⟨target.lexeme, target.span, e, target.span.join e.span⟩

def equationOrPhrase : Parse Statement := do
  let lhs ← attempt expr
  match ahead (token .assign) (← get) with
  | some _ => .equation <$> equationWith lhs
  | none => pure (.phrase lhs)

def statement : Parse Statement := orElse (attempt (.request <$> request)) equationOrPhrase

end Parse

def Statement.ofSource (source : String) : Except ParseError Statement :=
  match Parse.full Parse.statement (.ofSource source) with
  | .ok s _ => .ok s
  | .error e _ => .error e

end Rearrange

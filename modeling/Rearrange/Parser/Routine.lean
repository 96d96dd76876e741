import Rearrange.Parser.Grammar

namespace Rearrange

/-- The functions of the grammar, with what they are applied to beside the parser. A loop is a
function that calls itself for its next round. -/
inductive Routine where
  | token (kind : TokenKind)
  | binOp
  | unaryOp
  | number
  | name
  | literal
  | paren
  | primary
  | unary
  | operand
  | chain (prec : Prec) (lhs : Phrase)
  /-- Extends the right operand of `op` by operators to which `op` yields. -/
  | completion (op : BinOp) (opSpan : Span) (lhs rhs : Phrase)
  | binary
  | expr
  | equationRest (lhs : Phrase)
  | equation
  | request
  | statement

@[reducible]
def Routine.Value : Routine → Type
  | token _ => Token
  | binOp => BinOp × Span
  | unaryOp => UnaryOp × Span
  | name => String × Span
  | equationRest _ | equation => Equation
  | request => Request
  | statement => Statement
  | _ => Phrase

abbrev Outcome (α : Type) := EStateM.Result ParseError Parser α

/-- What is still to be done: nothing, or a call first and then what its answer asks for. -/
inductive Course (α : Type) where
  | done (a : α)
  | call (r : Routine) (p : Parser) (go : Outcome r.Value → Course α)

def Course.andThen {α β : Type} (k : α → Course β) : Course α → Course β
  | done a => k a
  | call r p go => call r p fun y => (go y).andThen k

def Plan (α : Type) := Parser → Course (Outcome α)

namespace Plan

variable {α β : Type}

def read (r : Parse α) : Plan α := fun p => .done (r p)

def ask (r : Routine) : Plan r.Value := fun p => .call r p .done

protected def pure (a : α) : Plan α := read (pure a)

protected def bind (x : Plan α) (f : α → Plan β) : Plan β := fun p =>
  (x p).andThen fun
    | .ok a q => f a q
    | .error e q => .done (.error e q)

instance : Monad Plan where
  pure := Plan.pure
  bind := Plan.bind

def attempt (x : Plan α) : Plan α := fun p =>
  (x p).andThen fun
    | .ok a q => .done (.ok a q)
    | .error e _ => .done (.error e p)

def attemptThen (x : Plan α) (check : α → Parser → Option ParseError) : Plan α :=
  attempt fun p =>
    (x p).andThen fun
      | .ok a q =>
        match check a q with
        | none => .done (.ok a q)
        | some e => .done (.error e q)
      | .error e q => .done (.error e q)

def orElse (x y : Plan α) : Plan α := fun p =>
  (x p).andThen fun
    | .ok a q => .done (.ok a q)
    | .error e q => if e.fatal then .done (.error e q) else y q

def recover (x y : Plan α) : Plan α := fun p =>
  (x p).andThen fun
    | .ok a q => .done (.ok a q)
    | .error _ q => y q

def mapError (f : ParseError → ParseError) (x : Plan α) : Plan α := fun p =>
  (x p).andThen fun
    | .ok a q => .done (.ok a q)
    | .error e q => .done (.error (f e) q)

def ahead (r : Parse α) : Plan (Option α) := read fun p => .ok (Parse.ahead r p) p

def maybe (r : Parse α) : Plan (Option α) := read fun p =>
  match r p with
  | .ok a q => .ok (some a) q
  | .error _ _ => .ok none p

end Plan

namespace Routine

open Plan

def body : (r : Routine) → Plan r.Value
  | token kind => read (Parse.token kind)
  | binOp => read Parse.binOp
  | unaryOp => read Parse.unaryOp
  | number => do
    let t ← recover (attempt (ask (token .int))) (attempt (ask (token .float)))
    match Number.read t.lexeme with
    | some value => pure (.number value t.span)
    | none => read (throw ⟨.invalidNumber, [t.span], false⟩)
  | name => do
    let t ← attempt (ask (token .name))
    pure (t.lexeme, t.span)
  | literal =>
    recover (attempt (ask number)) do
      let (n, s) ← attempt (ask name)
      pure (.name n s)
  | paren => do
    let opening ← attempt (ask (token .openParen))
    let inner ← attempt (ask expr)
    let closing ← mapError (fun _ => ⟨.unclosedParen true, [opening.span], true⟩)
      (attempt (ask (token .closeParen)))
    pure (.paren inner (opening.span.join closing.span))
  | primary => orElse (attempt (ask literal)) (attempt (ask paren))
  | unary => do
    let (op, opSpan) ← attemptThen (ask unaryOp) fun x p =>
      if x.1.assoc = .right then none else some (Parse.errorAt p .internal)
    let lhs ← ask operand
    let inner ← ask (chain op.prec lhs)
    pure (.unary op opSpan inner (opSpan.join inner.span))
  | operand => orElse (attempt (ask unary)) (attempt (ask primary))
  | chain prec lhs => do
    match ← maybe (Parse.operator prec) with
    | none => pure lhs
    | some (op, opSpan) =>
      let rhs ← ask operand
      let lhs' ← ask (completion op opSpan lhs rhs)
      ask (chain prec lhs')
  | completion op opSpan lhs rhs => do
    match ← ahead Parse.binOp with
    | none => pure (.join op opSpan lhs rhs)
    | some (next, _) =>
      if op.yieldsTo next then
        let rhs' ← ask (chain next.prec rhs)
        ask (completion op opSpan lhs rhs')
      else pure (.join op opSpan lhs rhs)
  | binary => do
    let lhs ← ask operand
    match ← ask (chain .any lhs) with
    | .binary op opSpan l r s => pure (.binary op opSpan l r s)
    | _ => read (Parse.fail .internal)
  | expr => do
    match ← ahead (Parse.token .closeParen) with
    | some _ => read (Parse.failFatal (.unclosedParen false))
    | none =>
      let lhs ← attempt (ask operand)
      ask (chain .any lhs)
  | equationRest lhs => do
    let eq ← attempt (ask (token .assign))
    let rhs ← attempt (ask expr)
    match ← ahead (Parse.token .assign) with
    | some second => read (throw ⟨.chainedEquality, [eq.span, second.span], true⟩)
    | none => pure ⟨lhs, rhs, lhs.span.join rhs.span⟩
  | equation => do
    let lhs ← attempt (ask expr)
    ask (equationRest lhs)
  | request => do
    let (target, targetSpan) ← attempt (ask name)
    let _ ← attempt (ask (token .colon))
    let e ← mapError (fun e => { e with fatal := true }) (attempt (ask equation))
    pure ⟨target, targetSpan, e, targetSpan.join e.span⟩
  | statement =>
    orElse (attempt do return .request (← ask request)) do
      let lhs ← attempt (ask expr)
      match ← ahead (Parse.token .assign) with
      | some _ => return .equation (← ask (equationRest lhs))
      | none => pure (.phrase lhs)

end Routine

namespace Parse

/-- A product that has `lhs` for its first factor, if an operator for that follows. -/
def factors (lhs : Phrase) : Parse Phrase := fun p =>
  match operator .factor p with
  | .error _ _ => .ok lhs p
  | .ok (op, opSpan) q => (do chain .factor (.join op opSpan lhs (← operand))) q

/-- An operator between its operands. The right operand of a sum takes the factors that follow. -/
def completion (op : BinOp) (opSpan : Span) (lhs rhs : Phrase) : Parse Phrase :=
  if op.isSum then .join op opSpan lhs <$> factors rhs else pure (.join op opSpan lhs rhs)

/-- A chain that keeps `lhs` in one piece. -/
def extend (prec : Prec) (lhs : Phrase) : Parse Phrase := fun p =>
  match operator prec p with
  | .error _ _ => .ok lhs p
  | .ok (op, opSpan) q => (do chain prec (← completion op opSpan lhs (← operand))) q

end Parse

/-- What each function reads, which is what its calls come to. -/
def Routine.read : (r : Routine) → Parse r.Value
  | token kind => Parse.token kind
  | binOp => Parse.binOp
  | unaryOp => Parse.unaryOp
  | number => Parse.number
  | name => (fun t => (t.lexeme, t.span)) <$> Parse.attempt (Parse.token .name)
  | literal => Parse.literal
  | paren => Parse.paren
  | primary => Parse.primary
  | unary => Parse.unary
  | operand => Parse.operand
  | chain prec lhs => Parse.extend prec lhs
  | completion op opSpan lhs rhs => Parse.completion op opSpan lhs rhs
  | binary => Parse.binary
  | expr => Parse.expr
  | equationRest lhs => Parse.equationWith lhs
  | equation => Parse.equation
  | request => Parse.request
  | statement => Parse.statement

inductive Event where
  | enters (r : Routine) (p : Parser)
  | leaves (r : Routine) (y : Outcome r.Value)

namespace Course

variable {α : Type}

/-- What a course comes to when each call is answered by what the called function reads. -/
def result : Course α → α
  | done a => a
  | call r p go => (go (r.read p)).result

def calls : Course α → List (Routine × Parser)
  | done _ => []
  | call r p go => (r, p) :: (go (r.read p)).calls

/-- Follows a course by answers that are given with what happened until then. -/
def trace (answer : (r : Routine) → Parser → Option (Outcome r.Value × List Event)) :
    Course α → Option (α × List Event)
  | done a => some (a, [])
  | call r p go => do
    let (y, es) ← answer r p
    let (a, later) ← (go y).trace answer
    return (a, es ++ later)

end Course

def Routine.calls (r : Routine) (p : Parser) : List (Routine × Parser) := (r.body p).calls

/-- What a function reads and all that happens, if calls need not go deeper than the bound. -/
def Routine.trace : Nat → (r : Routine) → Parser → Option (Outcome r.Value × List Event)
  | 0, _, _ => none
  | n + 1, r, p => do
    let (y, es) ← (r.body p).trace (trace n)
    return (y, .enters r p :: es ++ [.leaves r y])

def Plan.reads {α : Type} (x : Plan α) : Parse α := fun p => (x p).result

end Rearrange

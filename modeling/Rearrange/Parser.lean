import Rearrange.Fault
import Rearrange.Token.Lexer

namespace Rearrange

/-- The tokens already passed, latest first, and those still to come. -/
structure Parser where
  before : List Token
  after : List Token
deriving DecidableEq, Repr

namespace Parser

def ofTokens (ts : List Token) : Parser := ⟨[], ts⟩

def ofSource (source : String) : Parser := ofTokens (tokenize source)

def tokens (p : Parser) : List Token := p.before.reverse ++ p.after

def cursor (p : Parser) : Nat := p.before.length

def seek (p : Parser) (n : Nat) : Parser := ⟨(p.tokens.take n).reverse, p.tokens.drop n⟩

def setCursor (p q : Parser) : Parser := p.seek q.cursor

def previous? (p : Parser) : Option Token := p.before.head?

def current? (p : Parser) : Option Token := p.after.head?

def endSpan (p : Parser) : Span :=
  match p.after.getLast? <|> p.before.head? with
  | some t => .point t.span.stop
  | none => .point 0

/-- The region of the next token, whitespace included, or the end of the text. -/
def span (p : Parser) : Span :=
  match p.after with
  | t :: _ => t.span
  | [] => p.endSpan

def skipWhitespace (p : Parser) : Parser := go p.before p.after
where
  go (before : List Token) : List Token → Parser
    | [] => ⟨before, []⟩
    | t :: ts => if t.isWhitespace then go (t :: before) ts else ⟨before, t :: ts⟩

end Parser

abbrev ParseError := Located Fault

abbrev Parse := EStateM ParseError Parser

namespace Parse

variable {α : Type}

def errorAt (p : Parser) (cause : Fault) (fatal : Bool := false) : ParseError :=
  ⟨cause, [p.span], fatal⟩

def fail (cause : Fault) : Parse α := fun p => .error (errorAt p cause) p

def failFatal (cause : Fault) : Parse α := fun p => .error (errorAt p cause true) p

def next : Parse Token := fun p =>
  let q := p.skipWhitespace
  match q.after with
  | t :: ts => .ok t ⟨t :: q.before, ts⟩
  | [] => .error (errorAt q .unexpectedEnd) q

/-- Puts the parser back if reading fails. -/
def attempt (r : Parse α) : Parse α := fun p =>
  match r p with
  | .ok a q => .ok a q
  | .error e _ => .error e p

/-- Reads a value and looks at it and at the parser behind it; puts the parser back if either
fails. -/
def attemptThen (r : Parse α) (check : α → Parser → Option ParseError) : Parse α :=
  attempt fun p =>
    match r p with
    | .ok a q =>
      match check a q with
      | none => .ok a q
      | some e => .error e q
    | .error e q => .error e q

/-- Reads another way if the first fails, unless it fails fatally. -/
def orElse (r s : Parse α) : Parse α := fun p =>
  match r p with
  | .ok a q => .ok a q
  | .error e q => if e.fatal then .error e q else s q

def mapError (f : ParseError → ParseError) (r : Parse α) : Parse α := fun p =>
  match r p with
  | .ok a q => .ok a q
  | .error e q => .error (f e) q

def ahead (r : Parse α) (p : Parser) : Option α :=
  match r p with
  | .ok a _ => some a
  | .error _ _ => none

/-- Reads a value and requires that only whitespace is left. -/
def full (r : Parse α) : Parse α := do
  let a ← r
  modify Parser.skipWhitespace
  if (← get).after.isEmpty then pure a else fail .expectedEnd

def unexpected (expected : List TokenKind) (t : Token) : ParseError :=
  ⟨.unexpectedToken expected t.kind, [t.span], false⟩

def token (kind : TokenKind) : Parse Token := do
  let t ← next
  if t.kind = kind then pure t else throw (unexpected [kind] t)

end Parse

end Rearrange

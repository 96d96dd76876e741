import Rearrange.Span

namespace Rearrange

inductive TokenKind where
  | newLine
  | blank
  | add
  | sub
  | mul
  | div
  | assign
  | colon
  | openParen
  | closeParen
  | name
  | int
  | float
  /-- Any character that begins no other lexeme. -/
  | symbol
deriving DecidableEq, Repr

namespace TokenKind

/-- Blanks and line ends separate lexemes and mean nothing else. -/
def isWhitespace : TokenKind → Bool
  | newLine | blank => true
  | _ => false

def label : TokenKind → String
  | newLine => "NewLine"
  | blank => "Whitespace"
  | add => "Add"
  | sub => "Sub"
  | mul => "Mul"
  | div => "Div"
  | assign => "Assign"
  | colon => "Colon"
  | openParen => "OpenParen"
  | closeParen => "CloseParen"
  | name => "Name"
  | int => "Int"
  | float => "Float"
  | symbol => "Symbol"

def all : List TokenKind :=
  [newLine, blank, add, sub, mul, div, assign, colon, openParen, closeParen, name, int, float,
    symbol]

end TokenKind

structure Token where
  kind : TokenKind
  span : Span
  lexeme : String
deriving DecidableEq, Repr

def Token.isWhitespace (t : Token) : Bool := t.kind.isWhitespace

end Rearrange

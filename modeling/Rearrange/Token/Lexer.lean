import Rearrange.Token

namespace Rearrange

namespace Lexer

def isNewLine (c : Char) : Bool := c == '\n' || c == '\r'

def isBlank (c : Char) : Bool := c == ' ' || c == '\t'

def isNameStart (c : Char) : Bool := c.isAlpha || c == '_'

def isNameRest (c : Char) : Bool := c.isAlphanum || c == '_'

/-- One lexeme cut from the head of a text, and the text behind it. -/
structure Cut where
  kind : TokenKind
  text : List Char
  rest : List Char
deriving DecidableEq, Repr

def sign : List Char → List Char × List Char
  | '+' :: cs => (['+'], cs)
  | '-' :: cs => (['-'], cs)
  | cs => ([], cs)

/-- An exponent at the head of a text, or nothing if its digits are missing. -/
def exponent : List Char → List Char × List Char
  | [] => ([], [])
  | e :: cs =>
    if e == 'e' || e == 'E' then
      let (s, digits) := sign cs
      if (digits.takeWhile Char.isDigit).isEmpty then ([], e :: cs)
      else (e :: s ++ digits.takeWhile Char.isDigit, digits.dropWhile Char.isDigit)
    else ([], e :: cs)

/-- The lexeme of a number whose first digits are `whole`. A point or a complete exponent makes it
a float. -/
def number (whole : List Char) : List Char → Cut
  | '.' :: cs =>
    let (e, rest) := exponent (cs.dropWhile Char.isDigit)
    ⟨.float, whole ++ '.' :: cs.takeWhile Char.isDigit ++ e, rest⟩
  | cs =>
    let (e, rest) := exponent cs
    if e.isEmpty then ⟨.int, whole, cs⟩ else ⟨.float, whole ++ e, rest⟩

def run (kind : TokenKind) (p : Char → Bool) (c : Char) (cs : List Char) : Cut :=
  ⟨kind, c :: cs.takeWhile p, cs.dropWhile p⟩

def single (c : Char) : TokenKind :=
  match c with
  | '+' => .add
  | '-' => .sub
  | '*' => .mul
  | '/' => .div
  | '=' => .assign
  | ':' => .colon
  | '(' => .openParen
  | ')' => .closeParen
  | _ => .symbol

/-- The longest lexeme at the head of a text that begins with `c`. -/
def cut (c : Char) (cs : List Char) : Cut :=
  if isNewLine c then run .newLine isNewLine c cs
  else if isBlank c then run .blank isBlank c cs
  else if isNameStart c then run .name isNameRest c cs
  else if c.isDigit then number (c :: cs.takeWhile Char.isDigit) (cs.dropWhile Char.isDigit)
  else ⟨single c, [c], cs⟩

theorem sign_append (cs : List Char) : (sign cs).1 ++ (sign cs).2 = cs := by
  unfold sign
  split <;> rfl

theorem exponent_append (cs : List Char) : (exponent cs).1 ++ (exponent cs).2 = cs := by
  unfold exponent
  split
  · rfl
  · next e cs =>
    split
    · simp only
      split
      · rfl
      · simp [sign_append]
    · rfl

theorem number_append (whole cs : List Char) :
    (number whole cs).text ++ (number whole cs).rest = whole ++ cs := by
  unfold number
  split
  · next cs => simp [exponent_append]
  · next cs _ =>
    simp only
    split
    · rfl
    · simp [exponent_append]

theorem number_text_ne_nil {whole : List Char} (hw : whole ≠ []) (cs : List Char) :
    (number whole cs).text ≠ [] := by
  unfold number
  split
  · simp
  · simp only
    split <;> simp [hw]

theorem cut_append (c : Char) (cs : List Char) :
    (cut c cs).text ++ (cut c cs).rest = c :: cs := by
  unfold cut run
  split
  · simp
  · split
    · simp
    · split
      · simp
      · split
        · simp [number_append]
        · simp

theorem cut_text_ne_nil (c : Char) (cs : List Char) : (cut c cs).text ≠ [] := by
  unfold cut run
  split
  · simp
  · split
    · simp
    · split
      · simp
      · split
        · exact number_text_ne_nil (by simp) _
        · simp

theorem cut_rest_length_lt (c : Char) (cs : List Char) :
    (cut c cs).rest.length < (c :: cs).length := by
  have h := congrArg List.length (cut_append c cs)
  have := List.length_pos_iff.mpr (cut_text_ne_nil c cs)
  rw [List.length_append] at h
  omega

end Lexer

/-- The tokens of a text whose first byte has the given offset. -/
def tokensFrom (offset : Nat) : List Char → List Token
  | [] => []
  | c :: cs =>
    let lexeme := String.ofList (Lexer.cut c cs).text
    let stop := offset + lexeme.utf8ByteSize
    ⟨(Lexer.cut c cs).kind, ⟨offset, stop⟩, lexeme⟩ :: tokensFrom stop (Lexer.cut c cs).rest
termination_by cs => cs.length
decreasing_by exact Lexer.cut_rest_length_lt c cs

def tokenize (source : String) : List Token := tokensFrom 0 source.toList

end Rearrange

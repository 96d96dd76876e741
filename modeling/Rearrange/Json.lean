namespace Rearrange

inductive Json where
  | null
  | bool (value : Bool)
  | number (lexeme : List Char)
  | string (lexeme : List Char)
  | array (elements : List Json)
  | object (members : List (List Char × Json))

namespace Json

def isHex (c : Char) : Bool :=
  c.isDigit || ('a' ≤ c && c ≤ 'f') || ('A' ≤ c && c ≤ 'F')

def hexValue (c : Char) : Nat :=
  if c.isDigit then c.toNat - '0'.toNat
  else if 'a' ≤ c then c.toNat - 'a'.toNat + 10
  else c.toNat - 'A'.toNat + 10

def hex4? (a b c d : Char) : Option Nat :=
  if isHex a && isHex b && isHex c && isHex d then
    some (((hexValue a * 16 + hexValue b) * 16 + hexValue c) * 16 + hexValue d)
  else none

def shortEscape? : Char → Option Char
  | '"' => some '"'
  | '\\' => some '\\'
  | '/' => some '/'
  | 'b' => some '\x08'
  | 'f' => some '\x0c'
  | 'n' => some '\n'
  | 'r' => some '\r'
  | 't' => some '\t'
  | _ => none

def isHighSurrogate (n : Nat) : Bool := 0xd800 ≤ n && n < 0xdc00

def isLowSurrogate (n : Nat) : Bool := 0xdc00 ≤ n && n < 0xe000

/-- The characters that a string stands for. A surrogate without its partner stands for none. -/
def unescape : List Char → Option (List Char)
  | [] => some []
  | '\\' :: 'u' :: a :: b :: c :: d :: r =>
    match hex4? a b c d with
    | none => none
    | some n =>
      if isLowSurrogate n then none
      else if isHighSurrogate n then
        match r with
        | '\\' :: 'u' :: e :: f :: g :: h :: r' =>
          match hex4? e f g h with
          | none => none
          | some m =>
            if isLowSurrogate m then
              (unescape r').map (Char.ofNat (0x10000 + (n - 0xd800) * 0x400 + (m - 0xdc00)) :: ·)
            else none
        | _ => none
      else (unescape r).map (Char.ofNat n :: ·)
  | '\\' :: e :: r =>
    match shortEscape? e with
    | some c => (unescape r).map (c :: ·)
    | none => none
  | c :: r => if c == '\\' then none else (unescape r).map (c :: ·)

def escapeChar (c : Char) : List Char :=
  match c with
  | '"' => ['\\', '"']
  | '\\' => ['\\', '\\']
  | '\x08' => ['\\', 'b']
  | '\x0c' => ['\\', 'f']
  | '\n' => ['\\', 'n']
  | '\r' => ['\\', 'r']
  | '\t' => ['\\', 't']
  | c =>
    if c.toNat < 0x20 then
      ['\\', 'u', '0', '0', Nat.digitChar (c.toNat / 16), Nat.digitChar (c.toNat % 16)]
    else [c]

def escape (cs : List Char) : List Char := cs.flatMap escapeChar

def ofText (s : String) : Json := .string (escape s.toList)

def text? : Json → Option String
  | .string lexeme => (unescape lexeme).map String.ofList
  | _ => none

mutual

def write : Json → List Char
  | null => "null".toList
  | bool true => "true".toList
  | bool false => "false".toList
  | number lexeme => lexeme
  | string lexeme => '"' :: lexeme ++ ['"']
  | array [] => ['[', ']']
  | array (v :: vs) => '[' :: write v ++ writeElements vs
  | object [] => ['\x7b', '\x7d']
  | object ((k, v) :: ms) => '\x7b' :: '"' :: k ++ '"' :: ':' :: write v ++ writeMembers ms

def writeElements : List Json → List Char
  | [] => [']']
  | v :: vs => ',' :: write v ++ writeElements vs

def writeMembers : List (List Char × Json) → List Char
  | [] => ['\x7d']
  | (k, v) :: ms => ',' :: '"' :: k ++ '"' :: ':' :: write v ++ writeMembers ms

end

def isBlank (c : Char) : Bool := c == ' ' || c == '\n' || c == '\t' || c == '\r'

def skipBlanks (cs : List Char) : List Char := cs.dropWhile isBlank

/-- The characters up to the closing quote, and what follows it. Control characters must be
escaped. -/
def stringBody : List Char → Option (List Char × List Char)
  | [] => none
  | '"' :: r => some ([], r)
  | '\\' :: 'u' :: a :: b :: c :: d :: r =>
    match hex4? a b c d with
    | none => none
    | some _ => (stringBody r).map fun (l, r) => ('\\' :: 'u' :: a :: b :: c :: d :: l, r)
  | '\\' :: e :: r =>
    match shortEscape? e with
    | none => none
    | some _ => (stringBody r).map fun (l, r) => ('\\' :: e :: l, r)
  | c :: r =>
    if c == '\\' || c.toNat < 0x20 then none
    else (stringBody r).map fun (l, r) => (c :: l, r)

def digits1 (cs : List Char) : Option (List Char × List Char) :=
  let ds := cs.takeWhile Char.isDigit
  if ds.isEmpty then none else some (ds, cs.dropWhile Char.isDigit)

def wholeDigits (cs : List Char) : Option (List Char × List Char) :=
  match cs with
  | '0' :: r => some (['0'], r)
  | cs => digits1 cs

def fractionPart (cs : List Char) : Option (List Char × List Char) :=
  match cs with
  | '.' :: r => (digits1 r).map fun (ds, r) => ('.' :: ds, r)
  | cs => some ([], cs)

def exponentPart (cs : List Char) : Option (List Char × List Char) :=
  match cs with
  | [] => some ([], [])
  | e :: r =>
    if e == 'e' || e == 'E' then
      match r with
      | '+' :: r => (digits1 r).map fun (ds, r) => (e :: '+' :: ds, r)
      | '-' :: r => (digits1 r).map fun (ds, r) => (e :: '-' :: ds, r)
      | r => (digits1 r).map fun (ds, r) => (e :: ds, r)
    else some ([], e :: r)

def unsigned (cs : List Char) : Option (List Char × List Char) := do
  let (whole, r) ← wholeDigits cs
  let (fraction, r) ← fractionPart r
  let (exponent, r) ← exponentPart r
  pure (whole ++ fraction ++ exponent, r)

def numberLexeme (cs : List Char) : Option (List Char × List Char) :=
  match cs with
  | '-' :: r => (unsigned r).map fun (l, r) => ('-' :: l, r)
  | cs => unsigned cs

mutual

/-- A value at the head of a text, by calls no deeper than the bound. -/
def value : Nat → List Char → Option (Json × List Char)
  | 0, _ => none
  | n + 1, cs =>
    match skipBlanks cs with
    | 'n' :: 'u' :: 'l' :: 'l' :: r => some (.null, r)
    | 't' :: 'r' :: 'u' :: 'e' :: r => some (.bool true, r)
    | 'f' :: 'a' :: 'l' :: 's' :: 'e' :: r => some (.bool false, r)
    | '"' :: r => (stringBody r).map fun (l, r) => (.string l, r)
    | '[' :: r =>
      match skipBlanks r with
      | ']' :: r => some (.array [], r)
      | r => (elements n r).map fun (vs, r) => (.array vs, r)
    | '\x7b' :: r =>
      match skipBlanks r with
      | '\x7d' :: r => some (.object [], r)
      | r => (members n r).map fun (ms, r) => (.object ms, r)
    | r => (numberLexeme r).map fun (l, r) => (.number l, r)

def elements : Nat → List Char → Option (List Json × List Char)
  | 0, _ => none
  | n + 1, cs =>
    match value n cs with
    | none => none
    | some (v, r) =>
      match skipBlanks r with
      | ',' :: r => (elements n r).map fun (vs, r) => (v :: vs, r)
      | ']' :: r => some ([v], r)
      | _ => none

def members : Nat → List Char → Option (List (List Char × Json) × List Char)
  | 0, _ => none
  | n + 1, cs =>
    match skipBlanks cs with
    | '"' :: r =>
      match stringBody r with
      | none => none
      | some (k, r) =>
        match skipBlanks r with
        | ':' :: r =>
          match value n r with
          | none => none
          | some (v, r) =>
            match skipBlanks r with
            | ',' :: r => (members n r).map fun (ms, r) => ((k, v) :: ms, r)
            | '\x7d' :: r => some ([(k, v)], r)
            | _ => none
        | _ => none
    | _ => none

end

def read (cs : List Char) : Option Json :=
  match value (2 * cs.length + 2) cs with
  | some (v, r) => if (skipBlanks r).isEmpty then some v else none
  | none => none

end Json

end Rearrange

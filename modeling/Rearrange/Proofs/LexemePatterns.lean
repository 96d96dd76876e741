import Mathlib.Computability.Language
import Rearrange.Proofs.NumberLexemes

namespace Rearrange

open scoped Computability

namespace Lexer

def oneOf (p : Char → Bool) : Language Char := {text | ∃ c, p c = true ∧ text = [c]}

def digits : Language Char := oneOf Char.isDigit * (oneOf Char.isDigit)∗

/-- `[eE][+-]?[0-9]+` -/
def exponents : Language Char :=
  oneOf (fun c => c == 'e' || c == 'E') * ((1 + oneOf fun c => c == '+' || c == '-') * digits)

end Lexer

open Lexer

/-- The texts that are lexemes of a class, unless they are only a part of a longer one. -/
def TokenKind.pattern : TokenKind → Language Char
  | newLine => oneOf (fun c => c == '\n' || c == '\r') * (oneOf fun c => c == '\n' || c == '\r')∗
  | blank => oneOf (fun c => c == ' ' || c == '\t') * (oneOf fun c => c == ' ' || c == '\t')∗
  | add => {['+']}
  | sub => {['-']}
  | mul => {['*']}
  | div => {['/']}
  | assign => {['=']}
  | colon => {[':']}
  | openParen => {['(']}
  | closeParen => {[')']}
  | name => oneOf (fun c => c.isAlpha || c == '_') * (oneOf fun c => c.isAlphanum || c == '_')∗
  | int => digits
  | float => digits * ({['.']} * ((oneOf Char.isDigit)∗ * (1 + exponents))) + digits * exponents
  | symbol => oneOf (· != '\n')

namespace Lexer

variable {p q : Char → Bool} {text : List Char}

theorem mem_oneOf : text ∈ oneOf p ↔ ∃ c, p c = true ∧ text = [c] := Iff.rfl

theorem mem_oneOf_mul {l : Language Char} :
    text ∈ oneOf p * l ↔ ∃ c cs, text = c :: cs ∧ p c = true ∧ cs ∈ l := by
  rw [Language.mem_mul]
  constructor
  · rintro ⟨_, ⟨c, hc, rfl⟩, cs, hcs, rfl⟩
    exact ⟨c, cs, rfl, hc, hcs⟩
  · rintro ⟨c, cs, rfl, hc, hcs⟩
    exact ⟨[c], ⟨c, hc, rfl⟩, cs, hcs, rfl⟩

theorem mem_oneOf_kstar : text ∈ (oneOf p)∗ ↔ ∀ c ∈ text, p c = true := by
  rw [Language.mem_kstar]
  constructor
  · rintro ⟨parts, rfl, hparts⟩ c hc
    obtain ⟨part, hpart, hc⟩ := List.mem_flatten.mp hc
    obtain ⟨d, hd, rfl⟩ := hparts part hpart
    rwa [List.mem_singleton.mp hc]
  · intro h
    refine ⟨text.map fun c => [c], (List.flatMap_singleton' text).symm, ?_⟩
    intro part hpart
    obtain ⟨c, hc, rfl⟩ := List.mem_map.mp hpart
    exact ⟨c, h c hc, rfl⟩

theorem cons_mem_run {c : Char} {cs : List Char} :
    c :: cs ∈ oneOf p * (oneOf q)∗ ↔ p c = true ∧ ∀ d ∈ cs, q d = true := by
  rw [mem_oneOf_mul]
  constructor
  · rintro ⟨_, _, ⟨⟩, hc, hcs⟩
    exact ⟨hc, mem_oneOf_kstar.mp hcs⟩
  · rintro ⟨hc, hcs⟩
    exact ⟨c, cs, rfl, hc, mem_oneOf_kstar.mpr hcs⟩

theorem mem_digits : text ∈ digits ↔ text ≠ [] ∧ ∀ d ∈ text, d.isDigit = true := by
  cases text with
  | nil => simp [digits, mem_oneOf_mul]
  | cons c cs => rw [digits, cons_mem_run]; simp

theorem mem_exponents : text ∈ exponents ↔ ∃ e s ds, text = e :: (s ++ ds) ∧
    (e = 'e' ∨ e = 'E') ∧ (s = [] ∨ s = ['+'] ∨ s = ['-']) ∧ ds ≠ [] ∧
      ∀ d ∈ ds, d.isDigit = true := by
  have hsign (s : List Char) : s ∈ (1 + oneOf fun c => c == '+' || c == '-') ↔
      s = [] ∨ s = ['+'] ∨ s = ['-'] := by
    rw [Language.mem_add, Language.mem_one, mem_oneOf]
    refine or_congr_right ⟨?_, ?_⟩
    · rintro ⟨c, hc, rfl⟩
      simpa using hc
    · rintro (rfl | rfl)
      · exact ⟨'+', rfl, rfl⟩
      · exact ⟨'-', rfl, rfl⟩
  rw [exponents, mem_oneOf_mul]
  simp only [Language.mem_mul, mem_digits, hsign]
  constructor
  · rintro ⟨e, _, rfl, he, s, hs, ds, hds, rfl⟩
    exact ⟨e, s, ds, rfl, by simpa using he, hs, hds⟩
  · rintro ⟨e, s, ds, rfl, he, hs, hds⟩
    exact ⟨e, s ++ ds, rfl, by simpa using he, s, hs, ds, hds, rfl⟩

theorem mem_float : text ∈ TokenKind.float.pattern ↔ ∃ ds, ds ≠ [] ∧
    (∀ d ∈ ds, d.isDigit = true) ∧
      ((∃ fs e, text = ds ++ '.' :: (fs ++ e) ∧ (∀ d ∈ fs, d.isDigit = true) ∧
          (e = [] ∨ e ∈ exponents)) ∨
        ∃ e ∈ exponents, text = ds ++ e) := by
  simp only [TokenKind.pattern, Language.mem_add, Language.mem_mul, mem_digits, mem_oneOf_kstar,
    Language.mem_one]
  constructor
  · rintro (⟨ds, ⟨hne, hds⟩, _, ⟨_, rfl, _, ⟨fs, hfs, e, he, rfl⟩, rfl⟩, rfl⟩ |
      ⟨ds, ⟨hne, hds⟩, e, he, rfl⟩)
    · exact ⟨ds, hne, hds, Or.inl ⟨fs, e, rfl, hfs, he⟩⟩
    · exact ⟨ds, hne, hds, Or.inr ⟨e, he, rfl⟩⟩
  · rintro ⟨ds, hne, hds, ⟨fs, e, rfl, hfs, he⟩ | ⟨e, he, rfl⟩⟩
    · exact Or.inl ⟨ds, ⟨hne, hds⟩, _, ⟨_, rfl, _, ⟨fs, hfs, e, he, rfl⟩, rfl⟩, rfl⟩
    · exact Or.inr ⟨ds, ⟨hne, hds⟩, e, he, rfl⟩

end Lexer

end Rearrange

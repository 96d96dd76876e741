import Mathlib
import Rearrange.Proofs.DecimalText
import Rearrange.Proofs.ReadingSteps

namespace Rearrange

namespace Lexer

def isName (n : String) : Bool :=
  match n.toList with
  | [] => false
  | c :: cs => isNameStart c && cs.all isNameRest

/-- What may follow a name or a number: anything that cannot be a part of it. -/
def Breaks (rest : List Char) : Prop := ∀ c ∈ rest.head?, isNameRest c = false ∧ c ≠ '.'

/-- The longest lexeme at the head of `text ++ rest` is `text`. -/
def CutsOff (kind : TokenKind) (text rest : List Char) : Prop :=
  ∃ c cs, text = c :: cs ∧ cut c (cs ++ rest) = ⟨kind, text, rest⟩

variable {kind : TokenKind} {text rest : List Char}

theorem isBlank_of_isNameRest {c : Char} (h : isNameRest c = true) :
    isNewLine c = false ∧ isBlank c = false := by
  simp only [isNewLine, isBlank, Bool.or_eq_false_iff, beq_eq_false_iff_ne]
  refine ⟨⟨?_, ?_⟩, ?_, ?_⟩ <;> (rintro rfl; revert h; decide)

theorem isNameRest_of_isNameStart {c : Char} (h : isNameStart c = true) : isNameRest c = true := by
  simp only [isNameStart, isNameRest, Char.isAlphanum, Bool.or_eq_true_iff] at h ⊢
  exact h.imp_left Or.inl

theorem isNameRest_of_isDigit {c : Char} (h : c.isDigit = true) : isNameRest c = true := by
  simp [isNameRest, Char.isAlphanum, h]

theorem isNameStart_of_isDigit {c : Char} (h : c.isDigit = true) : isNameStart c = false := by
  have hc : c ≠ '_' := by
    rintro rfl
    cases h
  simp [Char.isDigit, isNameStart, Char.isAlpha, Char.isUpper, Char.isLower, hc,
    UInt32.le_iff_toNat_le] at h ⊢
  omega

theorem cutsOff_name {n : String} (hn : isName n = true) (h : Breaks rest) :
    CutsOff .name n.toList rest := by
  unfold isName at hn
  split at hn
  next => cases hn
  next c cs hn' =>
    obtain ⟨hc, hcs⟩ := Bool.and_eq_true_iff.mp hn
    obtain ⟨htake, hdrop⟩ := takeWhile_append_boundary (List.all_eq_true.mp hcs) fun d hd => (h d hd).1
    have hplain := isBlank_of_isNameRest (isNameRest_of_isNameStart hc)
    refine ⟨c, cs, hn', ?_⟩
    rw [cut, if_neg (by simp [hplain.1]), if_neg (by simp [hplain.2]), if_pos hc, run, htake, hdrop,
      hn']

theorem exponent_of_breaks (h : Breaks rest) : exponent rest = ([], rest) := by
  unfold exponent
  split
  next => rfl
  next e cs =>
    have he : (e == 'e' || e == 'E') = false := by
      have hrest := (h e rfl).1
      simp only [Bool.or_eq_false_iff, beq_eq_false_iff_ne]
      constructor <;> (rintro rfl; cases hrest)
    rw [if_neg (by simp [he])]

theorem isDigit_of_breaks (h : Breaks rest) : ∀ c ∈ rest.head?, c.isDigit = false := by
  intro c hc
  have hrest := (h c hc).1
  rw [Bool.eq_false_iff]
  intro hdigit
  rw [isNameRest_of_isDigit hdigit] at hrest
  cases hrest

theorem cut_of_isDigit {c : Char} (h : c.isDigit = true) (cs : List Char) :
    cut c cs = number (c :: cs.takeWhile Char.isDigit) (cs.dropWhile Char.isDigit) := by
  obtain ⟨hnewLine, hblank⟩ := isBlank_of_isNameRest (isNameRest_of_isDigit h)
  rw [cut, if_neg (by simp [hnewLine]), if_neg (by simp [hblank]),
    if_neg (by simp [isNameStart_of_isDigit h]), if_pos h]

theorem cutsOff_written (ht : Decimal.Written text) (h : Breaks rest) :
    CutsOff .int text rest ∨ CutsOff .float text rest := by
  cases ht with
  | whole hne hds =>
    obtain ⟨c, cs, rfl⟩ := List.exists_cons_of_ne_nil hne
    obtain ⟨htake, hdrop⟩ := takeWhile_append_boundary
      (fun d hd => hds d (List.mem_cons_of_mem c hd)) (isDigit_of_breaks h)
    refine Or.inl ⟨c, cs, rfl, ?_⟩
    rw [cut_of_isDigit (hds c (List.mem_cons_self ..)), htake, hdrop, number]
    · simp only [exponent_of_breaks h]
      rfl
    · rintro cs' rfl
      exact (h '.' rfl).2 rfl
  | @point ds es hne hds hes =>
    obtain ⟨c, cs, rfl⟩ := List.exists_cons_of_ne_nil hne
    have hpoint : ∀ d ∈ ('.' :: (es ++ rest)).head?, d.isDigit = false := by
      intro d hd
      cases hd
      rfl
    obtain ⟨htake, hdrop⟩ :=
      takeWhile_append_boundary (fun d hd => hds d (List.mem_cons_of_mem c hd)) hpoint
    obtain ⟨htake', hdrop'⟩ := takeWhile_append_boundary hes (isDigit_of_breaks h)
    refine Or.inr ⟨c, cs ++ '.' :: es, rfl, ?_⟩
    rw [cut_of_isDigit (hds c (List.mem_cons_self ..)), List.append_assoc, List.cons_append, htake,
      hdrop, number, hdrop', htake']
    simp [exponent_of_breaks h]

theorem cutsOff_single {c : Char} (h : single c ≠ .symbol) (rest : List Char) :
    CutsOff (single c) [c] rest := by
  refine ⟨c, [], rfl, ?_⟩
  unfold single at h ⊢
  split at h <;> first | rfl | exact absurd rfl h

end Lexer

open Lexer

theorem isName_of_mem_tokenize {source : String} {t : Token} (ht : t ∈ tokenize source)
    (hk : t.kind = .name) : isName t.lexeme = true := by
  obtain ⟨c, cs, hkind, hlexeme⟩ := exists_cut_of_mem_tokenize ht
  rw [hkind] at hk
  rw [hlexeme]
  rcases cut_cases c cs with hcut | hcut | ⟨hname, hcut⟩ | ⟨-, hcut⟩ | hcut <;>
    rw [hcut] at hk ⊢
  · cases hk
  · cases hk
  · have hrest : (cs.takeWhile isNameRest).all isNameRest = true := List.all_takeWhile
    simp [isName, run, hname, hrest]
  · rcases kind_number (c :: cs.takeWhile Char.isDigit) (cs.dropWhile Char.isDigit) with h | h <;>
      cases h.symm.trans hk
  · have hk : single c = .name := hk
    exact absurd (by rw [hk]; decide) (single_notMem_runs c)

theorem tokensFrom_of_cutsOff {kind : TokenKind} {text rest : List Char}
    (h : CutsOff kind text rest) (o : Nat) :
    tokensFrom o (text ++ rest) =
      ⟨kind, ⟨o, o + (String.ofList text).utf8ByteSize⟩, String.ofList text⟩ ::
        tokensFrom (o + (String.ofList text).utf8ByteSize) rest := by
  obtain ⟨c, cs, rfl, hcut⟩ := h
  rw [List.cons_append, tokensFrom]
  simp only [hcut]

theorem words_of_cutsOff {kind : TokenKind} {text rest : List Char} (h : CutsOff kind text rest)
    (hk : kind.isWhitespace = false) (o : Nat) :
    ∃ t o', words (tokensFrom o (text ++ rest)) = t :: words (tokensFrom o' rest) ∧
      t.kind = kind ∧ t.lexeme = String.ofList text := by
  rw [tokensFrom_of_cutsOff h]
  exact ⟨_, _, words_cons hk, rfl, rfl⟩

theorem words_single {c : Char} (h : single c ≠ .symbol) (o : Nat) (rest : List Char) :
    ∃ t o', words (tokensFrom o (c :: rest)) = t :: words (tokensFrom o' rest) ∧
      t.kind = single c := by
  have hspace : (single c).isWhitespace = false := by
    unfold single
    split <;> rfl
  obtain ⟨t, o', hwords, hk, -⟩ := words_of_cutsOff (cutsOff_single h rest) hspace o
  exact ⟨t, o', hwords, hk⟩

theorem words_blank (o : Nat) (cs : List Char) :
    words (tokensFrom o (' ' :: cs)) = words (tokensFrom (o + 1) cs) := by
  have hcut : cut ' ' cs = run .blank isBlank ' ' cs := rfl
  have hsize : " ".utf8ByteSize = 1 := rfl
  rw [tokensFrom]
  simp only [hcut]
  rw [words_cons_of_whitespace rfl]
  cases cs with
  | nil => simp [run, tokensFrom]
  | cons b cs =>
    by_cases hb : isBlank b = true
    · -- The blank that follows is cut off together with this one.
      have hnewLine : isNewLine b = false := by
        simp only [isNewLine, isBlank, Bool.or_eq_true_iff, beq_iff_eq] at hb ⊢
        rcases hb with rfl | rfl <;> rfl
      have hcut' : cut b cs = run .blank isBlank b cs := by
        rw [cut, if_neg (by simp [hnewLine]), if_pos hb]
      rw [tokensFrom]
      simp only [hcut']
      rw [words_cons_of_whitespace rfl]
      simp [run, hb, hsize, Nat.add_assoc]
    · simp [run, Bool.eq_false_iff.mpr hb, hsize]

end Rearrange

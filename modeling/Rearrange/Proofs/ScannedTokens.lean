import Rearrange.Proofs.LongestLexemes

namespace Rearrange

namespace Lexer

variable {kind : TokenKind} {cs text rest : List Char}

/-- The tokens of a text whose first byte has the given offset, taken one longest lexeme after the
other until nothing is left. -/
inductive Scans : Nat → List Char → List Token → Prop
  | done {o : Nat} : Scans o [] []
  | token {o : Nat} {kind : TokenKind} {text rest : List Char} {ts : List Token} :
    Longest kind text rest → Scans (o + (String.ofList text).utf8ByteSize) rest ts →
      Scans o (text ++ rest)
        (⟨kind, ⟨o, o + (String.ofList text).utf8ByteSize⟩, String.ofList text⟩ :: ts)

theorem scans_tokensFrom (o : Nat) (cs : List Char) : Scans o cs (tokensFrom o cs) := by
  fun_induction tokensFrom o cs with
  | case1 => exact .done
  | case2 o c cs lexeme stop ih =>
    have h := Scans.token (longest_cut c cs) ih
    rwa [cut_append] at h

theorem Scans.eq_tokensFrom {o : Nat} {ts : List Token} (h : Scans o cs ts) :
    tokensFrom o cs = ts := by
  induction h with
  | done => rw [tokensFrom]
  | @token o kind text rest ts hlongest _ ih =>
    obtain ⟨c, cs, rfl⟩ := List.exists_cons_of_ne_nil hlongest.ne_nil
    have happend := cut_append c (cs ++ rest)
    obtain ⟨hkind, htext, hrest⟩ := (longest_cut c (cs ++ rest)).unique hlongest happend
    rw [List.cons_append, tokensFrom]
    simp only [hkind, htext, hrest, ih]

theorem scans_iff {o : Nat} {ts : List Token} : Scans o cs ts ↔ tokensFrom o cs = ts := by
  constructor
  · exact Scans.eq_tokensFrom
  · rintro rfl
    exact scans_tokensFrom o cs

theorem Scans.of_append {o : Nat} {as bs : List Token} (h : Scans o cs (as ++ bs)) :
    ∃ ls rs, cs = ls ++ rs ∧ Scans o ls as ∧ Scans (o + (String.ofList ls).utf8ByteSize) rs bs := by
  induction as generalizing o cs with
  | nil => exact ⟨[], cs, rfl, .done, h⟩
  | cons a as ih =>
    rw [List.cons_append] at h
    cases h with
    | @token _ _ text rest _ hlongest h =>
      obtain ⟨ls, rs, rfl, hls, hrs⟩ := ih h
      refine ⟨text ++ ls, rs, (List.append_assoc ..).symm, .token hlongest.of_append hls, ?_⟩
      rwa [String.ofList_append, String.utf8ByteSize_append, ← Nat.add_assoc]

theorem tokensFrom_of_strayExponent {ds : List Char} {e : Char} (hne : ds ≠ [])
    (hds : ∀ d ∈ ds, d.isDigit = true) (he : e = 'e' ∨ e = 'E')
    (hstray : ∀ text ∈ exponents, ¬ text <+: e :: cs) (o : Nat) :
    tokensFrom o (ds ++ e :: cs) =
      ⟨.int, ⟨o, o + (String.ofList ds).utf8ByteSize⟩, String.ofList ds⟩ ::
        tokensFrom (o + (String.ofList ds).utf8ByteSize) (e :: cs) := by
  obtain ⟨d, ds, rfl⟩ := List.exists_cons_of_ne_nil hne
  have hmark : e.isDigit = false ∧ e ≠ '.' := by
    rcases he with rfl | rfl <;> decide
  have hhead : ∀ c ∈ (e :: cs).head?, c.isDigit = false := by
    rintro c ⟨⟩
    exact hmark.1
  obtain ⟨htake, hdrop⟩ :=
    takeWhile_append_boundary (fun d' hd => hds d' (List.mem_cons_of_mem d hd)) hhead
  have hnone : (exponent (e :: cs)).1 = [] := by
    refine (exponent_mem (e :: cs)).resolve_right fun hmem => hstray _ hmem ?_
    exact ⟨_, exponent_append (e :: cs)⟩
  have hcut : cut d (ds ++ e :: cs) = ⟨.int, d :: ds, e :: cs⟩ := by
    rw [cut_of_isDigit (hds d (List.mem_cons_self ..)), htake, hdrop, number]
    · simp only [hnone]
      rfl
    · intro cs' h
      exact hmark.2 (List.cons.inj h).1
  rw [List.cons_append, tokensFrom]
  simp only [hcut]

end Lexer

open Lexer

/-- The tokens of a text are what taking the longest lexeme again and again gives, and nothing else.
Digits in front of an `e` that begins no exponent are taken without it. -/
theorem tokenize_takes_longest (source : String) :
    (∀ ts, tokenize source = ts ↔ Scans 0 source.toList ts) ∧
      ∀ (o : Nat) (ds : List Char) (e : Char) (cs : List Char), ds ≠ [] →
        (∀ d ∈ ds, d.isDigit = true) → e = 'e' ∨ e = 'E' →
          (∀ text ∈ exponents, ¬ text <+: e :: cs) →
            tokensFrom o (ds ++ e :: cs) =
              ⟨.int, ⟨o, o + (String.ofList ds).utf8ByteSize⟩, String.ofList ds⟩ ::
                tokensFrom (o + (String.ofList ds).utf8ByteSize) (e :: cs) :=
  ⟨fun _ => scans_iff.symm,
    fun o _ _ _ hne hds he hstray => tokensFrom_of_strayExponent hne hds he hstray o⟩

theorem tokenize_takes_longest_strayExponent :
    (∀ text ∈ exponents, ¬ text <+: ['e', '+', 'x']) ∧
      tokenize "12e+x" = ⟨.int, ⟨0, 2⟩, "12"⟩ :: tokensFrom 2 ['e', '+', 'x'] ∧
        Scans 0 "12e+x".toList (⟨.int, ⟨0, 2⟩, "12"⟩ :: tokensFrom 2 ['e', '+', 'x']) := by
  have hstray : ∀ text ∈ exponents, ¬ text <+: ['e', '+', 'x'] := by
    intro text htext hprefix
    obtain ⟨e, s, ds, rfl, -, hs, hne, hds⟩ := mem_exponents.mp htext
    obtain ⟨d, ds, rfl⟩ := List.exists_cons_of_ne_nil hne
    have hd : d.isDigit = true := hds d (List.mem_cons_self ..)
    rcases hs with rfl | rfl | rfl
    · obtain ⟨-, rfl, -⟩ : e = 'e' ∧ d = '+' ∧ _ := by simpa using hprefix
      cases hd
    · obtain ⟨-, rfl, -⟩ : e = 'e' ∧ d = 'x' ∧ _ := by simpa using hprefix
      cases hd
    · simp at hprefix
  have hchars : "12e+x".toList = ['1', '2'] ++ 'e' :: ['+', 'x'] := by decide +kernel
  have htext : String.ofList ['1', '2'] = "12" := rfl
  have hsize : "12".utf8ByteSize = 2 := by decide
  obtain ⟨hscans, hexponent⟩ := tokenize_takes_longest "12e+x"
  have hdigits : ∀ d ∈ ['1', '2'], d.isDigit = true := by simp
  have htokens := hexponent 0 ['1', '2'] 'e' ['+', 'x'] (by decide) hdigits (Or.inl rfl) hstray
  rw [htext, hsize, ← hchars] at htokens
  exact ⟨hstray, htokens, (hscans _).mp htokens⟩

end Rearrange

import Mathlib.Data.List.TakeWhile
import Rearrange.Number
import Rearrange.Token.Lexer

namespace Rearrange

namespace Lexer

theorem takeWhile_append_boundary {α : Type} {p : α → Bool} {text rest : List α}
    (htext : ∀ c ∈ text, p c = true) (h : ∀ c ∈ rest.head?, p c = false) :
    (text ++ rest).takeWhile p = text ∧ (text ++ rest).dropWhile p = rest := by
  rw [List.takeWhile_append_of_pos htext, List.dropWhile_append_of_pos htext]
  cases rest with
  | nil => simp
  | cons c rest => simp [h c rfl]

theorem sign_cases (cs : List Char) :
    (sign cs).1 = [] ∨ (sign cs).1 = ['+'] ∨ (sign cs).1 = ['-'] := by
  unfold sign
  split
  · exact Or.inr (Or.inl rfl)
  · exact Or.inr (Or.inr rfl)
  · exact Or.inl rfl

theorem exponent_cases (cs : List Char) :
    (exponent cs).1 = [] ∨ ∃ e s ds, (exponent cs).1 = e :: (s ++ ds) ∧ (e = 'e' ∨ e = 'E') ∧
      (s = [] ∨ s = ['+'] ∨ s = ['-']) ∧ ds ≠ [] ∧ ∀ d ∈ ds, d.isDigit = true := by
  unfold exponent
  split
  · exact Or.inl rfl
  next e cs =>
    split
    next he =>
      simp only
      split
      · exact Or.inl rfl
      next hds =>
        refine Or.inr ⟨e, (sign cs).1, (sign cs).2.takeWhile Char.isDigit, rfl, ?_, sign_cases cs,
          ?_, ?_⟩
        · simpa using he
        · simpa using hds
        · intro d hd
          exact List.mem_takeWhile_imp hd
    · exact Or.inl rfl

end Lexer

namespace Decimal

theorem readExponent_isSome {e : Char} {s ds : List Char} (he : e = 'e' ∨ e = 'E')
    (hs : s = [] ∨ s = ['+'] ∨ s = ['-']) (hne : ds ≠ []) (hds : ∀ d ∈ ds, d.isDigit = true) :
    (readExponent (e :: (s ++ ds))).isSome = true := by
  have hmark : (e == 'e' || e == 'E') = true := by simpa using he
  have hall : (!ds.isEmpty && ds.all Char.isDigit) = true := by simpa [hne] using hds
  unfold readExponent
  simp only
  rw [if_pos hmark]
  rcases hs with rfl | rfl | rfl
  · rw [List.nil_append]
    split
    next ds =>
      have hd := hds '-' (by simp)
      cases hd
    next ds =>
      have hd := hds '+' (by simp)
      cases hd
    next => rw [if_pos hall]; rfl
  · change (if (!ds.isEmpty && ds.all Char.isDigit) = true then _ else none).isSome = true
    rw [if_pos hall]
    rfl
  · change (if (!ds.isEmpty && ds.all Char.isDigit) = true then _ else none).isSome = true
    rw [if_pos hall]
    rfl

theorem read_whole_append {whole e : List Char} (hne : whole ≠ [])
    (hwhole : ∀ d ∈ whole, d.isDigit = true)
    (he : ∀ c ∈ e.head?, c.isDigit = false ∧ c ≠ '.') :
    Decimal.read (whole ++ e) = (readExponent e).map fun n => ⟨digitsValue whole, n⟩ := by
  obtain ⟨htake, hdrop⟩ := Lexer.takeWhile_append_boundary hwhole fun c hc => (he c hc).1
  unfold Decimal.read
  simp only [htake, hdrop, List.isEmpty_iff, hne, if_false]
  split
  next rest => exact absurd rfl (he '.' rfl).2
  next => rfl

theorem read_point_append {whole places e : List Char} (hne : whole ≠ [])
    (hwhole : ∀ d ∈ whole, d.isDigit = true) (hplaces : ∀ d ∈ places, d.isDigit = true)
    (he : ∀ c ∈ e.head?, c.isDigit = false) :
    Decimal.read (whole ++ '.' :: (places ++ e)) =
      (readExponent e).map fun n => ⟨digitsValue (whole ++ places), n - places.length⟩ := by
  have hpoint : ∀ c ∈ ('.' :: (places ++ e)).head?, c.isDigit = false := by
    rintro c ⟨⟩
    rfl
  obtain ⟨htake, hpoint⟩ := Lexer.takeWhile_append_boundary hwhole hpoint
  obtain ⟨hfraction, hdrop⟩ := Lexer.takeWhile_append_boundary hplaces he
  simp only [Decimal.read, htake, hpoint, hfraction, hdrop, List.isEmpty_iff, hne, if_false]

end Decimal

namespace Lexer

/-- What the lexer takes for an exponent is one, and cannot be taken for a part of what stands in
front of it. -/
theorem readExponent_exponent (cs : List Char) :
    (Decimal.readExponent (exponent cs).1).isSome = true ∧
      ∀ e ∈ (exponent cs).1.head?, e.isDigit = false ∧ e ≠ '.' := by
  rcases exponent_cases cs with h | ⟨e, s, ds, h, he, hs, hne, hds⟩
  · rw [h]
    exact ⟨rfl, nofun⟩
  · rw [h]
    refine ⟨Decimal.readExponent_isSome he hs hne hds, ?_⟩
    rintro c ⟨⟩
    rcases he with rfl | rfl <;> decide

theorem read_number {whole : List Char} (hne : whole ≠ [])
    (hwhole : ∀ d ∈ whole, d.isDigit = true) (cs : List Char) :
    (Decimal.read (number whole cs).text).isSome = true := by
  unfold number
  split
  next cs =>
    obtain ⟨he, hhead⟩ := readExponent_exponent (cs.dropWhile Char.isDigit)
    have hplaces : ∀ d ∈ cs.takeWhile Char.isDigit, d.isDigit = true := fun d hd =>
      List.mem_takeWhile_imp hd
    have hread := Decimal.read_point_append hne hwhole hplaces fun e h => (hhead e h).1
    simp [hread, he]
  next =>
    obtain ⟨he, hhead⟩ := readExponent_exponent cs
    have hread : (Decimal.read (whole ++ (exponent cs).1)).isSome = true := by
      rw [Decimal.read_whole_append hne hwhole hhead, Option.isSome_map, he]
    simp only
    split
    next hnil => rwa [List.isEmpty_iff.mp hnil, List.append_nil] at hread
    next => exact hread

def runs : List TokenKind := [.newLine, .blank, .name, .int, .float]

theorem single_notMem_runs (c : Char) : single c ∉ runs := by
  unfold single
  split <;> decide

theorem kind_number (whole cs : List Char) :
    (number whole cs).kind = .int ∨ (number whole cs).kind = .float := by
  unfold number
  split
  next => exact Or.inr rfl
  next =>
    simp only
    split
    next => exact Or.inl rfl
    next => exact Or.inr rfl

theorem cut_cases (c : Char) (cs : List Char) :
    cut c cs = run .newLine isNewLine c cs ∨ cut c cs = run .blank isBlank c cs ∨
      (isNameStart c = true ∧ cut c cs = run .name isNameRest c cs) ∨
      (c.isDigit = true ∧
        cut c cs = number (c :: cs.takeWhile Char.isDigit) (cs.dropWhile Char.isDigit)) ∨
      cut c cs = ⟨single c, [c], cs⟩ := by
  unfold cut
  split
  next => exact Or.inl rfl
  next =>
    split
    next => exact Or.inr (Or.inl rfl)
    next =>
      split
      next hname => exact Or.inr (Or.inr (Or.inl ⟨hname, rfl⟩))
      next =>
        split
        next hdigit => exact Or.inr (Or.inr (Or.inr (Or.inl ⟨hdigit, rfl⟩)))
        next => exact Or.inr (Or.inr (Or.inr (Or.inr rfl)))

theorem read_cut {c : Char} {cs : List Char}
    (h : (cut c cs).kind = .int ∨ (cut c cs).kind = .float) :
    (Decimal.read (cut c cs).text).isSome = true := by
  rcases cut_cases c cs with hcut | hcut | ⟨-, hcut⟩ | ⟨hdigit, hcut⟩ | hcut <;> rw [hcut] at h ⊢
  · rcases h with h | h <;> cases h
  · rcases h with h | h <;> cases h
  · rcases h with h | h <;> cases h
  · refine read_number (List.cons_ne_nil c _) ?_ _
    intro d hd
    rcases List.mem_cons.mp hd with rfl | hd
    · exact hdigit
    · exact List.mem_takeWhile_imp hd
  · have h : single c = .int ∨ single c = .float := h
    refine absurd ?_ (single_notMem_runs c)
    rcases h with h | h <;> rw [h] <;> decide

end Lexer

theorem exists_cut_of_mem_tokenize {source : String} {t : Token} (h : t ∈ tokenize source) :
    ∃ c cs, t.kind = (Lexer.cut c cs).kind ∧ t.lexeme = String.ofList (Lexer.cut c cs).text := by
  have hfrom (offset : Nat) (cs : List Char) (h : t ∈ tokensFrom offset cs) :
      ∃ c cs, t.kind = (Lexer.cut c cs).kind ∧ t.lexeme = String.ofList (Lexer.cut c cs).text := by
    fun_induction tokensFrom offset cs with
    | case1 => cases h
    | case2 offset c cs lexeme stop ih =>
      rcases List.mem_cons.mp h with rfl | h
      · exact ⟨c, cs, rfl, rfl⟩
      · exact ih h
  exact hfrom 0 source.toList h

theorem Number.exists_read {source : String} {t : Token} (ht : t ∈ tokenize source)
    (hk : t.kind = .int ∨ t.kind = .float) : ∃ v, Number.read t.lexeme = some v := by
  obtain ⟨c, cs, hkind, hlexeme⟩ := exists_cut_of_mem_tokenize ht
  rw [hkind] at hk
  refine Option.isSome_iff_exists.mp ?_
  rw [hlexeme, Number.read, Option.isSome_map, String.toList_ofList]
  exact Lexer.read_cut hk

end Rearrange

import Rearrange.Proofs.LexemePatterns
import Rearrange.Proofs.PrintedWords

namespace Rearrange

open scoped Computability

namespace Lexer

/-- Of all texts that stand at the head of `text ++ rest` and match a pattern, `text` is the longest.
It is a symbol only if it is nothing else. -/
structure Longest (kind : TokenKind) (text rest : List Char) : Prop where
  ne_nil : text ≠ []
  mem : text ∈ kind.pattern
  longest : ∀ (k : TokenKind) (other : List Char), other <+: text ++ rest → other ∈ k.pattern →
    other.length ≤ text.length
  lastResort : kind = .symbol → ∀ k : TokenKind, text ∈ k.pattern → k = .symbol

/-- The only class of lexemes, other than symbols, that a character can begin, floats being counted
as integers. -/
def lead (c : Char) : TokenKind :=
  if isNewLine c then .newLine
  else if isBlank c then .blank
  else if isNameStart c then .name
  else if c.isDigit then .int
  else single c

variable {kind k : TokenKind} {c : Char} {cs text rest : List Char}

theorem lead_of_isNameRest (h : isNameRest c = true) :
    lead c = if isNameStart c then .name else if c.isDigit then .int else single c := by
  obtain ⟨hnewLine, hblank⟩ := isBlank_of_isNameRest h
  rw [lead, if_neg (by simp [hnewLine]), if_neg (by simp [hblank])]

theorem lead_of_isDigit (h : c.isDigit = true) : lead c = .int := by
  rw [lead_of_isNameRest (isNameRest_of_isDigit h), if_neg (by simp [isNameStart_of_isDigit h]),
    if_pos h]

theorem lead_of_mem (h : c :: cs ∈ k.pattern) (hk : k ≠ .symbol) :
    lead c = if k = .float then .int else k := by
  cases k with
  | symbol => exact absurd rfl hk
  | newLine =>
    have hc : isNewLine c = true := (cons_mem_run.mp h).1
    rw [lead, if_pos hc]
    rfl
  | blank =>
    have hc : (c == ' ' || c == '\t') = true := (cons_mem_run.mp h).1
    rcases (by simpa using hc : c = ' ' ∨ c = '\t') with rfl | rfl <;> rfl
  | name =>
    have hc : isNameStart c = true := (cons_mem_run.mp h).1
    rw [lead_of_isNameRest (isNameRest_of_isNameStart hc), if_pos hc]
    rfl
  | int => exact lead_of_isDigit ((mem_digits.mp h).2 c (List.mem_cons_self ..))
  | float =>
    obtain ⟨ds, hne, hds, htext⟩ := mem_float.mp h
    obtain ⟨d, ds, rfl⟩ := List.exists_cons_of_ne_nil hne
    have hc : c = d := by
      rcases htext with ⟨fs, e, htext, -⟩ | ⟨e, -, htext⟩ <;> exact (List.cons.inj htext).1
    rw [hc]
    exact lead_of_isDigit (hds d (List.mem_cons_self ..))
  | _ =>
    have hc : c :: cs = [_] := h
    cases hc
    rfl

theorem length_le_takeWhile {p : Char → Bool} {ds : List Char} (hds : ∀ d ∈ ds, p d = true)
    (more : List Char) : ds.length ≤ ((ds ++ more).takeWhile p).length := by
  rw [List.takeWhile_append_of_pos hds, List.length_append]
  exact Nat.le_add_right _ _

theorem sign_append_digits {s ds more : List Char} (hs : s = [] ∨ s = ['+'] ∨ s = ['-'])
    (hne : ds ≠ []) (hds : ∀ d ∈ ds, d.isDigit = true) :
    sign (s ++ (ds ++ more)) = (s, ds ++ more) := by
  obtain ⟨d, ds, rfl⟩ := List.exists_cons_of_ne_nil hne
  have hd := hds d (List.mem_cons_self ..)
  rcases hs with rfl | rfl | rfl
  · rw [List.nil_append, List.cons_append]
    unfold sign
    split
    next heq => cases heq; cases hd
    next heq => cases heq; cases hd
    next => rfl
  · rfl
  · rfl

theorem length_le_exponent {e : List Char} (h : e ∈ exponents) (more : List Char) :
    e.length ≤ (exponent (e ++ more)).1.length := by
  obtain ⟨m, s, ds, rfl, hm, hs, hne, hds⟩ := mem_exponents.mp h
  have hmark : (m == 'e' || m == 'E') = true := by simpa using hm
  have hsome : ¬ ((ds ++ more).takeWhile Char.isDigit).isEmpty = true := by
    rw [List.takeWhile_append_of_pos hds]
    simp [hne]
  have htext : m :: (s ++ ds) ++ more = m :: (s ++ (ds ++ more)) := by simp
  rw [htext, exponent, if_pos hmark, sign_append_digits hs hne hds]
  simp only
  rw [if_neg hsome]
  have hle : ds.length ≤ ((ds ++ more).takeWhile Char.isDigit).length := length_le_takeWhile hds more
  simp only [List.length_cons, List.length_append]
  omega

theorem exponent_mem (cs : List Char) :
    (exponent cs).1 = [] ∨ (exponent cs).1 ∈ exponents := by
  rcases exponent_cases cs with h | h
  · exact Or.inl h
  · exact Or.inr (mem_exponents.mpr h)

theorem head_of_mem_exponents {e : List Char} (h : e ∈ exponents) :
    ∃ m es, e = m :: es ∧ m.isDigit = false ∧ m ≠ '.' := by
  obtain ⟨m, s, ds, rfl, rfl | rfl, -⟩ := mem_exponents.mp h
  · exact ⟨'e', _, rfl, rfl, by decide⟩
  · exact ⟨'E', _, rfl, rfl, by decide⟩

section

variable {whole : List Char}

theorem number_mem (hne : whole ≠ []) (hwhole : ∀ d ∈ whole, d.isDigit = true) (cs : List Char) :
    (number whole cs).text ∈ (number whole cs).kind.pattern := by
  unfold number
  split
  next cs =>
    have hplaces : ∀ d ∈ cs.takeWhile Char.isDigit, d.isDigit = true := fun d hd =>
      List.mem_takeWhile_imp hd
    exact mem_float.mpr ⟨whole, hne, hwhole, Or.inl ⟨cs.takeWhile Char.isDigit, _, by simp, hplaces,
      exponent_mem (cs.dropWhile Char.isDigit)⟩⟩
  next =>
    simp only
    split
    next => exact mem_digits.mpr ⟨hne, hwhole⟩
    next he =>
      have hmem := (exponent_mem cs).resolve_left fun h => he (by simp [h])
      exact mem_float.mpr ⟨whole, hne, hwhole, Or.inr ⟨_, hmem, rfl⟩⟩

theorem length_le_number (cs : List Char) : whole.length ≤ (number whole cs).text.length := by
  unfold number
  split
  next => simp
  next =>
    simp only
    split <;> simp

theorem eq_of_digits_append {cs ds tail : List Char} (hwhole : ∀ d ∈ whole, d.isDigit = true)
    (hcs : ∀ c ∈ cs.head?, c.isDigit = false) (hds : ∀ d ∈ ds, d.isDigit = true)
    (htail : ∀ c ∈ tail.head?, c.isDigit = false) (h : ds ++ tail = whole ++ cs) :
    ds = whole ∧ tail = cs := by
  obtain ⟨htake, hdrop⟩ := takeWhile_append_boundary hwhole hcs
  obtain ⟨htake', hdrop'⟩ := takeWhile_append_boundary hds htail
  rw [h] at htake' hdrop'
  exact ⟨htake'.symm.trans htake, hdrop'.symm.trans hdrop⟩

theorem length_le_number_of_point {fs e more : List Char} (hfs : ∀ d ∈ fs, d.isDigit = true)
    (he : e = [] ∨ e ∈ exponents) :
    (whole ++ '.' :: (fs ++ e)).length ≤
      (number whole ('.' :: (fs ++ (e ++ more)))).text.length := by
  rw [number]
  rcases he with rfl | he
  · have hle := length_le_takeWhile hfs more
    simp only [List.append_nil, List.nil_append, List.length_append, List.length_cons]
    omega
  · obtain ⟨m, es, rfl, hm, -⟩ := head_of_mem_exponents he
    have hhead : ∀ c ∈ (m :: es ++ more).head?, c.isDigit = false := by
      rintro c ⟨⟩
      exact hm
    obtain ⟨htake, hdrop⟩ := takeWhile_append_boundary hfs hhead
    have hle := length_le_exponent he more
    rw [htake, hdrop]
    simp only [List.length_append, List.length_cons] at hle ⊢
    omega

theorem length_le_number_of_exponent {e more : List Char} (he : e ∈ exponents) :
    (whole ++ e).length ≤ (number whole (e ++ more)).text.length := by
  obtain ⟨m, es, rfl, -, hpoint⟩ := head_of_mem_exponents he
  have hle := length_le_exponent he more
  have hsome : ¬ (exponent (m :: es ++ more)).1.isEmpty = true := by
    rw [List.isEmpty_iff, ← List.length_eq_zero_iff]
    simp only [List.length_cons] at hle
    omega
  rw [number]
  · simp only
    rw [if_neg hsome, List.length_append, List.length_append]
    omega
  · intro cs hcs
    exact hpoint (List.cons.inj hcs).1

theorem number_longest {cs other : List Char} (hwhole : ∀ d ∈ whole, d.isDigit = true)
    (hcs : ∀ c ∈ cs.head?, c.isDigit = false) (hother : other <+: whole ++ cs)
    (hmem : other ∈ TokenKind.int.pattern ∨ other ∈ TokenKind.float.pattern) :
    other.length ≤ (number whole cs).text.length := by
  obtain ⟨more, hmore⟩ := hother
  rcases hmem with hmem | hmem
  · obtain ⟨htake, -⟩ := takeWhile_append_boundary hwhole hcs
    have hle := length_le_takeWhile (mem_digits.mp hmem).2 more
    rw [hmore, htake] at hle
    exact hle.trans (length_le_number cs)
  · obtain ⟨ds, -, hds, ⟨fs, e, rfl, hfs, he⟩ | ⟨e, he, rfl⟩⟩ := mem_float.mp hmem
    · have hsplit : ds ++ '.' :: (fs ++ (e ++ more)) = whole ++ cs := by simpa using hmore
      have hpoint : ∀ c ∈ ('.' :: (fs ++ (e ++ more))).head?, c.isDigit = false := by
        rintro c ⟨⟩
        rfl
      obtain ⟨rfl, rfl⟩ := eq_of_digits_append hwhole hcs hds hpoint hsplit
      exact length_le_number_of_point hfs he
    · have hhead : ∀ c ∈ (e ++ more).head?, c.isDigit = false := by
        obtain ⟨m, es, rfl, hm, -⟩ := head_of_mem_exponents he
        rintro c ⟨⟩
        exact hm
      rw [List.append_assoc] at hmore
      obtain ⟨rfl, rfl⟩ := eq_of_digits_append hwhole hcs hds hhead hmore
      exact length_le_number_of_exponent he

end

theorem eq_nil_of_mem {ds : List Char} (h : c :: ds ∈ k.pattern) (hk : k ∉ runs) : ds = [] := by
  cases k with
  | newLine | blank | name | int | float => exact absurd hk (by decide)
  | symbol =>
    obtain ⟨d, -, htext⟩ := h
    exact (List.cons.inj htext).2
  | _ =>
    have htext : c :: ds = [_] := h
    exact (List.cons.inj htext).2

theorem single_mem (h : c ≠ '\n') : [c] ∈ (single c).pattern := by
  unfold single
  split
  case h_9 => exact ⟨c, by simpa using h, rfl⟩
  all_goals rfl

theorem cut_of_lead (c : Char) (cs : List Char) :
    (lead c = .newLine ∧ isNewLine c = true ∧ cut c cs = run .newLine isNewLine c cs) ∨
      (lead c = .blank ∧ isBlank c = true ∧ cut c cs = run .blank isBlank c cs) ∨
      (lead c = .name ∧ isNameStart c = true ∧ cut c cs = run .name isNameRest c cs) ∨
      (lead c = .int ∧ c.isDigit = true ∧
        cut c cs = number (c :: cs.takeWhile Char.isDigit) (cs.dropWhile Char.isDigit)) ∨
      (lead c = single c ∧ c ≠ '\n' ∧ cut c cs = ⟨single c, [c], cs⟩) := by
  unfold lead cut
  by_cases hnewLine : isNewLine c = true
  · simp [hnewLine]
  by_cases hblank : isBlank c = true
  · simp [hnewLine, hblank]
  by_cases hname : isNameStart c = true
  · simp [hnewLine, hblank, hname]
  by_cases hdigit : c.isDigit = true
  · simp [hnewLine, hblank, hname, hdigit]
  have hc : c ≠ '\n' := by
    rintro rfl
    exact hnewLine rfl
  simp [hnewLine, hblank, hname, hdigit, hc]

theorem mem_cut (c : Char) (cs : List Char) : (cut c cs).text ∈ (cut c cs).kind.pattern := by
  have hrun {p q : Char → Bool} (hc : p c = true) :
      c :: cs.takeWhile q ∈ oneOf p * (oneOf q)∗ :=
    cons_mem_run.mpr ⟨hc, fun d hd => List.mem_takeWhile_imp hd⟩
  rcases cut_of_lead c cs with ⟨-, hc, hcut⟩ | ⟨-, hc, hcut⟩ | ⟨-, hc, hcut⟩ | ⟨-, hc, hcut⟩ |
    ⟨-, hc, hcut⟩ <;> rw [hcut]
  · exact hrun hc
  · exact hrun hc
  · exact hrun hc
  · refine number_mem (List.cons_ne_nil _ _) (fun d hd => ?_) _
    rcases List.mem_cons.mp hd with rfl | hd
    · exact hc
    · exact List.mem_takeWhile_imp hd
  · exact single_mem hc

theorem length_le_cut {ds more : List Char} (h : c :: ds ∈ k.pattern) (hk : k ≠ .symbol) :
    (c :: ds).length ≤ (cut c (ds ++ more)).text.length := by
  have hlead := lead_of_mem h hk
  have hrun {p q : Char → Bool} (hmem : c :: ds ∈ oneOf p * (oneOf q)∗) :
      (c :: ds).length ≤ (c :: (ds ++ more).takeWhile q).length :=
    Nat.succ_le_succ (length_le_takeWhile (cons_mem_run.mp hmem).2 more)
  rcases cut_of_lead c (ds ++ more) with ⟨hc, -, hcut⟩ | ⟨hc, -, hcut⟩ | ⟨hc, -, hcut⟩ |
    ⟨hc, hdigit, hcut⟩ | ⟨hc, -, hcut⟩ <;> rw [hcut] <;> rw [hc] at hlead
  · obtain rfl : k = .newLine := by revert hlead; cases k <;> decide
    exact hrun h
  · obtain rfl : k = .blank := by revert hlead; cases k <;> decide
    exact hrun h
  · obtain rfl : k = .name := by revert hlead; cases k <;> decide
    exact hrun h
  · have hnumber : k = .int ∨ k = .float := by revert hlead; cases k <;> decide
    have hdigits : ∀ d ∈ c :: (ds ++ more).takeWhile Char.isDigit, d.isDigit = true := by
      intro d hd
      rcases List.mem_cons.mp hd with rfl | hd
      · exact hdigit
      · exact List.mem_takeWhile_imp hd
    refine number_longest hdigits ?_ ⟨more, by simp⟩ ?_
    · intro d hd
      have hnot := List.head?_dropWhile_not Char.isDigit (ds ++ more)
      rw [hd] at hnot
      exact hnot
    · rcases hnumber with rfl | rfl
      · exact Or.inl h
      · exact Or.inr h
  · have hshort : k ∉ runs := by
      intro hruns
      refine single_notMem_runs c ?_
      rw [hlead]
      revert hruns
      cases k <;> decide
    rw [eq_nil_of_mem h hshort]

theorem longest_cut (c : Char) (cs : List Char) :
    Longest (cut c cs).kind (cut c cs).text (cut c cs).rest := by
  have hne := cut_text_ne_nil c cs
  refine ⟨hne, mem_cut c cs, ?_, ?_⟩
  · intro k other hother hmem
    rw [cut_append] at hother
    cases other with
    | nil => exact Nat.zero_le _
    | cons d ds =>
      obtain ⟨more, hmore⟩ := hother
      obtain ⟨rfl, rfl⟩ := List.cons.inj hmore
      by_cases hk : k = .symbol
      · subst hk
        obtain ⟨e, -, htext⟩ := hmem
        rw [htext]
        exact List.length_pos_iff.mpr hne
      · exact length_le_cut hmem hk
  · intro hsymbol k hmem
    by_contra hk
    rcases cut_of_lead c cs with ⟨-, -, hcut⟩ | ⟨-, -, hcut⟩ | ⟨-, -, hcut⟩ | ⟨-, -, hcut⟩ |
      ⟨hc, -, hcut⟩ <;> rw [hcut] at hsymbol hmem
    · cases hsymbol
    · cases hsymbol
    · cases hsymbol
    · rcases kind_number (c :: cs.takeWhile Char.isDigit) (cs.dropWhile Char.isDigit) with h | h <;>
        cases h.symm.trans hsymbol
    · have hsymbol : single c = .symbol := hsymbol
      have hlead := lead_of_mem hmem hk
      rw [hc, hsymbol] at hlead
      revert hlead hk; cases k <;> decide

theorem exists_not_isDigit_of_float (h : text ∈ TokenKind.float.pattern) :
    ∃ c ∈ text, c.isDigit = false := by
  obtain ⟨ds, -, -, ⟨fs, e, rfl, -⟩ | ⟨e, he, rfl⟩⟩ := mem_float.mp h
  · exact ⟨'.', by simp, rfl⟩
  · obtain ⟨m, es, rfl, hm, -⟩ := head_of_mem_exponents he
    exact ⟨m, by simp, hm⟩

theorem eq_of_mem {k' : TokenKind} (h : c :: cs ∈ k.pattern) (h' : c :: cs ∈ k'.pattern)
    (hk : k ≠ .symbol) (hk' : k' ≠ .symbol) : k = k' := by
  have hnumber (hi : c :: cs ∈ TokenKind.int.pattern) (hf : c :: cs ∈ TokenKind.float.pattern) :
      False := by
    obtain ⟨d, hd, hdigit⟩ := exists_not_isDigit_of_float hf
    exact Bool.false_ne_true (hdigit.symm.trans ((mem_digits.mp hi).2 d hd))
  have hlead : (if k = .float then .int else k) = if k' = .float then .int else k' :=
    (lead_of_mem h hk).symm.trans (lead_of_mem h' hk')
  by_cases hf : k = .float
  · by_cases hf' : k' = .float
    · exact hf.trans hf'.symm
    · rw [if_pos hf, if_neg hf'] at hlead
      subst hf hlead
      exact (hnumber h' h).elim
  · by_cases hf' : k' = .float
    · rw [if_neg hf, if_pos hf'] at hlead
      subst hf' hlead
      exact (hnumber h h').elim
    · rwa [if_neg hf, if_neg hf'] at hlead

theorem Longest.unique {k' : TokenKind} {text' rest' : List Char} (h : Longest k text rest)
    (h' : Longest k' text' rest') (heq : text ++ rest = text' ++ rest') :
    k = k' ∧ text = text' ∧ rest = rest' := by
  have hle : text'.length ≤ text.length := h.longest k' text' ⟨rest', heq.symm⟩ h'.mem
  have hge : text.length ≤ text'.length := h'.longest k text ⟨rest, heq⟩ h.mem
  obtain ⟨rfl, rfl⟩ := List.append_inj heq (Nat.le_antisymm hge hle)
  refine ⟨?_, rfl, rfl⟩
  obtain ⟨c, cs, rfl⟩ := List.exists_cons_of_ne_nil h.ne_nil
  by_cases hk : k = .symbol
  · rw [h.lastResort hk k' h'.mem, hk]
  · exact eq_of_mem h.mem h'.mem hk fun hk' => hk (h'.lastResort hk' k h.mem)

theorem Longest.of_append {more : List Char} (h : Longest kind text (rest ++ more)) :
    Longest kind text rest where
  ne_nil := h.ne_nil
  mem := h.mem
  longest k other hother hmem := by
    refine h.longest k other (hother.trans ?_) hmem
    rw [← List.append_assoc]
    exact List.prefix_append _ more
  lastResort := h.lastResort

end Lexer

end Rearrange

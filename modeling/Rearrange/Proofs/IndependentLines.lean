import Rearrange.Batch
import Rearrange.Proofs.SpacingInvariance

namespace Rearrange

namespace Lexer

variable {p : Char → Bool} {x : Char} {cs : List Char}

theorem takeWhile_concat (hx : p x = false) (cs : List Char) :
    (cs ++ [x]).takeWhile p = cs.takeWhile p := by
  induction cs with
  | nil => simp [hx]
  | cons c cs ih => rw [List.cons_append, List.takeWhile_cons, List.takeWhile_cons, ih]

theorem dropWhile_concat (hx : p x = false) (cs : List Char) :
    (cs ++ [x]).dropWhile p = cs.dropWhile p ++ [x] := by
  induction cs with
  | nil => simp [hx]
  | cons c cs ih =>
    rw [List.cons_append, List.dropWhile_cons, List.dropWhile_cons, ih]
    split <;> rfl

theorem sign_return (cs : List Char) :
    sign (cs ++ ['\r']) = ((sign cs).1, (sign cs).2 ++ ['\r']) := by
  cases cs with
  | nil => rfl
  | cons c cs =>
    rw [List.cons_append]
    unfold sign
    split
    next heq => cases heq; rfl
    next heq => cases heq; rfl
    next hplus hminus =>
      split
      next heq => cases heq; exact absurd rfl (hplus _)
      next heq => cases heq; exact absurd rfl (hminus _)
      next => rfl

theorem exponent_return (cs : List Char) :
    exponent (cs ++ ['\r']) = ((exponent cs).1, (exponent cs).2 ++ ['\r']) := by
  have hdigit : Char.isDigit '\r' = false := rfl
  cases cs with
  | nil => rfl
  | cons e cs =>
    rw [List.cons_append]
    unfold exponent
    simp only [sign_return, takeWhile_concat hdigit, dropWhile_concat hdigit]
    split
    · split <;> rfl
    · rfl

theorem number_of_ne_point {c : Char} (hc : c ≠ '.') (whole cs : List Char) :
    number whole (c :: cs) =
      if (exponent (c :: cs)).1.isEmpty then ⟨.int, whole, c :: cs⟩
      else ⟨.float, whole ++ (exponent (c :: cs)).1, (exponent (c :: cs)).2⟩ := by
  rw [number]
  exact fun ds h => hc (List.cons.inj h).1

theorem number_return (whole cs : List Char) :
    number whole (cs ++ ['\r']) =
      { number whole cs with rest := (number whole cs).rest ++ ['\r'] } := by
  have hdigit : Char.isDigit '\r' = false := rfl
  cases cs with
  | nil => rfl
  | cons c cs =>
    by_cases hc : c = '.'
    · subst hc
      simp only [List.cons_append, number, takeWhile_concat hdigit, dropWhile_concat hdigit,
        exponent_return]
    · have hexponent := exponent_return (c :: cs)
      rw [List.cons_append] at hexponent ⊢
      rw [number_of_ne_point hc, number_of_ne_point hc, hexponent]
      split <;> rfl

theorem cut_return {c : Char} (hc : isNewLine c = false) (cs : List Char) :
    cut c (cs ++ ['\r']) = { cut c cs with rest := (cut c cs).rest ++ ['\r'] } := by
  have hblank : isBlank '\r' = false := rfl
  have hname : isNameRest '\r' = false := rfl
  have hdigit : Char.isDigit '\r' = false := rfl
  simp only [cut, hc, run, takeWhile_concat hblank, dropWhile_concat hblank, takeWhile_concat hname,
    dropWhile_concat hname, takeWhile_concat hdigit, dropWhile_concat hdigit, number_return]
  split
  · contradiction
  · repeat' split
    all_goals rfl

theorem cut_of_isNewLine {c : Char} (hc : isNewLine c = true) (cs : List Char) :
    cut c cs = run .newLine isNewLine c cs := by
  rw [cut, if_pos hc]

end Lexer

open Lexer

theorem run_isNewLine_return (cs : List Char) :
    cs.dropWhile isNewLine = [] ∧ (cs ++ ['\r']).dropWhile isNewLine = [] ∨
      (cs ++ ['\r']).takeWhile isNewLine = cs.takeWhile isNewLine ∧
        (cs ++ ['\r']).dropWhile isNewLine = cs.dropWhile isNewLine ++ ['\r'] := by
  rw [List.takeWhile_append, List.dropWhile_append]
  cases hrest : cs.dropWhile isNewLine with
  | nil => exact Or.inl ⟨rfl, rfl⟩
  | cons d ds =>
    have hlength :=
      congrArg List.length (List.takeWhile_append_dropWhile (p := isNewLine) (l := cs))
    rw [hrest, List.length_append, List.length_cons] at hlength
    exact Or.inr ⟨if_neg (by omega), rfl⟩

theorem words_cons_congr (t : Token) {ts us : List Token} (h : words ts = words us) :
    words (t :: ts) = words (t :: us) := by
  rw [words, words, List.filter_cons, List.filter_cons, ← words, ← words, h]

theorem words_return (o : Nat) (cs : List Char) :
    words (tokensFrom o (cs ++ ['\r'])) = words (tokensFrom o cs) := by
  fun_induction tokensFrom o cs with
  | case1 o =>
    have hreturn : tokensFrom o ['\r'] = [⟨.newLine, ⟨o, o + 1⟩, "\r"⟩] := by
      rw [tokensFrom]
      simp only [cut_of_isNewLine (c := '\r') rfl, run, List.takeWhile_nil, List.dropWhile_nil,
        tokensFrom]
      rfl
    rw [List.nil_append, hreturn]
    exact words_cons_of_whitespace rfl
  | case2 o c cs lexeme stop ih =>
    rw [List.cons_append, tokensFrom]
    cases hc : isNewLine c with
    | false =>
      simp only [cut_return hc]
      exact words_cons_congr _ ih
    | true =>
      have hcut := cut_of_isNewLine hc
      have hspace (us : List Char) (a : Span) (text : String) (ts : List Token) :
          words (⟨(cut c us).kind, a, text⟩ :: ts) = words ts := by
        rw [hcut]
        exact words_cons_of_whitespace rfl
      rw [hspace, hspace]
      obtain ⟨hdrop, hdrop'⟩ | ⟨htake, hdrop⟩ := run_isNewLine_return cs
      · simp only [hcut, run, hdrop, hdrop', tokensFrom]
      · have hcut' : cut c (cs ++ ['\r']) = { cut c cs with rest := (cut c cs).rest ++ ['\r'] } := by
          simp only [hcut, run, htake, hdrop]
        rw [hcut']
        exact ih

namespace Text

theorem isBlank_return (l : List Char) : isBlank (l ++ ['\r']) = isBlank l := by
  have hspace : isSpace '\r' = true := rfl
  simp [isBlank, hspace]

theorem linesFrom_eq (done : List (List Char)) (current cs : List Char) :
    linesFrom done current cs = done.reverse ++ linesFrom [] current cs := by
  induction cs generalizing done current with
  | nil =>
    simp only [linesFrom]
    split <;> simp
  | cons c cs ih =>
    simp only [linesFrom]
    split
    · rw [ih (endLine current :: done), ih [endLine current]]
      simp
    · exact ih done (c :: current)

theorem linesFrom_newLine (done : List (List Char)) (current a b : List Char) :
    linesFrom done current (a ++ '\n' :: b) = linesFrom done current (a ++ ['\n']) ++ lines b := by
  induction a generalizing done current with
  | nil =>
    simp only [List.nil_append, linesFrom, beq_self_eq_true, if_true]
    rw [linesFrom_eq]
    rfl
  | cons c a ih =>
    simp only [List.cons_append, linesFrom]
    split
    · exact ih _ _
    · exact ih _ _

end Text

def outcomes (ls : List (List Char)) : List (Except (Located Problem) String) :=
  (ls.filter (!Text.isBlank ·)).map fun l => (answer (String.ofList l)).mapError Located.unplaced

theorem outcomes_append (ls ms : List (List Char)) :
    outcomes (ls ++ ms) = outcomes ls ++ outcomes ms := by
  rw [outcomes, List.filter_append, List.map_append]
  rfl

theorem outcomes_return (l : List Char) : outcomes [l ++ ['\r']] = outcomes [l] := by
  have hwords : words (tokenize (String.ofList (l ++ ['\r']))) =
      words (tokenize (String.ofList l)) := by
    rw [tokenize, tokenize, String.toList_ofList, String.toList_ofList, words_return]
  have hanswer := answer_eq_of_words (congrArg (List.map Token.unplaced) hwords)
  simp only [outcomes, List.filter_cons, Text.isBlank_return]
  split
  · simp only [List.filter_nil, List.map_cons, List.map_nil, hanswer]
  · rfl

theorem outcomes_endLine (current : List Char) :
    outcomes [Text.endLine current] = outcomes [current.reverse] := by
  unfold Text.endLine
  split
  next cs => rw [List.reverse_cons, outcomes_return]
  next => rfl

theorem outcomes_linesFrom (done : List (List Char)) (current a : List Char) :
    outcomes (Text.linesFrom done current (a ++ ['\n'])) =
      outcomes (Text.linesFrom done current a) := by
  induction a generalizing done current with
  | nil =>
    simp only [List.nil_append, Text.linesFrom, beq_self_eq_true, if_true, List.isEmpty_nil,
      List.reverse_cons]
    rw [outcomes_append, outcomes_endLine]
    cases current with
    | nil => exact List.append_nil _
    | cons c cs => simp [outcomes_append]
  | cons c a ih =>
    simp only [List.cons_append, Text.linesFrom]
    split
    · exact ih _ _
    · exact ih _ _

theorem outcomes_lines (a b : List Char) :
    outcomes (Text.lines (a ++ '\n' :: b)) =
      outcomes (Text.lines a) ++ outcomes (Text.lines b) := by
  rw [Text.lines, Text.linesFrom_newLine, outcomes_append, outcomes_linesFrom]
  rfl

namespace Batch

instance : Append Batch where
  append a b := ⟨a.printed ++ b.printed, a.errors ++ b.errors, a.success && b.success⟩

theorem ofAnswers_append (xs ys : List (Except (Located Problem) String)) :
    ofAnswers (xs ++ ys) = ofAnswers xs ++ ofAnswers ys := by
  change ofAnswers (xs ++ ys) = ⟨_, _, _⟩
  simp [ofAnswers, String.join_append]

theorem ofAnswers_unplaced (xs : List (Except (Located Problem) String)) :
    ofAnswers (xs.map (Except.mapError Located.unplaced)) = ofAnswers xs := by
  induction xs with
  | nil => rfl
  | cons x xs ih =>
    have hone : ofAnswers [x.mapError Located.unplaced] = ofAnswers [x] := by cases x <;> rfl
    rw [List.map_cons, ← List.singleton_append, ofAnswers_append, hone, ih, ← ofAnswers_append,
      List.singleton_append]

theorem run_eq (text : String) : run text = ofAnswers (outcomes (Text.lines text.toList)) := by
  rw [run, ← ofAnswers_unplaced, List.map_map]
  rfl

theorem run_append (a b : String) : run (a ++ "\n" ++ b) = run a ++ run b := by
  have hchars : (a ++ "\n" ++ b).toList = a.toList ++ '\n' :: b.toList := by simp
  rw [run_eq, run_eq, run_eq, hchars, outcomes_lines, ofAnswers_append]

theorem runBytes_toUTF8 (origin : Origin) (text : String) :
    runBytes origin (.ok text.toUTF8) = run text := by
  have hread : String.fromUTF8? text.toUTF8 = some text := dif_pos text.isValidUTF8
  rw [runBytes, hread]

end Batch

/-- Two texts with a line feed between them are answered like the first and then the second: the
answers and the errors come in order, and all goes well if all goes well with both. -/
theorem lines_independent (origin : Origin) (a b : String) :
    Batch.runBytes origin (.ok (a ++ "\n" ++ b).toUTF8) =
      Batch.runBytes origin (.ok a.toUTF8) ++ Batch.runBytes origin (.ok b.toUTF8) := by
  rw [Batch.runBytes_toUTF8, Batch.runBytes_toUTF8, Batch.runBytes_toUTF8, Batch.run_append]

end Rearrange

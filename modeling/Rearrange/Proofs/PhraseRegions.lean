import Rearrange.Proofs.AcceptedSentences
import Rearrange.Proofs.FailureRegions

namespace Rearrange

open String (utf8Len)

namespace Token

variable {n : Nat}

def unshift (n : Nat) (t : Token) : Token :=
  { t with span := ⟨t.span.start - n, t.span.stop - n⟩ }

theorem unshift_shift (t : Token) : (t.shift n).unshift n = t := by
  simp [unshift, shift, Span.shift]

end Token

theorem words_map_shift (n : Nat) (ts : List Token) :
    words (ts.map (Token.shift n)) = (words ts).map (Token.shift n) := by
  rw [words, List.filter_map]
  rfl

theorem exists_of_words_eq {ts as us : List Token} {u : Token} (h : words ts = as ++ u :: us) :
    ∃ xs ys, ts = xs ++ u :: ys ∧ words xs = as ∧ u.isWhitespace = false ∧ words ys = us := by
  obtain ⟨xs, ys, rfl, hxs, hys⟩ := List.filter_eq_append_iff.mp h
  obtain ⟨ws, zs, rfl, hws, hu, hzs⟩ := List.filter_eq_cons_iff.mp hys
  refine ⟨xs ++ ws, zs, (List.append_assoc ..).symm, ?_, by simpa using hu, hzs⟩
  have hnone : words ws = [] := List.filter_eq_nil_iff.mpr hws
  rw [words_append, hnone, List.append_nil]
  exact hxs

theorem exists_between_words {ts as us ws bs : List Token} {u v : Token}
    (h : words ts = as ++ us ++ bs) (hu : us = u :: ws) {vs : List Token} (hv : us = vs ++ [v]) :
    ∃ xs ys zs, ts = xs ++ (ys ++ zs) ∧ words ys = us ∧ (∃ ys', ys = u :: ys') ∧
      ∃ ys', ys = ys' ++ [v] := by
  -- The cut behind the last word comes first, since the two words can be the same.
  have hlast : words ts = (as ++ vs) ++ v :: bs := by rw [h, hv]; simp
  obtain ⟨xs, zs, rfl, hxs, hvword, -⟩ := exists_of_words_eq hlast
  have hfirst : words (xs ++ [v]) = as ++ u :: ws := by
    rw [words_append, hxs, words_cons hvword, List.append_assoc, ← hu, hv]
    rfl
  obtain ⟨xs', ys, hsplit, -, huword, hys⟩ := exists_of_words_eq hfirst
  refine ⟨xs', u :: ys, zs, ?_, by rw [words_cons huword, hys, hu], ⟨ys, rfl⟩, ?_⟩
  · rw [← List.append_assoc, ← hsplit]
    simp
  · have hlast : (xs' ++ u :: ys).getLast? = some v := by rw [← hsplit]; simp
    rw [List.getLast?_append_of_ne_nil _ (List.cons_ne_nil u ys)] at hlast
    exact List.getLast?_eq_some_iff.mp hlast

theorem exists_text_of_words {source : String} {as us bs ws vs : List Token} {u v : Token}
    (h : words (tokenize source) = as ++ us ++ bs) (hu : us = u :: ws) (hv : us = vs ++ [v]) :
    ∃ l m r, source.toList = l ++ m ++ r ∧ u.span.start = utf8Len l ∧
      v.span.stop = utf8Len l + utf8Len m ∧
        us = (words (tokenize (String.ofList m))).map (Token.shift (utf8Len l)) := by
  obtain ⟨xs, ys, zs, htokens, hwords, ⟨ys₁, hys₁⟩, ys₂, hys₂⟩ := exists_between_words h hu hv
  have hscans : Lexer.Scans 0 source.toList (xs ++ (ys ++ zs)) :=
    Lexer.scans_iff.mpr htokens
  obtain ⟨l, rest, hl, -, hrest⟩ := hscans.of_append
  obtain ⟨m, r, rfl, hm, -⟩ := hrest.of_append
  rw [Nat.zero_add, String.utf8ByteSize_ofList] at hm
  have hys : ys = (tokenize (String.ofList m)).map (Token.shift (utf8Len l)) := by
    rw [tokenize, String.toList_ofList, ← Lexer.tokensFrom_eq_map_shift]
    exact hm.eq_tokensFrom.symm
  refine ⟨l, m, r, by rw [hl, List.append_assoc], ?_, ?_, ?_⟩
  · exact hm.head_start u (by simp [hys₁])
  · exact hm.last_stop v (by simp [hys₂])
  · rw [← hwords, hys, words_map_shift]

namespace Phrase

def shift (n : Nat) : Phrase → Phrase
  | number v s => number v (s.shift n)
  | name m s => name m (s.shift n)
  | paren e s => paren (e.shift n) (s.shift n)
  | unary op s e u => unary op (s.shift n) (e.shift n) (u.shift n)
  | binary op s l r u => binary op (s.shift n) (l.shift n) (r.shift n) (u.shift n)

variable {t u : Phrase} {ts us : List Token}

theorem Spells.map {f : Token → Token} (hkind : ∀ w, (f w).kind = w.kind)
    (hlexeme : ∀ w, (f w).lexeme = w.lexeme) (h : t.Spells ts) : t.Spells (ts.map f) := by
  induction h with
  | number hk hv => exact .number (by rwa [hkind]) (by rwa [hlexeme])
  | @name w s hk =>
    rw [← hlexeme]
    exact .name (by rwa [hkind])
  | paren ho _ hc ih =>
    rw [List.cons_append, List.map_cons, List.map_append]
    exact .paren (by rwa [hkind]) ih (by rwa [hkind])
  | unary hk _ ih => exact .unary (by rwa [hkind]) ih
  | binary hk _ _ ihl ihr =>
    rw [List.map_append, List.map_cons]
    exact .binary (by rwa [hkind]) ihl ihr

theorem span_shift (n : Nat) (t : Phrase) : (t.shift n).span = t.span.shift n := by
  cases t <;> rfl

theorem unplaced_shift (n : Nat) (t : Phrase) : (t.shift n).unplaced = t.unplaced := by
  induction t with
  | number | name => rfl
  | paren e s ih => rw [shift, unplaced, ih, unplaced]
  | unary op s e v ih => rw [shift, unplaced, ih, unplaced]
  | binary op s l r v ihl ihr => rw [shift, unplaced, ihl, ihr, unplaced]

theorem Covers.shift (h : t.Covers ts) (n : Nat) :
    (t.shift n).Covers (ts.map (Token.shift n)) := by
  induction h with
  | @number w v hk hv =>
    exact Covers.number (t := w.shift n) hk hv
  | @name w hk =>
    exact Covers.name (t := w.shift n) hk
  | @paren o c e ts ho _ hc ih =>
    rw [List.cons_append, List.map_cons, List.map_append]
    exact Covers.paren (o := o.shift n) (c := c.shift n) ho ih hc
  | @unary w op e ts hk _ ih =>
    have h : (Phrase.unary op (w.shift n).span (e.shift n) _).Covers _ := .unary hk ih
    rw [span_shift] at h
    exact h
  | @binary w op l r ls rs hk _ _ ihl ihr =>
    have h := Covers.binary (t := w.shift n) hk ihl ihr
    rw [span_shift, span_shift] at h
    rw [List.map_append, List.map_cons]
    exact h

end Phrase

namespace Parse

variable {p q : Parser} {t : Phrase}

theorem exists_full_expr_of_shift {n : Nat} (hshape : t.WellShaped)
    (hcovers : t.Covers (p.words.map (Token.shift n))) :
    ∃ u q, full expr p = .ok u q ∧ u.shift n = t := by
  have hspells : t.Spells p.words := by
    have hid : Token.unshift n ∘ Token.shift n = id := funext Token.unshift_shift
    have h := hcovers.spells.map (f := Token.unshift n) (fun _ => rfl) fun _ => rfl
    rwa [List.map_map, hid, List.map_id] at h
  -- Reading gives a tree of the same form, and the words leave no choice of its regions.
  obtain ⟨u, q, hu, hsame⟩ := full_expr_iff.mpr ⟨hshape, hspells⟩
  obtain ⟨-, hucovers⟩ := full_expr_covers hu
  refine ⟨u, q, hu, (hucovers.shift n).unique hcovers ?_⟩
  rw [Phrase.unplaced_shift, hsame]

end Parse

theorem lexeme_of_kind {source : String} {w : Token} {op : BinOp} (hw : w ∈ tokenize source)
    (hk : w.kind = op.kind) : w.lexeme = op.symbol := by
  obtain ⟨l, m, r, -, hlongest, hlexeme, -⟩ :=
    (Lexer.scans_tokensFrom 0 source.toList).exists_text hw
  have hm := hlongest.mem
  rw [hk] at hm
  rw [hlexeme]
  cases op <;> (cases hm; rfl)

theorem Phrase.Covers.read_slice {source : String} {t : Phrase} {as ts bs : List Token}
    (h : t.Covers ts) (hshape : t.WellShaped)
    (hwords : words (tokenize source) = as ++ ts ++ bs) :
    t.span.Within source ∧
      ∃ u q, Parse.full Parse.expr (.ofSource (t.span.slice source)) = .ok u q ∧
        u.shift t.span.start = t := by
  obtain ⟨w, ws, hw, hstart⟩ := h.exists_cons
  obtain ⟨vs, v, hv, hstop⟩ := h.exists_concat
  obtain ⟨l, m, r, hlmr, hl, hm, hts⟩ := exists_text_of_words hwords hw hv
  have hspan : t.span = ⟨utf8Len l, utf8Len l + utf8Len m⟩ := by
    rw [← hm, ← hl, ← hstart, ← hstop]
  rw [hspan]
  refine ⟨Span.within_of_toList hlmr, ?_⟩
  rw [Span.slice_of_toList hlmr]
  rw [hts] at h
  exact Parse.exists_full_expr_of_shift hshape h

theorem Phrase.Covers.operator_between {source : String} {op : BinOp} {s a : Span} {l r : Phrase}
    {ts : List Token} (h : (Phrase.binary op s l r a).Covers ts)
    (hts : ts.Sublist (tokenize source)) :
    l.span.stop ≤ s.start ∧ s.stop ≤ r.span.start ∧ s.Within source ∧
      s.slice source = op.symbol := by
  cases h with
  | @binary w _ _ _ ls rs hk hl hr =>
    have hw : w ∈ tokenize source := hts.mem (by simp)
    have hpairwise := (Lexer.scans_tokensFrom 0 source.toList).pairwise.sublist hts
    obtain ⟨-, hright, hleft⟩ := List.pairwise_append.mp hpairwise
    obtain ⟨vs, v, rfl, hstop⟩ := hl.exists_concat
    obtain ⟨u, us, rfl, hstart⟩ := hr.exists_cons
    have htiles := tiles_tokenize source
    refine ⟨?_, ?_, htiles.within w hw, ?_⟩
    · rw [hstop]
      exact hleft v (by simp) w (List.mem_cons_self ..)
    · rw [hstart]
      exact List.rel_of_pairwise_cons hright (List.mem_cons_self ..)
    · rw [← htiles.lexeme w hw]
      exact lexeme_of_kind hw hk

/-- Every part of an expression that was read is read again from its own region of the text, with all
regions moved to its start, and every operator stands between its operands. -/
theorem full_expr_regions {source : String} {t : Phrase} {q : Parser}
    (h : Parse.full Parse.expr (.ofSource source) = .ok t q) :
    ∀ n ∈ t.parts, n.span.Within source ∧
      (∃ u q', Parse.full Parse.expr (.ofSource (n.span.slice source)) = .ok u q' ∧
        u.shift n.span.start = n) ∧
      ∀ op s l r a, n = .binary op s l r a →
        l.span.stop ≤ s.start ∧ s.stop ≤ r.span.start ∧ s.Within source ∧
          s.slice source = op.symbol := by
  intro n hn
  obtain ⟨hshape, hcovers⟩ := Parse.full_expr_covers h
  obtain ⟨as, us, bs, hwords, hncovers⟩ := hcovers.of_mem_parts hn
  obtain ⟨hwithin, hread⟩ := hncovers.read_slice (hshape.of_mem_parts hn) hwords
  refine ⟨hwithin, hread, ?_⟩
  rintro op s l r a rfl
  have hus : us.Sublist (words (tokenize source)) := by
    change us.Sublist (Parser.words (.ofSource source))
    rw [hwords, List.append_assoc]
    exact (List.sublist_append_left us bs).trans (List.sublist_append_right as (us ++ bs))
  exact hncovers.operator_between (hus.trans List.filter_sublist)

/-- `x - y` in `2 * ( x - y )` -/
def difference : Phrase :=
  .binary .sub ⟨8, 9⟩ (.name "x" ⟨6, 7⟩) (.name "y" ⟨10, 11⟩) ⟨6, 11⟩

theorem full_expr_regions_difference :
    ∃ t q, Parse.full Parse.expr (.ofSource "2 * ( x - y )") = .ok t q ∧ difference ∈ t.parts ∧
      (∃ u q', Parse.full Parse.expr (.ofSource "x - y") = .ok u q' ∧ u.shift 6 = difference) ∧
        (⟨8, 9⟩ : Span).slice "2 * ( x - y )" = "-" := by
  have hread : Parse.ahead (Parse.full Parse.expr) (.ofSource "2 * ( x - y )") =
      some (.binary .mul ⟨2, 3⟩ (.number 2 ⟨0, 1⟩) (.paren difference ⟨4, 13⟩) ⟨0, 13⟩) := by
    decide +kernel
  have hslice : difference.span.slice "2 * ( x - y )" = "x - y" := by decide +kernel
  unfold Parse.ahead at hread
  split at hread
  next t q ht =>
    have hmem : difference ∈ t.parts := by
      cases hread
      simp [Phrase.parts, difference]
    obtain ⟨-, hagain, hoperator⟩ := full_expr_regions ht difference hmem
    rw [hslice] at hagain
    exact ⟨t, q, ht, hmem, hagain, (hoperator _ _ _ _ _ rfl).2.2.2⟩
  next => cases hread

end Rearrange

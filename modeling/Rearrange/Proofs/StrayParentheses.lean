import Rearrange.Proofs.ChainedEquations
import Rearrange.Proofs.FailedExpressions
import Rearrange.Proofs.ForwardReads
import Rearrange.Proofs.Parentheses

namespace Rearrange

theorem exists_cons_of_words {ts ws : List Token} {w : Token} (h : words ts = w :: ws) :
    ∃ blanks rest, ts = blanks ++ w :: rest ∧ ∀ b ∈ blanks, b.isWhitespace = true := by
  induction ts with
  | nil => cases h
  | cons t ts ih =>
    cases ht : t.isWhitespace with
    | false =>
      rw [words_cons ht] at h
      obtain ⟨rfl, -⟩ := List.cons.inj h
      exact ⟨[], ts, rfl, nofun⟩
    | true =>
      rw [words_cons_of_whitespace ht] at h
      obtain ⟨blanks, rest, rfl, hblanks⟩ := ih h
      refine ⟨t :: blanks, rest, rfl, fun b hb => ?_⟩
      obtain rfl | hb := List.mem_cons.mp hb
      · exact ht
      · exact hblanks b hb

namespace Parser

variable {p q : Parser} {t : Token} {ts : List Token}

theorem Forward.exists_passed (h : p.Forward q) (hp : p.words = ts ++ q.words) :
    ∃ us, p.after = us ++ q.after ∧ q.before.reverse = p.before.reverse ++ us ∧
      Rearrange.words us = ts := by
  obtain ⟨us, v, hv, hafter, hbefore⟩ := h
  refine ⟨us ++ [v], by rw [hafter, List.append_assoc]; rfl, by rw [hbefore]; simp, ?_⟩
  rw [Parser.words, hafter, words_append, words_cons hv, List.append_cons] at hp
  rw [words_append, words_cons hv]
  exact List.append_cancel_right hp

theorem tokens_of_previous (h : p.previous? = some t) :
    ∃ front, p.before.reverse = front ++ [t] := by
  obtain ⟨bs, hbs⟩ := List.head?_eq_some_iff.mp h
  exact ⟨bs.reverse, by rw [hbs, List.reverse_cons]⟩

end Parser

namespace Parse

variable {p q : Parser} {e : ParseError} {ts : List Token}

def AboutParen (e : ParseError) : Prop := ∃ opening, e.cause = .unclosedParen opening

/-- Some opening parenthesis among the tokens is told to be unclosed: behind it there is an
expression, and then something else than a closing parenthesis. -/
def Unclosed (ts : List Token) (e : ParseError) : Prop :=
  ∃ front o es us, ts = front ++ o :: (es ++ us) ∧ o.kind = .openParen ∧
    FormExpression (words es) ∧ (∀ w ws, words us = w :: ws → w.kind ≠ .closeParen) ∧ e = unclosed o

def Unopened (p : Parser) (e : ParseError) : Prop :=
  (∃ c q, token .closeParen p = .ok c q) ∧ e = errorAt p (.unclosedParen false) true

/-- An opening parenthesis has just been passed. -/
def Inner (p : Parser) : Prop := ∃ o, p.previous? = some o ∧ o.kind = .openParen

/-- What has been passed is complete, as far as parentheses are concerned. -/
def Outer (p : Parser) : Prop :=
  Balanced p.before.reverse ∧ ∀ t, p.previous? = some t → t.isWhitespace = false

def StrayWithin (p : Parser) (e : ParseError) : Prop :=
  Unclosed p.tokens e ∨ ∃ q, p.SameTokens q ∧ Inner q ∧ Unopened q e

def Stray (p : Parser) (e : ParseError) : Prop :=
  StrayWithin p e ∨ ∃ q, p.SameTokens q ∧ Outer q ∧ Unopened q e

theorem StrayWithin.of_sameTokens (hq : p.SameTokens q) (h : StrayWithin q e) :
    StrayWithin p e := by
  obtain h | ⟨s, hs, h⟩ := h
  · exact Or.inl ((show q.tokens = p.tokens from hq) ▸ h)
  · exact Or.inr ⟨s, hq.trans hs, h⟩

theorem Stray.of_sameTokens (hq : p.SameTokens q) (h : Stray q e) : Stray p e := by
  obtain h | ⟨s, hs, h⟩ := h
  · exact Or.inl (h.of_sameTokens hq)
  · exact Or.inr ⟨s, hq.trans hs, h⟩

theorem not_aboutParen_token {kind : TokenKind} (h : (token kind).Fails p e) : ¬ AboutParen e := by
  rintro ⟨opening, hcause⟩
  obtain ⟨-, rfl⟩ | ⟨w, ws, -, -, rfl⟩ := token_fails_iff.mp h <;> cases hcause

theorem previous_of_token {kind : TokenKind} {w : Token} (h : token kind p = .ok w q) :
    q.previous? = some w :=
  (((moves_token kind).ok h).previous
    (show p.words = [] ++ w :: q.words from (token_eq_ok h).1)).1

theorem inner_of_openParen {o : Token} (h : token .openParen p = .ok o q) : Inner q :=
  ⟨o, previous_of_token h, (token_eq_ok h).2⟩

theorem unclosed_of_paren {o : Token} {t : Phrase} {q' : Parser} (ho : token .openParen p = .ok o q)
    (ht : expr q = .ok t q') (he : (token .closeParen).Fails q' e) :
    Unclosed p.tokens (unclosed o) := by
  have hforward := (moves_token .openParen).ok ho
  obtain ⟨front, hfront⟩ := Parser.tokens_of_previous (previous_of_token ho)
  obtain ⟨hshape, ws, hws, hspells⟩ := takes_of_expr ht
  obtain ⟨es, hes, -, rfl⟩ := (moves_expr.ok ht).exists_passed hws
  refine ⟨front, o, es, q'.after, ?_, (token_eq_ok ho).2, ⟨t, hshape, hspells⟩, ?_, rfl⟩
  · rw [← show q.tokens = p.tokens from hforward.sameTokens, Parser.tokens, hfront, hes]
    simp
  · intro w ws hw
    obtain ⟨hnil, -⟩ | ⟨w', ws', hw', hk, -⟩ := token_fails_iff.mp he
    · cases hw.symm.trans hnil
    · cases hw.symm.trans hw'
      exact hk

theorem expression_stray (p : Parser) :
    (∀ e, AboutParen e → operand.Fails p e → StrayWithin p e) ∧
      (∀ prec e, AboutParen e → (climb prec).Fails p e → StrayWithin p e) ∧
        ∀ e, AboutParen e → expr.Fails p e → StrayWithin p e ∨ Unopened p e := by
  refine reading_induction (O := fun p => ∀ e, AboutParen e → operand.Fails p e → StrayWithin p e)
    (K := fun prec p => ∀ e, AboutParen e → (climb prec).Fails p e → StrayWithin p e)
    (E := fun p => ∀ e, AboutParen e → expr.Fails p e → StrayWithin p e ∨ Unopened p e) ?_ ?_ ?_ p
  · intro p ih e habout h
    obtain ⟨⟨x, q, hx, h⟩, -⟩ | ⟨-, -, h⟩ := operand_fails_iff.mp h
    · have hstray := (ih q (passes_attempt_unaryOp p x q (attempt_eq_ok.mpr hx))).1 e habout h
      exact hstray.of_sameTokens (moves_unaryOp.ok hx).sameTokens
    · obtain h | ⟨o, q, ho, h | ⟨t, q', ht, ⟨e', he'⟩, rfl⟩⟩ := paren_fails_iff.mp h
      · exact absurd habout (not_aboutParen_token h)
      · have hsame := ((moves_token .openParen).ok ho).sameTokens
        obtain h | h := (ih q (passes_attempt_token _ p o q (attempt_eq_ok.mpr ho))).2 e habout h
        · exact h.of_sameTokens hsame
        · exact Or.inr ⟨q, hsame, inner_of_openParen ho, h⟩
      · exact Or.inl (unclosed_of_paren ho ht he')
  · intro prec p hoperand ih e habout h
    obtain h | ⟨t, q, x, q', ht, hx, h⟩ := climb_fails_iff.mp h
    · exact hoperand e habout h
    · have hlt := Nat.lt_trans (passes_operator prec q x q' hx) (passes_operand p t q ht)
      have hsame := (moves_operand.ok ht).sameTokens.trans ((moves_operator prec).ok hx).sameTokens
      exact (ih q' hlt e habout h).of_sameTokens hsame
  · intro p hclimb e habout h
    obtain h | ⟨-, h⟩ := expr_fails_iff.mp h
    · exact Or.inr h
    · exact Or.inl (hclimb e habout h)

theorem Outer.of_forward (hp : Outer p) (h : p.Forward q) (hwords : p.words = ts ++ q.words)
    (hts : Balanced ts) : Outer q := by
  obtain ⟨us, -, hbefore, rfl⟩ := h.exists_passed hwords
  refine ⟨?_, fun t ht => ?_⟩
  · rw [hbefore]
    exact hp.1.append (balanced_of_words hts)
  · obtain ⟨ws, v, -, hv, hword⟩ := h.words
    cases ht.symm.trans hv
    exact hword

theorem balanced_token {w : Token} (hopen : w.kind ≠ .openParen) (hclose : w.kind ≠ .closeParen) :
    Balanced [w] := by
  refine balanced_singleton ?_
  cases hk : w.kind <;> first | rfl | contradiction

theorem expr_stray (hp : Outer p) (habout : AboutParen e) (h : expr.Fails p e) : Stray p e := by
  obtain h | h := (expression_stray p).2.2 e habout h
  · exact Or.inl h
  · exact Or.inr ⟨p, rfl, hp, h⟩

theorem equationWith_stray {lhs : Phrase} (hp : Outer p) (habout : AboutParen e)
    (h : (equationWith lhs).Fails p e) : Stray p e := by
  obtain h | ⟨a, p₁, ha, h | ⟨rhs, p₂, -, b, p₃, -, rfl⟩⟩ := equationWith_fails_iff.mp h
  · exact absurd habout (not_aboutParen_token h)
  · obtain ⟨hwords, hk⟩ := token_eq_ok ha
    have hforward := (moves_token .assign).ok ha
    have hbalanced : Balanced [a] := balanced_token (by rw [hk]; decide) (by rw [hk]; decide)
    have houter : Outer p₁ :=
      hp.of_forward hforward (show p.words = [a] ++ p₁.words from hwords) hbalanced
    exact (expr_stray houter habout h).of_sameTokens hforward.sameTokens
  · obtain ⟨opening, hcause⟩ := habout
    cases hcause

theorem outer_of_expr {t : Phrase} (hp : Outer p) (h : expr p = .ok t q) : Outer q := by
  obtain ⟨-, ts, hts, hspells⟩ := takes_of_expr h
  exact hp.of_forward (moves_expr.ok h) hts hspells.balanced

theorem equation_stray (hp : Outer p) (habout : AboutParen e) (h : equation.Fails p e) :
    Stray p e := by
  obtain h | ⟨lhs, p₁, hlhs, h⟩ := equation_fails_iff.mp h
  · exact expr_stray hp habout h
  · have hstray := equationWith_stray (outer_of_expr hp hlhs) habout h
    exact hstray.of_sameTokens (moves_expr.ok hlhs).sameTokens

theorem equationOrPhrase_stray (hp : Outer p) (habout : AboutParen e)
    (h : equationOrPhrase.Fails p e) : Stray p e := by
  obtain h | ⟨lhs, p₁, hlhs, -, h⟩ := equationOrPhrase_fails_iff.mp h
  · exact expr_stray hp habout h
  · exact equation_stray hp habout (equation_fails_iff.mpr (Or.inr ⟨lhs, p₁, hlhs, h⟩))

theorem Stray.fatal (h : Stray p e) : e.fatal = true := by
  obtain (⟨front, o, es, us, -, -, -, -, rfl⟩ | ⟨q, -, -, -, rfl⟩) | ⟨q, -, -, -, rfl⟩ := h <;> rfl

theorem request_stray (hp : Outer p) (habout : AboutParen e) (h : request.Fails p e) :
    Stray p e := by
  obtain h | ⟨n, p₁, hn, h | ⟨c, p₂, hc, e', hequation, rfl⟩⟩ := request_fails_iff.mp h
  · exact absurd habout (not_aboutParen_token h)
  · exact absurd habout (not_aboutParen_token h)
  · obtain ⟨hnwords, hnk⟩ := token_eq_ok hn
    obtain ⟨hcwords, hck⟩ := token_eq_ok hc
    have hforward := ((moves_token .name).ok hn).trans ((moves_token .colon).ok hc)
    have hbalanced : Balanced ([n] ++ [c]) :=
      (balanced_token (by rw [hnk]; decide) (by rw [hnk]; decide)).append
        (balanced_token (by rw [hck]; decide) (by rw [hck]; decide))
    have houter : Outer p₂ := hp.of_forward hforward (by rw [hnwords, hcwords]; rfl) hbalanced
    have hstray : Stray p₂ e' := equation_stray houter habout hequation
    -- an error about a parenthesis has been fatal before
    have hsame : ({ e' with fatal := true } : ParseError) = e' := by rw [← hstray.fatal]
    rw [hsame]
    exact hstray.of_sameTokens hforward.sameTokens

theorem statement_stray (hp : Outer p) (habout : AboutParen e) (h : statement.Fails p e) :
    Stray p e := by
  obtain ⟨h, -⟩ | ⟨-, h⟩ := statement_fails_iff.mp h
  · exact request_stray hp habout h
  · exact equationOrPhrase_stray hp habout h

end Parse

theorem Statement.stray_of_ofSource {source : String} {e : ParseError}
    (h : ofSource source = .error e) (habout : Parse.AboutParen e) :
    Parse.Stray (.ofSource source) e := by
  have houter : Parse.Outer (.ofSource source) := ⟨balanced_nil, nofun⟩
  obtain h | ⟨s, q, -, -, rfl⟩ := Parse.fails_full_iff.mp (Statement.ofSource_eq_error.mp h)
  · exact Parse.statement_stray houter habout h
  · obtain ⟨opening, hcause⟩ := habout
    cases hcause

theorem Parse.neverOpened_iff {p : Parser} (h : Inner p ∨ Outer p) :
    NeverOpened p.before.reverse ↔ ∀ o, p.previous? = some o → o.kind ≠ .openParen := by
  obtain h | ⟨hbalanced, -⟩ := h
  · obtain ⟨o, ho, hk⟩ := h
    obtain ⟨front, hfront⟩ := Parser.tokens_of_previous ho
    rw [hfront]
    exact iff_of_false (not_neverOpened hk) fun hnone => hnone o ho hk
  · refine iff_of_true hbalanced.neverOpened fun o ho => ?_
    obtain ⟨front, hfront⟩ := Parser.tokens_of_previous ho
    rw [hfront] at hbalanced
    exact hbalanced.kind_ne_openParen

theorem Parse.Unopened.exists_tokens {source : String} {p : Parser} {e : ParseError}
    (h : Unopened p e) (hp : (Parser.ofSource source).SameTokens p) :
    ∃ (blanks : List Token) (c : Token) (rest : List Token) (w : Token) (ws : List Token),
      tokenize source = p.before.reverse ++ (blanks ++ c :: rest) ∧
        (∀ b ∈ blanks, b.isWhitespace = true) ∧ c.kind = .closeParen ∧ blanks ++ [c] = w :: ws ∧
          e = ⟨.unclosedParen false, [w.span], true⟩ := by
  obtain ⟨⟨c, q, hc⟩, rfl⟩ := h
  obtain ⟨hwords, hck⟩ := token_eq_ok hc
  obtain ⟨blanks, rest, hafter, hblanks⟩ := exists_cons_of_words hwords
  have htokens : tokenize source = p.before.reverse ++ (blanks ++ c :: rest) := by
    rw [← hafter]
    exact hp.symm
  cases blanks with
  | nil =>
    refine ⟨[], c, rest, c, [], htokens, hblanks, hck, rfl, ?_⟩
    rw [errorAt, Parser.span, hafter]
    rfl
  | cons b bs =>
    refine ⟨b :: bs, c, rest, b, bs ++ [c], htokens, hblanks, hck, rfl, ?_⟩
    rw [errorAt, Parser.span, hafter]
    rfl

theorem Parse.last_not_whitespace {p : Parser} (h : Inner p ∨ Outer p) :
    ∀ t ∈ p.before.reverse.getLast?, t.isWhitespace = false := by
  rw [List.getLast?_reverse]
  obtain ⟨o, ho, hk⟩ | ⟨-, hword⟩ := h
  · intro t ht
    cases ho.symm.trans ht
    rw [Token.isWhitespace, hk]
    rfl
  · exact hword

theorem loneParen_open_iff {source : String} {front es us : List Token} {o : Token}
    (h : tokenize source = front ++ o :: (es ++ us)) (ho : o.kind = .openParen)
    (hes : FormExpression (words es)) :
    LoneParen (tokenize source) true o.span ↔ NeverClosed us := by
  obtain ⟨t, -, hspells⟩ := hes
  rw [loneParen_iff h, if_pos rfl, neverClosed_append (balanced_of_words hspells.balanced)]
  exact and_iff_right ho

theorem loneParen_close_iff {source : String} {front blanks rest ws : List Token} {c w : Token}
    (h : tokenize source = front ++ (blanks ++ c :: rest)) (hc : c.kind = .closeParen)
    (hblanks : ∀ b ∈ blanks, b.isWhitespace = true) (hw : blanks ++ [c] = w :: ws) :
    LoneParen (tokenize source) false w.span ↔ blanks = [] ∧ NeverOpened front := by
  have hfirst : tokenize source = front ++ w :: (ws ++ rest) := by
    rw [h, List.append_cons blanks, hw, List.cons_append]
  rw [loneParen_iff hfirst, if_neg Bool.false_ne_true]
  refine and_congr_left fun _ => ?_
  cases blanks with
  | nil =>
    cases hw
    exact iff_of_true hc rfl
  | cons b bs =>
    cases hw
    have hb := hblanks w (List.mem_cons_self ..)
    refine iff_of_false (fun hk => ?_) (List.cons_ne_nil _ _)
    rw [Token.isWhitespace, hk] at hb
    cases hb

/-- An error about a parenthesis is fatal and marks one region. An opening one has no partner if and
only if what follows its expression closes none. For a closing one the first token behind those
passed is marked, whitespace included; it is a parenthesis without a partner if and only if there is
no whitespace and no opening parenthesis just before. -/
theorem stray_parenthesis (source : String) (e : ParseError)
    (h : Statement.ofSource source = .error e) :
    (e.cause = .unclosedParen true →
        ∃ (front : List Token) (o : Token) (es us : List Token),
          tokenize source = front ++ o :: (es ++ us) ∧ o.kind = .openParen ∧
            FormExpression (words es) ∧ (∀ w ws, words us = w :: ws → w.kind ≠ .closeParen) ∧
              e = ⟨.unclosedParen true, [o.span], true⟩ ∧
                (LoneParen (tokenize source) true o.span ↔ NeverClosed us)) ∧
      (e.cause = .unclosedParen false →
        ∃ (front blanks : List Token) (c : Token) (rest : List Token) (w : Token) (ws : List Token),
          tokenize source = front ++ (blanks ++ c :: rest) ∧
            (∀ t ∈ front.getLast?, t.isWhitespace = false) ∧
              (∀ b ∈ blanks, b.isWhitespace = true) ∧ c.kind = .closeParen ∧
                blanks ++ [c] = w :: ws ∧ e = ⟨.unclosedParen false, [w.span], true⟩ ∧
                  (LoneParen (tokenize source) false w.span ↔
                    blanks = [] ∧ ∀ o ∈ front.getLast?, o.kind ≠ .openParen)) := by
  constructor
  · intro hcause
    obtain (⟨front, o, es, us, hts, ho, hes, hus, rfl⟩ | ⟨q, -, -, -, rfl⟩) | ⟨q, -, -, -, rfl⟩ :=
      Statement.stray_of_ofSource h ⟨true, hcause⟩
    · exact ⟨front, o, es, us, hts, ho, hes, hus, rfl, loneParen_open_iff hts ho hes⟩
    · cases hcause
    · cases hcause
  · intro hcause
    obtain ⟨q, hsame, hplace, hunopened⟩ : ∃ q, (Parser.ofSource source).SameTokens q ∧
        (Parse.Inner q ∨ Parse.Outer q) ∧ Parse.Unopened q e := by
      obtain (⟨front, o, es, us, -, -, -, -, rfl⟩ | ⟨q, hq, hinner, h⟩) | ⟨q, hq, houter, h⟩ :=
        Statement.stray_of_ofSource h ⟨false, hcause⟩
      · cases hcause
      · exact ⟨q, hq, Or.inl hinner, h⟩
      · exact ⟨q, hq, Or.inr houter, h⟩
    obtain ⟨blanks, c, rest, w, ws, htokens, hblanks, hc, hw, he⟩ := hunopened.exists_tokens hsame
    refine ⟨q.before.reverse, blanks, c, rest, w, ws, htokens, Parse.last_not_whitespace hplace,
      hblanks, hc, hw, he, ?_⟩
    rw [loneParen_close_iff htokens hc hblanks hw, Parse.neverOpened_iff hplace,
      List.getLast?_reverse]
    rfl

/-- In `(x + 1` and in `)` the error is about a parenthesis without a partner. -/
theorem stray_parenthesis_alone :
    (Statement.ofSource "(x + 1" = .error ⟨.unclosedParen true, [⟨0, 1⟩], true⟩ ∧
        LoneParen (tokenize "(x + 1") true ⟨0, 1⟩) ∧
      Statement.ofSource ")" = .error ⟨.unclosedParen false, [⟨0, 1⟩], true⟩ ∧
        LoneParen (tokenize ")") false ⟨0, 1⟩ := by
  have hopen : Statement.ofSource "(x + 1" = .error ⟨.unclosedParen true, [⟨0, 1⟩], true⟩ := by
    decide +kernel
  have hclose : Statement.ofSource ")" = .error ⟨.unclosedParen false, [⟨0, 1⟩], true⟩ := by
    decide +kernel
  refine ⟨⟨hopen, ?_⟩, hclose, ?_⟩
  · obtain ⟨front, o, es, us, hts, -, -, -, he, hlone⟩ := (stray_parenthesis _ _ hopen).1 rfl
    obtain ⟨hspan, -⟩ := List.cons.inj (congrArg Located.spans he)
    rw [hspan, hlone]
    -- nothing in the text closes a parenthesis
    rintro as c bs rfl hc
    have hnone : ∀ t ∈ tokenize "(x + 1", t.kind ≠ .closeParen := by decide +kernel
    exact absurd hc (hnone c (by rw [hts]; simp))
  · obtain ⟨front, blanks, c, rest, w, ws, hts, -, -, -, -, he, hlone⟩ :=
      (stray_parenthesis _ _ hclose).2 rfl
    obtain ⟨hspan, -⟩ := List.cons.inj (congrArg Located.spans he)
    rw [hspan, hlone]
    have hsingle : (tokenize ")").length = 1 := by decide +kernel
    rw [hts, List.length_append, List.length_append, List.length_cons] at hsingle
    obtain rfl : front = [] := List.eq_nil_of_length_eq_zero (by omega)
    exact ⟨List.eq_nil_of_length_eq_zero (by omega), nofun⟩

/-- In ` )` a blank is marked, and in `()` and `(x y)` a parenthesis that has a partner. -/
theorem stray_parenthesis_inaccurate :
    (Statement.ofSource " )" = .error ⟨.unclosedParen false, [⟨0, 1⟩], true⟩ ∧
        ¬ LoneParen (tokenize " )") false ⟨0, 1⟩) ∧
      (Statement.ofSource "()" = .error ⟨.unclosedParen false, [⟨1, 2⟩], true⟩ ∧
        ¬ LoneParen (tokenize "()") false ⟨1, 2⟩) ∧
      Statement.ofSource "(x y)" = .error ⟨.unclosedParen true, [⟨0, 1⟩], true⟩ ∧
        ¬ LoneParen (tokenize "(x y)") true ⟨0, 1⟩ := by
  refine ⟨⟨by decide +kernel, ?_⟩, ⟨by decide +kernel, ?_⟩, by decide +kernel, ?_⟩
  · have hts : tokenize " )" = [] ++ ⟨.blank, ⟨0, 1⟩, " "⟩ :: [⟨.closeParen, ⟨1, 2⟩, ")"⟩] := by
      decide +kernel
    rw [loneParen_iff (w := ⟨.blank, ⟨0, 1⟩, " "⟩) hts]
    rintro ⟨hk, -⟩
    cases hk
  · have hts : tokenize "()" = ([] ++ [⟨.openParen, ⟨0, 1⟩, "("⟩]) ++
        ⟨.closeParen, ⟨1, 2⟩, ")"⟩ :: [] := by decide +kernel
    rw [loneParen_iff (w := ⟨.closeParen, ⟨1, 2⟩, ")"⟩) hts]
    rintro ⟨-, hnever⟩
    exact not_neverOpened rfl hnever
  · have hts : tokenize "(x y)" = [] ++ ⟨.openParen, ⟨0, 1⟩, "("⟩ ::
        ([⟨.name, ⟨1, 2⟩, "x"⟩] ++ ([⟨.blank, ⟨2, 3⟩, " "⟩] ++ [⟨.name, ⟨3, 4⟩, "y"⟩]) ++
          ⟨.closeParen, ⟨4, 5⟩, ")"⟩ :: []) := by decide +kernel
    rw [loneParen_iff (w := ⟨.openParen, ⟨0, 1⟩, "("⟩) hts]
    rintro ⟨-, hnever⟩
    refine hnever _ _ _ rfl rfl ?_
    exact (balanced_singleton rfl).append ((balanced_singleton rfl).append (balanced_singleton rfl))

end Rearrange

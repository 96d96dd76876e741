import Mathlib.Data.List.Basic
import Rearrange.Proofs.FailedExpressions

namespace Rearrange

def Front (ts : List Token) : Prop :=
  ts = [] ∨ ∃ n c, ts = [n, c] ∧ n.kind = .name ∧ c.kind = .colon

/-- The words of an equation, perhaps with a name and a colon in front, and another `=` with any
words behind it. -/
def FormChained (ts : List Token) : Prop :=
  ∃ front es b rest, ts = front ++ (es ++ b :: rest) ∧ Front front ∧ FormEquation es ∧
    b.kind = .assign

def assigns (ts : List Token) : List Token := ts.filter fun t => t.kind = .assign

theorem assigns_append (ts us : List Token) : assigns (ts ++ us) = assigns ts ++ assigns us :=
  List.filter_append ..

theorem assigns_cons {t : Token} {ts : List Token} (h : t.kind = .assign) :
    assigns (t :: ts) = t :: assigns ts :=
  List.filter_cons_of_pos (decide_eq_true h)

theorem assigns_cons_of_ne {t : Token} {ts : List Token} (h : t.kind ≠ .assign) :
    assigns (t :: ts) = assigns ts :=
  List.filter_cons_of_neg fun ht => h (of_decide_eq_true ht)

theorem assigns_words (ts : List Token) : assigns (words ts) = assigns ts := by
  rw [assigns, words, List.filter_filter]
  refine List.filter_congr fun t _ => ?_
  rw [Token.isWhitespace]
  cases t.kind <;> rfl

theorem Phrase.Spells.assigns {t : Phrase} {ts : List Token} (h : t.Spells ts) :
    assigns ts = [] := by
  induction h with
  | @number w v s hk _ =>
    refine assigns_cons_of_ne fun h => ?_
    rw [h] at hk
    rcases hk with hk | hk <;> cases hk
  | name hk => exact assigns_cons_of_ne (by rw [hk]; decide)
  | @paren o c e ts s ho _ hc ih =>
    rw [List.cons_append, assigns_cons_of_ne (by rw [ho]; decide), assigns_append, ih]
    exact assigns_cons_of_ne (by rw [hc]; decide)
  | unary hk _ ih => rw [assigns_cons_of_ne (by rw [hk]; decide), ih]
  | @binary w op l r ls rs s v hk _ _ ihl ihr =>
    rw [assigns_append, ihl, assigns_cons_of_ne (by rw [hk]; cases op <;> decide), ihr]
    rfl

namespace Parse

variable {p q : Parser} {e : ParseError}

def Unchained (e : ParseError) : Prop := e.cause ≠ .chainedEquality

theorem token_unchained (kind : TokenKind) : FailsWith (token kind) Unchained := by
  intro p e h
  obtain ⟨-, rfl⟩ | ⟨w, ws, -, -, rfl⟩ := token_fails_iff.mp h <;> exact nofun

theorem expr_unchained : FailsWith expr Unchained := by
  intro p e h
  cases expr_error p e h <;> exact nofun

def chainedAt (a b : Token) : ParseError := ⟨.chainedEquality, [a.span, b.span], true⟩

/-- An equation with a further `=` behind it, and the error about its `=` and that one. -/
def ChainedIn (ts : List Token) (e : ParseError) : Prop :=
  ∃ es a b rest, ts = es ++ b :: rest ∧ FormEquation es ∧ assigns es = [a] ∧ b.kind = .assign ∧
    e = chainedAt a b

section

variable {lhs : Phrase} {a b : Token} {ls rs rest ts : List Token}

theorem ends_assign (ha : a.kind = .assign) : Ends (a :: rs) := by
  intro w ws hw
  cases hw
  rw [ha]
  rfl

theorem assigns_equation (hls : FormExpression ls) (ha : a.kind = .assign)
    (hrs : FormExpression rs) : assigns (ls ++ a :: rs) = [a] := by
  obtain ⟨l, -, hl⟩ := hls
  obtain ⟨r, -, hr⟩ := hrs
  rw [assigns_append, assigns_cons ha, hl.assigns, hr.assigns]
  rfl

theorem equationWith_chained_iff :
    (equationWith lhs).Fails p e ∧ e.cause = .chainedEquality ↔
      ∃ a rs b rest, p.words = a :: (rs ++ b :: rest) ∧ a.kind = .assign ∧ FormExpression rs ∧
        b.kind = .assign ∧ e = chainedAt a b := by
  constructor
  · rintro ⟨h, he⟩
    obtain h | ⟨a, p₁, ha, h | ⟨rhs, p₂, hrhs, b, q, hb, rfl⟩⟩ := equationWith_fails_iff.mp h
    · exact absurd he (token_unchained .assign p e h)
    · exact absurd he (expr_unchained p₁ e h)
    · obtain ⟨hawords, hak⟩ := token_eq_ok ha
      obtain ⟨hshape, rs, hrs, hspells⟩ := takes_of_expr hrhs
      obtain ⟨hbwords, hbk⟩ := token_eq_ok hb
      refine ⟨a, rs, b, q.words, ?_, hak, ⟨rhs, hshape, hspells⟩, hbk, rfl⟩
      rw [hawords, hrs, hbwords]
  · rintro ⟨a, rs, b, rest, h, ha, ⟨r, hshape, hspells⟩, hb, rfl⟩
    obtain ⟨p₁, hassign, hp₁⟩ := token_of_words h ha
    obtain ⟨rhs, ⟨p₂, hrhs, hp₂⟩, -⟩ := reads_expr hshape hspells (ends_assign hb) p₁ hp₁
    obtain ⟨p₃, hsecond, -⟩ := token_of_words hp₂ hb
    refine ⟨equationWith_fails_iff.mpr (Or.inr ⟨a, p₁, hassign, Or.inr ?_⟩), rfl⟩
    exact ⟨rhs, p₂, hrhs, b, p₃, hsecond, rfl⟩

theorem equation_chained_iff :
    equation.Fails p e ∧ e.cause = .chainedEquality ↔ ChainedIn p.words e := by
  constructor
  · rintro ⟨h, he⟩
    obtain h | ⟨lhs, p₁, hlhs, h⟩ := equation_fails_iff.mp h
    · exact absurd he (expr_unchained p e h)
    obtain ⟨a, rs, b, rest, hp₁, ha, hrs, hb, rfl⟩ := equationWith_chained_iff.mp ⟨h, he⟩
    obtain ⟨hshape, ls, hls, hspells⟩ := takes_of_expr hlhs
    have hleft : FormExpression ls := ⟨lhs, hshape, hspells⟩
    refine ⟨ls ++ a :: rs, a, b, rest, ?_, ⟨ls, a, rs, rfl, ha, hleft, hrs⟩,
      assigns_equation hleft ha hrs, hb, rfl⟩
    rw [hls, hp₁, List.append_assoc, List.cons_append]
  · rintro ⟨es, a, b, rest, hp, ⟨ls, a', rs, rfl, ha', hls, hrs⟩, ha, hb, rfl⟩
    rw [assigns_equation hls ha' hrs] at ha
    cases ha
    obtain ⟨l, hshape, hspells⟩ := hls
    rw [List.append_assoc, List.cons_append] at hp
    obtain ⟨lhs, ⟨p₁, hlhs, hp₁⟩, -⟩ := reads_expr hshape hspells (ends_assign ha') p hp
    obtain ⟨h, he⟩ := equationWith_chained_iff.mpr ⟨a, rs, b, rest, hp₁, ha', hrs, hb, rfl⟩
    exact ⟨equation_fails_iff.mpr (Or.inr ⟨lhs, p₁, hlhs, h⟩), he⟩

theorem equationOrPhrase_chained_iff :
    equationOrPhrase.Fails p e ∧ e.cause = .chainedEquality ↔ ChainedIn p.words e := by
  rw [← equation_chained_iff, equationOrPhrase_fails_iff, equation_fails_iff]
  refine and_congr_left fun he => or_congr_right ?_
  refine exists_congr fun lhs => exists_congr fun p₁ => and_congr_right fun _ => ?_
  refine and_iff_right_of_imp fun h => ?_
  obtain ⟨a, rs, b, rest, hp₁, ha, -⟩ := equationWith_chained_iff.mp ⟨h, he⟩
  obtain ⟨p₂, hassign, -⟩ := token_of_words hp₁ ha
  exact ⟨a, p₂, hassign⟩

theorem request_chained_iff :
    request.Fails p e ∧ e.cause = .chainedEquality ↔
      ∃ n c ts, p.words = n :: c :: ts ∧ n.kind = .name ∧ c.kind = .colon ∧ ChainedIn ts e := by
  constructor
  · rintro ⟨h, he⟩
    obtain h | ⟨n, p₁, hn, h | ⟨c, p₂, hc, e', hequation, rfl⟩⟩ := request_fails_iff.mp h
    · exact absurd he (token_unchained .name p e h)
    · exact absurd he (token_unchained .colon p₁ e h)
    · obtain ⟨hnwords, hnk⟩ := token_eq_ok hn
      obtain ⟨hcwords, hck⟩ := token_eq_ok hc
      refine ⟨n, c, p₂.words, by rw [hnwords, hcwords], hnk, hck, ?_⟩
      obtain ⟨es, a, b, rest, hts, hes, ha, hb, hchained⟩ :=
        equation_chained_iff.mp ⟨hequation, he⟩
      cases hchained
      exact ⟨es, a, b, rest, hts, hes, ha, hb, rfl⟩
  · rintro ⟨n, c, ts, hp, hn, hc, hchained⟩
    obtain ⟨p₁, hname, hp₁⟩ := token_of_words hp hn
    obtain ⟨p₂, hcolon, rfl⟩ := token_of_words hp₁ hc
    obtain ⟨h, he⟩ := equation_chained_iff.mpr hchained
    refine ⟨request_fails_iff.mpr (Or.inr ⟨n, p₁, hname, Or.inr ⟨c, p₂, hcolon, e, h, ?_⟩⟩), he⟩
    obtain ⟨es, a, b, rest, -, -, -, -, rfl⟩ := hchained
    rfl

theorem statement_chained_iff :
    statement.Fails p e ∧ e.cause = .chainedEquality ↔
      ∃ front ts, p.words = front ++ ts ∧ Front front ∧ ChainedIn ts e := by
  constructor
  · rintro ⟨h, he⟩
    obtain ⟨h, -⟩ | ⟨-, h⟩ := statement_fails_iff.mp h
    · obtain ⟨n, c, ts, hp, hn, hc, hts⟩ := request_chained_iff.mp ⟨h, he⟩
      exact ⟨[n, c], ts, hp, Or.inr ⟨n, c, rfl, hn, hc⟩, hts⟩
    · exact ⟨[], p.words, rfl, Or.inl rfl, equationOrPhrase_chained_iff.mp ⟨h, he⟩⟩
  · rintro ⟨front, ts, hp, rfl | ⟨n, c, rfl, hn, hc⟩, hchained⟩
    · rw [List.nil_append] at hp
      subst hp
      obtain ⟨h, he⟩ := equationOrPhrase_chained_iff.mpr hchained
      refine ⟨statement_fails_iff.mpr (Or.inr ⟨?_, h⟩), he⟩
      obtain ⟨es, a, b, rest, hp, ⟨ls, a', rs, rfl, ha', hls, -⟩, -⟩ := hchained
      -- a name in front of the first `=` is no name of a request: no colon follows it
      have hcolon : ∀ w ws, a' :: (rs ++ b :: rest) = w :: ws → w.kind ≠ .colon := by
        intro w ws hw
        cases hw
        rw [ha']
        decide
      have hwords : p.words = ls ++ a' :: (rs ++ b :: rest) := by
        rw [hp, List.append_assoc, List.cons_append]
      exact request_refuses (not_request_of_expression hls hcolon hwords)
    · obtain ⟨h, he⟩ := request_chained_iff.mpr ⟨n, c, ts, hp, hn, hc, hchained⟩
      refine ⟨statement_fails_iff.mpr (Or.inl ⟨h, ?_⟩), he⟩
      obtain ⟨es, a, b, rest, -, -, -, -, rfl⟩ := hchained
      rfl

end

end Parse

theorem Front.assigns {ts : List Token} (h : Front ts) : assigns ts = [] := by
  obtain rfl | ⟨n, c, rfl, hn, hc⟩ := h
  · rfl
  · rw [assigns_cons_of_ne (by rw [hn]; decide), assigns_cons_of_ne (by rw [hc]; decide)]
    rfl

theorem Statement.ofSource_eq_error {source : String} {e : ParseError} :
    ofSource source = .error e ↔ (Parse.full Parse.statement).Fails (.ofSource source) e := by
  unfold ofSource Parse.Fails
  cases Parse.full Parse.statement (.ofSource source) <;> simp

theorem Statement.ofSource_chained_iff {source : String} {e : ParseError} :
    ofSource source = .error e ∧ e.cause = .chainedEquality ↔
      ∃ front ts, words (tokenize source) = front ++ ts ∧ Front front ∧ Parse.ChainedIn ts e := by
  rw [Statement.ofSource_eq_error, Parse.fails_full_iff]
  refine Iff.trans (and_congr_left fun he => or_iff_left ?_) Parse.statement_chained_iff
  rintro ⟨s, q, -, -, rfl⟩
  cases he

/-- A text is refused for a second `=` if and only if its words are those of an equation, perhaps
behind a name and a colon, and another `=` follows. The error then is fatal and marks the first two.
-/
theorem chained_equality (source : String) :
    ((∃ e, Statement.ofSource source = .error e ∧ e.cause = .chainedEquality) ↔
        FormChained (words (tokenize source))) ∧
      (FormChained (words (tokenize source)) ↔
        ∃ a b rest, assigns (tokenize source) = a :: b :: rest ∧
          Statement.ofSource source = .error ⟨.chainedEquality, [a.span, b.span], true⟩) := by
  have hform (h : ∃ e, Statement.ofSource source = .error e ∧ e.cause = .chainedEquality) :
      FormChained (words (tokenize source)) := by
    obtain ⟨e, h⟩ := h
    obtain ⟨front, ts, hwords, hfront, es, a, b, rest, rfl, hes, -, hb, -⟩ :=
      Statement.ofSource_chained_iff.mp h
    exact ⟨front, es, b, rest, hwords, hfront, hes, hb⟩
  have hfails (h : FormChained (words (tokenize source))) :
      ∃ a b rest, assigns (tokenize source) = a :: b :: rest ∧
        Statement.ofSource source = .error (Parse.chainedAt a b) := by
    obtain ⟨front, es, b, rest, hwords, hfront, hes, hb⟩ := h
    obtain ⟨ls, a, rs, rfl, ha, hls, hrs⟩ := hes
    have hes := Parse.assigns_equation hls ha hrs
    refine ⟨a, b, assigns rest, ?_, ?_⟩
    · rw [← assigns_words, hwords, assigns_append, assigns_append, hfront.assigns, hes,
        assigns_cons hb]
      rfl
    · exact (Statement.ofSource_chained_iff.mpr ⟨front, _, hwords, hfront, _, a, b, rest, rfl,
        ⟨ls, a, rs, rfl, ha, hls, hrs⟩, hes, hb, rfl⟩).1
  constructor
  · refine ⟨hform, fun h => ?_⟩
    obtain ⟨a, b, rest, -, h⟩ := hfails h
    exact ⟨_, h, rfl⟩
  · refine ⟨hfails, ?_⟩
    rintro ⟨a, b, rest, -, h⟩
    exact hform ⟨_, h, rfl⟩

example : Statement.ofSource "y: x = (1) = )2 = (" =
    .error ⟨.chainedEquality, [⟨5, 6⟩, ⟨11, 12⟩], true⟩ := by decide +kernel

end Rearrange

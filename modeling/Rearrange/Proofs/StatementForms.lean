import Rearrange.Proofs.GrammarComplete

namespace Rearrange

def FormExpression (ts : List Token) : Prop := ∃ t : Phrase, t.WellShaped ∧ t.Spells ts

def FormEquation (ts : List Token) : Prop :=
  ∃ ls a rs, ts = ls ++ a :: rs ∧ a.kind = .assign ∧ FormExpression ls ∧ FormExpression rs

def FormRequest (ts : List Token) : Prop :=
  ∃ n c es, ts = n :: c :: es ∧ n.kind = .name ∧ c.kind = .colon ∧ FormEquation es

def Equation.Spells (e : Equation) (ts : List Token) : Prop :=
  ∃ ls a rs, ts = ls ++ a :: rs ∧ a.kind = .assign ∧ (e.lhs.WellShaped ∧ e.lhs.Spells ls) ∧
    e.rhs.WellShaped ∧ e.rhs.Spells rs

def Request.Spells (r : Request) (ts : List Token) : Prop :=
  ∃ n c es, ts = n :: c :: es ∧ n.kind = .name ∧ c.kind = .colon ∧ r.target = n.lexeme ∧
    r.equation.Spells es

/-- The words from which an equation is read, each region in it being theirs. -/
def Equation.Covers (e : Equation) (ts : List Token) : Prop :=
  ∃ ls a rs, ts = ls ++ a :: rs ∧ a.kind = .assign ∧ (e.lhs.WellShaped ∧ e.lhs.Covers ls) ∧
    (e.rhs.WellShaped ∧ e.rhs.Covers rs) ∧ e.span = e.lhs.span.join e.rhs.span

def Request.Covers (r : Request) (ts : List Token) : Prop :=
  ∃ n c es, ts = n :: c :: es ∧ n.kind = .name ∧ c.kind = .colon ∧ r.target = n.lexeme ∧
    r.targetSpan = n.span ∧ r.equation.Covers es ∧ r.span = r.targetSpan.join r.equation.span

theorem Equation.Covers.spells {e : Equation} {ts : List Token} (h : e.Covers ts) : e.Spells ts := by
  obtain ⟨ls, a, rs, hts, ha, ⟨hlshape, hl⟩, ⟨hrshape, hr⟩, -⟩ := h
  exact ⟨ls, a, rs, hts, ha, ⟨hlshape, hl.spells⟩, hrshape, hr.spells⟩

theorem Request.Covers.spells {r : Request} {ts : List Token} (h : r.Covers ts) : r.Spells ts := by
  obtain ⟨n, c, es, hts, hn, hc, htarget, -, he, -⟩ := h
  exact ⟨n, c, es, hts, hn, hc, htarget, he.spells⟩

theorem Equation.Spells.form {e : Equation} {ts : List Token} (h : e.Spells ts) :
    FormEquation ts := by
  obtain ⟨ls, a, rs, hts, ha, hl, hr⟩ := h
  exact ⟨ls, a, rs, hts, ha, ⟨e.lhs, hl⟩, ⟨e.rhs, hr⟩⟩

theorem Request.Spells.form {r : Request} {ts : List Token} (h : r.Spells ts) :
    FormRequest ts := by
  obtain ⟨n, c, es, hts, hn, hc, -, he⟩ := h
  exact ⟨n, c, es, hts, hn, hc, he.form⟩

theorem Phrase.Spells.kind_ne_colon {t : Phrase} {ts : List Token} (h : t.Spells ts) :
    ∀ w ∈ ts, w.kind ≠ .colon := by
  induction h with
  | @number w v s hk _ =>
    intro u hu
    rw [List.mem_singleton.mp hu]
    rcases hk with hk | hk <;> rw [hk] <;> decide
  | name hk =>
    intro u hu
    rw [List.mem_singleton.mp hu, hk]
    decide
  | paren ho _ hc ih =>
    intro u hu
    rcases List.mem_append.mp hu with hu | hu
    · rcases List.mem_cons.mp hu with rfl | hu
      · rw [ho]; decide
      · exact ih u hu
    · rw [List.mem_singleton.mp hu, hc]
      decide
  | unary hk _ ih =>
    intro u hu
    rcases List.mem_cons.mp hu with rfl | hu
    · rw [hk]; decide
    · exact ih u hu
  | @binary w op l r ls rs s v hk _ _ ihl ihr =>
    intro u hu
    rcases List.mem_append.mp hu with hu | hu
    · exact ihl u hu
    · rcases List.mem_cons.mp hu with rfl | hu
      · rw [hk]; cases op <;> decide
      · exact ihr u hu

namespace Parse

variable {α β : Type} {p q : Parser} {ts : List Token}

theorem full_iff {r : Parse α} {a : α} : (∃ q, full r p = .ok a q) ↔ r.Gives p a [] := by
  constructor
  · rintro ⟨q, h⟩
    obtain ⟨p', hr, hnil⟩ := full_eq_ok h
    exact ⟨p', hr, hnil⟩
  · intro h
    obtain ⟨q, hq, -⟩ := h.full
    exact ⟨q, hq⟩

theorem map_eq_ok {r : Parse α} {f : α → β} {b : β} :
    (f <$> r) p = .ok b q ↔ ∃ a, r p = .ok a q ∧ f a = b := by
  change EStateM.map f r p = .ok b q ↔ _
  unfold EStateM.map
  cases r p with
  | ok a p' =>
    constructor
    · intro h
      cases h
      exact ⟨a, rfl, rfl⟩
    · rintro ⟨a', h, rfl⟩
      cases h
      rfl
  | error e p' =>
    constructor
    · intro h
      cases h
    · rintro ⟨a', h, -⟩
      cases h

theorem Refuses.map {r : Parse α} (h : r.Refuses p) (f : α → β) : (f <$> r).Refuses p := by
  obtain ⟨e, q, hr, he⟩ := h
  refine ⟨e, q, ?_, he⟩
  change EStateM.map f r p = _
  rw [EStateM.map, hr]

theorem get_eq (p : Parser) : (get : Parse Parser) p = .ok p p := rfl

theorem ahead_eq_none {r : Parse α} (h : r.Refuses p) : ahead r p = none := by
  obtain ⟨e, q, hr, -⟩ := h
  rw [ahead, hr]

theorem token_refuses_of_nil {kind : TokenKind} (h : p.words = []) : (token kind).Refuses p :=
  (next_refuses h).bind _

section

variable {lhs : Phrase} {e : Equation} {r : Request} {s : Statement}

theorem equationWith_eq_ok (h : equationWith lhs p = .ok e q) :
    e.lhs = lhs ∧ e.span = lhs.span.join e.rhs.span ∧ ∃ a rs, p.words = a :: rs ++ q.words ∧
      a.kind = .assign ∧ e.rhs.WellShaped ∧ e.rhs.Covers rs := by
  obtain ⟨a, p₁, ha, h⟩ := bind_eq_ok.mp h
  obtain ⟨rhs, p₂, hrhs, h⟩ := bind_eq_ok.mp h
  obtain ⟨state, p₃, hget, h⟩ := bind_eq_ok.mp h
  cases hget
  obtain ⟨hawords, hak⟩ := token_eq_ok (attempt_eq_ok.mp ha)
  obtain ⟨hshape, rs, hrs, hcovers⟩ := places_of_expr (attempt_eq_ok.mp hrhs)
  cases hsecond : ahead (token .assign) p₂ with
  | some second =>
    rw [hsecond] at h
    cases h
  | none =>
    rw [hsecond] at h
    cases h
    exact ⟨rfl, rfl, a, rs, by rw [hawords, hrs, List.cons_append], hak, hshape, hcovers⟩

theorem equation_covers (h : equation p = .ok e q) :
    ∃ ts, p.words = ts ++ q.words ∧ e.Covers ts := by
  obtain ⟨lhs, p₁, hlhs, h⟩ := bind_eq_ok.mp h
  obtain ⟨hshape, ls, hls, hcovers⟩ := places_of_expr (attempt_eq_ok.mp hlhs)
  obtain ⟨rfl, hspan, a, rs, hrs, hak, hrhs⟩ := equationWith_eq_ok h
  exact ⟨ls ++ a :: rs, by rw [hls, hrs, List.append_assoc], ls, a, rs, rfl, hak,
    ⟨hshape, hcovers⟩, hrhs, hspan⟩

theorem equation_eq_ok (h : equation p = .ok e q) :
    ∃ ts, p.words = ts ++ q.words ∧ e.Spells ts := by
  obtain ⟨ts, hts, hcovers⟩ := equation_covers h
  exact ⟨ts, hts, hcovers.spells⟩

theorem request_covers (h : request p = .ok r q) : ∃ ts, p.words = ts ++ q.words ∧ r.Covers ts := by
  obtain ⟨n, p₁, hn, h⟩ := bind_eq_ok.mp h
  obtain ⟨c, p₂, hc, h⟩ := bind_eq_ok.mp h
  obtain ⟨e, p₃, he, h⟩ := bind_eq_ok.mp h
  obtain ⟨hnwords, hnk⟩ := token_eq_ok (attempt_eq_ok.mp hn)
  obtain ⟨hcwords, hck⟩ := token_eq_ok (attempt_eq_ok.mp hc)
  obtain ⟨es, hes, hcovers⟩ := equation_covers (attempt_eq_ok.mp (mapError_eq_ok.mp he))
  cases h
  exact ⟨n :: c :: es, by rw [hnwords, hcwords, hes]; rfl, n, c, es, rfl, hnk, hck, rfl, rfl,
    hcovers, rfl⟩

theorem request_eq_ok (h : request p = .ok r q) : ∃ ts, p.words = ts ++ q.words ∧ r.Spells ts := by
  obtain ⟨ts, hts, hcovers⟩ := request_covers h
  exact ⟨ts, hts, hcovers.spells⟩

theorem statement_eq_ok (h : statement p = .ok s q) :
    (∃ r, s = .request r ∧ request p = .ok r q) ∨
      (∃ e, s = .equation e ∧ equation p = .ok e q) ∨ ∃ t, s = .phrase t ∧ expr p = .ok t q := by
  rcases orElse_eq_ok h with h | h
  · obtain ⟨r, hr, rfl⟩ := map_eq_ok.mp h
    exact Or.inl ⟨r, rfl, hr⟩
  · obtain ⟨lhs, p₁, hlhs, h⟩ := bind_eq_ok.mp h
    obtain ⟨state, p₂, hget, h⟩ := bind_eq_ok.mp h
    cases hget
    cases hassign : ahead (token .assign) p₁ with
    | some w =>
      rw [hassign] at h
      obtain ⟨e, he, rfl⟩ := map_eq_ok.mp h
      exact Or.inr (Or.inl ⟨e, rfl, bind_eq_ok.mpr ⟨lhs, p₁, hlhs, he⟩⟩)
    | none =>
      rw [hassign] at h
      cases h
      exact Or.inr (Or.inr ⟨lhs, rfl, attempt_eq_ok.mp hlhs⟩)

end

section

variable {a : Token} {ls rs : List Token} {l r : Phrase}

theorem equation_of_words (hl : l.WellShaped) (hls : l.Spells ls) (ha : a.kind = .assign)
    (hr : r.WellShaped) (hrs : r.Spells rs) (h : p.words = ls ++ a :: rs) :
    ∃ e, equation.Gives p e [] ∧ e.lhs.unplaced = l.unplaced ∧ e.rhs.unplaced = r.unplaced := by
  have hends : Ends (a :: rs) := by
    intro w ws hw
    cases hw
    rw [ha]
    rfl
  obtain ⟨lhs, ⟨p₁, hlhs, hp₁⟩, hlsame⟩ := reads_expr hl hls hends p h
  obtain ⟨p₂, hassign, hp₂⟩ := (token_of_words hp₁ ha).attempt
  obtain ⟨rhs, ⟨p₃, hrhs, hp₃⟩, hrsame⟩ := expr_of_words hr hrs hp₂
  refine ⟨⟨lhs, rhs, lhs.span.join rhs.span⟩, ⟨p₃, ?_, hp₃⟩, hlsame, hrsame⟩
  have hnone : ahead (token .assign) p₃ = none := ahead_eq_none (token_refuses_of_nil hp₃)
  rw [equation, bind_of_ok (attempt_eq_ok.mpr hlhs), equationWith, bind_of_ok hassign,
    bind_of_ok (attempt_eq_ok.mpr hrhs), bind_of_ok (get_eq p₃), hnone]
  rfl

theorem request_of_words {n c : Token} (hn : n.kind = .name) (hc : c.kind = .colon)
    (hl : l.WellShaped) (hls : l.Spells ls) (ha : a.kind = .assign)
    (hr : r.WellShaped) (hrs : r.Spells rs) (h : p.words = n :: c :: (ls ++ a :: rs)) :
    ∃ q, request.Gives p q [] ∧ q.target = n.lexeme ∧ q.equation.lhs.unplaced = l.unplaced ∧
      q.equation.rhs.unplaced = r.unplaced := by
  obtain ⟨p₁, hname, hp₁⟩ := (token_of_words h hn).attempt
  obtain ⟨p₂, hcolon, hp₂⟩ := (token_of_words hp₁ hc).attempt
  obtain ⟨e, ⟨p₃, he, hp₃⟩, hlsame, hrsame⟩ := equation_of_words hl hls ha hr hrs hp₂
  refine ⟨⟨n.lexeme, n.span, e, n.span.join e.span⟩, ⟨p₃, ?_, hp₃⟩, rfl, hlsame, hrsame⟩
  rw [request, bind_of_ok hname, bind_of_ok hcolon,
    bind_of_ok (mapError_eq_ok.mpr (attempt_eq_ok.mpr he))]
  rfl

theorem request_refuses (h : ∀ n c ts, p.words = n :: c :: ts → c.kind ≠ .colon) :
    request.Refuses p := by
  cases hp : p.words with
  | nil => exact (token_refuses_of_nil hp).attempt.bind _
  | cons n ts =>
    by_cases hn : n.kind = .name
    · obtain ⟨p₁, hname, hp₁⟩ := (token_of_words hp hn).attempt
      have hcolon : (token .colon).Refuses p₁ := by
        cases ts with
        | nil => exact token_refuses_of_nil hp₁
        | cons c ts => exact token_refuses hp₁ (h n c ts hp)
      unfold Refuses
      rw [request, bind_of_ok hname]
      exact hcolon.attempt.bind _
    · exact (token_refuses hp hn).attempt.bind _

end

section

variable {r : Request} {e : Equation} {t : Phrase}

theorem statement_gives_request :
    statement.Gives p (.request r) ts ↔ request.Gives p r ts := by
  constructor
  · rintro ⟨q, h, hq⟩
    obtain ⟨r', hr, h⟩ | ⟨e, he, -⟩ | ⟨t, ht, -⟩ := statement_eq_ok h
    · cases hr
      exact ⟨q, h, hq⟩
    · cases he
    · cases ht
  · rintro ⟨q, h, hq⟩
    exact Gives.orElse ⟨q, map_eq_ok.mpr ⟨r, h, rfl⟩, hq⟩ _

theorem statement_of_not_request (h : ∀ n c ts, p.words = n :: c :: ts → c.kind ≠ .colon) :
    statement p = equationOrPhrase p :=
  ((request_refuses h).map Statement.request).orElse equationOrPhrase

theorem not_request_of_expression {ls : List Token} (hls : FormExpression ls)
    (hts : ∀ w ws, ts = w :: ws → w.kind ≠ .colon) (h : p.words = ls ++ ts) :
    ∀ n c ws, p.words = n :: c :: ws → c.kind ≠ .colon := by
  obtain ⟨l, -, hspells⟩ := hls
  intro n c ws hp
  obtain ⟨u, us, rfl, -⟩ := hspells.exists_cons
  rw [h, List.cons_append] at hp
  cases us with
  | nil => exact hts c ws (List.cons.inj hp).2
  | cons v vs =>
    obtain ⟨rfl, -⟩ := List.cons.inj (List.cons.inj hp).2
    exact hspells.kind_ne_colon v (by simp)

theorem statement_gives_equation :
    statement.Gives p (.equation e) [] ↔ equation.Gives p e [] := by
  constructor
  · rintro ⟨q, h, hq⟩
    obtain ⟨r, hr, -⟩ | ⟨e', he, h⟩ | ⟨t, ht, -⟩ := statement_eq_ok h
    · cases hr
    · cases he
      exact ⟨q, h, hq⟩
    · cases ht
  · rintro ⟨q, h, hq⟩
    obtain ⟨ts, hts, hspells⟩ := equation_eq_ok h
    obtain ⟨ls, a, rs, rfl, ha, hl, -⟩ := hspells
    rw [hq, List.append_nil] at hts
    have hcolon : ∀ w ws, a :: rs = w :: ws → w.kind ≠ .colon := by
      intro w ws hw
      cases hw
      rw [ha]
      decide
    have hrequest := not_request_of_expression ⟨e.lhs, hl⟩ hcolon hts
    obtain ⟨lhs, p₁, hlhs, hrest⟩ := bind_eq_ok.mp h
    obtain ⟨-, -, b, bs, hbs, hb, -⟩ := equationWith_eq_ok hrest
    obtain ⟨p₂, hassign, -⟩ := token_of_words hbs hb
    refine ⟨q, ?_, hq⟩
    rw [statement_of_not_request hrequest, equationOrPhrase, bind_of_ok hlhs,
      bind_of_ok (get_eq p₁), ahead, hassign]
    exact map_eq_ok.mpr ⟨e, hrest, rfl⟩

theorem statement_gives_phrase : statement.Gives p (.phrase t) [] ↔ expr.Gives p t [] := by
  constructor
  · rintro ⟨q, h, hq⟩
    obtain ⟨r, hr, -⟩ | ⟨e, he, -⟩ | ⟨t', ht, h⟩ := statement_eq_ok h
    · cases hr
    · cases he
    · cases ht
      exact ⟨q, h, hq⟩
  · rintro ⟨q, h, hq⟩
    obtain ⟨hshape, ts, hts, hspells⟩ := takes_of_expr h
    rw [hq] at hts
    have hnil : ∀ (w : Token) (ws : List Token), [] = w :: ws → w.kind ≠ .colon :=
      fun w ws hw => nomatch hw
    have hrequest := not_request_of_expression ⟨t, hshape, hspells⟩ hnil hts
    have hnone : ahead (token .assign) q = none := ahead_eq_none (token_refuses_of_nil hq)
    refine ⟨q, ?_, hq⟩
    rw [statement_of_not_request hrequest, equationOrPhrase, bind_of_ok (attempt_eq_ok.mpr h),
      bind_of_ok (get_eq q), hnone]
    rfl

theorem exists_request_iff : (∃ r, request.Gives p r []) ↔ FormRequest p.words := by
  constructor
  · rintro ⟨r, q, h, hq⟩
    obtain ⟨ts, hts, hspells⟩ := request_eq_ok h
    rw [hts, hq, List.append_nil]
    exact hspells.form
  · rintro ⟨n, c, es, hts, hn, hc, ls, a, rs, rfl, ha, ⟨l, hl, hls⟩, ⟨r, hr, hrs⟩⟩
    obtain ⟨q, hq, -⟩ := request_of_words hn hc hl hls ha hr hrs hts
    exact ⟨q, hq⟩

theorem exists_equation_iff : (∃ e, equation.Gives p e []) ↔ FormEquation p.words := by
  constructor
  · rintro ⟨e, q, h, hq⟩
    obtain ⟨ts, hts, hspells⟩ := equation_eq_ok h
    rw [hts, hq, List.append_nil]
    exact hspells.form
  · rintro ⟨ls, a, rs, hts, ha, ⟨l, hl, hls⟩, ⟨r, hr, hrs⟩⟩
    obtain ⟨e, he, -⟩ := equation_of_words hl hls ha hr hrs hts
    exact ⟨e, he⟩

theorem exists_expr_iff : (∃ t, expr.Gives p t []) ↔ FormExpression p.words := by
  constructor
  · rintro ⟨t, q, h, hq⟩
    obtain ⟨hshape, ts, hts, hspells⟩ := takes_of_expr h
    rw [hts, hq, List.append_nil]
    exact ⟨t, hshape, hspells⟩
  · rintro ⟨t, hshape, hspells⟩
    obtain ⟨u, hu, -⟩ := expr_of_words hshape hspells rfl
    exact ⟨u, hu⟩

end

end Parse

theorem Statement.ofSource_eq_ok {source : String} {s : Statement} :
    ofSource source = .ok s ↔ Parse.statement.Gives (.ofSource source) s [] := by
  rw [← Parse.full_iff, ofSource]
  cases Parse.full Parse.statement (.ofSource source) with
  | ok s' q =>
    constructor
    · intro h
      cases h
      exact ⟨q, rfl⟩
    · rintro ⟨q, h⟩
      cases h
      rfl
  | error e q =>
    constructor
    · intro h
      cases h
    · rintro ⟨q, h⟩
      cases h

/-- The words of a text tell whether it is read as a request, an equation, an expression or not at
all, and each of the three is read alike by itself and as a statement. -/
theorem statement_forms (source : String) :
    ((∃ r, Statement.ofSource source = .ok (.request r)) ↔ FormRequest (words (tokenize source))) ∧
      ((∃ e, Statement.ofSource source = .ok (.equation e)) ↔
        FormEquation (words (tokenize source))) ∧
      ((∃ t, Statement.ofSource source = .ok (.phrase t)) ↔
        FormExpression (words (tokenize source))) ∧
      (∀ r, (∃ q, Parse.full Parse.request (.ofSource source) = .ok r q) ↔
        Statement.ofSource source = .ok (.request r)) ∧
      (∀ e, (∃ q, Parse.full Parse.equation (.ofSource source) = .ok e q) ↔
        Statement.ofSource source = .ok (.equation e)) ∧
      ∀ t, (∃ q, Parse.full Parse.expr (.ofSource source) = .ok t q) ↔
        Statement.ofSource source = .ok (.phrase t) := by
  simp only [Statement.ofSource_eq_ok, Parse.full_iff, Parse.statement_gives_request,
    Parse.statement_gives_equation, Parse.statement_gives_phrase, implies_true, and_true]
  exact ⟨Parse.exists_request_iff, Parse.exists_equation_iff, Parse.exists_expr_iff⟩

end Rearrange

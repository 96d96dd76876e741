import Rearrange.Answer
import Rearrange.Proofs.StatementForms
import Rearrange.Proofs.TextRegions

namespace Rearrange

/-- An error about at least one region of a text, and about nothing outside of it. -/
def Located.Marks {Cause : Type} (e : Located Cause) (source : String) : Prop :=
  e.spans ≠ [] ∧ ∀ a ∈ e.spans, a.Within source

def Parser.Inside (p : Parser) (source : String) : Prop :=
  ∀ t, t ∈ p.before ∨ t ∈ p.after → t.span.Within source

variable {source : String}

theorem Parser.inside_ofSource (source : String) : (Parser.ofSource source).Inside source := by
  rintro t (ht | ht)
  · cases ht
  · exact (tiles_tokenize source).within t ht

namespace Parser

variable {p : Parser}

theorem Inside.endSpan (h : p.Inside source) : p.endSpan.Within source := by
  unfold Parser.endSpan
  split
  next t ht =>
    refine (h t ?_).point_stop
    cases hlast : p.after.getLast? with
    | some u =>
      rw [hlast] at ht
      cases ht
      exact Or.inr (List.mem_of_getLast? hlast)
    | none =>
      rw [hlast] at ht
      exact Or.inl (List.mem_of_mem_head? ht)
  next => exact Span.within_zero source

theorem Inside.span (h : p.Inside source) : p.span.Within source := by
  unfold Parser.span
  split
  next t ts hafter => exact h t (Or.inr (by simp [hafter]))
  next => exact h.endSpan

theorem skipWhitespace_go_mem {before after : List Token} {t : Token} :
    t ∈ (skipWhitespace.go before after).before ∨ t ∈ (skipWhitespace.go before after).after ↔
      t ∈ before ∨ t ∈ after := by
  fun_induction skipWhitespace.go before after with
  | case1 before => rfl
  | case2 before u us hu ih =>
    rw [ih, List.mem_cons, List.mem_cons]
    exact or_assoc.trans or_left_comm
  | case3 before u us hu => rfl

theorem Inside.skipWhitespace (h : p.Inside source) : p.skipWhitespace.Inside source :=
  fun t ht => h t (skipWhitespace_go_mem.mp ht)

end Parser

namespace Parse

variable {α β : Type}

/-- Reading tokens of a text keeps to these tokens, gives values of a kind, and if it fails marks
regions of the text. -/
structure Keeps (source : String) (r : Parse α) (good : α → Prop) : Prop where
  ok : ∀ {p a q}, p.Inside source → r p = .ok a q → q.Inside source ∧ good a
  error : ∀ {p e q}, p.Inside source → r p = .error e q → q.Inside source ∧ e.Marks source

variable {r s : Parse α} {f : α → Parse β} {good : α → Prop} {good' : β → Prop}

theorem marks_errorAt {p : Parser} (h : p.Inside source) (cause : Fault) (fatal : Bool) :
    (errorAt p cause fatal).Marks source :=
  ⟨List.cons_ne_nil _ _, fun _ ha => List.mem_singleton.mp ha ▸ h.span⟩

theorem marks_token {t : Token} (h : t.span.Within source) (cause : Fault) (fatal : Bool) :
    (⟨cause, [t.span], fatal⟩ : ParseError).Marks source :=
  ⟨List.cons_ne_nil _ _, fun _ ha => List.mem_singleton.mp ha ▸ h⟩

theorem Keeps.pure {a : α} (h : good a) : Keeps source (pure a) good where
  ok hp hr := by cases hr; exact ⟨hp, h⟩
  error _ hr := by cases hr

theorem Keeps.throw {e : ParseError} (h : e.Marks source) : Keeps source (throw e) good where
  ok _ hr := by cases hr
  error hp hr := by cases hr; exact ⟨hp, h⟩

theorem Keeps.fail (cause : Fault) : Keeps source (fail cause) good where
  ok _ hr := by cases hr
  error hp hr := by cases hr; exact ⟨hp, marks_errorAt hp cause false⟩

theorem Keeps.bind (h : Keeps source r good) (hf : ∀ a, good a → Keeps source (f a) good') :
    Keeps source (r >>= f) good' where
  ok hp hr := by
    obtain ⟨a, p', ha, hr⟩ := bind_eq_ok.mp hr
    obtain ⟨hp', hgood⟩ := h.ok hp ha
    exact (hf a hgood).ok hp' hr
  error {p e q} hp hr := by
    change EStateM.bind r f p = .error e q at hr
    unfold EStateM.bind at hr
    split at hr
    next a p' ha =>
      obtain ⟨hp', hgood⟩ := h.ok hp ha
      exact (hf a hgood).error hp' hr
    next e' p' he =>
      cases hr
      exact h.error hp he

theorem Keeps.map {g : α → β} (h : Keeps source r good) (hg : ∀ a, good a → good' (g a)) :
    Keeps source (g <$> r) good' :=
  h.bind fun a ha => .pure (hg a ha)

theorem Keeps.get : Keeps source get fun p => p.Inside source where
  ok hp hr := by cases hr; exact ⟨hp, hp⟩
  error _ hr := by cases hr

theorem Keeps.attempt (h : Keeps source r good) : Keeps source (attempt r) good where
  ok hp hr := h.ok hp (attempt_eq_ok.mp hr)
  error {p e q} hp hr := by
    unfold Parse.attempt at hr
    split at hr
    next => cases hr
    next e' p' he =>
      cases hr
      exact ⟨hp, (h.error hp he).2⟩

theorem Keeps.attemptThen {check : α → Parser → Option ParseError} (h : Keeps source r good)
    (hcheck : ∀ a p e, p.Inside source → check a p = some e → e.Marks source) :
    Keeps source (attemptThen r check) good := by
  refine Keeps.attempt ⟨fun {p a q} hp hr => ?_, fun {p e q} hp hr => ?_⟩
  · split at hr
    next b p' hb =>
      split at hr
      next => cases hr; exact h.ok hp hb
      next => cases hr
    next => cases hr
  · split at hr
    next b p' hb =>
      obtain ⟨hp', -⟩ := h.ok hp hb
      split at hr
      next => cases hr
      next => cases hr; exact ⟨hp', hcheck _ _ _ hp' ‹_›⟩
    next e' p' he => cases hr; exact h.error hp he

theorem Keeps.orElse (hr : Keeps source r good) (hs : Keeps source s good) :
    Keeps source (orElse r s) good where
  ok {p a q} hp h := by
    unfold Parse.orElse at h
    split at h
    next b p' hb => cases h; exact hr.ok hp hb
    next e p' he =>
      split at h
      next => cases h
      next => exact hs.ok (hr.error hp he).1 h
  error {p e q} hp h := by
    unfold Parse.orElse at h
    split at h
    next => cases h
    next e' p' he =>
      split at h
      next => cases h; exact hr.error hp he
      next => exact hs.error (hr.error hp he).1 h

theorem Keeps.mapError {g : ParseError → ParseError} (h : Keeps source r good)
    (hg : ∀ e, e.Marks source → (g e).Marks source) : Keeps source (mapError g r) good where
  ok hp hr := h.ok hp (mapError_eq_ok.mp hr)
  error {p e q} hp hr := by
    unfold Parse.mapError at hr
    split at hr
    next => cases hr
    next e' p' he =>
      cases hr
      obtain ⟨hp', hmarks⟩ := h.error hp he
      exact ⟨hp', hg e' hmarks⟩

theorem Keeps.of_ahead {p : Parser} {a : α} (h : Keeps source r good) (hp : p.Inside source)
    (ha : ahead r p = some a) : good a := by
  unfold ahead at ha
  split at ha
  next b q hb => cases ha; exact (h.ok hp hb).2
  next => cases ha

theorem Keeps.next : Keeps source next fun t => t.span.Within source where
  ok {p t q} hp hr := by
    have hskip := hp.skipWhitespace
    unfold Parse.next at hr
    simp only at hr
    split at hr
    next u us hafter =>
      have hu : ∀ v, v ∈ u :: us → v.span.Within source := fun v hv =>
        hskip v (Or.inr (hafter ▸ hv))
      cases hr
      refine ⟨?_, hu t (List.mem_cons_self ..)⟩
      rintro v (hv | hv)
      · rcases List.mem_cons.mp hv with rfl | hv
        · exact hu v (List.mem_cons_self ..)
        · exact hskip v (Or.inl hv)
      · exact hu v (List.mem_cons_of_mem _ hv)
    next => cases hr
  error {p e q} hp hr := by
    unfold Parse.next at hr
    simp only at hr
    split at hr
    next => cases hr
    next =>
      cases hr
      exact ⟨hp.skipWhitespace, marks_errorAt hp.skipWhitespace _ _⟩

theorem Keeps.token (kind : TokenKind) :
    Keeps source (token kind) fun t => t.span.Within source := by
  refine Keeps.next.bind fun t ht => ?_
  split
  next => exact .pure ht
  next => exact .throw (marks_token ht _ _)

theorem Keeps.full (h : Keeps source r good) : Keeps source (full r) good := by
  have hskip : Keeps source (modify Parser.skipWhitespace) fun _ => True :=
    ⟨fun hp hr => by cases hr; exact ⟨hp.skipWhitespace, trivial⟩, fun _ hr => by cases hr⟩
  refine h.bind fun a ha => hskip.bind fun _ _ => Keeps.get.bind fun p _ => ?_
  split
  next => exact .pure ha
  next => exact .fail _

theorem keeps_binOp : Keeps source binOp fun _ => True := by
  refine Keeps.next.bind fun t ht => ?_
  split
  next => exact .pure trivial
  next => exact .throw (marks_token ht _ _)

theorem keeps_unaryOp : Keeps source unaryOp fun _ => True := by
  refine Keeps.next.bind fun t ht => ?_
  split
  next => exact .pure trivial
  next => exact .throw (marks_token ht _ _)

theorem keeps_number : Keeps source number fun _ => True := by
  refine ((Keeps.token .int).attempt.orElse (Keeps.token .float).attempt).bind fun t ht => ?_
  split
  next => exact .pure trivial
  next => exact .throw (marks_token ht _ _)

theorem keeps_name : Keeps source name fun _ => True :=
  (Keeps.token .name).attempt.bind fun _ _ => .pure trivial

theorem keeps_literal : Keeps source literal fun _ => True :=
  keeps_number.attempt.orElse keeps_name.attempt

section

variable {operand expr : Parse Phrase} {chain : Phrase → Parse Phrase}

theorem keeps_parenWith (h : Keeps source expr fun _ => True) :
    Keeps source (parenWith expr) fun _ => True := by
  refine (Keeps.token .openParen).attempt.bind fun opening hopening => ?_
  refine h.attempt.bind fun inner _ => ?_
  exact ((Keeps.token .closeParen).attempt.mapError fun _ _ =>
    marks_token hopening (.unclosedParen true) true).bind fun _ _ => .pure trivial

theorem keeps_operandWith (hoperand : Keeps source operand fun _ => True)
    (hexpr : Keeps source expr fun _ => True) :
    Keeps source (operandWith operand expr) fun _ => True := by
  have hunary : Keeps source (unaryWith operand) fun _ => True :=
    keeps_unaryOp.attempt.bind fun _ _ => hoperand.bind fun _ _ => .pure trivial
  have hprimary : Keeps source (primaryWith expr) fun _ => True :=
    keeps_literal.attempt.orElse (keeps_parenWith hexpr).attempt
  exact hunary.attempt.orElse hprimary.attempt

theorem keeps_operator (prec : Prec) : Keeps source (operator prec) fun _ => True := by
  refine keeps_binOp.attemptThen fun op p e hp he => ?_
  split at he
  next => cases he
  next => cases he; exact marks_errorAt hp _ _

theorem keeps_chainWith (prec : Prec) (lhs : Phrase) (hoperand : Keeps source operand fun _ => True)
    (hchain : ∀ t, Keeps source (chain t) fun _ => True) :
    Keeps source (chainWith operand chain prec lhs) fun _ => True := by
  have hrest (op : BinOp) (s : Span) :
      Keeps source (operand >>= fun rhs => chain (lhs.attach op s rhs)) fun _ => True :=
    hoperand.bind fun _ _ => hchain _
  constructor
  · intro p t q hp h
    unfold chainWith at h
    split at h
    next => cases h; exact ⟨hp, trivial⟩
    next op s p' hop => exact (hrest op s).ok ((keeps_operator prec).ok hp hop).1 h
  · intro p e q hp h
    unfold chainWith at h
    split at h
    next => cases h
    next op s p' hop => exact (hrest op s).error ((keeps_operator prec).ok hp hop).1 h

theorem keeps_exprWith (hoperand : Keeps source operand fun _ => True)
    (hchain : ∀ t, Keeps source (chain t) fun _ => True) :
    Keeps source (exprWith operand chain) fun _ => True := by
  have hrest : Keeps source (Parse.attempt operand >>= chain) fun _ => True :=
    hoperand.attempt.bind fun t _ => hchain t
  constructor
  · intro p t q hp h
    unfold exprWith at h
    split at h
    next => cases h
    next => exact hrest.ok hp h
  · intro p e q hp h
    unfold exprWith at h
    split at h
    next => cases h; exact ⟨hp, marks_errorAt hp _ _⟩
    next => exact hrest.error hp h

end

theorem keeps_of_depth (n : Nat) :
    Keeps source (operandAt n) (fun _ => True) ∧ Keeps source (exprAt n) (fun _ => True) ∧
      ∀ prec lhs, Keeps source (chainAt n prec lhs) fun _ => True := by
  induction n with
  | zero => exact ⟨.fail _, .fail _, fun _ _ => .fail _⟩
  | succ n ih =>
    obtain ⟨hoperand, hexpr, hchain⟩ := ih
    exact ⟨keeps_operandWith hoperand hexpr, keeps_exprWith hoperand (hchain .any),
      fun prec lhs => keeps_chainWith prec lhs hoperand (hchain prec)⟩

theorem keeps_expr : Keeps source expr fun _ => True where
  ok {p _ _} hp h := (keeps_of_depth p.depth).2.1.ok hp h
  error {p _ _} hp h := (keeps_of_depth p.depth).2.1.error hp h

theorem keeps_equationWith (lhs : Phrase) : Keeps source (equationWith lhs) fun _ => True := by
  refine (Keeps.token .assign).attempt.bind fun eq heq => ?_
  refine keeps_expr.attempt.bind fun rhs _ => Keeps.get.bind fun p hp => ?_
  split
  next second hsecond =>
    have hsecond := (Keeps.token .assign).of_ahead hp hsecond
    refine .throw ⟨List.cons_ne_nil _ _, fun a ha => ?_⟩
    rcases List.mem_cons.mp ha with rfl | ha
    · exact heq
    · exact List.mem_singleton.mp ha ▸ hsecond
  next => exact .pure trivial

theorem keeps_request : Keeps source request fun _ => True := by
  refine (Keeps.token .name).attempt.bind fun target _ => ?_
  refine (Keeps.token .colon).attempt.bind fun _ _ => ?_
  have hequation : Keeps source equation fun _ => True :=
    keeps_expr.attempt.bind fun lhs _ => keeps_equationWith lhs
  have hfatal := hequation.attempt.mapError (g := fun e => { e with fatal := true }) fun _ he => he
  exact hfatal.bind fun _ _ => .pure trivial

theorem keeps_statement : Keeps source statement fun _ => True := by
  refine (keeps_request.map fun _ _ => trivial).attempt.orElse ?_
  refine keeps_expr.attempt.bind fun lhs _ => Keeps.get.bind fun p _ => ?_
  split
  next => exact (keeps_equationWith lhs).map fun _ _ => trivial
  next => exact .pure trivial

end Parse

theorem Statement.marks_of_ofSource {e : ParseError} (h : ofSource source = .error e) :
    e.Marks source := by
  unfold ofSource at h
  split at h
  next => cases h
  next e' q he =>
    cases h
    exact (Parse.keeps_statement.full.error (Parser.inside_ofSource source) he).2

theorem within_join {w v : Token} {ws : List Token} (h : (w :: ws).Sublist (tokenize source))
    (hv : v ∈ w :: ws) : (w.span.join v.span).Within source := by
  have hwithin (u : Token) (hu : u ∈ w :: ws) : u.span.Within source :=
    (tiles_tokenize source).within u (h.mem hu)
  have hw := hwithin w (List.mem_cons_self ..)
  refine hw.join (hwithin v hv) ?_
  rcases List.mem_cons.mp hv with rfl | hv'
  · exact hw.ordered
  · have hpairwise := (Lexer.scans_tokensFrom 0 source.toList).pairwise.sublist h
    have hbehind : w.span.stop ≤ v.span.start := List.rel_of_pairwise_cons hpairwise hv'
    exact hw.ordered.trans (hbehind.trans (hwithin v hv).ordered)

theorem Equation.Covers.within {e : Equation} {ts : List Token} (h : e.Covers ts)
    (hts : ts.Sublist (tokenize source)) : e.span.Within source := by
  obtain ⟨ls, a, rs, rfl, -, ⟨-, hl⟩, ⟨-, hr⟩, hspan⟩ := h
  obtain ⟨w, ws, rfl, hstart⟩ := hl.exists_cons
  obtain ⟨vs, v, rfl, hstop⟩ := hr.exists_concat
  rw [hspan, Span.join, hstart, hstop]
  exact within_join hts (by simp)

def Statement.equation? : Statement → Option Equation
  | request r => some r.equation
  | equation e => some e
  | phrase _ => none

theorem Statement.within_of_ofSource {s : Statement} {e : Equation} (h : ofSource source = .ok s)
    (he : s.equation? = some e) : e.span.Within source := by
  have hsublist : (words (tokenize source)).Sublist (tokenize source) := List.filter_sublist
  obtain ⟨q, hs, hq⟩ := ofSource_eq_ok.mp h
  obtain ⟨r, rfl, hr⟩ | ⟨e', rfl, he'⟩ | ⟨t, rfl, -⟩ := Parse.statement_eq_ok hs
  · obtain ⟨ts, hts, n, c, es, rfl, -, -, -, -, hcovers, -⟩ := Parse.request_covers hr
    cases he
    rw [hq, List.append_nil] at hts
    have hes : es.Sublist (n :: c :: es) := ((List.Sublist.refl es).cons c).cons n
    exact hcovers.within (hes.trans (hts ▸ hsublist))
  · obtain ⟨ts, hts, hcovers⟩ := Parse.equation_covers he'
    cases he
    rw [hq, List.append_nil] at hts
    exact hcovers.within (hts ▸ hsublist)
  · cases he

theorem Statement.spans_of_answer {s : Statement} {p : Located Problem} (h : s.answer = .error p) :
    ∃ e, s.equation? = some e ∧ p.spans = [e.span] := by
  have hanswer {e : Equation} {target : String} (h : e.answer target = .error p) :
      p.spans = [e.span] := by
    unfold Equation.answer at h
    split at h
    next => cases h
    next => cases h; rfl
  cases s with
  | request r => exact ⟨r.equation, rfl, hanswer h⟩
  | equation e =>
    refine ⟨e, rfl, ?_⟩
    simp only [Statement.answer] at h
    split at h
    next target _ => exact hanswer h
    next => cases h; rfl
  | phrase t => cases h

theorem marks_of_answer {p : Located Problem} (h : answer source = .error p) : p.Marks source := by
  unfold answer at h
  split at h
  next s hs =>
    obtain ⟨e, he, hspans⟩ := Statement.spans_of_answer h
    unfold Located.Marks
    rw [hspans]
    refine ⟨List.cons_ne_nil _ _, fun a ha => ?_⟩
    exact List.mem_singleton.mp ha ▸ Statement.within_of_ofSource hs he
  next e he =>
    cases h
    exact Statement.marks_of_ofSource he

/-- The tokens of a line are the line cut into pieces, and whatever keeps it from being read or
answered is marked in the line. -/
theorem tiles_and_failures_mark (source : String) :
    Tiles source (tokenize source) ∧
      (∀ e, Statement.ofSource source = .error e → e.Marks source) ∧
        ∀ p, answer source = .error p → p.Marks source :=
  ⟨tiles_tokenize source, fun _ => Statement.marks_of_ofSource, fun _ => marks_of_answer⟩

theorem tiles_and_failures_mark_accent :
    Tiles "é = 1" [⟨.symbol, ⟨0, 2⟩, "é"⟩, ⟨.blank, ⟨2, 3⟩, " "⟩, ⟨.assign, ⟨3, 4⟩, "="⟩,
        ⟨.blank, ⟨4, 5⟩, " "⟩, ⟨.int, ⟨5, 6⟩, "1"⟩] ∧
      (∃ e, Statement.ofSource "é = 1" = .error e ∧ e.spans = [⟨0, 2⟩] ∧ e.Marks "é = 1") ∧
        ∃ p, answer "a = b" = .error p ∧ p.spans = [⟨0, 5⟩] ∧ p.Marks "a = b" := by
  have htokens : tokenize "é = 1" = [⟨.symbol, ⟨0, 2⟩, "é"⟩, ⟨.blank, ⟨2, 3⟩, " "⟩,
      ⟨.assign, ⟨3, 4⟩, "="⟩, ⟨.blank, ⟨4, 5⟩, " "⟩, ⟨.int, ⟨5, 6⟩, "1"⟩] := by
    decide +kernel
  have hread : Statement.ofSource "é = 1" =
      .error ⟨.unexpectedToken [.openParen] .symbol, [⟨0, 2⟩], false⟩ := by
    decide +kernel
  have hanswer : answer "a = b" = .error ⟨.ambiguousTarget ["a", "b"], [⟨0, 5⟩], false⟩ := by
    decide +kernel
  obtain ⟨htiles, hmarks, -⟩ := tiles_and_failures_mark "é = 1"
  obtain ⟨-, -, hmarks'⟩ := tiles_and_failures_mark "a = b"
  exact ⟨htokens ▸ htiles, ⟨_, hread, rfl, hmarks _ hread⟩, _, hanswer, rfl, hmarks' _ hanswer⟩

end Rearrange

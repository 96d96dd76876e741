import Rearrange.Proofs.FailedExpressions
import Rearrange.Proofs.ForwardReads
import Rearrange.Proofs.TextRegions

namespace Rearrange

namespace Parser

variable {p q : Parser}

theorem last_eq (p : Parser) : (p.after.getLast? <|> p.before.head?) = p.tokens.getLast? := by
  rw [tokens, List.getLast?_append, List.getLast?_reverse]
  cases p.after.getLast? <;> rfl

theorem SameTokens.endSpan_eq (h : p.SameTokens q) : q.endSpan = p.endSpan := by
  rw [endSpan, endSpan, last_eq, last_eq, show q.tokens = p.tokens from h]

theorem endSpan_ofSource (source : String) :
    (ofSource source).endSpan = .point source.utf8ByteSize := by
  have htokens : (ofSource source).tokens = tokenize source := List.nil_append _
  have htiles := tiles_tokenize source
  rw [endSpan, last_eq, htokens]
  cases h : (tokenize source).getLast? with
  | some t => exact congrArg Span.point (htiles.last t h)
  | none =>
    have hempty := htiles.join
    rw [List.getLast?_eq_none_iff.mp h] at hempty
    rw [← hempty]
    rfl

theorem span_skipWhitespace_of_nil (h : p.words = []) : p.skipWhitespace.span = p.endSpan := by
  rw [← (sameTokens_skipWhitespace p).endSpan_eq, span, words_eq_nil_iff.mp h]

end Parser

/-- An operand must follow an opening parenthesis, an operator or a sign. -/
def Token.expectsOperand (t : Token) : Bool := t.kind = .openParen || t.kind.binOp?.isSome

/-- Nothing, or the words of an expression up to a word that an operand must follow. -/
def LacksOperand (ts : List Token) : Prop :=
  ts = [] ∨ ∃ vs w us, ts = vs ++ [w] ∧ w.expectsOperand = true ∧ us ≠ [] ∧
    FormExpression (ts ++ us)

/-- Operands with an operator behind each. -/
inductive Leads : List Token → Prop
  | nil : Leads []
  | cons {e : Phrase} {op : BinOp} {t : Token} {es ts : List Token} :
    e.WellShaped → e.isBinary = false → e.Spells es → t.kind = op.kind → Leads ts →
      Leads (es ++ t :: ts)

/-- The words of an operand up to the place of another operand that is missing, and the signs that
wait for it, from the outermost to the innermost. -/
inductive Awaits : List Token → List Token → Prop
  | missing : Awaits [] []
  | sign {m : Token} {ts ms : List Token} :
    m.kind = .sub → Awaits ts ms → Awaits (m :: ts) (m :: ms)
  | paren {o : Token} {ls ts ms : List Token} :
    o.kind = .openParen → Leads ls → Awaits ts ms → Awaits (o :: (ls ++ ts)) ms

/-- The words of an expression up to the place of a missing operand, and the signs that wait. -/
def AwaitsOperand (ts ms : List Token) : Prop := ∃ ls us, ts = ls ++ us ∧ Leads ls ∧ Awaits us ms

theorem Leads.append {ls ts : List Token} (hls : Leads ls) (hts : Leads ts) : Leads (ls ++ ts) := by
  induction hls with
  | nil => exact hts
  | cons hshape hb he hk _ ih =>
    rw [List.append_assoc, List.cons_append]
    exact .cons hshape hb he hk ih

theorem Phrase.Spells.leads {e : Phrase} {es : List Token} {t : Token} {op : BinOp}
    (h : e.Spells es) (hshape : e.WellShaped) (hk : t.kind = op.kind) : Leads (es ++ [t]) := by
  induction h generalizing t op with
  | binary hop _ _ ihl ihr =>
    obtain ⟨hl, hr, -⟩ := Phrase.wellShaped_binary.mp hshape
    have hleads := (ihl hl hop).append (ihr hr hk)
    simpa using hleads
  | number hn hv => exact .cons hshape rfl (.number hn hv) hk .nil
  | name hn => exact .cons hshape rfl (.name hn) hk .nil
  | paren ho he hc => exact .cons hshape rfl (.paren ho he hc) hk .nil
  | unary hm he => exact .cons hshape rfl (.unary hm he) hk .nil

theorem Phrase.Spells.exists_concat {t : Phrase} {ts : List Token} (h : t.Spells ts) :
    ∃ us w, ts = us ++ [w] ∧ w.expectsOperand = false := by
  induction h with
  | @number w v s hk _ =>
    refine ⟨[], w, rfl, ?_⟩
    rcases hk with hk | hk <;> rw [Token.expectsOperand, hk] <;> rfl
  | @name w s hk =>
    refine ⟨[], w, rfl, ?_⟩
    rw [Token.expectsOperand, hk]
    rfl
  | @paren o c e ts s _ _ hc _ =>
    refine ⟨o :: ts, c, rfl, ?_⟩
    rw [Token.expectsOperand, hc]
    rfl
  | @unary m op e ts s u _ _ ih =>
    obtain ⟨us, w, rfl, hw⟩ := ih
    exact ⟨m :: us, w, rfl, hw⟩
  | @binary t op l r ls rs s u _ _ _ _ ihr =>
    obtain ⟨us, w, rfl, hw⟩ := ihr
    exact ⟨ls ++ t :: us, w, by simp, hw⟩

def BreaksOff (ts : List Token) : Prop := ∀ us w, ts = us ++ [w] → w.expectsOperand = true

theorem BreaksOff.of_append {ts us : List Token} (h : BreaksOff (ts ++ us)) : BreaksOff us := by
  rintro vs w rfl
  exact h (ts ++ vs) w (List.append_assoc ..).symm

theorem BreaksOff.of_cons {t : Token} {ts : List Token} (h : BreaksOff (t :: ts)) : BreaksOff ts :=
  BreaksOff.of_append (show BreaksOff ([t] ++ ts) from h)

theorem Phrase.Spells.not_breaksOff {t : Phrase} {ts : List Token} (h : t.Spells ts) :
    ¬ BreaksOff ts := by
  obtain ⟨us, w, rfl, hw⟩ := h.exists_concat
  exact fun hbreaks => Bool.false_ne_true (hw.symm.trans (hbreaks us w rfl))

theorem Awaits.awaitsOperand {ts ms : List Token} (h : Awaits ts ms) : AwaitsOperand ts ms :=
  ⟨[], ts, rfl, .nil, h⟩

theorem Awaits.signs {ts ms : List Token} (h : Awaits ts ms) :
    ∀ m ∈ ms, m ∈ ts ∧ m.kind = .sub := by
  induction h with
  | missing => exact nofun
  | sign hm _ ih =>
    intro m hmem
    obtain rfl | hmem := List.mem_cons.mp hmem
    · exact ⟨List.mem_cons_self .., hm⟩
    · exact (ih m hmem).imp_left (List.mem_cons_of_mem _)
  | paren _ _ _ ih =>
    intro m hmem
    exact (ih m hmem).imp_left fun h => List.mem_cons_of_mem _ (List.mem_append_right _ h)

theorem Phrase.Spells.awaits {t : Phrase} {ts ws us : List Token} (h : t.Spells ts)
    (hshape : t.WellShaped) (hts : ts = ws ++ us) (hus : us ≠ []) (hws : BreaksOff ws) :
    ∃ ms, AwaitsOperand ws ms ∧ (t.isBinary = false → Awaits ws ms) := by
  have hmissing (b : Prop) : ∃ ms, AwaitsOperand [] ms ∧ (b → Awaits [] ms) :=
    ⟨[], Awaits.missing.awaitsOperand, fun _ => .missing⟩
  induction h generalizing ws us with
  | number | name =>
    cases ws with
    | nil => exact hmissing _
    | cons w ws => exact absurd (List.append_eq_nil_iff.mp (List.cons.inj hts).2.symm).2 hus
  | @paren o c e es s ho he hc ih =>
    cases ws with
    | nil => exact hmissing _
    | cons w ws =>
      obtain ⟨us, c', rfl⟩ := (List.eq_nil_or_concat' us).resolve_left hus
      obtain ⟨rfl, hrest⟩ := List.cons.inj hts
      obtain ⟨rfl, -⟩ := List.append_inj' (hrest.trans (List.append_assoc ..).symm) rfl
      have hbreaks : BreaksOff ws := hws.of_cons
      have hus : us ≠ [] := by
        rintro rfl
        rw [List.append_nil] at he
        exact he.not_breaksOff hbreaks
      obtain ⟨ms, ⟨ls, vs, rfl, hls, hvs⟩, -⟩ := ih hshape rfl hus hbreaks
      have hawaits := Awaits.paren ho hls hvs
      exact ⟨ms, hawaits.awaitsOperand, fun _ => hawaits⟩
  | @unary m op e es s v hm he ih =>
    cases ws with
    | nil => exact hmissing _
    | cons w ws =>
      obtain ⟨rfl, hrest⟩ := List.cons.inj hts
      obtain ⟨ms, -, hawaits⟩ := ih hshape.1 hrest hus hws.of_cons
      have hawaits := Awaits.sign hm (hawaits hshape.2)
      exact ⟨m :: ms, hawaits.awaitsOperand, fun _ => hawaits⟩
  | @binary t op l r ls rs s v hk hl hr ihl ihr =>
    obtain ⟨hlshape, hrshape, -⟩ := Phrase.wellShaped_binary.mp hshape
    suffices ∃ ms, AwaitsOperand ws ms from this.imp fun ms h => ⟨h, nofun⟩
    obtain ⟨as, rfl, has⟩ | ⟨as, rfl, has⟩ := List.append_eq_append_iff.mp hts
    · -- the words go on behind the left operand
      cases as with
      | nil => exact absurd hws (by rw [List.append_nil]; exact hl.not_breaksOff)
      | cons w as =>
        obtain ⟨rfl, hrest⟩ := List.cons.inj has
        rw [List.append_cons] at hws ⊢
        obtain ⟨ms, ⟨ls', vs, rfl, hls', hvs⟩, -⟩ := ihr hrshape hrest hus hws.of_append
        refine ⟨ms, ls ++ [t] ++ ls', vs, (List.append_assoc ..).symm, ?_, hvs⟩
        exact (hl.leads hlshape hk).append hls'
    · cases as with
      | nil =>
        rw [List.append_nil] at hl
        exact absurd hws hl.not_breaksOff
      | cons a as =>
        obtain ⟨ms, h, -⟩ := ihl hlshape rfl (List.cons_ne_nil a as) hws
        exact ⟨ms, h⟩

theorem LacksOperand.exists_awaitsOperand {ts : List Token} (h : LacksOperand ts) :
    ∃ ms, AwaitsOperand ts ms := by
  obtain rfl | ⟨vs, w, us, rfl, hw, hus, t, hshape, hspells⟩ := h
  · exact ⟨[], Awaits.missing.awaitsOperand⟩
  have hbreaks : BreaksOff (vs ++ [w]) := by
    intro vs' w' h
    obtain ⟨-, h⟩ := List.append_inj' h rfl
    cases h
    exact hw
  obtain ⟨ms, h, -⟩ := hspells.awaits hshape rfl hus hbreaks
  exact ⟨ms, h⟩

namespace Parse

variable {p q : Parser} {e : ParseError} {w : Token} {ls ts us ms : List Token}

def missingOperand (p : Parser) : List Token → ParseError
  | [] => ⟨.unexpectedEnd, [p.endSpan], false⟩
  | m :: _ => unexpected [.openParen] m

theorem missingOperand_fatal (p : Parser) (ms : List Token) :
    (missingOperand p ms).fatal = false := by
  cases ms <;> rfl

theorem missingOperand_congr (h : p.SameTokens q) (ms : List Token) :
    missingOperand q ms = missingOperand p ms := by
  cases ms with
  | nil => rw [missingOperand, missingOperand, h.endSpan_eq]
  | cons m ms => rfl

theorem literal_refuses (hp : p.words = w :: ts) (hint : w.kind ≠ .int) (hfloat : w.kind ≠ .float)
    (hname : w.kind ≠ .name) : literal.Refuses p :=
  (number_refuses hp hint hfloat).orElse_refuses (name_refuses hp hname).attempt

theorem operand_fails_of_nil (hp : p.words = []) : operand.Fails p (missingOperand p []) := by
  have hunary : unary.Refuses p := ((next_refuses hp).bind _).attempt.bind _
  have hnumber : number.Refuses p :=
    Refuses.bind ((token_refuses_of_nil hp).orElse_refuses (token_refuses_of_nil hp).attempt) _
  have hname : name.Refuses p := (token_refuses_of_nil hp).attempt.bind _
  have hparen : paren.Fails p (missingOperand p []) := by
    refine paren_fails_iff.mpr (Or.inl (token_fails_iff.mpr (Or.inl ⟨hp, ?_⟩)))
    rw [missingOperand, errorAt, Parser.span_skipWhitespace_of_nil hp]
  exact operand_fails_iff.mpr (Or.inr ⟨hunary, hnumber.orElse_refuses hname.attempt, hparen⟩)

/-- What is wrong behind a sign is not told, unless it is fatal. -/
theorem operand_fails_of_sign {m : Token} (hp : p.words = m :: us) (hm : m.kind = .sub)
    (h : ∀ q, q.words = us → ∃ e, operand.Fails q e ∧ e.fatal = false) :
    operand.Fails p (unexpected [.openParen] m) := by
  obtain ⟨q, hsign, hq⟩ := unaryOp_of_words hp hm .neg
  obtain ⟨e, he, hfatal⟩ := h q hq
  obtain ⟨q', hunary⟩ : unary.Fails p e := unary_fails_iff.mpr (Or.inr ⟨_, q, hsign, he⟩)
  have hliteral : literal.Refuses p :=
    literal_refuses hp (by rw [hm]; decide) (by rw [hm]; decide) (by rw [hm]; decide)
  have hparen : paren.Fails p (unexpected [.openParen] m) := by
    refine paren_fails_iff.mpr (Or.inl (token_fails_iff.mpr (Or.inr ⟨m, us, hp, ?_, rfl⟩)))
    rw [hm]
    decide
  exact operand_fails_iff.mpr (Or.inr ⟨⟨e, q', hunary, hfatal⟩, hliteral, hparen⟩)

theorem expr_fails_of_climb (hp : ∀ w ws, p.words = w :: ws → w.kind ≠ .closeParen)
    (h : (climb .any).Fails p e) : expr.Fails p e := by
  refine expr_fails_iff.mpr (Or.inr ⟨?_, h⟩)
  cases hwords : p.words with
  | nil => exact token_refuses_of_nil hwords
  | cons w ws => exact token_refuses hwords (hp w ws hwords)

theorem operand_fails_of_openParen {o : Token} (hp : p.words = o :: us) (ho : o.kind = .openParen)
    (h : ∀ q, p.Forward q → q.words = us → expr.Fails q e) : operand.Fails p e := by
  obtain ⟨q, hopen, hq⟩ := token_of_words hp ho
  have hunary : unary.Refuses p := unaryWith_refuses hp (by rw [ho]; decide)
  have hliteral : literal.Refuses p :=
    literal_refuses hp (by rw [ho]; decide) (by rw [ho]; decide) (by rw [ho]; decide)
  have hexpr := h q ((moves_token .openParen).ok hopen) hq
  have hparen : paren.Fails p e := paren_fails_iff.mpr (Or.inr ⟨o, q, hopen, Or.inl hexpr⟩)
  exact operand_fails_iff.mpr (Or.inr ⟨hunary, hliteral, hparen⟩)

theorem climb_fails_of_leads (hls : Leads ls) (hp : p.words = ls ++ us)
    (h : ∀ q, p.SameTokens q → q.words = us → operand.Fails q e) : (climb .any).Fails p e := by
  induction hls generalizing p with
  | nil => exact climb_fails_iff.mpr (Or.inl (h p rfl hp))
  | @cons t op w es ts hshape hb hspells hk _ ih =>
    rw [List.append_assoc, List.cons_append] at hp
    obtain ⟨u, ⟨q, hoperand, hq⟩, -⟩ := reads_operand hshape hb hspells p hp
    obtain ⟨q', hop, hq'⟩ := operator_of_words hq hk
    have hsame : p.SameTokens q' :=
      (moves_operand.ok hoperand).sameTokens.trans ((moves_operator _).ok hop).sameTokens
    have hrest := ih hq' fun r hr => h r (hsame.trans hr)
    exact climb_fails_iff.mpr (Or.inr ⟨u, q, _, q', hoperand, hop, hrest⟩)

end Parse

theorem AwaitsOperand.kind_ne_closeParen {ts ms : List Token} (h : AwaitsOperand ts ms) :
    ∀ w ws, ts = w :: ws → w.kind ≠ .closeParen := by
  obtain ⟨ls, us, rfl, hls, hus⟩ := h
  rintro w ws hw
  cases hls with
  | nil =>
    cases hus with
    | missing => cases hw
    | sign hm =>
      cases hw
      rw [hm]
      decide
    | paren ho =>
      cases hw
      rw [ho]
      decide
  | cons _ _ hspells =>
    obtain ⟨v, vs, rfl, hv⟩ := hspells.exists_cons
    cases hw
    exact hv

open Parse in
theorem Awaits.operand_fails {ts ms : List Token} (h : Awaits ts ms) {p : Parser}
    (hp : p.words = ts) : operand.Fails p (missingOperand p ms) := by
  induction h generalizing p with
  | missing => exact operand_fails_of_nil hp
  | @sign m ts ms hm _ ih =>
    exact operand_fails_of_sign hp hm fun q hq => ⟨_, ih hq, missingOperand_fatal q ms⟩
  | @paren o ls ts ms ho hls hawaits ih =>
    refine operand_fails_of_openParen hp ho fun q hforward hq => ?_
    refine expr_fails_of_climb ?_ (climb_fails_of_leads hls hq fun r hr hwords => ?_)
    · rw [hq]
      exact AwaitsOperand.kind_ne_closeParen ⟨ls, ts, rfl, hls, hawaits⟩
    · rw [← missingOperand_congr (hforward.sameTokens.trans hr)]
      exact ih hwords

open Parse in
theorem AwaitsOperand.expr_fails {ms : List Token} {p : Parser} (h : AwaitsOperand p.words ms) :
    expr.Fails p (missingOperand p ms) := by
  refine expr_fails_of_climb h.kind_ne_closeParen ?_
  obtain ⟨ls, us, hp, hls, hawaits⟩ := h
  refine climb_fails_of_leads hls hp fun q hq hwords => ?_
  rw [← missingOperand_congr hq]
  exact hawaits.operand_fails hwords

/-- Where the words of an expression break off, and the next operand is missing, the text is refused
for its end if no sign waits for this operand. If there are such signs, the outermost of them is
told to be unexpected instead. -/
theorem missing_operand_error (source : String) (h : LacksOperand (words (tokenize source))) :
    (∃ ms, AwaitsOperand (words (tokenize source)) ms) ∧
      ∀ ms, AwaitsOperand (words (tokenize source)) ms →
        ((Parse.full Parse.expr).Fails (.ofSource source)
            ⟨.unexpectedEnd, [.point source.utf8ByteSize], false⟩ ↔ ms = []) ∧
          ∀ m rest, ms = m :: rest → m ∈ words (tokenize source) ∧ m.kind = .sub ∧
            (Parse.full Parse.expr).Fails (.ofSource source) (Parse.unexpected [.openParen] m) := by
  refine ⟨h.exists_awaitsOperand, fun ms hms => ?_⟩
  have hexpr : Parse.expr.Fails (.ofSource source) _ := AwaitsOperand.expr_fails hms
  have hfails := Parse.fails_full_iff.mpr (Or.inl hexpr)
  refine ⟨⟨fun h => ?_, ?_⟩, ?_⟩
  · cases ms with
    | nil => rfl
    | cons m ms => cases h.unique hfails
  · rintro rfl
    rw [← Parser.endSpan_ofSource]
    exact hfails
  · rintro m rest rfl
    obtain ⟨ls, us, hwords, -, hawaits⟩ := hms
    obtain ⟨hmem, hm⟩ := hawaits.signs m (List.mem_cons_self ..)
    exact ⟨by rw [hwords]; exact List.mem_append_right ls hmem, hm, hfails⟩

theorem LacksOperand.of_read {source : String} (rest : String) {vs : List Token} {w : Token}
    (hwords : words (tokenize source) = vs ++ [w]) (hw : w.expectsOperand = true)
    (hrest : words (tokenize rest) ≠ [])
    (h : (Parse.ahead (Parse.full Parse.expr)
      (.ofTokens (tokenize source ++ tokenize rest))).isSome = true) :
    LacksOperand (words (tokenize source)) := by
  obtain ⟨t, ht⟩ := Option.isSome_iff_exists.mp h
  obtain ⟨q, ht⟩ := Parse.ahead_eq_some.mp ht
  have hform := Parse.exists_expr_iff.mp ⟨t, Parse.full_iff.mp ⟨q, ht⟩⟩
  refine Or.inr ⟨vs, w, words (tokenize rest), hwords, hw, hrest, ?_⟩
  rwa [← words_append]

/-- In `2 * (x + ` nothing follows the second operator. -/
theorem missing_operand_error_sum :
    LacksOperand (words (tokenize "2 * (x + ")) ∧
      (Parse.full Parse.expr).Fails (.ofSource "2 * (x + ")
        ⟨.unexpectedEnd, [.point "2 * (x + ".utf8ByteSize], false⟩ := by
  have hwords : words (tokenize "2 * (x + ") = [⟨.int, ⟨0, 1⟩, "2"⟩, ⟨.mul, ⟨2, 3⟩, "*"⟩,
      ⟨.openParen, ⟨4, 5⟩, "("⟩, ⟨.name, ⟨5, 6⟩, "x"⟩] ++ [⟨.add, ⟨7, 8⟩, "+"⟩] := by
    decide +kernel
  have hlacks : LacksOperand (words (tokenize "2 * (x + ")) :=
    .of_read "1)" hwords (by decide) (by decide +kernel) (by decide +kernel)
  obtain ⟨⟨ms, hms⟩, hall⟩ := missing_operand_error "2 * (x + " hlacks
  obtain ⟨hend, hsign⟩ := hall ms hms
  refine ⟨hlacks, hend.mpr ?_⟩
  cases ms with
  | nil => rfl
  | cons m ms =>
    obtain ⟨hmem, hm, -⟩ := hsign m ms rfl
    have hnone : ∀ w ∈ words (tokenize "2 * (x + "), w.kind ≠ .sub := by
      rw [hwords]
      decide
    exact absurd hm (hnone m hmem)

/-- In `-` an operand is missing, and the end of the text is not what it is refused for. -/
theorem missing_operand_error_hidden :
    LacksOperand (words (tokenize "-")) ∧
      ¬ (Parse.full Parse.expr).Fails (.ofSource "-")
        ⟨.unexpectedEnd, [.point "-".utf8ByteSize], false⟩ := by
  have hwords : words (tokenize "-") = [] ++ [⟨.sub, ⟨0, 1⟩, "-"⟩] := by decide +kernel
  refine ⟨.of_read "x" hwords (by decide) (by decide +kernel) (by decide +kernel), ?_⟩
  intro h
  have hawaits : AwaitsOperand (words (tokenize "-")) [⟨.sub, ⟨0, 1⟩, "-"⟩] := by
    rw [hwords]
    exact (Awaits.sign rfl .missing).awaitsOperand
  have hexpr : Parse.expr.Fails (.ofSource "-") _ := AwaitsOperand.expr_fails hawaits
  cases h.unique (Parse.fails_full_iff.mpr (Or.inl hexpr))

end Rearrange

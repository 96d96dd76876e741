import Rearrange.Proofs.RoutineReads

namespace Rearrange

namespace Parse

variable {p q : Parser} {e : ParseError} {prec : Prec}

/-- The error of a parenthesis that is still open where something else comes next. -/
def unclosed (o : Token) : ParseError := ⟨.unclosedParen true, [o.span], true⟩

theorem next_fails_iff :
    next.Fails p e ↔ p.words = [] ∧ e = errorAt p.skipWhitespace .unexpectedEnd := by
  rw [Parser.words_eq_nil_iff]
  unfold Fails next
  cases h : p.skipWhitespace.after <;> simp [h, eq_comm]

theorem token_fails_iff {kind : TokenKind} :
    (token kind).Fails p e ↔ p.words = [] ∧ e = errorAt p.skipWhitespace .unexpectedEnd ∨
      ∃ w ws, p.words = w :: ws ∧ w.kind ≠ kind ∧ e = unexpected [kind] w := by
  rw [token, fails_bind_iff, next_fails_iff]
  refine or_congr_right ⟨?_, ?_⟩
  · rintro ⟨w, q, hw, h⟩
    split at h
    next => exact absurd h not_fails_pure
    next hk => exact ⟨w, q.words, next_eq_ok hw, hk, fails_throw_iff.mp h⟩
  · rintro ⟨w, ws, hp, hk, rfl⟩
    obtain ⟨q, hw, -⟩ := next_of_words hp
    exact ⟨w, q, hw, by rw [if_neg hk]; exact fails_throw_iff.mpr rfl⟩

theorem unaryOp_notFatal : FailsWith unaryOp NotFatal := by
  refine next_notFatal.bind fun t => ?_
  split
  · exact .pure _
  · exact .throw rfl

theorem name_notFatal : FailsWith name NotFatal :=
  (token_notFatal .name).attempt.bind fun _ => .pure _

theorem literal_notFatal : FailsWith literal NotFatal :=
  number_notFatal.orElse name_notFatal.attempt

theorem unary_fails_iff :
    unary.Fails p e ↔ unaryOp.Fails p e ∨ ∃ x q, unaryOp p = .ok x q ∧ operand.Fails q e := by
  rw [unary, unaryWith, fails_attempt_bind_iff]
  refine or_congr_right (exists_congr fun x => exists_congr fun q => and_congr_right fun _ => ?_)
  refine fails_bind_iff.trans (or_iff_left ?_)
  rintro ⟨t, q', -, h⟩
  exact not_fails_pure h

theorem paren_fails_iff :
    paren.Fails p e ↔ (token .openParen).Fails p e ∨ ∃ o q, token .openParen p = .ok o q ∧
      (expr.Fails q e ∨ ∃ t q', expr q = .ok t q' ∧ (∃ e', (token .closeParen).Fails q' e') ∧
        e = unclosed o) := by
  rw [paren, parenWith, fails_attempt_bind_iff]
  refine or_congr_right (exists_congr fun o => exists_congr fun q => and_congr_right fun _ => ?_)
  rw [fails_attempt_bind_iff]
  refine or_congr_right (exists_congr fun t => exists_congr fun q' => and_congr_right fun _ => ?_)
  rw [fails_bind_iff, fails_mapError_iff]
  constructor
  · rintro (⟨e', he', rfl⟩ | ⟨c, q'', -, h⟩)
    · exact ⟨⟨e', fails_attempt_iff.mp he'⟩, rfl⟩
    · exact absurd h not_fails_pure
  · rintro ⟨⟨e', he'⟩, rfl⟩
    exact Or.inl ⟨e', fails_attempt_iff.mpr he', rfl⟩

theorem operand_fails_iff :
    operand.Fails p e ↔
      (∃ x q, unaryOp p = .ok x q ∧ operand.Fails q e) ∧ e.fatal = true ∨
        unary.Refuses p ∧ literal.Refuses p ∧ paren.Fails p e := by
  have hoperand : operand.Fails p e ↔
      unary.Fails p e ∧ e.fatal = true ∨ unary.Refuses p ∧ primary.Fails p e := by
    rw [operand_eq_operandWith, operandWith, fails_orElse_iff, fails_attempt_iff]
    rfl
  refine hoperand.trans (or_congr (and_congr_left fun hfatal => ?_) (and_congr_right fun _ => ?_))
  · refine unary_fails_iff.trans (or_iff_right fun h => ?_)
    exact Bool.false_ne_true ((unaryOp_notFatal p e h).symm.trans hfatal)
  · rw [primary, primaryWith, fails_orElse_iff, fails_attempt_iff]
    refine or_iff_right ?_
    rintro ⟨h, hfatal⟩
    exact Bool.false_ne_true ((literal_notFatal p e h).symm.trans hfatal)

theorem chain_fails_attach_iff {lhs : Phrase} :
    (chain prec lhs).Fails p e ↔ ∃ op s q, operator prec p = .ok (op, s) q ∧
      (operand.Fails q e ∨
        ∃ rhs q', operand q = .ok rhs q' ∧ (chain prec (lhs.attach op s rhs)).Fails q' e) := by
  rw [chain_eq_chainWith]
  unfold Fails chainWith
  cases hop : operator prec p with
  | error e' q => simp
  | ok x q =>
    obtain ⟨op, s⟩ := x
    constructor
    · intro h
      exact ⟨op, s, q, rfl, fails_bind_iff.mp h⟩
    · rintro ⟨op', s', q', hq, h⟩
      cases hq
      exact fails_bind_iff.mpr h

theorem chain_fails_congr (t u : Phrase) :
    (chain prec t).Fails p e ↔ (chain prec u).Fails p e := by
  induction hn : p.words.length using Nat.strongRecOn generalizing p t u with
  | ind n ih =>
    rw [chain_fails_attach_iff, chain_fails_attach_iff]
    refine exists_congr fun op => exists_congr fun s => exists_congr fun q => ?_
    refine and_congr_right fun hop => or_congr_right ?_
    refine exists_congr fun rhs => exists_congr fun q' => and_congr_right fun hrhs => ?_
    have hlt := Nat.lt_trans (passes_operand q rhs q' hrhs) (passes_operator prec p _ q hop)
    exact ih _ (hn ▸ hlt) _ _ rfl

theorem chain_fails_iff {lhs : Phrase} :
    (chain prec lhs).Fails p e ↔ ∃ x q, operator prec p = .ok x q ∧ (climb prec).Fails q e := by
  rw [chain_fails_attach_iff]
  constructor
  · rintro ⟨op, s, q, hop, h⟩
    refine ⟨(op, s), q, hop, fails_bind_iff.mpr (h.imp_right ?_)⟩
    rintro ⟨rhs, q', hrhs, h⟩
    exact ⟨rhs, q', hrhs, (chain_fails_congr _ _).mp h⟩
  · rintro ⟨⟨op, s⟩, q, hop, h⟩
    refine ⟨op, s, q, hop, (fails_bind_iff.mp h).imp_right ?_⟩
    rintro ⟨rhs, q', hrhs, h⟩
    exact ⟨rhs, q', hrhs, (chain_fails_congr _ _).mp h⟩

theorem climb_fails_iff :
    (climb prec).Fails p e ↔ operand.Fails p e ∨ ∃ t q x q', operand p = .ok t q ∧
      operator prec q = .ok x q' ∧ (climb prec).Fails q' e := by
  rw [climb, fails_bind_iff]
  refine or_congr_right (exists_congr fun t => exists_congr fun q => ?_)
  rw [chain_fails_iff]
  simp only [climb, exists_and_left]

theorem expr_fails_iff :
    expr.Fails p e ↔
      (∃ c q, token .closeParen p = .ok c q) ∧ e = errorAt p (.unclosedParen false) true ∨
        (token .closeParen).Refuses p ∧ (climb .any).Fails p e := by
  rw [expr_eq_exprWith]
  unfold Fails exprWith
  cases h : ahead (token .closeParen) p with
  | some c =>
    have hc := ahead_eq_some.mp h
    refine fails_failFatal_iff.trans ⟨fun he => Or.inl ⟨⟨c, hc⟩, he⟩, ?_⟩
    rintro (⟨-, he⟩ | ⟨hrefuses, -⟩)
    · exact he
    · cases h.symm.trans (ahead_eq_none hrefuses)
  | none =>
    have hfails : (attempt operand >>= chain .any).Fails p e ↔ (climb .any).Fails p e := by
      rw [climb, fails_attempt_bind_iff, fails_bind_iff]
    obtain ⟨e', q', he'⟩ := ahead_eq_none_iff.mp h
    refine hfails.trans ⟨fun he => Or.inr ⟨⟨e', q', he', token_notFatal _ p e' ⟨q', he'⟩⟩, he⟩, ?_⟩
    rintro (⟨⟨c, hc⟩, -⟩ | ⟨-, he⟩)
    · cases h.symm.trans (ahead_eq_some.mpr hc)
    · exact he

/-- An operand may rely on what is read behind the word that it takes first, a chain of operands on
its first operand and on what is read behind that. -/
theorem reading_induction {O E : Parser → Prop} {K : Prec → Parser → Prop}
    (operand : ∀ p, (∀ q, q.words.length < p.words.length → O q ∧ E q) → O p)
    (climb : ∀ prec p, O p → (∀ q, q.words.length < p.words.length → K prec q) → K prec p)
    (expr : ∀ p, K .any p → E p) (p : Parser) : O p ∧ (∀ prec, K prec p) ∧ E p := by
  induction hn : p.words.length using Nat.strongRecOn generalizing p with
  | ind n ih =>
    subst hn
    have hO : O p := operand p fun q hq => (ih _ hq q rfl).imp_right And.right
    have hK (prec : Prec) : K prec p := climb prec p hO fun q hq => (ih _ hq q rfl).2.1 prec
    exact ⟨hO, hK, expr p (hK .any)⟩

/-- The errors of expressions. A word that begins no operand is told to be a parenthesis instead,
which is what is tried last. -/
inductive ExprError : ParseError → Prop
  | unexpectedEnd (p : Parser) : ExprError (errorAt p .unexpectedEnd)
  | unexpected (w : Token) : ExprError (unexpected [.openParen] w)
  | unclosed (o : Token) : ExprError (unclosed o)
  | unopened (p : Parser) : ExprError (errorAt p (.unclosedParen false) true)

theorem expression_errors (p : Parser) :
    (∀ e, operand.Fails p e → ExprError e) ∧ (∀ prec e, (climb prec).Fails p e → ExprError e) ∧
      ∀ e, expr.Fails p e → ExprError e := by
  refine reading_induction (O := fun p => ∀ e, operand.Fails p e → ExprError e)
    (K := fun prec p => ∀ e, (climb prec).Fails p e → ExprError e)
    (E := fun p => ∀ e, expr.Fails p e → ExprError e) ?_ ?_ ?_ p
  · intro p ih e h
    obtain ⟨⟨x, q, hx, h⟩, -⟩ | ⟨-, -, h⟩ := operand_fails_iff.mp h
    · exact (ih q (passes_attempt_unaryOp p x q (attempt_eq_ok.mpr hx))).1 e h
    · obtain h | ⟨o, q, ho, h | ⟨t, q', -, -, rfl⟩⟩ := paren_fails_iff.mp h
      · obtain ⟨-, rfl⟩ | ⟨w, ws, -, -, rfl⟩ := token_fails_iff.mp h
        · exact .unexpectedEnd _
        · exact .unexpected w
      · exact (ih q (passes_attempt_token _ p o q (attempt_eq_ok.mpr ho))).2 e h
      · exact .unclosed o
  · intro prec p hoperand ih e h
    obtain h | ⟨t, q, x, q', ht, hx, h⟩ := climb_fails_iff.mp h
    · exact hoperand e h
    · exact ih q' (Nat.lt_trans (passes_operator prec q x q' hx) (passes_operand p t q ht)) e h
  · intro p hclimb e h
    obtain ⟨-, rfl⟩ | ⟨-, h⟩ := expr_fails_iff.mp h
    · exact .unopened p
    · exact hclimb e h

theorem operand_error : FailsWith operand ExprError := fun p => (expression_errors p).1

theorem climb_error (prec : Prec) : FailsWith (climb prec) ExprError :=
  fun p => (expression_errors p).2.1 prec

theorem expr_error : FailsWith expr ExprError := fun p => (expression_errors p).2.2

theorem equationWith_fails_iff {lhs : Phrase} :
    (equationWith lhs).Fails p e ↔ (token .assign).Fails p e ∨
      ∃ a q, token .assign p = .ok a q ∧ (expr.Fails q e ∨
        ∃ rhs q', expr q = .ok rhs q' ∧ ∃ b q'', token .assign q' = .ok b q'' ∧
          e = ⟨.chainedEquality, [a.span, b.span], true⟩) := by
  rw [equationWith, fails_attempt_bind_iff]
  refine or_congr_right (exists_congr fun a => exists_congr fun q => and_congr_right fun _ => ?_)
  rw [fails_attempt_bind_iff]
  refine or_congr_right (exists_congr fun t => exists_congr fun q' => and_congr_right fun _ => ?_)
  rw [fails_get_bind_iff]
  split
  next b hb =>
    obtain ⟨q'', hb⟩ := ahead_eq_some.mp hb
    refine fails_throw_iff.trans ⟨fun h => ⟨b, q'', hb, h⟩, ?_⟩
    rintro ⟨b', r, hb', h⟩
    cases hb.symm.trans hb'
    exact h
  next hnone =>
    refine iff_of_false not_fails_pure ?_
    rintro ⟨b, q'', hb, -⟩
    cases hnone.symm.trans (ahead_eq_some.mpr ⟨q'', hb⟩)

theorem equation_fails_iff :
    equation.Fails p e ↔
      expr.Fails p e ∨ ∃ lhs q, expr p = .ok lhs q ∧ (equationWith lhs).Fails q e :=
  fails_attempt_bind_iff

theorem equationOrPhrase_fails_iff :
    equationOrPhrase.Fails p e ↔ expr.Fails p e ∨ ∃ lhs q, expr p = .ok lhs q ∧
      (∃ a q', token .assign q = .ok a q') ∧ (equationWith lhs).Fails q e := by
  rw [equationOrPhrase, fails_attempt_bind_iff]
  refine or_congr_right (exists_congr fun t => exists_congr fun q => and_congr_right fun _ => ?_)
  rw [fails_get_bind_iff]
  split
  next a ha =>
    obtain ⟨q', ha⟩ := ahead_eq_some.mp ha
    exact fails_map_iff.trans (and_iff_right ⟨a, q', ha⟩).symm
  next hnone =>
    refine iff_of_false not_fails_pure ?_
    rintro ⟨⟨a, ha⟩, -⟩
    cases hnone.symm.trans (ahead_eq_some.mpr ha)

theorem request_fails_iff :
    request.Fails p e ↔ (token .name).Fails p e ∨ ∃ n q, token .name p = .ok n q ∧
      ((token .colon).Fails q e ∨ ∃ c q', token .colon q = .ok c q' ∧
        ∃ e', equation.Fails q' e' ∧ e = { e' with fatal := true }) := by
  rw [request, fails_attempt_bind_iff]
  refine or_congr_right (exists_congr fun n => exists_congr fun q => and_congr_right fun _ => ?_)
  rw [fails_attempt_bind_iff]
  refine or_congr_right (exists_congr fun c => exists_congr fun q' => and_congr_right fun _ => ?_)
  rw [fails_bind_iff, fails_mapError_iff]
  simp only [fails_attempt_iff, not_fails_pure, and_false, exists_false, or_false, eq_comm]

theorem statement_fails_iff :
    statement.Fails p e ↔ request.Fails p e ∧ e.fatal = true ∨
      request.Refuses p ∧ equationOrPhrase.Fails p e := by
  rw [statement, fails_orElse_iff, fails_map_iff, refuses_map_iff]

end Parse

end Rearrange

import Rearrange.Answer
import Rearrange.Proofs.ChainedEquations
import Rearrange.Proofs.FailedExpressions
import Rearrange.Proofs.NumberLexemes

namespace Rearrange

namespace Parse

variable {α β : Type} {r : Parse α} {p : Parser} {e : ParseError}

def Tellable (e : ParseError) : Prop := e.cause ≠ .invalidNumber ∧ e.cause ≠ .internal

theorem token_tellable (kind : TokenKind) : FailsWith (token kind) Tellable := by
  intro p e h
  obtain ⟨-, rfl⟩ | ⟨w, ws, -, -, rfl⟩ := token_fails_iff.mp h <;> exact ⟨nofun, nofun⟩

theorem ExprError.tellable (h : ExprError e) : Tellable e := by
  cases h <;> exact ⟨nofun, nofun⟩

theorem expr_tellable : FailsWith expr Tellable := fun p e h => (expr_error p e h).tellable

theorem binOp_tellable : FailsWith binOp Tellable := by
  refine FailsWith.bind (.next fun _ => ⟨nofun, nofun⟩) fun w => ?_
  split
  · exact .pure _
  · exact .throw ⟨nofun, nofun⟩

theorem unaryOp_tellable : FailsWith unaryOp Tellable := by
  refine FailsWith.bind (.next fun _ => ⟨nofun, nofun⟩) fun w => ?_
  split
  · exact .pure _
  · exact .throw ⟨nofun, nofun⟩

theorem name_tellable : FailsWith name Tellable :=
  (token_tellable .name).attempt.bind fun _ => .pure _

theorem literal_tellable : FailsWith literal Tellable := by
  intro p e h
  obtain ⟨h, hfatal⟩ | ⟨-, h⟩ := fails_orElse_iff.mp h
  · exact absurd ((number_notFatal p e h).symm.trans hfatal) Bool.false_ne_true
  · exact name_tellable.attempt p e h

theorem number_tellable (hread : ∀ w ∈ p.words, w.kind = .int ∨ w.kind = .float →
    ∃ v, Number.read w.lexeme = some v) (h : number.Fails p e) : Tellable e := by
  obtain h | ⟨w, q, hw, h⟩ := fails_bind_iff.mp h
  · exact (token_tellable .int).orElse (token_tellable .float).attempt p e h
  · have hword : p.words = w :: q.words ∧ (w.kind = .int ∨ w.kind = .float) := by
      obtain hw | hw := orElse_eq_ok hw
      · exact (token_eq_ok hw).imp_right Or.inl
      · exact (token_eq_ok (attempt_eq_ok.mp hw)).imp_right Or.inr
    obtain ⟨v, hv⟩ := hread w (by rw [hword.1]; exact List.mem_cons_self ..) hword.2
    rw [hv] at h
    exact absurd h not_fails_pure

theorem paren_tellable : FailsWith paren Tellable := by
  intro p e h
  obtain h | ⟨o, q, -, h | ⟨t, q', -, -, rfl⟩⟩ := paren_fails_iff.mp h
  · exact token_tellable _ p e h
  · exact expr_tellable q e h
  · exact ⟨nofun, nofun⟩

theorem unary_tellable : FailsWith unary Tellable := by
  intro p e h
  obtain h | ⟨x, q, -, h⟩ := unary_fails_iff.mp h
  · exact unaryOp_tellable p e h
  · exact (operand_error q e h).tellable

theorem primary_tellable : FailsWith primary Tellable :=
  literal_tellable.orElse paren_tellable.attempt

theorem equationWith_tellable (lhs : Phrase) : FailsWith (equationWith lhs) Tellable := by
  intro p e h
  obtain h | ⟨a, q, -, h | ⟨rhs, q', -, b, q'', -, rfl⟩⟩ := equationWith_fails_iff.mp h
  · exact token_tellable _ p e h
  · exact expr_tellable q e h
  · exact ⟨nofun, nofun⟩

theorem equation_tellable : FailsWith equation Tellable :=
  expr_tellable.attempt.bind equationWith_tellable

theorem request_tellable : FailsWith request Tellable := by
  intro p e h
  obtain h | ⟨n, q, -, h | ⟨c, q', -, e', hequation, rfl⟩⟩ := request_fails_iff.mp h
  · exact token_tellable _ p e h
  · exact token_tellable _ q e h
  · -- that the failure becomes fatal makes no difference to what it is about
    exact (equation_tellable q' e' hequation : Tellable e')

theorem statement_tellable : FailsWith statement Tellable := by
  intro p e h
  obtain ⟨h, -⟩ | ⟨-, h⟩ := statement_fails_iff.mp h
  · exact request_tellable p e h
  obtain h | ⟨lhs, q, -, -, h⟩ := equationOrPhrase_fails_iff.mp h
  · exact expr_tellable p e h
  · exact equationWith_tellable lhs q e h

theorem binary_error (h : binary.Fails p e) : Tellable e ∨ ∃ q, e = errorAt q .internal := by
  obtain h | ⟨t, q, -, h⟩ := fails_bind_iff.mp h
  · exact Or.inl (climb_error .any p e h).tellable
  · split at h
    · exact absurd h not_fails_pure
    · exact Or.inr ⟨q, fails_fail_iff.mp h⟩

theorem parse_tellable {kind : NodeKind} (hbinary : kind ≠ .binary) (hnumber : kind ≠ .number) :
    FailsWith kind.parse Tellable := by
  cases kind with
  | statement => exact statement_tellable.map _
  | request => exact request_tellable.map _
  | equation => exact equation_tellable.map _
  | expr => exact expr_tellable.map _
  | binary => exact absurd rfl hbinary
  | unary => exact unary_tellable.map _
  | primary => exact primary_tellable.map _
  | paren => exact paren_tellable.map _
  | literal => exact literal_tellable.map _
  | number => exact absurd rfl hnumber
  | name => exact name_tellable.map _
  | binOp => exact binOp_tellable.map _
  | unaryOp => exact unaryOp_tellable.map _

theorem parse_error {kind : NodeKind} {source : String}
    (h : kind.parse.Fails (.ofSource source) e) :
    Tellable e ∨ kind = .binary ∧ ∃ q, e = errorAt q .internal := by
  by_cases hbinary : kind = .binary
  · subst hbinary
    exact (binary_error (fails_map_iff.mp h)).imp_right fun h => ⟨rfl, h⟩
  by_cases hnumber : kind = .number
  · subst hnumber
    refine Or.inl (number_tellable (fun w hw => ?_) (fails_map_iff.mp h))
    exact Number.exists_read (List.mem_filter.mp hw).1
  · exact Or.inl (parse_tellable hbinary hnumber _ e h)

end Parse

theorem Statement.answer_error {s : Statement} {e : Located Problem} (h : s.answer = .error e) :
    ∀ f, e.cause ≠ .fault f := by
  have hequation (eq : Equation) (target : String) (h : eq.answer target = .error e) :
      ∀ f, e.cause ≠ .fault f := by
    unfold Equation.answer at h
    split at h <;> cases h
    exact nofun
  cases s with
  | request r => exact hequation r.equation r.target h
  | equation eq =>
    unfold Statement.answer at h
    simp only at h
    split at h
    next target _ => exact hequation eq target h
    next => cases h; exact nofun
  | phrase t => cases h

/-- No reading of a whole text ends with an invalid number, and none but that of a binary operation
with the internal error that rejects a way of reading. Hence no answer to a line is one of these. -/
theorem internal_errors_hidden :
    (∀ (kind : NodeKind) source e q, Parse.full kind.parse (.ofSource source) = .error e q →
        e.cause ≠ .invalidNumber ∧ (kind ≠ .binary → e.cause ≠ .internal)) ∧
      ∀ line e, answer line = .error e →
        e.cause ≠ .fault .invalidNumber ∧ e.cause ≠ .fault .internal := by
  constructor
  · intro kind source e q h
    obtain h | ⟨n, q', -, -, rfl⟩ := Parse.fails_full_iff.mp ⟨q, h⟩
    · obtain h | ⟨rfl, q', rfl⟩ := Parse.parse_error h
      · exact ⟨h.1, fun _ => h.2⟩
      · exact ⟨nofun, fun h => absurd rfl h⟩
    · exact ⟨nofun, fun _ => nofun⟩
  intro line e h
  unfold answer at h
  split at h
  next s _ => exact ⟨Statement.answer_error h _, Statement.answer_error h _⟩
  next e' hsource =>
    cases h
    obtain ⟨hnumber, hinternal⟩ := Parse.statement_tellable.full (fun _ => ⟨nofun, nofun⟩) _ e'
      (Statement.ofSource_eq_error.mp hsource)
    exact ⟨fun h => hnumber (Problem.fault.inj h), fun h => hinternal (Problem.fault.inj h)⟩

example : (Parse.full (NodeKind.parse .binary) (.ofSource "-2.5") matches
    .error ⟨.internal, [⟨4, 4⟩], false⟩ _) = true := by decide +kernel

/-- In `-(2.5` a parenthesis is left open behind a sign. -/
theorem internal_errors_hidden_openParen :
    (∃ e q, Parse.full (NodeKind.parse .unary) (.ofSource "-(2.5") = .error e q ∧
        e.cause ≠ .invalidNumber ∧ e.cause ≠ .internal) ∧
      ∃ e, answer "-(2.5" = .error e ∧ e.cause ≠ .fault .invalidNumber ∧
        e.cause ≠ .fault .internal := by
  obtain ⟨hfull, hanswer⟩ := internal_errors_hidden
  constructor
  · have hnone : Parse.ahead (Parse.full (NodeKind.parse .unary)) (.ofSource "-(2.5") = none := by
      decide +kernel
    obtain ⟨e, q, h⟩ := Parse.ahead_eq_none_iff.mp hnone
    obtain ⟨hnumber, hinternal⟩ := hfull .unary _ e q h
    exact ⟨e, q, h, hnumber, hinternal (by decide)⟩
  · have hnone : (answer "-(2.5").isOk = false := by decide +kernel
    cases h : answer "-(2.5" with
    | ok text =>
      rw [h] at hnone
      cases hnone
    | error e => exact ⟨e, rfl, hanswer _ e h⟩

end Rearrange

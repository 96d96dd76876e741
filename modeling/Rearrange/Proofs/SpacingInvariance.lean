import Rearrange.Answer
import Rearrange.Parser.Node
import Rearrange.Proofs.FaithfulText
import Rearrange.Proofs.ReadingDepth

namespace Rearrange

def Token.unplaced (t : Token) : Token := { t with span := .point 0 }

theorem Token.unplaced_eq_iff {t u : Token} :
    t.unplaced = u.unplaced ↔ t.kind = u.kind ∧ t.lexeme = u.lexeme := by
  simp [unplaced]

def Located.unplaced {Cause : Type} (e : Located Cause) : Located Cause := { e with spans := [] }

theorem Located.unplaced_eq_iff {Cause : Type} {e f : Located Cause} :
    e.unplaced = f.unplaced ↔ e.cause = f.cause ∧ e.fatal = f.fatal := by
  simp [unplaced]

def Equation.unplaced (e : Equation) : Equation := ⟨e.lhs.unplaced, e.rhs.unplaced, .point 0⟩

def Request.unplaced (r : Request) : Request := ⟨r.target, .point 0, r.equation.unplaced, .point 0⟩

def Statement.unplaced : Statement → Statement
  | request r => request r.unplaced
  | equation e => equation e.unplaced
  | phrase p => phrase p.unplaced

def Node.unplaced : Node → Node
  | statement s => statement s.unplaced
  | request r => request r.unplaced
  | equation e => equation e.unplaced
  | phrase p => phrase p.unplaced
  | binOp op _ => binOp op (.point 0)
  | unaryOp op _ => unaryOp op (.point 0)

/-- The same words come next in both places. -/
def Parser.Alike (p q : Parser) : Prop := p.words.map Token.unplaced = q.words.map Token.unplaced

theorem Parser.Alike.skipWhitespace {p q : Parser} (h : p.Alike q) :
    p.skipWhitespace.Alike q.skipWhitespace := by
  rwa [Alike, words_skipWhitespace, words_skipWhitespace]

theorem Parser.Alike.isEmpty_skipWhitespace {p q : Parser} (h : p.Alike q) :
    p.skipWhitespace.after.isEmpty = q.skipWhitespace.after.isEmpty := by
  rw [Bool.eq_iff_iff, List.isEmpty_iff, List.isEmpty_iff, ← words_eq_nil_iff, ← words_eq_nil_iff,
    ← List.map_eq_nil_iff, h, List.map_eq_nil_iff]

namespace Parse

variable {α β γ δ : Type}

/-- Reading gave values that look the same and left the same words, or it failed alike. -/
def Same (view : α → γ) :
    EStateM.Result ParseError Parser α → EStateM.Result ParseError Parser α → Prop
  | .ok a p, .ok b q => view a = view b ∧ p.Alike q
  | .error e p, .error f q => e.unplaced = f.unplaced ∧ p.Alike q
  | _, _ => False

theorem Same.cases {view : α → γ} {x y : EStateM.Result ParseError Parser α} (h : Same view x y) :
    (∃ a p b q, x = .ok a p ∧ y = .ok b q ∧ view a = view b ∧ p.Alike q) ∨
      ∃ e p f q, x = .error e p ∧ y = .error f q ∧ e.unplaced = f.unplaced ∧ p.Alike q := by
  unfold Same at h
  split at h
  next a p b q => exact Or.inl ⟨a, p, b, q, rfl, rfl, h⟩
  next e p f q => exact Or.inr ⟨e, p, f, q, rfl, rfl, h⟩
  next => exact h.elim

/-- Wherever the same words come next, `r` and `s` give the same. -/
def Agree (view : α → γ) (r s : Parse α) : Prop := ∀ p q, p.Alike q → Same view (r p) (s q)

variable {view : α → γ} {view' : β → δ} {r r' s s' : Parse α} {f g : α → Parse β}

theorem Agree.pure {a b : α} (h : view a = view b) : Agree view (pure a) (pure b) :=
  fun _ _ hpq => ⟨h, hpq⟩

theorem Agree.throw {e e' : ParseError} (h : e.unplaced = e'.unplaced) :
    Agree view (throw e) (throw e') :=
  fun _ _ hpq => ⟨h, hpq⟩

theorem Agree.fail (cause : Fault) : Agree view (fail cause) (fail cause) :=
  fun _ _ hpq => ⟨rfl, hpq⟩

theorem Agree.failFatal (cause : Fault) : Agree view (failFatal cause) (failFatal cause) :=
  fun _ _ hpq => ⟨rfl, hpq⟩

theorem Agree.get : Agree (fun p => p.words.map Token.unplaced) get get :=
  fun _ _ hpq => ⟨hpq, hpq⟩

theorem Agree.bind (h : Agree view r s) (hf : ∀ a b, view a = view b → Agree view' (f a) (g b)) :
    Agree view' (r >>= f) (s >>= g) := by
  intro p q hpq
  change Same view' (EStateM.bind r f p) (EStateM.bind s g q)
  unfold EStateM.bind
  obtain ⟨a, p', b, q', hr, hs, hab, hpq'⟩ | ⟨e, p', e', q', hr, hs, he, hpq'⟩ :=
    (h p q hpq).cases
  · rw [hr, hs]
    exact hf a b hab p' q' hpq'
  · rw [hr, hs]
    exact ⟨he, hpq'⟩

theorem Agree.map {k l : α → β} (h : Agree view r s)
    (hk : ∀ a b, view a = view b → view' (k a) = view' (l b)) :
    Agree view' (k <$> r) (l <$> s) :=
  h.bind fun a b hab => .pure (hk a b hab)

theorem Agree.attempt (h : Agree view r s) : Agree view (attempt r) (attempt s) := by
  intro p q hpq
  unfold Parse.attempt
  obtain ⟨a, p', b, q', hr, hs, hab, hpq'⟩ | ⟨e, p', e', q', hr, hs, he, -⟩ := (h p q hpq).cases
  · rw [hr, hs]
    exact ⟨hab, hpq'⟩
  · rw [hr, hs]
    exact ⟨he, hpq⟩

theorem Agree.attemptThen {check check' : α → Parser → Option ParseError} (h : Agree view r s)
    (hcheck : ∀ a p b q, view a = view b → p.Alike q →
      (check a p).map Located.unplaced = (check' b q).map Located.unplaced) :
    Agree view (attemptThen r check) (attemptThen s check') := by
  refine Agree.attempt fun p q hpq => ?_
  obtain ⟨a, p', b, q', hr, hs, hab, hpq'⟩ | ⟨e, p', e', q', hr, hs, he, hpq'⟩ :=
    (h p q hpq).cases
  · rw [hr, hs]
    have hcheck := hcheck a p' b q' hab hpq'
    cases ha : check a p' <;> cases hb : check' b q' <;> rw [ha, hb] at hcheck
    · simp only [ha, hb]
      exact ⟨hab, hpq'⟩
    · cases hcheck
    · cases hcheck
    · simp only [ha, hb]
      exact ⟨Option.some.inj hcheck, hpq'⟩
  · rw [hr, hs]
    exact ⟨he, hpq'⟩

theorem Agree.orElse (hr : Agree view r r') (hs : Agree view s s') :
    Agree view (orElse r s) (orElse r' s') := by
  intro p q hpq
  unfold Parse.orElse
  obtain ⟨a, p', b, q', hr, hr', hab, hpq'⟩ | ⟨e, p', e', q', hr, hr', he, hpq'⟩ :=
    (hr p q hpq).cases
  · rw [hr, hr']
    exact ⟨hab, hpq'⟩
  · rw [hr, hr']
    simp only [(Located.unplaced_eq_iff.mp he).2]
    split
    · exact ⟨he, hpq'⟩
    · exact hs p' q' hpq'

theorem Agree.mapError {k l : ParseError → ParseError} (h : Agree view r s)
    (hk : ∀ e e', e.unplaced = e'.unplaced → (k e).unplaced = (l e').unplaced) :
    Agree view (mapError k r) (mapError l s) := by
  intro p q hpq
  unfold Parse.mapError
  obtain ⟨a, p', b, q', hr, hs, hab, hpq'⟩ | ⟨e, p', e', q', hr, hs, he, hpq'⟩ :=
    (h p q hpq).cases
  · rw [hr, hs]
    exact ⟨hab, hpq'⟩
  · rw [hr, hs]
    exact ⟨hk e e' he, hpq'⟩

theorem Agree.ahead (h : Agree view r s) {p q : Parser} (hpq : p.Alike q) :
    (∃ a b, ahead r p = some a ∧ ahead s q = some b ∧ view a = view b) ∨
      ahead r p = none ∧ ahead s q = none := by
  unfold Parse.ahead
  obtain ⟨a, p', b, q', hr, hs, hab, -⟩ | ⟨e, p', e', q', hr, hs, -⟩ := (h p q hpq).cases
  · rw [hr, hs]
    exact Or.inl ⟨a, b, rfl, rfl, hab⟩
  · rw [hr, hs]
    exact Or.inr ⟨rfl, rfl⟩

theorem Agree.next : Agree Token.unplaced next next := by
  intro p q hpq
  cases hp : p.words with
  | nil =>
    have hq : q.words = [] := by
      rwa [Parser.Alike, hp, List.map_nil, eq_comm, List.map_eq_nil_iff] at hpq
    simp only [Parse.next, Parser.words_eq_nil_iff.mp hp, Parser.words_eq_nil_iff.mp hq]
    exact ⟨rfl, hpq.skipWhitespace⟩
  | cons t ts =>
    rw [Parser.Alike, hp, List.map_cons, eq_comm] at hpq
    obtain ⟨u, us, hq, htu, hrest⟩ := List.map_eq_cons_iff.mp hpq
    obtain ⟨p', hnext, hp'⟩ := next_of_words hp
    obtain ⟨q', hnext', hq'⟩ := next_of_words hq
    rw [hnext, hnext']
    exact ⟨htu.symm, by rw [Parser.Alike, hp', hq', hrest]⟩

theorem Agree.token (kind : TokenKind) : Agree Token.unplaced (token kind) (token kind) := by
  refine Agree.next.bind fun t u htu => ?_
  obtain ⟨hkind, -⟩ := Token.unplaced_eq_iff.mp htu
  rw [hkind]
  split
  · exact .pure htu
  · exact .throw (by simp [Located.unplaced, unexpected, hkind])

theorem Agree.full (h : Agree view r s) : Agree view (full r) (full s) := by
  refine h.bind fun a b hab p q hpq => ?_
  change Same view
    ((if p.skipWhitespace.after.isEmpty then Pure.pure a else Parse.fail .expectedEnd : Parse α)
      p.skipWhitespace)
    ((if q.skipWhitespace.after.isEmpty then Pure.pure b else Parse.fail .expectedEnd : Parse α)
      q.skipWhitespace)
  rw [hpq.isEmpty_skipWhitespace]
  split
  · exact ⟨hab, hpq.skipWhitespace⟩
  · exact ⟨rfl, hpq.skipWhitespace⟩

theorem agree_binOp : Agree Prod.fst binOp binOp := by
  refine Agree.next.bind fun t u htu => ?_
  obtain ⟨hkind, -⟩ := Token.unplaced_eq_iff.mp htu
  rw [hkind]
  cases u.kind.binOp? with
  | some op => exact .pure rfl
  | none => exact .throw (by simp [Located.unplaced, unexpected, hkind])

theorem agree_unaryOp : Agree Prod.fst unaryOp unaryOp := by
  refine Agree.next.bind fun t u htu => ?_
  obtain ⟨hkind, -⟩ := Token.unplaced_eq_iff.mp htu
  rw [hkind]
  cases u.kind.unaryOp? with
  | some op => exact .pure rfl
  | none => exact .throw (by simp [Located.unplaced, unexpected, hkind])

theorem agree_number : Agree Phrase.unplaced number number := by
  refine ((Agree.token .int).attempt.orElse (Agree.token .float).attempt).bind fun t u htu => ?_
  obtain ⟨-, hlexeme⟩ := Token.unplaced_eq_iff.mp htu
  rw [hlexeme]
  cases Number.read u.lexeme with
  | some v => exact .pure rfl
  | none => exact .throw rfl

theorem agree_name : Agree Phrase.unplaced name name := by
  refine (Agree.token .name).attempt.bind fun t u htu => .pure ?_
  rw [Phrase.unplaced, (Token.unplaced_eq_iff.mp htu).2]
  rfl

theorem agree_literal : Agree Phrase.unplaced literal literal :=
  agree_number.attempt.orElse agree_name.attempt

section

variable {operand expr : Parse Phrase} {chain : Phrase → Parse Phrase}

theorem agree_parenWith (h : Agree Phrase.unplaced expr expr) :
    Agree Phrase.unplaced (parenWith expr) (parenWith expr) := by
  refine (Agree.token .openParen).attempt.bind fun o o' _ => h.attempt.bind fun t u htu => ?_
  have hunclosed (e e' : ParseError) (_ : e.unplaced = e'.unplaced) :
      (⟨.unclosedParen true, [o.span], true⟩ : ParseError).unplaced =
        Located.unplaced ⟨.unclosedParen true, [o'.span], true⟩ := rfl
  refine ((Agree.token .closeParen).attempt.mapError hunclosed).bind fun _ _ _ => .pure ?_
  rw [Phrase.unplaced, Phrase.unplaced, htu]

theorem agree_unaryWith (h : Agree Phrase.unplaced operand operand) :
    Agree Phrase.unplaced (unaryWith operand) (unaryWith operand) := by
  refine agree_unaryOp.attempt.bind fun op op' hop => h.bind fun t u htu => .pure ?_
  rw [Phrase.unplaced, Phrase.unplaced, htu, hop]

theorem agree_primaryWith (h : Agree Phrase.unplaced expr expr) :
    Agree Phrase.unplaced (primaryWith expr) (primaryWith expr) :=
  agree_literal.attempt.orElse (agree_parenWith h).attempt

theorem agree_operandWith (hoperand : Agree Phrase.unplaced operand operand)
    (hexpr : Agree Phrase.unplaced expr expr) :
    Agree Phrase.unplaced (operandWith operand expr) (operandWith operand expr) :=
  (agree_unaryWith hoperand).attempt.orElse (agree_primaryWith hexpr).attempt

theorem agree_operator (prec : Prec) : Agree Prod.fst (operator prec) (operator prec) := by
  refine agree_binOp.attemptThen fun op p op' q hop _ => ?_
  simp only [hop]
  split <;> rfl

theorem agree_chainWith (prec : Prec) {lhs lhs' : Phrase} (hlhs : lhs.unplaced = lhs'.unplaced)
    (hoperand : Agree Phrase.unplaced operand operand)
    (hchain : ∀ t u : Phrase, t.unplaced = u.unplaced → Agree Phrase.unplaced (chain t) (chain u)) :
    Agree Phrase.unplaced (chainWith operand chain prec lhs)
      (chainWith operand chain prec lhs') := by
  intro p q hpq
  unfold chainWith
  obtain ⟨⟨op, s⟩, p', ⟨op', s'⟩, q', hp, hq, hop, hpq'⟩ | ⟨e, p', e', q', hp, hq, -, -⟩ :=
    (agree_operator prec p q hpq).cases
  · obtain rfl : op = op' := hop
    rw [hp, hq]
    refine hoperand.bind (fun t u htu => hchain _ _ ?_) p' q' hpq'
    rw [Phrase.unplaced_attach, Phrase.unplaced_attach, hlhs, htu]
  · rw [hp, hq]
    exact ⟨hlhs, hpq⟩

theorem agree_exprWith (hoperand : Agree Phrase.unplaced operand operand)
    (hchain : ∀ t u : Phrase, t.unplaced = u.unplaced → Agree Phrase.unplaced (chain t) (chain u)) :
    Agree Phrase.unplaced (exprWith operand chain) (exprWith operand chain) := by
  intro p q hpq
  unfold exprWith
  obtain ⟨t, u, hp, hq, -⟩ | ⟨hp, hq⟩ := (Agree.token .closeParen).ahead hpq
  · rw [hp, hq]
    exact Agree.failFatal _ p q hpq
  · rw [hp, hq]
    exact hoperand.attempt.bind hchain p q hpq

end

theorem agree_of_depth (n : Nat) :
    Agree Phrase.unplaced (operandAt n) (operandAt n) ∧
      Agree Phrase.unplaced (exprAt n) (exprAt n) ∧
        ∀ prec, ∀ t u : Phrase, t.unplaced = u.unplaced →
          Agree Phrase.unplaced (chainAt n prec t) (chainAt n prec u) := by
  induction n with
  | zero => exact ⟨.fail _, .fail _, fun _ _ _ _ => .fail _⟩
  | succ n ih =>
    obtain ⟨hoperand, hexpr, hchain⟩ := ih
    exact ⟨agree_operandWith hoperand hexpr, agree_exprWith hoperand (hchain .any),
      fun prec _ _ h => agree_chainWith prec h hoperand (hchain prec)⟩

theorem agree_operand : Agree Phrase.unplaced operand operand := by
  intro p q hpq
  rw [operand_eq (le_max_left p.depth q.depth), operand_eq (le_max_right p.depth q.depth)]
  exact (agree_of_depth _).1 p q hpq

theorem agree_expr : Agree Phrase.unplaced expr expr := by
  intro p q hpq
  rw [expr_eq (le_max_left p.depth q.depth), expr_eq (le_max_right p.depth q.depth)]
  exact (agree_of_depth _).2.1 p q hpq

theorem agree_chain (prec : Prec) {t u : Phrase} (h : t.unplaced = u.unplaced) :
    Agree Phrase.unplaced (chain prec t) (chain prec u) := by
  intro p q hpq
  rw [chain_eq (le_max_left p.depth q.depth), chain_eq (le_max_right p.depth q.depth)]
  exact (agree_of_depth _).2.2 prec t u h p q hpq

theorem agree_binary : Agree Phrase.unplaced binary binary := by
  have hclimb : Agree Phrase.unplaced (climb .any) (climb .any) :=
    agree_operand.bind fun _ _ h => agree_chain .any h
  refine hclimb.bind fun t u htu => ?_
  have hbinary : t.isBinary = u.isBinary := by
    rw [← Phrase.isBinary_unplaced, htu, Phrase.isBinary_unplaced]
  cases t <;> cases u <;> first | exact .pure htu | exact .fail _ | cases hbinary

theorem agree_equationWith {lhs lhs' : Phrase} (hlhs : lhs.unplaced = lhs'.unplaced) :
    Agree Equation.unplaced (equationWith lhs) (equationWith lhs') := by
  refine (Agree.token .assign).attempt.bind fun _ _ _ => ?_
  refine agree_expr.attempt.bind fun t u htu => Agree.get.bind fun p q hpq => ?_
  obtain ⟨t', u', hp, hq, -⟩ | ⟨hp, hq⟩ := (Agree.token .assign).ahead hpq
  · rw [hp, hq]
    exact .throw rfl
  · rw [hp, hq]
    exact .pure (by simp [Equation.unplaced, hlhs, htu])

theorem agree_equation : Agree Equation.unplaced equation equation :=
  agree_expr.attempt.bind fun _ _ h => agree_equationWith h

theorem agree_request : Agree Request.unplaced request request := by
  refine (Agree.token .name).attempt.bind fun n n' hn => ?_
  refine (Agree.token .colon).attempt.bind fun _ _ _ => ?_
  have hfatal (e e' : ParseError) (he : e.unplaced = e'.unplaced) :
      ({ e with fatal := true } : ParseError).unplaced = { e' with fatal := true }.unplaced := by
    simp [Located.unplaced, (Located.unplaced_eq_iff.mp he).1]
  refine (agree_equation.attempt.mapError hfatal).bind fun e e' he => .pure ?_
  rw [Request.unplaced, Request.unplaced, he, (Token.unplaced_eq_iff.mp hn).2]

theorem agree_statement : Agree Statement.unplaced statement statement := by
  have hrequest : Agree Statement.unplaced (.request <$> request) (.request <$> request) :=
    agree_request.map fun _ _ h => congrArg Statement.request h
  refine hrequest.attempt.orElse ?_
  refine agree_expr.attempt.bind fun t u htu => Agree.get.bind fun p q hpq => ?_
  obtain ⟨t', u', hp, hq, -⟩ | ⟨hp, hq⟩ := (Agree.token .assign).ahead hpq
  · rw [hp, hq]
    exact (agree_equationWith htu).map fun _ _ h => congrArg Statement.equation h
  · rw [hp, hq]
    exact .pure (congrArg Statement.phrase htu)

theorem agree_parse (kind : NodeKind) : Agree Node.unplaced kind.parse kind.parse := by
  cases kind with
  | statement => exact agree_statement.map fun _ _ h => congrArg Node.statement h
  | request => exact agree_request.map fun _ _ h => congrArg Node.request h
  | equation => exact agree_equation.map fun _ _ h => congrArg Node.equation h
  | expr => exact agree_expr.map fun _ _ h => congrArg Node.phrase h
  | binary => exact agree_binary.map fun _ _ h => congrArg Node.phrase h
  | unary => exact (agree_unaryWith agree_operand).map fun _ _ h => congrArg Node.phrase h
  | primary => exact (agree_primaryWith agree_expr).map fun _ _ h => congrArg Node.phrase h
  | paren => exact (agree_parenWith agree_expr).map fun _ _ h => congrArg Node.phrase h
  | literal => exact agree_literal.map fun _ _ h => congrArg Node.phrase h
  | number => exact agree_number.map fun _ _ h => congrArg Node.phrase h
  | name => exact agree_name.map fun _ _ h => congrArg Node.phrase h
  | binOp => exact agree_binOp.map fun _ _ h => congrArg (Node.binOp · (.point 0)) h
  | unaryOp => exact agree_unaryOp.map fun _ _ h => congrArg (Node.unaryOp · (.point 0)) h

end Parse

theorem Equation.answer_unplaced (e : Equation) (target : String) :
    (e.unplaced.answer target).mapError Located.unplaced =
      (e.answer target).mapError Located.unplaced := by
  simp only [Equation.answer, Equation.unplaced, Phrase.toExpr_unplaced]
  split <;> rfl

theorem Statement.answer_unplaced (s : Statement) :
    s.unplaced.answer.mapError Located.unplaced = s.answer.mapError Located.unplaced := by
  cases s with
  | request r => exact r.equation.answer_unplaced r.target
  | equation e =>
    have hvars : e.unplaced.vars = e.vars := by
      simp only [Equation.vars, Equation.unplaced, Phrase.toExpr_unplaced]
    simp only [Statement.unplaced, Statement.answer, hvars]
    split
    · exact e.answer_unplaced _
    · rfl
  | phrase t => simp only [Statement.unplaced, Statement.answer, Phrase.toExpr_unplaced]

theorem answer_eq_of_words {a b : String}
    (h : (words (tokenize a)).map Token.unplaced = (words (tokenize b)).map Token.unplaced) :
    (answer a).mapError Located.unplaced = (answer b).mapError Located.unplaced := by
  unfold answer Statement.ofSource
  obtain ⟨s, p, t, q, hs, ht, hst, -⟩ | ⟨e, p, f, q, he, hf, hef, -⟩ :=
    (Parse.agree_statement.full (.ofSource a) (.ofSource b) h).cases
  · rw [hs, ht]
    exact (s.answer_unplaced.symm.trans (by rw [hst])).trans t.answer_unplaced
  · rw [he, hf]
    obtain ⟨hcause, hfatal⟩ := Located.unplaced_eq_iff.mp hef
    simp [Except.mapError, Located.unplaced, Located.map, hcause, hfatal]

/-- Nodes of every kind are read alike, up to regions, from two lists of tokens that differ in
whitespace only, or they are missing for the same cause. So two lines with the same words have the
same answer. -/
theorem spacing_invisible :
    (∀ (kind : NodeKind) (ts us : List Token),
        (words ts).map Token.unplaced = (words us).map Token.unplaced →
          Parse.Same Node.unplaced (Parse.full kind.parse (.ofTokens ts))
            (Parse.full kind.parse (.ofTokens us))) ∧
      ∀ a b : String,
        (words (tokenize a)).map Token.unplaced = (words (tokenize b)).map Token.unplaced →
          (answer a).mapError Located.unplaced = (answer b).mapError Located.unplaced :=
  ⟨fun kind _ _ h => (Parse.agree_parse kind).full _ _ h, fun _ _ => answer_eq_of_words⟩

theorem spacing_invisible_tabs :
    (words (tokenize "x:2*x=8")).map Token.unplaced =
        (words (tokenize "\tx : 2 * x\r\n= 8 \n")).map Token.unplaced ∧
      Parse.Same Node.unplaced
        (Parse.full (NodeKind.parse .request) (.ofTokens (tokenize "x:2*x=8")))
        (Parse.full (NodeKind.parse .request) (.ofTokens (tokenize "\tx : 2 * x\r\n= 8 \n"))) ∧
      (answer "\tx : 2 * x\r\n= 8 \n").mapError Located.unplaced = .ok "x = 4" := by
  have hwords : (words (tokenize "x:2*x=8")).map Token.unplaced =
      (words (tokenize "\tx : 2 * x\r\n= 8 \n")).map Token.unplaced := by
    decide +kernel
  have hanswer : answer "x:2*x=8" = .ok "x = 4" := by decide +kernel
  obtain ⟨hread, hanswers⟩ := spacing_invisible
  refine ⟨hwords, hread .request _ _ hwords, ?_⟩
  rw [← hanswers _ _ hwords, hanswer]
  rfl

end Rearrange

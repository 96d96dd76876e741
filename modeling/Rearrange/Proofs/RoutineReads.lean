import Rearrange.Parser.Node
import Rearrange.Parser.Routine
import Rearrange.Proofs.FailedReads
import Rearrange.Proofs.ReadingDepth

namespace Rearrange

namespace Course

variable {α β : Type}

theorem result_andThen (c : Course α) (k : α → Course β) :
    (c.andThen k).result = (k c.result).result := by
  induction c with
  | done a => rfl
  | call r p go ih => exact ih (r.read p)

theorem calls_andThen (c : Course α) (k : α → Course β) :
    (c.andThen k).calls = c.calls ++ (k c.result).calls := by
  induction c with
  | done a => rfl
  | call r p go ih => exact congrArg ((r, p) :: ·) (ih (r.read p))

end Course

namespace Plan

variable {α β : Type}

theorem reads_pure (a : α) : (pure a : Plan α).reads = pure a := rfl

theorem result_andThen (x : Plan α) (k : Outcome α → Course (Outcome β)) (p : Parser) :
    ((x p).andThen k).result = (k (x.reads p)).result :=
  Course.result_andThen (x p) k

theorem reads_bind (x : Plan α) (f : α → Plan β) :
    (x >>= f).reads = x.reads >>= fun a => (f a).reads := by
  funext p
  refine (x.result_andThen _ p).trans ?_
  change _ = EStateM.bind _ _ p
  unfold EStateM.bind
  cases x.reads p <;> rfl

theorem reads_attempt (x : Plan α) : (attempt x).reads = Parse.attempt x.reads := by
  funext p
  refine (x.result_andThen _ p).trans ?_
  rw [Parse.attempt]
  cases x.reads p <;> rfl

theorem reads_attemptThen (x : Plan α) (check : α → Parser → Option ParseError) :
    (attemptThen x check).reads = Parse.attemptThen x.reads check := by
  refine (reads_attempt _).trans (congrArg Parse.attempt (funext fun p => ?_))
  refine (x.result_andThen _ p).trans ?_
  cases x.reads p with
  | error e q => rfl
  | ok a q => cases h : check a q <;> simp only [h] <;> rfl

theorem reads_orElse (x y : Plan α) : (orElse x y).reads = Parse.orElse x.reads y.reads := by
  funext p
  refine (x.result_andThen _ p).trans ?_
  rw [Parse.orElse]
  cases x.reads p with
  | ok a q => rfl
  | error e q => cases h : e.fatal <;> simp only [h] <;> rfl

theorem reads_recover (x y : Plan α) (h : ∀ p e q, x.reads p = .error e q → e.fatal = false) :
    (recover x y).reads = Parse.orElse x.reads y.reads := by
  funext p
  refine (x.result_andThen _ p).trans ?_
  rw [Parse.orElse]
  cases hx : x.reads p with
  | ok a q => rfl
  | error e q =>
    simp only [h p e q hx]
    rfl

theorem reads_mapError (f : ParseError → ParseError) (x : Plan α) :
    (mapError f x).reads = Parse.mapError f x.reads := by
  funext p
  refine (x.result_andThen _ p).trans ?_
  rw [Parse.mapError]
  cases x.reads p <;> rfl

theorem reads_ahead (r : Parse α) (p : Parser) :
    (ahead r).reads p = .ok (Parse.ahead r p) p := rfl

theorem reads_maybe_of_ok {r : Parse α} {p q : Parser} {a : α} (h : r p = .ok a q) :
    (maybe r).reads p = .ok (some a) q := by
  simp only [maybe, reads, read, Course.result, h]

theorem reads_maybe_of_error {r : Parse α} {p q : Parser} {e : ParseError} (h : r p = .error e q) :
    (maybe r).reads p = .ok none p := by
  simp only [maybe, reads, read, Course.result, h]

theorem of_reads_maybe {r : Parse α} {p q : Parser} {a : α}
    (h : (maybe r).reads p = .ok (some a) q) : r p = .ok a q := by
  cases hr : r p with
  | ok b s =>
    rw [reads_maybe_of_ok hr] at h
    cases h
    rfl
  | error e s =>
    rw [reads_maybe_of_error hr] at h
    cases h

end Plan

namespace Parse

variable {α β : Type} {p q : Parser} {t u : Phrase} {prec : Prec}

def NotFatal (e : ParseError) : Prop := e.fatal = false

theorem next_notFatal : FailsWith next NotFatal := .next fun _ => rfl

theorem token_notFatal (kind : TokenKind) : FailsWith (token kind) NotFatal := by
  refine next_notFatal.bind fun t => ?_
  split
  · exact .pure t
  · exact .throw rfl

theorem number_notFatal : FailsWith number NotFatal := by
  refine ((token_notFatal .int).orElse (token_notFatal .float).attempt).bind fun t => ?_
  split
  · exact .pure _
  · exact .throw rfl

theorem attempt_attempt (r : Parse α) : attempt (attempt r) = attempt r := by
  funext p
  unfold attempt
  cases r p <;> rfl

theorem attempt_map (f : α → β) (r : Parse α) : attempt (f <$> r) = f <$> attempt r := by
  funext p
  change attempt (EStateM.map f r) p = EStateM.map f (attempt r) p
  cases h : r p <;> simp only [attempt, EStateM.map, h]

theorem attemptThen_none (r : Parse α) {check : α → Parser → Option ParseError}
    (h : ∀ a p, check a p = none) : attemptThen r check = attempt r := by
  funext p
  cases hr : r p <;> simp only [attemptThen, attempt, hr, h]

theorem operator_iff {x : BinOp × Span} :
    operator prec p = .ok x q ↔ binOp p = .ok x q ∧ prec ≤ x.1.prec := by
  unfold operator attemptThen
  refine attempt_eq_ok.trans ?_
  cases binOp p with
  | error e q' => exact iff_of_false nofun nofun
  | ok y q' =>
    by_cases hy : prec ≤ y.1.prec
    · simp only [if_pos hy]
      exact ⟨fun h => by cases h; exact ⟨rfl, hy⟩, And.left⟩
    · simp only [if_neg hy]
      exact iff_of_false nofun fun ⟨h, hx⟩ => by cases h; exact hy hx

/-- No operator that binds as tightly as `prec` comes next. -/
def NoOperator (prec : Prec) (p : Parser) : Prop := ∀ x q, operator prec p ≠ .ok x q

theorem noOperator_of_error {e : ParseError} (h : operator prec p = .error e q) :
    NoOperator prec p := fun _ _ h' => nomatch h.symm.trans h'

theorem chain_of_operator {op : BinOp} {s : Span} (h : operator prec p = .ok (op, s) q)
    (lhs : Phrase) : chain prec lhs p = (do chain prec (lhs.attach op s (← operand))) q := by
  rw [chain_eq_chainWith, chainWith, h]

theorem chain_of_noOperator (h : NoOperator prec p) (lhs : Phrase) :
    chain prec lhs p = .ok lhs p := by
  rw [chain_eq_chainWith, chainWith]
  split
  next => rfl
  next hop => exact absurd hop (h _ _)

theorem noOperator_of_chain {lhs : Phrase} (h : chain prec lhs p = .ok t q) :
    NoOperator prec q := by
  induction hn : p.words.length using Nat.strongRecOn generalizing p lhs with
  | ind n ih =>
    cases hop : operator prec p with
    | error e p' =>
      have hnone := noOperator_of_error hop
      rw [chain_of_noOperator hnone] at h
      cases h
      exact hnone
    | ok x p' =>
      rw [chain_of_operator hop] at h
      obtain ⟨rhs, p'', hrhs, h⟩ := bind_eq_ok.mp h
      have hlt := Nat.lt_trans (passes_operand p' rhs p'' hrhs) (passes_operator prec p x p' hop)
      exact ih _ (hn ▸ hlt) h rfl

theorem isSum_of_factor_le {op : BinOp} : Prec.factor ≤ op.prec ↔ op.isSum = false := by
  cases op <;> decide

theorem isSum_of_le_term {op : BinOp} : op.prec ≤ Prec.term ↔ op.isSum = true := by
  cases op <;> decide

/-- A sum takes the factors that follow its right operand before it goes on. -/
theorem chain_join {op : BinOp} (hop : op.isSum = true) (hprec : prec ≤ .term) (s : Span)
    (lhs rhs : Phrase) :
    chain prec (.join op s lhs rhs) p =
      (do chain prec (.join op s lhs (← chain .factor rhs))) p := by
  induction hn : p.words.length using Nat.strongRecOn generalizing p rhs with
  | ind n ih =>
    cases hfactor : operator .factor p with
    | error e p' =>
      rw [bind_of_ok (chain_of_noOperator (noOperator_of_error hfactor) rhs)]
    | ok x p' =>
      -- both sides add the next factor to the right operand, and go on behind it
      obtain ⟨op', s'⟩ := x
      obtain ⟨hbin, hop'⟩ := operator_iff.mp hfactor
      have hprec' : prec ≤ op'.prec := Nat.le_trans (Nat.le_succ_of_le hprec) hop'
      rw [chain_of_operator (operator_iff.mpr ⟨hbin, hprec'⟩),
        bind_congr_left (chain_of_operator hfactor rhs), bind_assoc]
      refine bind_congr_right fun r p'' hr => ?_
      rw [Phrase.join, Phrase.attach_binary hop (isSum_of_factor_le.mp hop')]
      have hlt := Nat.lt_trans (passes_operand p' r p'' hr) (passes_operator .factor p _ p' hfactor)
      exact ih _ (hn ▸ hlt) _ rfl

/-- Whatever operator comes next takes the phrase as it is for its left operand. -/
def Whole (lhs : Phrase) (p : Parser) : Prop :=
  ∀ op s q rhs, binOp p = .ok (op, s) q → lhs.attach op s rhs = .join op s lhs rhs

theorem whole_of_not_isSum (h : t.isSum = false) (p : Parser) : Whole t p :=
  fun _ _ _ _ _ => Phrase.attach_eq_join fun _ => h

theorem not_isSum_of_operand (h : operand p = .ok t q) : t.isSum = false :=
  Phrase.isSum_of_isBinary ((places_of_depth p.depth).1 p q t h).2.1

theorem whole_of_operand (h : operand p = .ok t q) : Whole t q :=
  whole_of_not_isSum (not_isSum_of_operand h) q

theorem factors_eq_chain (h : t.isSum = false) : factors t = chain .factor t := by
  funext p
  unfold factors
  split
  next hop => exact (chain_of_noOperator (noOperator_of_error hop) t).symm
  next op s q hop =>
    rw [chain_of_operator hop]
    exact bind_congr_right fun rhs _ _ => by rw [Phrase.attach_eq_join fun _ => h]

theorem noOperator_of_factors (h : factors t p = .ok u q) : NoOperator .factor q := by
  unfold factors at h
  split at h
  next hop =>
    cases h
    exact noOperator_of_error hop
  next =>
    obtain ⟨rhs, p', -, h⟩ := bind_eq_ok.mp h
    exact noOperator_of_chain h

theorem whole_of_completion {op : BinOp} {s : Span} {lhs rhs : Phrase}
    (h : completion op s lhs rhs p = .ok t q) : Whole t q := by
  unfold completion at h
  split at h
  next hsum =>
    obtain ⟨r, hr, rfl⟩ := map_eq_ok.mp h
    intro op' s' q' rhs' hop'
    refine Phrase.attach_eq_join fun hproduct => ?_
    have hnone := noOperator_of_factors hr
    exact absurd (operator_iff.mpr ⟨hop', isSum_of_factor_le.mpr hproduct⟩) (hnone _ _)
  next hproduct =>
    have hproduct : op.isSum = false := Bool.eq_false_iff.mpr hproduct
    cases h
    exact whole_of_not_isSum (t := .join op s lhs rhs) hproduct p

theorem extend_of_noOperator (h : NoOperator prec p) (lhs : Phrase) :
    extend prec lhs p = .ok lhs p := by
  unfold extend
  split
  next => rfl
  next hop => exact absurd hop (h _ _)

/-- Completing each right operand before the chain goes on makes no difference. -/
theorem extend_eq_chain {lhs : Phrase} (h : Whole lhs p) :
    extend prec lhs p = chain prec lhs p := by
  unfold extend
  split
  next hop => exact (chain_of_noOperator (noOperator_of_error hop) lhs).symm
  next op s q hop =>
    obtain ⟨hbin, hprec⟩ := operator_iff.mp hop
    rw [chain_of_operator hop]
    refine bind_congr_right fun rhs q' hrhs => ?_
    rw [h op s q rhs hbin]
    unfold completion
    split
    next hsum =>
      rw [factors_eq_chain (not_isSum_of_operand hrhs), bind_map_left]
      exact (chain_join hsum (Nat.le_trans hprec (isSum_of_le_term.mpr hsum)) s lhs rhs).symm
    next => rfl

theorem extend_factor (lhs : Phrase) : extend .factor lhs = factors lhs := by
  funext p
  unfold extend factors
  split
  next => rfl
  next op s q hop =>
    have hproduct := isSum_of_factor_le.mp (operator_iff.mp hop).2
    refine bind_congr_right fun rhs q' _ => ?_
    rw [completion, if_neg (Bool.eq_false_iff.mp hproduct), pure_bind]

theorem completion_of_noOperator (h : NoOperator .factor p) (op : BinOp) (s : Span)
    (lhs rhs : Phrase) : completion op s lhs rhs p = .ok (.join op s lhs rhs) p := by
  unfold completion
  split
  next =>
    rw [← extend_factor]
    exact map_eq_ok.mpr ⟨rhs, extend_of_noOperator h rhs, rfl⟩
  next => rfl

theorem not_neg_le (op : BinOp) : ¬ Prec.neg ≤ op.prec := by
  cases op <;> decide

theorem noOperator_neg (p : Parser) : NoOperator .neg p :=
  fun _ _ h => not_neg_le _ (operator_iff.mp h).2

end Parse

namespace Routine

open Plan Parse

theorem reads_number : number.body.reads = number.read := by
  have hint (p e q) (h : (attempt (ask (token .int))).reads p = .error e q) : e.fatal = false := by
    rw [reads_attempt] at h
    exact (token_notFatal .int).attempt p e ⟨q, h⟩
  simp only [body, reads_bind, reads_recover _ _ hint, reads_attempt]
  rw [read, Parse.number]
  refine bind_congr fun t => ?_
  cases Number.read t.lexeme <;> rfl

theorem reads_literal : literal.body.reads = literal.read := by
  have hnumber (p e q) (h : (attempt (ask number)).reads p = .error e q) : e.fatal = false := by
    rw [reads_attempt] at h
    exact number_notFatal.attempt p e ⟨q, h⟩
  have hname : Parse.name =
      (fun t => .name t.lexeme t.span) <$> Parse.attempt (Parse.token .name) :=
    (map_eq_pure_bind ..).symm
  simp only [body, reads_recover _ _ hnumber, reads_bind, reads_attempt, reads_pure]
  rw [read, Parse.literal, hname, attempt_map, attempt_attempt]
  change Parse.orElse _ (Parse.attempt (_ <$> _) >>= _) = _
  rw [attempt_map, attempt_attempt, bind_map_left]
  exact congrArg (Parse.orElse _) (map_eq_pure_bind ..).symm

theorem reads_unary : unary.body.reads = unary.read := by
  simp only [body, reads_bind, reads_attemptThen, reads_pure]
  rw [attemptThen_none _ fun (op, _) _ => by cases op; rfl]
  refine bind_congr fun x => bind_congr fun lhs => ?_
  have hneg : Parse.extend x.1.prec lhs = pure lhs :=
    funext fun p => extend_of_noOperator (noOperator_neg p) lhs
  change Parse.extend x.1.prec lhs >>= _ = _
  rw [hneg, pure_bind]

theorem reads_chain (prec : Prec) (lhs : Phrase) :
    (chain prec lhs).body.reads = (chain prec lhs).read := by
  funext p
  rw [body, reads_bind, read, extend]
  cases hop : operator prec p with
  | error e q =>
    rw [bind_of_ok (reads_maybe_of_error hop)]
    rfl
  | ok x q =>
    obtain ⟨op, s⟩ := x
    rw [bind_of_ok (reads_maybe_of_ok hop)]
    simp only [reads_bind]
    refine bind_congr_right fun rhs q₁ _ => bind_congr_right fun t q₂ ht => ?_
    exact extend_eq_chain (whole_of_completion ht)

theorem reads_completion (op : BinOp) (s : Span) (lhs rhs : Phrase) :
    (completion op s lhs rhs).body.reads = (completion op s lhs rhs).read := by
  funext p
  rw [body, reads_bind, bind_of_ok (reads_ahead _ p), read]
  cases hnext : Parse.ahead Parse.binOp p with
  | none =>
    have hnone : NoOperator .factor p := fun x q h =>
      nomatch hnext.symm.trans (ahead_eq_some.mpr ⟨q, (operator_iff.mp h).1⟩)
    exact (completion_of_noOperator hnone op s lhs rhs).symm
  | some x =>
    obtain ⟨next, t⟩ := x
    obtain ⟨q, hbin⟩ := ahead_eq_some.mp hnext
    cases hyields : op.yieldsTo next with
    | true =>
      obtain ⟨hsum, hproduct⟩ := BinOp.yieldsTo_iff.mp hyields
      have hprec : next.prec = .factor := by
        cases next <;> first | rfl | cases hproduct
      simp only [hyields, if_true, reads_bind]
      change (Parse.extend next.prec rhs >>= Parse.completion op s lhs) p = _
      rw [hprec, Parse.completion, if_pos hsum, extend_factor, map_eq_pure_bind]
      -- the chain has taken all factors, so the next round is the last one
      refine bind_congr_right fun rhs' q' h => ?_
      exact completion_of_noOperator (noOperator_of_factors h) op s lhs rhs'
    | false =>
      simp only [hyields, Bool.false_eq_true, if_false, reads_pure]
      cases hsum : op.isSum with
      | false => rw [Parse.completion, if_neg (Bool.eq_false_iff.mp hsum)]
      | true =>
        have hnone : NoOperator .factor p := by
          intro y q' h
          obtain ⟨hbin', hprec⟩ := operator_iff.mp h
          cases hbin.symm.trans hbin'
          have hproduct := isSum_of_factor_le.mp hprec
          exact absurd (BinOp.yieldsTo_iff.mpr ⟨hsum, hproduct⟩) (Bool.eq_false_iff.mp hyields)
        exact (completion_of_noOperator hnone op s lhs rhs).symm

theorem reads_binary : binary.body.reads = binary.read := by
  funext p
  rw [body, reads_bind, read, Parse.binary, climb, bind_assoc]
  simp only [reads_bind]
  refine bind_congr_right fun lhs q hlhs => ?_
  refine (bind_congr_left (extend_eq_chain (whole_of_operand hlhs)) _).trans ?_
  refine bind_congr_right fun t q' _ => ?_
  cases t <;> rfl

theorem reads_expr : expr.body.reads = expr.read := by
  funext p
  rw [body, reads_bind, bind_of_ok (reads_ahead _ p), read, expr_eq_exprWith, exprWith]
  cases Parse.ahead (Parse.token .closeParen) p with
  | some t => rfl
  | none =>
    simp only [reads_bind, reads_attempt]
    refine bind_congr_right fun lhs q hlhs => ?_
    exact extend_eq_chain (whole_of_operand (attempt_eq_ok.mp hlhs))

theorem reads_equationRest (lhs : Phrase) :
    (equationRest lhs).body.reads = (equationRest lhs).read := by
  simp only [body, reads_bind, reads_attempt]
  refine bind_congr fun eq => bind_congr fun rhs => funext fun p => ?_
  rw [bind_of_ok (reads_ahead _ p), bind_of_ok (get_eq p)]
  cases Parse.ahead (Parse.token .assign) p <;> rfl

theorem reads_request : request.body.reads = request.read := by
  simp only [body, reads_bind, reads_attempt, reads_mapError, reads_pure]
  change (Parse.attempt (_ <$> _) >>= _) = _
  rw [attempt_map, attempt_attempt, bind_map_left]
  rfl

theorem reads_statement : statement.body.reads = statement.read := by
  simp only [body, reads_bind, reads_orElse, reads_attempt, reads_pure]
  rw [read, Parse.statement, map_eq_pure_bind]
  refine congrArg (Parse.orElse _) (bind_congr fun lhs => funext fun p => ?_)
  rw [bind_of_ok (reads_ahead _ p), bind_of_ok (get_eq p)]
  cases Parse.ahead (Parse.token .assign) p with
  | none => rfl
  | some t =>
    change (do return Statement.equation (← ask (equationRest lhs)) : Plan Statement).reads p =
      (Statement.equation <$> Parse.equationWith lhs) p
    rw [reads_bind, map_eq_pure_bind]
    rfl

theorem reads_body (r : Routine) : r.body.reads = r.read := by
  cases r with
  | token kind => rfl
  | binOp => rfl
  | unaryOp => rfl
  | number => exact reads_number
  | name =>
    simp only [body, reads_bind, reads_attempt, reads_pure]
    rfl
  | literal => exact reads_literal
  | paren =>
    simp only [body, reads_bind, reads_attempt, reads_mapError, reads_pure]
    rfl
  | primary =>
    simp only [body, reads_orElse, reads_attempt]
    rfl
  | unary => exact reads_unary
  | operand =>
    simp only [body, reads_orElse, reads_attempt]
    exact operand_eq_operandWith.symm
  | chain prec lhs => exact reads_chain prec lhs
  | completion op s lhs rhs => exact reads_completion op s lhs rhs
  | binary => exact reads_binary
  | expr => exact reads_expr
  | equationRest lhs => exact reads_equationRest lhs
  | equation =>
    simp only [body, reads_bind, reads_attempt]
    rfl
  | request => exact reads_request
  | statement => exact reads_statement

end Routine

namespace NodeKind

def routine : NodeKind → Routine
  | statement => .statement
  | request => .request
  | equation => .equation
  | expr => .expr
  | binary => .binary
  | unary => .unary
  | primary => .primary
  | paren => .paren
  | literal => .literal
  | number => .number
  | name => .name
  | binOp => .binOp
  | unaryOp => .unaryOp

def node : (kind : NodeKind) → kind.routine.Value → Node
  | statement, s => .statement s
  | request, r => .request r
  | equation, e => .equation e
  | name, (n, s) => .phrase (.name n s)
  | binOp, (op, s) => .binOp op s
  | unaryOp, (op, s) => .unaryOp op s
  | expr, t | binary, t | unary, t | primary, t | paren, t | literal, t | number, t => .phrase t

theorem parse_eq (kind : NodeKind) : kind.parse = kind.node <$> kind.routine.read := by
  cases kind with
  | name =>
    refine (congrArg (Node.phrase <$> ·) (map_eq_pure_bind ..).symm).trans ?_
    refine (Functor.map_map _ _ _).trans ?_
    exact (Functor.map_map (fun t : Token => (t.lexeme, t.span))
      (fun x : String × Span => Node.phrase (.name x.1 x.2)) _).symm
  | _ => rfl

end NodeKind

end Rearrange

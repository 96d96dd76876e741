import Rearrange.Parser.Node
import Rearrange.Proofs.StatementForms

namespace Rearrange

namespace Parser

variable {p q s : Parser}

/-- From `p` to `q` tokens are passed, and the last of them is a word. -/
def Forward (p q : Parser) : Prop :=
  ∃ ts v, v.isWhitespace = false ∧ p.after = ts ++ v :: q.after ∧
    q.before = v :: (ts.reverse ++ p.before)

def Reached (p q : Parser) : Prop := q = p ∨ p.Forward q

def SameTokens (p q : Parser) : Prop := q.tokens = p.tokens

theorem Forward.trans (hpq : p.Forward q) (hqs : q.Forward s) : p.Forward s := by
  obtain ⟨ts, v, hv, hp, hq⟩ := hpq
  obtain ⟨us, w, hw, hq', hs⟩ := hqs
  refine ⟨ts ++ v :: us, w, hw, ?_, ?_⟩
  · rw [hp, hq', List.append_assoc, List.cons_append]
  · rw [hs, hq]
    simp

theorem Forward.of_reached (hpq : p.Forward q) (hqs : q.Reached s) : p.Forward s := by
  obtain rfl | hqs := hqs
  · exact hpq
  · exact hpq.trans hqs

theorem Reached.trans (hpq : p.Reached q) (hqs : q.Reached s) : p.Reached s := by
  obtain rfl | hpq := hpq
  · exact hqs
  · exact Or.inr (hpq.of_reached hqs)

theorem SameTokens.trans (hpq : p.SameTokens q) (hqs : q.SameTokens s) : p.SameTokens s :=
  Eq.trans hqs hpq

theorem Forward.sameTokens (h : p.Forward q) : p.SameTokens q := by
  obtain ⟨ts, v, -, hp, hq⟩ := h
  rw [SameTokens, tokens, tokens, hp, hq]
  simp

theorem Reached.sameTokens (h : p.Reached q) : p.SameTokens q := by
  obtain rfl | h := h
  · exact rfl
  · exact h.sameTokens

theorem Forward.cursor_lt (h : p.Forward q) : p.cursor < q.cursor := by
  obtain ⟨ts, v, -, -, hq⟩ := h
  rw [cursor, cursor, hq, List.length_cons, List.length_append]
  omega

theorem Forward.length_lt (h : p.Forward q) : q.after.length < p.after.length := by
  obtain ⟨ts, v, -, hp, -⟩ := h
  rw [hp, List.length_append, List.length_cons]
  omega

theorem Forward.words (h : p.Forward q) :
    ∃ ws v, p.words = ws ++ v :: q.words ∧ q.previous? = some v ∧ v.isWhitespace = false := by
  obtain ⟨ts, v, hv, hp, hq⟩ := h
  refine ⟨Rearrange.words ts, v, ?_, ?_, hv⟩
  · rw [Parser.words, hp, words_append, words_cons hv]
    rfl
  · rw [previous?, hq]
    rfl

theorem Forward.previous {ts : List Token} {t : Token} (h : p.Forward q)
    (hp : p.words = ts ++ t :: q.words) : q.previous? = some t ∧ t.isWhitespace = false := by
  obtain ⟨ws, v, hp', hv, hword⟩ := h.words
  rw [List.append_cons, hp, List.append_cons, List.append_cancel_right_eq] at hp'
  obtain ⟨-, hlast⟩ := List.append_inj' hp' rfl
  cases hlast
  exact ⟨hv, hword⟩

theorem cursor_le (p : Parser) : p.cursor ≤ p.tokens.length := by
  rw [cursor, tokens, List.length_append, List.length_reverse]
  exact Nat.le_add_right _ _

theorem seek_cursor (h : p.SameTokens q) : q.seek p.cursor = p := by
  rw [seek, show q.tokens = p.tokens from h, tokens, cursor, ← List.length_reverse,
    List.take_left, List.drop_left, List.reverse_reverse]

theorem sameTokens_seek (p : Parser) (n : Nat) : p.SameTokens (p.seek n) := by
  rw [SameTokens, seek, tokens, List.reverse_reverse, List.take_append_drop]

theorem skipWhitespace_go_passes (before after : List Token) :
    ∃ ts, after = ts ++ (skipWhitespace.go before after).after ∧
      (skipWhitespace.go before after).before = ts.reverse ++ before := by
  fun_induction skipWhitespace.go before after with
  | case1 before => exact ⟨[], rfl, rfl⟩
  | case2 before t ts _ ih =>
    obtain ⟨us, hts, hbefore⟩ := ih
    refine ⟨t :: us, by rw [List.cons_append, ← hts], ?_⟩
    rw [hbefore, List.reverse_cons, List.append_assoc]
    rfl
  | case3 before t ts _ => exact ⟨[], rfl, rfl⟩

theorem sameTokens_skipWhitespace (p : Parser) : p.SameTokens p.skipWhitespace := by
  obtain ⟨ts, hafter, hbefore⟩ := skipWhitespace_go_passes p.before p.after
  change p.skipWhitespace.tokens = p.tokens
  rw [tokens, tokens, hafter, show p.skipWhitespace.before = _ from hbefore, List.reverse_append,
    List.reverse_reverse, List.append_assoc]
  rfl

end Parser

namespace Parse

open Rearrange.Parser (Forward Reached SameTokens)

variable {α β : Type} {R S T : Parser → Parser → Prop} {r s : Parse α} {p q : Parser}

/-- A read that gives a value moves the parser as `R` says, and one that fails keeps the tokens. -/
structure Moves (R : Parser → Parser → Prop) (r : Parse α) : Prop where
  ok : ∀ {p a q}, r p = .ok a q → R p q
  error : ∀ {p e q}, r p = .error e q → p.SameTokens q

theorem Moves.mono (h : ∀ {p q}, R p q → S p q) (hr : Moves R r) : Moves S r :=
  ⟨fun hok => h (hr.ok hok), hr.error⟩

theorem Moves.reached (h : Moves Forward r) : Moves Reached r := h.mono Or.inr

theorem Moves.pure (a : α) : Moves Reached (pure a) where
  ok h := by cases h; exact Or.inl rfl
  error h := by cases h

theorem Moves.throw (e : ParseError) : Moves R (throw e : Parse α) where
  ok h := by cases h
  error h := by cases h; exact rfl

theorem Moves.fail (cause : Fault) : Moves R (fail cause : Parse α) where
  ok h := by cases h
  error h := by cases h; exact rfl

theorem Moves.get : Moves Reached get where
  ok h := by cases h; exact Or.inl rfl
  error h := by cases h

theorem Moves.bind {f : α → Parse β} (hT : ∀ {p q s}, R p q → S q s → T p s)
    (hR : ∀ {p q}, R p q → p.SameTokens q) (hr : Moves R r) (hf : ∀ a, Moves S (f a)) :
    Moves T (r >>= f) where
  ok h := by
    obtain ⟨a, p', hr', h⟩ := bind_eq_ok.mp h
    exact hT (hr.ok hr') ((hf a).ok h)
  error {p e q} h := by
    change EStateM.bind r f p = .error e q at h
    unfold EStateM.bind at h
    split at h
    next a p' hr' => exact (hR (hr.ok hr')).trans ((hf a).error h)
    next e' p' he =>
      cases h
      exact hr.error he

theorem Moves.andThen {f : α → Parse β} (hr : Moves Forward r) (hf : ∀ a, Moves Reached (f a)) :
    Moves Forward (r >>= f) :=
  hr.bind (S := Reached) Forward.of_reached Forward.sameTokens hf

theorem Moves.andThenReached {f : α → Parse β} (hr : Moves Reached r)
    (hf : ∀ a, Moves Reached (f a)) : Moves Reached (r >>= f) :=
  hr.bind (S := Reached) Reached.trans Reached.sameTokens hf

theorem Moves.map (h : Moves R r) (f : α → β) : Moves R (f <$> r) where
  ok hr := by
    obtain ⟨a, ha, -⟩ := map_eq_ok.mp hr
    exact h.ok ha
  error {p e q} hr := by
    change EStateM.map f r p = .error e q at hr
    unfold EStateM.map at hr
    split at hr
    next => cases hr
    next e' q' he =>
      cases hr
      exact h.error he

theorem attempt_eq_error {e : ParseError} (h : attempt r p = .error e q) :
    q = p ∧ ∃ q', r p = .error e q' := by
  unfold attempt at h
  split at h
  next => cases h
  next e' q' he =>
    cases h
    exact ⟨rfl, q', he⟩

theorem Moves.attempt (h : Moves R r) : Moves R (attempt r) where
  ok hr := h.ok (attempt_eq_ok.mp hr)
  error hr := by
    obtain ⟨rfl, -⟩ := attempt_eq_error hr
    exact rfl

theorem Moves.attemptThen (h : Moves R r) (check : α → Parser → Option ParseError) :
    Moves R (attemptThen r check) where
  ok hr := h.ok (attemptThen_eq_ok hr)
  error hr := by
    obtain ⟨rfl, -⟩ := attempt_eq_error hr
    exact rfl

theorem Moves.orElse (hr : Moves R r) (hs : Moves R s) : Moves R (orElse (Parse.attempt r) s) where
  ok h := by
    rcases orElse_eq_ok h with h | h
    · exact hr.ok h
    · exact hs.ok h
  error {p e q} h := by
    unfold Parse.orElse at h
    split at h
    next => cases h
    next e' p' he =>
      obtain ⟨rfl, -⟩ := attempt_eq_error he
      split at h
      next => cases h; exact rfl
      next => exact hs.error h

theorem Moves.mapError (h : Moves R r) (f : ParseError → ParseError) : Moves R (mapError f r) where
  ok hr := h.ok (mapError_eq_ok.mp hr)
  error {p e q} hr := by
    unfold Parse.mapError at hr
    split at hr
    next => cases hr
    next e' q' he =>
      cases hr
      exact h.error he

theorem Moves.full (h : Moves Forward r) : Moves SameTokens (full r) := by
  refine h.bind (S := SameTokens) (fun hpq hqs => hpq.sameTokens.trans hqs) Forward.sameTokens
    fun a => ?_
  constructor
  · intro p a' q hfull
    obtain ⟨_, p', hskip, hfull⟩ := bind_eq_ok.mp hfull
    obtain ⟨_, p'', hget, hfull⟩ := bind_eq_ok.mp hfull
    cases hskip
    cases hget
    split at hfull
    next => cases hfull; exact p.sameTokens_skipWhitespace
    next => cases hfull
  · intro p e q hfull
    change (if p.skipWhitespace.after.isEmpty then Pure.pure a
      else Parse.fail .expectedEnd : Parse α) p.skipWhitespace = .error e q at hfull
    split at hfull
    next => cases hfull
    next => cases hfull; exact p.sameTokens_skipWhitespace

theorem Moves.next : Moves Forward next where
  ok {p t q} h := by
    unfold Parse.next at h
    simp only at h
    split at h
    next u us hafter =>
      have hu := (Parser.skipWhitespace_go p.before p.after).2 u us hafter
      obtain ⟨ts, hts, hbefore⟩ := Parser.skipWhitespace_go_passes p.before p.after
      cases h
      refine ⟨ts, t, hu, hts.trans (congrArg (ts ++ ·) hafter), ?_⟩
      exact congrArg (t :: ·) hbefore
    next => cases h
  error {p e q} h := by
    unfold Parse.next at h
    simp only at h
    split at h
    next => cases h
    next => cases h; exact p.sameTokens_skipWhitespace

theorem moves_token (kind : TokenKind) : Moves Forward (token kind) := by
  refine Moves.next.andThen fun t => ?_
  split
  · exact .pure t
  · exact .throw _

theorem moves_binOp : Moves Forward binOp := by
  refine Moves.next.andThen fun t => ?_
  split
  · exact .pure _
  · exact .throw _

theorem moves_unaryOp : Moves Forward unaryOp := by
  refine Moves.next.andThen fun t => ?_
  split
  · exact .pure _
  · exact .throw _

theorem moves_number : Moves Forward number := by
  refine ((moves_token .int).orElse (moves_token .float).attempt).andThen fun t => ?_
  split
  · exact .pure _
  · exact .throw _

theorem moves_name : Moves Forward name := (moves_token .name).attempt.andThen fun _ => .pure _

theorem moves_literal : Moves Forward literal := moves_number.orElse moves_name.attempt

theorem moves_operator (prec : Prec) : Moves Forward (operator prec) := moves_binOp.attemptThen _

section

variable {operand expr : Parse Phrase} {chain : Phrase → Parse Phrase}

theorem moves_parenWith (h : Moves Forward expr) : Moves Forward (parenWith expr) := by
  refine (moves_token .openParen).attempt.andThen fun _ => ?_
  refine h.attempt.reached.andThenReached fun _ => ?_
  exact ((moves_token .closeParen).attempt.mapError _).reached.andThenReached fun _ => .pure _

theorem moves_primaryWith (h : Moves Forward expr) : Moves Forward (primaryWith expr) :=
  moves_literal.orElse (moves_parenWith h).attempt

theorem moves_unaryWith (h : Moves Forward operand) : Moves Forward (unaryWith operand) :=
  moves_unaryOp.attempt.andThen fun _ => h.reached.andThenReached fun _ => .pure _

theorem moves_operandWith (hoperand : Moves Forward operand) (hexpr : Moves Forward expr) :
    Moves Forward (operandWith operand expr) :=
  (moves_unaryWith hoperand).orElse (moves_primaryWith hexpr).attempt

theorem moves_chainWith (prec : Prec) (lhs : Phrase) (hoperand : Moves Forward operand)
    (hchain : ∀ t, Moves Reached (chain t)) : Moves Reached (chainWith operand chain prec lhs) := by
  have hrest (op : BinOp) (s : Span) :
      Moves Forward (operand >>= fun rhs => chain (lhs.attach op s rhs)) :=
    hoperand.andThen fun _ => hchain _
  constructor
  · intro p t q h
    unfold chainWith at h
    split at h
    next => cases h; exact Or.inl rfl
    next op s p' hop => exact Or.inr (((moves_operator prec).ok hop).trans ((hrest op s).ok h))
  · intro p e q h
    unfold chainWith at h
    split at h
    next => cases h
    next op s p' hop =>
      exact ((moves_operator prec).ok hop).sameTokens.trans ((hrest op s).error h)

theorem moves_exprWith (hoperand : Moves Forward operand) (hchain : ∀ t, Moves Reached (chain t)) :
    Moves Forward (exprWith operand chain) := by
  have hrest : Moves Forward (Parse.attempt operand >>= chain) := hoperand.attempt.andThen hchain
  constructor
  · intro p t q h
    unfold exprWith at h
    split at h
    next => cases h
    next => exact hrest.ok h
  · intro p e q h
    unfold exprWith at h
    split at h
    next => cases h; exact rfl
    next => exact hrest.error h

end

theorem moves_of_depth (n : Nat) :
    Moves Forward (operandAt n) ∧ Moves Forward (exprAt n) ∧
      ∀ prec lhs, Moves Reached (chainAt n prec lhs) := by
  induction n with
  | zero => exact ⟨.fail _, .fail _, fun _ _ => .fail _⟩
  | succ n ih =>
    obtain ⟨hoperand, hexpr, hchain⟩ := ih
    exact ⟨moves_operandWith hoperand hexpr, moves_exprWith hoperand (hchain .any),
      fun prec lhs => moves_chainWith prec lhs hoperand (hchain prec)⟩

theorem moves_operand : Moves Forward operand :=
  ⟨fun {p _ _} h => (moves_of_depth p.depth).1.ok h,
    fun {p _ _} h => (moves_of_depth p.depth).1.error h⟩

theorem moves_expr : Moves Forward expr :=
  ⟨fun {p _ _} h => (moves_of_depth p.depth).2.1.ok h,
    fun {p _ _} h => (moves_of_depth p.depth).2.1.error h⟩

theorem moves_chain (prec : Prec) (lhs : Phrase) : Moves Reached (chain prec lhs) :=
  ⟨fun {p _ _} h => ((moves_of_depth p.depth).2.2 prec lhs).ok h,
    fun {p _ _} h => ((moves_of_depth p.depth).2.2 prec lhs).error h⟩

theorem moves_climb (prec : Prec) : Moves Forward (climb prec) :=
  moves_operand.andThen fun lhs => moves_chain prec lhs

theorem moves_binary : Moves Forward binary := by
  refine (moves_climb .any).andThen fun t => ?_
  split
  · exact .pure _
  · exact .fail _

theorem moves_equationWith (lhs : Phrase) : Moves Forward (equationWith lhs) := by
  refine (moves_token .assign).attempt.andThen fun _ => ?_
  refine moves_expr.attempt.reached.andThenReached fun _ => Moves.get.andThenReached fun _ => ?_
  split
  · exact .throw _
  · exact .pure _

theorem moves_equation : Moves Forward equation :=
  moves_expr.attempt.andThen fun lhs => (moves_equationWith lhs).reached

theorem moves_request : Moves Forward request := by
  refine (moves_token .name).attempt.andThen fun _ => ?_
  refine (moves_token .colon).attempt.reached.andThenReached fun _ => ?_
  exact (moves_equation.attempt.mapError _).reached.andThenReached fun _ => .pure _

theorem moves_statement : Moves Forward statement := by
  refine (moves_request.map _).orElse (moves_expr.attempt.andThen fun lhs => ?_)
  refine Moves.get.andThenReached fun _ => ?_
  split
  · exact ((moves_equationWith lhs).map _).reached
  · exact .pure _

theorem moves_parse (kind : NodeKind) : Moves Forward kind.parse := by
  cases kind with
  | statement => exact moves_statement.map _
  | request => exact moves_request.map _
  | equation => exact moves_equation.map _
  | expr => exact moves_expr.map _
  | binary => exact moves_binary.map _
  | unary => exact (moves_unaryWith moves_operand).map _
  | primary => exact (moves_primaryWith moves_expr).map _
  | paren => exact (moves_parenWith moves_expr).map _
  | literal => exact moves_literal.map _
  | number => exact moves_number.map _
  | name => exact moves_name.map _
  | binOp => exact moves_binOp.map _
  | unaryOp => exact moves_unaryOp.map _

end Parse

end Rearrange

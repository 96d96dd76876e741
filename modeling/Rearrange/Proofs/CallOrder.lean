import Rearrange.Proofs.ForwardReads
import Rearrange.Proofs.RoutineReads

namespace Rearrange

namespace Routine

/-- The place of a function in the order in which they may call each other without moving. -/
def rank : Routine → Nat
  | token _ | binOp | unaryOp | chain .. => 0
  | number | name | unary | completion .. | equationRest _ => 1
  | literal | paren | request => 2
  | primary => 3
  | operand => 4
  | expr | binary => 5
  | equation | statement => 6

/-- The call of `r'` at `q` goes forward from `p`, or down from `r`. -/
def Descends (r : Routine) (p : Parser) (r' : Routine) (q : Parser) : Prop :=
  p.Forward q ∨ q = p ∧ r'.rank < r.rank

end Routine

namespace Plan

variable {α β : Type} {P : Routine → Parser → Prop} {p : Parser}

def Asks (P : Routine → Parser → Prop) (x : Plan α) (p : Parser) : Prop :=
  ∀ c ∈ (x p).calls, P c.1 c.2

theorem asks_read (r : Parse α) : (read r).Asks P p := by
  intro c hc
  cases hc

theorem asks_ask {r : Routine} (h : P r p) : (ask r).Asks P p := by
  intro c hc
  obtain rfl := List.mem_singleton.mp hc
  exact h

theorem asks_andThen {x : Plan α} {k : Outcome α → Course (Outcome β)} (hx : x.Asks P p)
    (hk : ∀ c ∈ (k (x.reads p)).calls, P c.1 c.2) : ∀ c ∈ ((x p).andThen k).calls, P c.1 c.2 := by
  intro c hc
  rw [Course.calls_andThen] at hc
  obtain hc | hc := List.mem_append.mp hc
  · exact hx c hc
  · exact hk c hc

theorem Asks.bind {x : Plan α} {f : α → Plan β} (hx : x.Asks P p)
    (hf : ∀ a q, x.reads p = .ok a q → (f a).Asks P q) : (x >>= f).Asks P p := by
  refine asks_andThen hx ?_
  cases h : x.reads p with
  | ok a q => exact hf a q h
  | error e q => exact nofun

theorem Asks.attempt {x : Plan α} (hx : x.Asks P p) : (attempt x).Asks P p := by
  refine asks_andThen hx ?_
  cases x.reads p <;> exact nofun

theorem Asks.attemptThen {x : Plan α} (hx : x.Asks P p) (check : α → Parser → Option ParseError) :
    (attemptThen x check).Asks P p := by
  refine Asks.attempt (asks_andThen hx ?_)
  cases x.reads p with
  | ok a q => cases h : check a q <;> simp only [h] <;> exact nofun
  | error e q => exact nofun

theorem asks_afterAttempt {x : Plan α} {k : Outcome α → Course (Outcome β)} (hx : x.Asks P p)
    (hok : ∀ a q, (k (.ok a q)).calls = [])
    (herror : ∀ e, ∀ c ∈ (k (.error e p)).calls, P c.1 c.2) :
    ∀ c ∈ ((attempt x p).andThen k).calls, P c.1 c.2 := by
  refine asks_andThen hx.attempt ?_
  rw [reads_attempt]
  cases h : Parse.attempt x.reads p with
  | ok a q =>
    rw [hok]
    exact nofun
  | error e q =>
    obtain ⟨rfl, -⟩ := Parse.attempt_eq_error h
    exact herror e

theorem Asks.orElse {x y : Plan α} (hx : x.Asks P p) (hy : y.Asks P p) :
    (orElse (Plan.attempt x) y).Asks P p := by
  refine asks_afterAttempt hx (fun _ _ => rfl) fun e => ?_
  cases hfatal : e.fatal with
  | true => simp only [hfatal]; exact nofun
  | false => simp only [hfatal]; exact hy

theorem Asks.recover {x y : Plan α} (hx : x.Asks P p) (hy : y.Asks P p) :
    (recover (Plan.attempt x) y).Asks P p :=
  asks_afterAttempt hx (fun _ _ => rfl) fun _ => hy

theorem Asks.mapError {x : Plan α} (hx : x.Asks P p) (f : ParseError → ParseError) :
    (mapError f x).Asks P p := by
  refine asks_andThen hx ?_
  cases x.reads p <;> exact nofun

theorem asks_step {r : Routine} {f : r.Value → Plan β} (h : P r p)
    (hf : ∀ a q, r.read p = .ok a q → (f a).Asks P q) : (attempt (ask r) >>= f).Asks P p := by
  refine (asks_ask h).attempt.bind fun a q ha => ?_
  rw [reads_attempt] at ha
  exact hf a q (Parse.attempt_eq_ok.mp ha)

end Plan

namespace Parse

variable {p q s : Parser} {t u : Phrase} {prec : Prec} {x : BinOp × Span}

theorem reached_of_factors (h : factors t p = .ok u q) : p.Reached q := by
  unfold factors at h
  split at h
  next => cases h; exact Or.inl rfl
  next op opSpan s hop =>
    have hrest := moves_operand.andThen fun rhs => moves_chain .factor (.join op opSpan t rhs)
    exact Or.inr (((moves_operator .factor).ok hop).trans (hrest.ok h))

theorem reached_of_completion {op : BinOp} {opSpan : Span} {lhs rhs : Phrase}
    (h : completion op opSpan lhs rhs p = .ok t q) : p.Reached q := by
  unfold completion at h
  split at h
  next =>
    obtain ⟨r, hr, -⟩ := map_eq_ok.mp h
    exact reached_of_factors hr
  next => cases h; exact Or.inl rfl

theorem forward_of_extend (hop : operator prec p = .ok x s) (h : extend prec t p = .ok u q) :
    s.Forward q := by
  unfold extend at h
  rw [hop] at h
  obtain ⟨rhs, s₁, hrhs, h⟩ := bind_eq_ok.mp h
  obtain ⟨lhs, s₂, hlhs, h⟩ := bind_eq_ok.mp h
  have hrest := (reached_of_completion hlhs).trans ((moves_chain prec lhs).ok h)
  exact (moves_operand.ok hrhs).of_reached hrest

end Parse

namespace Routine

open Plan Parse

theorem chain_asks (prec : Prec) (lhs : Phrase) (p : Parser) :
    (chain prec lhs).body.Asks (fun r q => ∃ x p₁, Parse.operator prec p = .ok x p₁ ∧ p.Forward p₁ ∧
      (r = operand ∧ q = p₁ ∨
        ∃ rhs p₂, Parse.operand p₁ = .ok rhs p₂ ∧ p₁.Forward p₂ ∧ p₂.Reached q)) p := by
  refine (asks_read _).bind fun x p₁ hp₁ => ?_
  cases x with
  | none => exact asks_read _
  | some x =>
    have hop := of_reads_maybe hp₁
    have hforward := (moves_operator prec).ok hop
    refine (asks_ask ⟨x, p₁, hop, hforward, .inl ⟨rfl, rfl⟩⟩).bind fun rhs p₂ hrhs => ?_
    have hp₂ := moves_operand.ok hrhs
    have hcompletion : p₂.Reached p₂ := .inl rfl
    refine (asks_ask ⟨x, p₁, hop, hforward, .inr ⟨rhs, p₂, hrhs, hp₂, hcompletion⟩⟩).bind ?_
    intro lhs' p₃ hp₃
    have hround := reached_of_completion hp₃
    exact asks_ask ⟨x, p₁, hop, hforward, .inr ⟨rhs, p₂, hrhs, hp₂, hround⟩⟩

theorem completion_asks (op : BinOp) (s : Span) (lhs rhs : Phrase) (p : Parser) :
    (completion op s lhs rhs).body.Asks (fun r q => ∃ x p₁, Parse.binOp p = .ok x p₁ ∧
      p.Forward p₁ ∧ (r = chain x.1.prec rhs ∧ q = p ∨ p₁.Forward q)) p := by
  refine (asks_read _).bind fun x q hq => ?_
  cases hq
  cases hnext : Parse.ahead Parse.binOp p with
  | none => exact asks_read _
  | some x =>
    obtain ⟨p₁, hbin⟩ := ahead_eq_some.mp hnext
    have hforward := moves_binOp.ok hbin
    cases hyields : op.yieldsTo x.1 with
    | false => simp only [hyields]; exact asks_read _
    | true =>
      simp only [hyields, if_true]
      refine (asks_ask ⟨x, p₁, hbin, hforward, .inl ⟨rfl, rfl⟩⟩).bind fun rhs' q hq => ?_
      have hop := operator_iff.mpr ⟨hbin, Nat.le_refl _⟩
      exact asks_ask ⟨x, p₁, hbin, hforward, .inr (forward_of_extend hop hq)⟩

theorem body_descends (r : Routine) (p : Parser) : r.body.Asks (r.Descends p) p := by
  cases r with
  | token kind => exact asks_read _
  | binOp => exact asks_read _
  | unaryOp => exact asks_read _
  | number =>
    have hint := asks_ask (r := token .int) (P := number.Descends p) (.inr ⟨rfl, by decide⟩)
    have hfloat := asks_ask (r := token .float) (P := number.Descends p) (.inr ⟨rfl, by decide⟩)
    refine (hint.recover hfloat.attempt).bind fun t q _ => ?_
    cases Number.read t.lexeme <;> exact asks_read _
  | name => exact asks_step (.inr ⟨rfl, by decide⟩) fun t q _ => asks_read _
  | literal =>
    refine Asks.recover (asks_ask (.inr ⟨rfl, by decide⟩)) ?_
    exact asks_step (.inr ⟨rfl, by decide⟩) fun x q _ => asks_read _
  | paren =>
    refine asks_step (.inr ⟨rfl, by decide⟩) fun opening q hq => ?_
    have hq : p.Forward q := (moves_token _).ok hq
    refine asks_step (.inl hq) fun inner q' hq' => ?_
    refine ((asks_ask (.inl (hq.trans (moves_expr.ok hq')))).attempt.mapError _).bind ?_
    exact fun closing q'' _ => asks_read _
  | primary =>
    refine Asks.orElse (asks_ask (.inr ⟨rfl, by decide⟩)) (asks_ask (.inr ⟨rfl, by decide⟩)).attempt
  | unary =>
    refine ((asks_ask (.inr ⟨rfl, by decide⟩)).attemptThen _).bind fun x q hq => ?_
    rw [reads_attemptThen] at hq
    have hq : p.Forward q := moves_unaryOp.ok (attemptThen_eq_ok hq)
    refine (asks_ask (.inl hq)).bind fun lhs q' hq' => ?_
    refine (asks_ask (.inl (hq.trans (moves_operand.ok hq')))).bind fun inner q'' _ => ?_
    exact asks_read _
  | operand =>
    refine Asks.orElse (asks_ask (.inr ⟨rfl, by decide⟩)) (asks_ask (.inr ⟨rfl, by decide⟩)).attempt
  | chain prec lhs =>
    intro c hc
    obtain ⟨x, p₁, -, hp₁, ⟨-, hq⟩ | ⟨rhs, p₂, -, hp₂, hq⟩⟩ := chain_asks prec lhs p c hc
    · exact .inl (hq ▸ hp₁)
    · exact .inl ((hp₁.trans hp₂).of_reached hq)
  | completion op s lhs rhs =>
    intro c hc
    obtain ⟨x, p₁, -, hp₁, ⟨hr, hq⟩ | hq⟩ := completion_asks op s lhs rhs p c hc
    · exact .inr ⟨hq, hr ▸ Nat.zero_lt_one⟩
    · exact .inl (hp₁.trans hq)
  | binary =>
    refine (asks_ask (.inr ⟨rfl, by decide⟩)).bind fun lhs q hq => ?_
    refine (asks_ask (.inl (moves_operand.ok hq))).bind fun t q' _ => ?_
    cases t <;> exact asks_read _
  | expr =>
    refine (asks_read _).bind fun x q hq => ?_
    cases hq
    cases Parse.ahead (Parse.token .closeParen) p with
    | some t => exact asks_read _
    | none =>
      refine asks_step (.inr ⟨rfl, by decide⟩) fun lhs q hq => ?_
      exact asks_ask (.inl (moves_operand.ok hq))
  | equationRest lhs =>
    refine asks_step (.inr ⟨rfl, Nat.zero_lt_one⟩) fun eq q hq => ?_
    refine asks_step (.inl ((moves_token _).ok hq)) fun rhs q₁ _ => ?_
    refine (asks_read _).bind fun x q₂ _ => ?_
    cases x <;> exact asks_read _
  | equation =>
    refine asks_step (.inr ⟨rfl, by decide⟩) fun lhs q hq => ?_
    exact asks_ask (.inl (moves_expr.ok hq))
  | request =>
    refine asks_step (.inr ⟨rfl, by decide⟩) fun target q hq => ?_
    have hq : p.Forward q := ((moves_token .name).attempt.map _).ok hq
    refine asks_step (.inl hq) fun colon q₁ hq₁ => ?_
    have hq₁ : p.Forward q₁ := hq.trans ((moves_token _).ok hq₁)
    exact ((asks_ask (.inl hq₁)).attempt.mapError _).bind fun e q₂ _ => asks_read _
  | statement =>
    refine Asks.orElse ((asks_ask (.inr ⟨rfl, by decide⟩)).bind fun r q _ => asks_read _) ?_
    refine asks_step (.inr ⟨rfl, by decide⟩) fun lhs q hq => ?_
    refine (asks_read _).bind fun x q₁ hq₁ => ?_
    cases hq₁
    cases Parse.ahead (Parse.token .assign) q with
    | none => exact asks_read _
    | some t => exact (asks_ask (.inl (moves_expr.ok hq))).bind fun e q₂ _ => asks_read _

theorem rank_le (r : Routine) : r.rank ≤ 6 := by
  cases r <;> exact Nat.le_of_ble_eq_true rfl

end Routine

theorem Course.exists_trace {α : Type}
    {answer : (r : Routine) → Parser → Option (Outcome r.Value × List Event)} (c : Course α)
    (h : ∀ x ∈ c.calls, ∃ es, answer x.1 x.2 = some (x.1.read x.2, es)) :
    ∃ es, c.trace answer = some (c.result, es) := by
  induction c with
  | done a => exact ⟨[], rfl⟩
  | call r p go ih =>
    obtain ⟨es, hes⟩ := h (r, p) (.head _)
    obtain ⟨later, hlater⟩ := ih (r.read p) fun x hx => h x (.tail _ hx)
    refine ⟨es ++ later, ?_⟩
    simp only [trace, hes, hlater, Option.bind_eq_bind, Option.bind_some]
    rfl

/-- The depth that suffices: going down keeps the tokens to come and lowers the rank, which is at
most six, and going forward takes a token. -/
theorem Routine.exists_trace (n : Nat) (r : Routine) (p : Parser)
    (h : 7 * p.after.length + r.rank < n) : ∃ es, r.trace n p = some (r.read p, es) := by
  induction n generalizing r p with
  | zero => cases h
  | succ n ih =>
    have hcalls : ∀ x ∈ (r.body p).calls, ∃ es, x.1.trace n x.2 = some (x.1.read x.2, es) := by
      intro x hx
      refine ih x.1 x.2 ?_
      obtain hforward | ⟨hsame, hrank⟩ := body_descends r p x hx
      · have := hforward.length_lt
        have := x.1.rank_le
        omega
      · rw [hsame]
        omega
    obtain ⟨es, hes⟩ := (r.body p).exists_trace hcalls
    refine ⟨.enters r p :: es ++ [.leaves r (r.read p)], ?_⟩
    have hresult : (r.body p).result = r.read p := congrFun (reads_body r) p
    rw [hresult] at hes
    simp only [trace, hes, Option.bind_eq_bind, Option.bind_some]
    rfl

/-- Reading ends. Each call is at a later place in the text or goes down in the order of the
functions, so a depth of calls that is linear in the tokens to come is enough for each function. -/
theorem calls_descend_and_end :
    (∀ (r : Routine) p, ∀ c ∈ r.calls p,
        p.cursor < c.2.cursor ∧ c.2.tokens = p.tokens ∨ c.2 = p ∧ c.1.rank < r.rank) ∧
      (∀ prec lhs p prec' lhs' q,
        (Routine.chain prec' lhs', q) ∈ (Routine.chain prec lhs).calls p →
          ∃ x p₁ rhs p₂, Parse.operator prec p = .ok x p₁ ∧ Parse.operand p₁ = .ok rhs p₂ ∧
            p.Forward p₁ ∧ p₁.Forward p₂ ∧ p₂.Reached q) ∧
      (∀ op s lhs rhs p op' s' lhs' rhs' q,
        (Routine.completion op' s' lhs' rhs', q) ∈ (Routine.completion op s lhs rhs).calls p →
          ∃ x p₁, Parse.binOp p = .ok x p₁ ∧ p.Forward p₁ ∧ p₁.Forward q) ∧
      (∀ (r : Routine) p n, 7 * (p.after.length + 1) ≤ n →
        ∃ es, r.trace n p = some (r.read p, es)) ∧
      (∀ kind : NodeKind, kind.parse = kind.node <$> kind.routine.read) ∧
      ∀ (p : Parser) n, p.depth ≤ n →
        Parse.operandAt n p = Parse.operand p ∧ Parse.exprAt n p = Parse.expr p ∧
          ∀ prec lhs, Parse.chainAt n prec lhs p = Parse.chain prec lhs p := by
  refine ⟨?_, ?_, ?_, ?_, NodeKind.parse_eq, fun p n hn => ⟨?_, ?_, fun prec lhs => ?_⟩⟩
  · intro r p c hc
    refine (Routine.body_descends r p c hc).imp_left fun h => ?_
    exact ⟨h.cursor_lt, h.sameTokens⟩
  · intro prec lhs p prec' lhs' q hc
    obtain ⟨x, p₁, hop, hp₁, ⟨hr, -⟩ | ⟨rhs, p₂, hrhs, hp₂, hq⟩⟩ :=
      Routine.chain_asks prec lhs p _ hc
    · cases hr
    · exact ⟨x, p₁, rhs, p₂, hop, hrhs, hp₁, hp₂, hq⟩
  · intro op s lhs rhs p op' s' lhs' rhs' q hc
    obtain ⟨x, p₁, hop, hp₁, ⟨hr, -⟩ | hq⟩ := Routine.completion_asks op s lhs rhs p _ hc
    · cases hr
    · exact ⟨x, p₁, hop, hp₁, hq⟩
  · intro r p n hn
    have := r.rank_le
    exact Routine.exists_trace n r p (by omega)
  · exact (Parse.operand_eq hn).symm
  · exact (Parse.expr_eq hn).symm
  · exact (Parse.chain_eq hn prec lhs).symm

def Routine.isCompletion : Routine → Bool
  | completion .. => true
  | _ => false

/-- The completion of `a+b` in front of `*c` calls for another round, which is behind the `*`. -/
theorem calls_descend_and_end_product :
    ∃ op s lhs rhs q, (Routine.completion op s lhs rhs, q) ∈
        (Routine.completion .add ⟨1, 2⟩ (.name "a" ⟨0, 1⟩) (.name "b" ⟨2, 3⟩)).calls
          ((Parser.ofSource "a+b*c").seek 3) ∧
      ∃ x p₁, Parse.binOp ((Parser.ofSource "a+b*c").seek 3) = .ok x p₁ ∧
        ((Parser.ofSource "a+b*c").seek 3).Forward p₁ ∧ p₁.Forward q := by
  have hany : ((Routine.completion .add ⟨1, 2⟩ (.name "a" ⟨0, 1⟩) (.name "b" ⟨2, 3⟩)).calls
      ((Parser.ofSource "a+b*c").seek 3)).any (·.1.isCompletion) = true := by decide +kernel
  obtain ⟨⟨r, q⟩, hmem, hr⟩ := List.any_eq_true.mp hany
  obtain ⟨-, -, hcompletion, -⟩ := calls_descend_and_end
  cases r with
  | completion op s lhs rhs =>
    exact ⟨op, s, lhs, rhs, q, hmem, hcompletion _ _ _ _ _ _ _ _ _ q hmem⟩
  | _ => cases hr

end Rearrange

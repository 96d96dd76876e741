import Rearrange.Proofs.CallOrder

namespace Rearrange

def Event.error? : Event → Option ParseError
  | leaves _ (.error e _) => some e
  | _ => none

theorem Event.error?_eq_some {x : Event} {e : ParseError} :
    x.error? = some e ↔ ∃ r q, x = .leaves r (.error e q) := by
  constructor
  · intro h
    match x with
    | .leaves r (.error e' q) =>
      cases h
      exact ⟨r, q, rfl⟩
  · rintro ⟨r, q, rfl⟩
    rfl

/-- Behind a fatal error there are only calls that end with the same error. -/
def Heeded (es : List Event) : Prop :=
  es.Pairwise fun x y => ∀ e, x.error? = some e → e.fatal = true → y.error? = some e

def Surfaces {α : Type} (es : List Event) (y : Outcome α) : Prop :=
  ∀ x ∈ es, ∀ e, x.error? = some e → e.fatal = true → ∃ q, y = .error e q

namespace Course

variable {α β : Type}

/-- When a call fails fatally, the course is at its end and fails with the same error. -/
def Heeds : Course (Outcome α) → Prop
  | done _ => True
  | call r p go =>
    (∀ e q, r.read p = .error e q → e.fatal = true → ∃ q', go (r.read p) = .done (.error e q')) ∧
      (go (r.read p)).Heeds

theorem heeds_andThen {c : Course (Outcome α)} {k : Outcome α → Course (Outcome β)} (hc : c.Heeds)
    (herror : ∀ e q, c.result = .error e q → e.fatal = true →
      ∃ q', k (.error e q) = .done (.error e q'))
    (hk : (k c.result).Heeds) : (c.andThen k).Heeds := by
  induction c with
  | done y => exact hk
  | call r p go ih =>
    obtain ⟨hfatal, hgo⟩ := hc
    refine ⟨fun e q hread he => ?_, ih (r.read p) hgo herror hk⟩
    obtain ⟨q', hdone⟩ := hfatal e q hread he
    obtain ⟨q'', hk'⟩ := herror e q' (congrArg result hdone) he
    exact ⟨q'', (congrArg (andThen k) hdone).trans hk'⟩

def Answers (answer : (r : Routine) → Parser → Option (Outcome r.Value × List Event)) : Prop :=
  ∀ {r p y es}, answer r p = some (y, es) → y = r.read p ∧ Heeded es ∧ Surfaces es y

theorem Heeds.trace {answer : (r : Routine) → Parser → Option (Outcome r.Value × List Event)}
    (hanswer : Answers answer) {c : Course (Outcome α)} (hc : c.Heeds) {y : Outcome α}
    {es : List Event} (h : c.trace answer = some (y, es)) :
    y = c.result ∧ Heeded es ∧ Surfaces es y := by
  induction c generalizing es with
  | done a =>
    cases h
    exact ⟨rfl, .nil, fun x hx => absurd hx List.not_mem_nil⟩
  | call r p go ih =>
    obtain ⟨⟨a, es₁⟩, ha, h⟩ := Option.bind_eq_some_iff.mp h
    obtain ⟨⟨b, es₂⟩, hb, h⟩ := Option.bind_eq_some_iff.mp h
    cases h
    obtain ⟨rfl, hheeded, hsurfaces⟩ := hanswer ha
    obtain ⟨hfatal, hgo⟩ := hc
    obtain ⟨hresult, hheeded', hsurfaces'⟩ := ih (r.read p) hgo hb
    -- a fatal error of this call leaves nothing to be done
    have hlast (x) (hx : x ∈ es₁) (e) (he : x.error? = some e) (hf : e.fatal = true) :
        es₂ = [] ∧ ∃ q, y = .error e q := by
      obtain ⟨q, hread⟩ := hsurfaces x hx e he hf
      obtain ⟨q', hdone⟩ := hfatal e q hread hf
      rw [hdone] at hb
      cases hb
      exact ⟨rfl, q', rfl⟩
    refine ⟨hresult, List.pairwise_append.mpr ⟨hheeded, hheeded', ?_⟩, ?_⟩
    · intro x hx z hz e he hf
      rw [(hlast x hx e he hf).1] at hz
      cases hz
    · intro x hx e he hf
      obtain hx | hx := List.mem_append.mp hx
      · exact (hlast x hx e he hf).2
      · exact hsurfaces' x hx e he hf

end Course

namespace Plan

variable {α β : Type}

def Heeds (x : Plan α) : Prop := ∀ p, (x p).Heeds

theorem heeds_read (r : Parse α) : (read r).Heeds := fun _ => trivial

theorem heeds_ask (r : Routine) : (ask r).Heeds :=
  fun _ => ⟨fun _ q h _ => ⟨q, congrArg Course.done h⟩, trivial⟩

theorem Heeds.bind {x : Plan α} {f : α → Plan β} (hx : x.Heeds) (hf : ∀ a, (f a).Heeds) :
    (x >>= f).Heeds := by
  refine fun p => Course.heeds_andThen (hx p) (fun e q _ _ => ⟨q, rfl⟩) ?_
  cases (x p).result with
  | ok a q => exact hf a q
  | error e q => trivial

theorem Heeds.attempt {x : Plan α} (hx : x.Heeds) : (attempt x).Heeds := by
  refine fun p => Course.heeds_andThen (hx p) (fun e q _ _ => ⟨p, rfl⟩) ?_
  cases (x p).result <;> trivial

theorem Heeds.attemptThen {x : Plan α} (hx : x.Heeds) (check : α → Parser → Option ParseError) :
    (attemptThen x check).Heeds := by
  refine Heeds.attempt fun p => Course.heeds_andThen (hx p) (fun e q _ _ => ⟨q, rfl⟩) ?_
  cases (x p).result with
  | ok a q => cases h : check a q <;> simp only [h] <;> trivial
  | error e q => trivial

theorem Heeds.orElse {x y : Plan α} (hx : x.Heeds) (hy : y.Heeds) : (orElse x y).Heeds := by
  refine fun p => Course.heeds_andThen (hx p) (fun e q _ he => ⟨q, if_pos he⟩) ?_
  cases (x p).result with
  | ok a q => trivial
  | error e q => cases h : e.fatal <;> simp only [h] <;> first | trivial | exact hy q

theorem Heeds.recover {x y : Plan α} (hx : x.Heeds) (hnot : Parse.FailsWith x.reads Parse.NotFatal)
    (hy : y.Heeds) : (recover x y).Heeds := by
  refine fun p => Course.heeds_andThen (hx p) (fun e q h he => ?_) ?_
  · exact absurd ((hnot p e ⟨q, h⟩).symm.trans he) Bool.false_ne_true
  · cases (x p).result with
    | ok a q => trivial
    | error e q => exact hy q

theorem Heeds.mapError {x : Plan α} (hx : x.Heeds) {f : ParseError → ParseError}
    (hf : ∀ p e, x.reads.Fails p e → e.fatal = true → f e = e) : (mapError f x).Heeds := by
  refine fun p => Course.heeds_andThen (hx p) (fun e q h he => ⟨q, ?_⟩) ?_
  · exact congrArg (fun e => Course.done (EStateM.Result.error e q)) (hf p e ⟨q, h⟩ he)
  · cases (x p).result <;> trivial

end Plan

namespace Routine

open Plan Parse

theorem heeds_attempt (r : Routine) : (attempt (ask r)).Heeds := (heeds_ask r).attempt

theorem body_heeds (r : Routine) : r.body.Heeds := by
  cases r with
  | token kind => exact heeds_read _
  | binOp => exact heeds_read _
  | unaryOp => exact heeds_read _
  | number =>
    have hint : FailsWith (attempt (ask (token .int))).reads NotFatal := by
      rw [reads_attempt]
      exact (token_notFatal .int).attempt
    refine ((heeds_attempt _).recover hint (heeds_attempt (token .float))).bind fun t => ?_
    cases Number.read t.lexeme <;> exact heeds_read _
  | name => exact (heeds_attempt _).bind fun t => heeds_read _
  | literal =>
    have hnumber : FailsWith (attempt (ask number)).reads NotFatal := by
      rw [reads_attempt]
      exact number_notFatal.attempt
    exact (heeds_attempt _).recover hnumber ((heeds_attempt _).bind fun x => heeds_read _)
  | paren =>
    refine (heeds_attempt _).bind fun opening => (heeds_attempt _).bind fun inner => ?_
    refine ((heeds_attempt _).mapError fun p e h he => ?_).bind fun closing => heeds_read _
    rw [reads_attempt] at h
    exact absurd (((token_notFatal _).attempt p e h).symm.trans he) Bool.false_ne_true
  | primary => exact (heeds_attempt _).orElse (heeds_attempt _)
  | unary =>
    refine ((heeds_ask _).attemptThen _).bind fun x => (heeds_ask _).bind fun lhs => ?_
    exact (heeds_ask _).bind fun inner => heeds_read _
  | operand => exact (heeds_attempt _).orElse (heeds_attempt _)
  | chain prec lhs =>
    refine (heeds_read _).bind fun x => ?_
    cases x with
    | none => exact heeds_read _
    | some x => exact (heeds_ask _).bind fun rhs => (heeds_ask _).bind fun lhs' => heeds_ask _
  | completion op s lhs rhs =>
    refine (heeds_read _).bind fun x => ?_
    cases x with
    | none => exact heeds_read _
    | some x =>
      cases h : op.yieldsTo x.1 with
      | false => simp only [h]; exact heeds_read _
      | true => simp only [h, if_true]; exact (heeds_ask _).bind fun rhs' => heeds_ask _
  | binary =>
    refine (heeds_ask _).bind fun lhs => (heeds_ask _).bind fun t => ?_
    cases t <;> exact heeds_read _
  | expr =>
    refine (heeds_read _).bind fun x => ?_
    cases x with
    | some t => exact heeds_read _
    | none => exact (heeds_attempt _).bind fun lhs => heeds_ask _
  | equationRest lhs =>
    refine (heeds_attempt _).bind fun eq => (heeds_attempt _).bind fun rhs => ?_
    refine (heeds_read _).bind fun x => ?_
    cases x <;> exact heeds_read _
  | equation => exact (heeds_attempt _).bind fun lhs => heeds_ask _
  | request =>
    refine (heeds_attempt _).bind fun target => (heeds_attempt _).bind fun colon => ?_
    refine ((heeds_attempt _).mapError fun p e _ he => ?_).bind fun e => heeds_read _
    rw [← he]
  | statement =>
    refine ((heeds_ask _).bind fun r => heeds_read _).attempt.orElse ?_
    refine (heeds_attempt _).bind fun lhs => (heeds_read _).bind fun x => ?_
    cases x with
    | none => exact heeds_read _
    | some t => exact (heeds_ask _).bind fun e => heeds_read _

theorem trace_heeded (n : Nat) (r : Routine) (p : Parser) {y : Outcome r.Value} {es : List Event}
    (h : r.trace n p = some (y, es)) : y = r.read p ∧ Heeded es ∧ Surfaces es y := by
  induction n generalizing r p es with
  | zero => cases h
  | succ n ih =>
    obtain ⟨⟨a, inner⟩, ha, h⟩ := Option.bind_eq_some_iff.mp h
    cases h
    have hanswer : Course.Answers (Routine.trace n) := fun h => ih _ _ h
    obtain ⟨hy, hheeded, hsurfaces⟩ := (body_heeds r p).trace hanswer ha
    have hread : y = r.read p := hy.trans (congrFun (reads_body r) p)
    refine ⟨hread, .cons ?_ (List.pairwise_append.mpr ⟨hheeded, ?_, ?_⟩), ?_⟩
    · intro z _ e he
      cases he
    · exact List.pairwise_singleton ..
    · intro x hx z hz e he hf
      obtain ⟨q, rfl⟩ := hsurfaces x hx e he hf
      obtain rfl := List.mem_singleton.mp hz
      rfl
    · intro x hx e he hf
      obtain rfl | hx := List.mem_cons.mp hx
      · cases he
      obtain hx | hx := List.mem_append.mp hx
      · exact hsurfaces x hx e he hf
      · obtain rfl := List.mem_singleton.mp hx
        cases y with
        | ok b q => cases he
        | error e' q => cases he; exact ⟨q, rfl⟩

end Routine

namespace Parse

variable {p : Parser} {n c : Token} {ts : List Token}

theorem request_of_colon (hp : p.words = n :: c :: ts) (hn : n.kind = .name)
    (hc : c.kind = .colon) :
    (∃ r q, request p = .ok r q) ∨ ∃ e q, request p = .error e q ∧ e.fatal = true := by
  cases hread : request p with
  | ok r q => exact .inl ⟨r, q, rfl⟩
  | error e q =>
    refine .inr ⟨e, q, rfl, ?_⟩
    obtain ⟨p₁, hname, hp₁⟩ := (token_of_words hp hn).attempt
    obtain ⟨p₂, hcolon, -⟩ := (token_of_words hp₁ hc).attempt
    rw [request, bind_of_ok hname, bind_of_ok hcolon] at hread
    obtain h | ⟨eq, p₃, -, h⟩ := fails_bind_iff.mp ⟨q, hread⟩
    · obtain ⟨e', -, rfl⟩ := fails_mapError_iff.mp h
      rfl
    · exact absurd h not_fails_pure

theorem statement_of_colon (hp : p.words = n :: c :: ts) (hn : n.kind = .name)
    (hc : c.kind = .colon) :
    (∃ r q, statement p = .ok (.request r) q) ∨
      ∃ e q, statement p = .error e q ∧ e.fatal = true := by
  obtain ⟨r, q, hr⟩ | ⟨e, q, he, hfatal⟩ := request_of_colon hp hn hc
  · obtain ⟨q', h, -⟩ := statement_gives_request.mpr ⟨q, hr, rfl⟩
    exact .inl ⟨r, q', h⟩
  · obtain ⟨q', h⟩ := fails_orElse_iff.mpr (.inl ⟨fails_map_iff.mpr ⟨q, he⟩, hfatal⟩)
    exact .inr ⟨e, q', h, hfatal⟩

end Parse

/-- No fatal error is swallowed: where a call fails fatally while a function reads, nothing is
called afterwards, and the function ends with the same error. Behind a name and a colon, a statement
is a request or fails fatally. -/
theorem fatal_errors_surface :
    (∀ kind : NodeKind, kind.parse = kind.node <$> kind.routine.read) ∧
      (∀ (r : Routine) p n, 7 * (p.after.length + 1) ≤ n →
        ∃ es, r.trace n p = some (r.read p, es) ∧
          ∀ before after r' e q, es = before ++ .leaves r' (.error e q) :: after → e.fatal = true →
            (∀ x ∈ after, ∃ s q', x = .leaves s (.error e q')) ∧ ∃ q', r.read p = .error e q') ∧
      ∀ (p : Parser) n c ts, p.words = n :: c :: ts → n.kind = .name → c.kind = .colon →
        (∃ r q, Parse.statement p = .ok (.request r) q) ∨
          ∃ e q, Parse.statement p = .error e q ∧ e.fatal = true := by
  refine ⟨NodeKind.parse_eq, fun r p n hn => ?_, fun p n c ts => Parse.statement_of_colon⟩
  have hrank := r.rank_le
  obtain ⟨es, htrace⟩ := Routine.exists_trace n r p (by omega)
  obtain ⟨-, hheeded, hsurfaces⟩ := Routine.trace_heeded n r p htrace
  refine ⟨es, htrace, fun before after r' e q hes hfatal => ?_⟩
  have he : (Event.leaves r' (.error e q)).error? = some e := rfl
  subst hes
  have hlater := (List.pairwise_cons.mp (List.pairwise_append.mp hheeded).2.1).1
  refine ⟨fun x hx => Event.error?_eq_some.mp (hlater x hx e he hfatal), ?_⟩
  exact hsurfaces _ (List.mem_append_right before (List.mem_cons_self ..)) e he hfatal

/-- In `x: -(a` the parenthesis is left open in an operand of an equation of a request. -/
theorem fatal_errors_surface_openParen :
    (∃ es before after r e q, Routine.statement.trace 49 (.ofSource "x: -(a") =
          some (Routine.statement.read (.ofSource "x: -(a"), es) ∧
        es = before ++ .leaves r (.error e q) :: after ∧ e.fatal = true ∧
        (∀ x ∈ after, ∃ s q', x = .leaves s (.error e q')) ∧
        ∃ q', Routine.statement.read (.ofSource "x: -(a") = .error e q') ∧
      ((∃ r q, Parse.statement (.ofSource "x: -(a") = .ok (.request r) q) ∨
        ∃ e q, Parse.statement (.ofSource "x: -(a") = .error e q ∧ e.fatal = true) := by
  obtain ⟨-, htraces, hcolon⟩ := fatal_errors_surface
  have hdepth : 7 * ((Parser.ofSource "x: -(a").after.length + 1) ≤ 49 := by decide +kernel
  obtain ⟨es, htrace, hes⟩ := htraces .statement _ 49 hdepth
  have hany : ((Routine.statement.trace 49 (.ofSource "x: -(a")).any fun y =>
      y.2.any fun x => x.error?.any (·.fatal)) = true := by decide +kernel
  rw [htrace, Option.any_some] at hany
  obtain ⟨x, hx, hany⟩ := List.any_eq_true.mp hany
  obtain ⟨e, he, hfatal⟩ := (Option.any_eq_true _ _).mp hany
  obtain ⟨r, q, rfl⟩ := Event.error?_eq_some.mp he
  obtain ⟨before, after, rfl⟩ := List.append_of_mem hx
  have hwords : (Parser.ofSource "x: -(a").words.map (·.kind) =
      .name :: .colon :: [.sub, .openParen, .name] := by decide +kernel
  refine ⟨⟨_, before, after, r, e, q, htrace, rfl, hfatal, hes _ _ _ _ _ rfl hfatal⟩, ?_⟩
  obtain ⟨n, ts, hn, hnk, hts⟩ := List.map_eq_cons_iff.mp hwords
  obtain ⟨c, us, rfl, hck, -⟩ := List.map_eq_cons_iff.mp hts
  exact hcolon _ n c us hn hnk hck

end Rearrange

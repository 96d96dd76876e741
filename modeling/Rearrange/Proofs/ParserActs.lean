import Mathlib.Logic.Function.Basic
import Rearrange.Proofs.ForwardReads
import Rearrange.Proofs.NodeReadings

namespace Rearrange

namespace Span

/-- The region from the first of some words to the last. -/
def Joins (a : Span) (ts : List Token) : Prop :=
  ∃ w v, ts.head? = some w ∧ ts.getLast? = some v ∧ a = w.span.join v.span

variable {a b : Span} {ts us : List Token}

theorem joins_singleton (w : Token) : w.span.Joins [w] := ⟨w, w, rfl, rfl, rfl⟩

theorem Joins.join (ha : a.Joins ts) (hb : b.Joins us) (ws : List Token) :
    (a.join b).Joins (ts ++ (ws ++ us)) := by
  obtain ⟨w, v, hw, -, rfl⟩ := ha
  obtain ⟨w', v', -, hv', rfl⟩ := hb
  refine ⟨w, v', ?_, ?_, rfl⟩
  · rw [List.head?_append, hw]
    rfl
  · rw [List.getLast?_append, List.getLast?_append, hv']
    rfl

end Span

theorem Phrase.Covers.joins {t : Phrase} {ts : List Token} (h : t.Covers ts) : t.span.Joins ts := by
  obtain ⟨w, ws, hw, hstart⟩ := h.exists_cons
  obtain ⟨vs, v, hv, hstop⟩ := h.exists_concat
  refine ⟨w, v, by rw [hw]; rfl, by rw [hv, List.getLast?_concat], ?_⟩
  rw [Span.join, ← hstart, ← hstop]

theorem Equation.Covers.joins {e : Equation} {ts : List Token} (h : e.Covers ts) :
    e.span.Joins ts := by
  obtain ⟨ls, a, rs, rfl, -, ⟨-, hl⟩, ⟨-, hr⟩, hspan⟩ := h
  rw [hspan]
  exact hl.joins.join hr.joins [a]

theorem Request.Covers.joins {r : Request} {ts : List Token} (h : r.Covers ts) :
    r.span.Joins ts := by
  obtain ⟨n, c, es, rfl, -, -, -, htarget, he, hspan⟩ := h
  rw [hspan, htarget]
  exact (Span.joins_singleton n).join he.joins [c]

namespace Parse

variable {p q : Parser}

theorem statement_joins {s : Statement} (h : statement p = .ok s q) :
    ∃ ts, p.words = ts ++ q.words ∧ s.span.Joins ts := by
  obtain ⟨r, rfl, hr⟩ | ⟨e, rfl, he⟩ | ⟨t, rfl, ht⟩ := statement_eq_ok h
  · obtain ⟨ts, hts, hcovers⟩ := request_covers hr
    exact ⟨ts, hts, hcovers.joins⟩
  · obtain ⟨ts, hts, hcovers⟩ := equation_covers he
    exact ⟨ts, hts, hcovers.joins⟩
  · obtain ⟨-, ts, hts, hcovers⟩ := places_of_expr ht
    exact ⟨ts, hts, hcovers.joins⟩

theorem Exact.joins {r : Parse Phrase} {admits : Phrase → Bool} {t : Phrase} (hr : Exact r admits)
    (h : r p = .ok t q) : ∃ ts, p.words = ts ++ q.words ∧ t.span.Joins ts := by
  obtain ⟨-, -, ts, hts, hcovers⟩ := hr.sound h
  exact ⟨ts, hts, hcovers.joins⟩

theorem parse_joins {kind : NodeKind} {n : Node} (h : kind.parse p = .ok n q) :
    ∃ ts, p.words = ts ++ q.words ∧ n.span.Joins ts := by
  by_cases hkind : kind ∈ NodeKind.ofExpressions
  · obtain ⟨r, hr, hexact⟩ := exists_exact hkind
    rw [hr] at h
    obtain ⟨t, ht, rfl⟩ := map_eq_ok.mp h
    exact hexact.joins ht
  · cases kind with
    | statement =>
      obtain ⟨s, hs, rfl⟩ := map_eq_ok.mp h
      exact statement_joins hs
    | request =>
      obtain ⟨r, hr, rfl⟩ := map_eq_ok.mp h
      obtain ⟨ts, hts, hcovers⟩ := request_covers hr
      exact ⟨ts, hts, hcovers.joins⟩
    | equation =>
      obtain ⟨e, he, rfl⟩ := map_eq_ok.mp h
      obtain ⟨ts, hts, hcovers⟩ := equation_covers he
      exact ⟨ts, hts, hcovers.joins⟩
    | expr =>
      obtain ⟨t, ht, rfl⟩ := map_eq_ok.mp h
      exact exact_expr.joins ht
    | binOp =>
      obtain ⟨⟨op, s⟩, hop, rfl⟩ := map_eq_ok.mp h
      obtain ⟨w, hw, -, rfl⟩ := binOp_eq_ok hop
      exact ⟨[w], hw, Span.joins_singleton w⟩
    | unaryOp =>
      obtain ⟨⟨op, s⟩, hop, rfl⟩ := map_eq_ok.mp h
      obtain ⟨w, hw, -, rfl⟩ := unaryOp_eq_ok hop
      exact ⟨[w], hw, Span.joins_singleton w⟩
    | _ => exact absurd (by decide) hkind

theorem parse_between {kind : NodeKind} {n : Node} (h : kind.parse p = .ok n q) :
    ∃ w v, p.words.head? = some w ∧ q.previous? = some v ∧ v.isWhitespace = false ∧
      n.span = w.span.join v.span := by
  obtain ⟨ts, hts, w, v, hw, hv, hspan⟩ := parse_joins h
  obtain ⟨ws, rfl⟩ := List.getLast?_eq_some_iff.mp hv
  have htaken : p.words = ws ++ v :: q.words := by
    rw [hts, List.append_assoc]
    rfl
  obtain ⟨hprevious, hword⟩ := ((moves_parse kind).ok h).previous htaken
  refine ⟨w, v, ?_, hprevious, hword, hspan⟩
  rw [hts, List.head?_append, hw]
  rfl

def leave {α : Type} (r : Parse α) (p : Parser) : Parser :=
  match r p with
  | .ok _ q | .error _ q => q

theorem Moves.leave {α : Type} {r : Parse α} (h : Moves Parser.SameTokens r) (p : Parser) :
    p.SameTokens (leave r p) := by
  unfold Parse.leave
  split
  next hr => exact h.ok hr
  next hr => exact h.error hr

end Parse

abbrev Parsers := Nat → Parser

inductive Act where
  | next (i : Nat)
  | parse (i : Nat) (kind : NodeKind)
  | climb (i : Nat) (prec : Prec)
  | attempt (i : Nat) (kind : NodeKind)
  | attemptThen (i : Nat) (kind : NodeKind) (check : Node → Parser → Option ParseError)
  /-- An attempt of a function that does the given acts, on any parsers, and then may fail. -/
  | attemptWith (i : Nat) (acts : List Act) (fails : Bool)
  | full (i : Nat) (kind : NodeKind)
  | clone (i j : Nat)
  | setCursor (i j : Nat)

namespace Parsers

def ofSource (source : String) : Parsers := fun _ => .ofSource source

def move (ps : Parsers) (i : Nat) (p : Parser) : Parsers := Function.update ps i p

def Of (ps : Parsers) (ts : List Token) : Prop := ∀ i, (ps i).tokens = ts

variable {ps : Parsers} {ts : List Token}

theorem ofSource_of (source : String) : (ofSource source).Of (tokenize source) := fun _ => rfl

theorem Of.move (h : ps.Of ts) {i : Nat} {p : Parser} (hp : p.tokens = ts) :
    (ps.move i p).Of ts := by
  intro j
  by_cases hj : j = i
  · subst hj
    rw [Parsers.move, Function.update_self, hp]
  · rw [Parsers.move, Function.update_of_ne hj, h j]

end Parsers

mutual

def Act.run (ps : Parsers) : Act → Parsers
  | next i => ps.move i (Parse.next.leave (ps i))
  | parse i kind => ps.move i (kind.parse.leave (ps i))
  | climb i prec => ps.move i ((Parse.climb prec).leave (ps i))
  | attempt i kind => ps.move i ((Parse.attempt kind.parse).leave (ps i))
  | attemptThen i kind check => ps.move i ((Parse.attemptThen kind.parse check).leave (ps i))
  | attemptWith i acts fails =>
    let ps' := Act.runAll ps acts
    if fails then ps'.move i ((ps' i).seek (ps i).cursor) else ps'
  | full i kind => ps.move i ((Parse.full kind.parse).leave (ps i))
  | clone i j => ps.move i (ps j)
  | setCursor i j => ps.move i ((ps i).setCursor (ps j))

def Act.runAll (ps : Parsers) : List Act → Parsers
  | [] => ps
  | act :: acts => Act.runAll (act.run ps) acts

end

namespace Act

open Parse

variable {ps : Parsers} {ts : List Token}

theorem leave_of {α : Type} {r : Parse α} {R : Parser → Parser → Prop} (hr : Moves R r)
    (hR : ∀ {p q}, R p q → p.SameTokens q) (h : ps.Of ts) (i : Nat) :
    (ps.move i (r.leave (ps i))).Of ts :=
  h.move (Eq.trans ((hr.mono hR).leave (ps i)) (h i))

mutual

theorem run_of {ps : Parsers} (h : ps.Of ts) : (act : Act) → (act.run ps).Of ts
  | next i => leave_of Moves.next Parser.Forward.sameTokens h i
  | parse i kind => leave_of (moves_parse kind) Parser.Forward.sameTokens h i
  | climb i prec => leave_of (moves_climb prec) Parser.Forward.sameTokens h i
  | attempt i kind => leave_of (moves_parse kind).attempt Parser.Forward.sameTokens h i
  | attemptThen i kind check =>
    leave_of ((moves_parse kind).attemptThen check) Parser.Forward.sameTokens h i
  | attemptWith i acts fails => by
    rw [run]
    split
    · have hacts := runAll_of h acts
      exact hacts.move (Eq.trans ((runAll ps acts i).sameTokens_seek _) (hacts i))
    · exact runAll_of h acts
  | full i kind => leave_of (moves_parse kind).full id h i
  | clone i j => h.move (h j)
  | setCursor i j => h.move (Eq.trans ((ps i).sameTokens_seek _) (h i))

theorem runAll_of {ps : Parsers} (h : ps.Of ts) : (acts : List Act) → (runAll ps acts).Of ts
  | [] => h
  | act :: acts => runAll_of (run_of h act) acts

end

theorem runAll_concat (ps : Parsers) (acts : List Act) (act : Act) :
    runAll ps (acts ++ [act]) = act.run (runAll ps acts) := by
  induction acts generalizing ps with
  | nil => rfl
  | cons a acts ih => exact ih (a.run ps)

theorem run_attemptWith_fails (h : ps.Of ts) (i : Nat) (acts : List Act) :
    (attemptWith i acts true).run ps i = ps i := by
  rw [run, if_pos rfl, Parsers.move, Function.update_self]
  exact Parser.seek_cursor ((runAll_of h acts i).trans (h i).symm)

end Act

/-- Whatever was done with the parsers of a text before, they hold the tokens of the text, each
failing attempt leaves its parser where it was, and reading a node moves its parser forward, from in
front of the first word of the node to just behind its last one. -/
theorem acts_keep_places (source : String) (acts : List Act) :
    (∀ i, (Act.runAll (.ofSource source) acts i).tokens = tokenize source ∧
        (Act.runAll (.ofSource source) acts i).cursor ≤ (tokenize source).length) ∧
      ∀ p i, Act.runAll (.ofSource source) acts i = p →
        (∀ (kind : NodeKind) e q, Parse.attempt kind.parse p = .error e q → q = p) ∧
        (∀ (kind : NodeKind) check e q, Parse.attemptThen kind.parse check p = .error e q → q = p) ∧
        (∀ acts', Act.runAll (.ofSource source) (acts ++ [.attemptWith i acts' true]) i = p) ∧
        ∀ (kind : NodeKind) check n q,
          kind.parse p = .ok n q ∨ Parse.attempt kind.parse p = .ok n q ∨
              Parse.attemptThen kind.parse check p = .ok n q →
            p.cursor < q.cursor ∧ q.tokens = tokenize source ∧
              ∃ w v, p.words.head? = some w ∧ q.previous? = some v ∧ v.isWhitespace = false ∧
                n.span = w.span.join v.span := by
  have hall := Act.runAll_of (Parsers.ofSource_of source) acts
  refine ⟨fun i => ⟨hall i, ?_⟩, fun p i hp => ⟨?_, ?_, ?_, ?_⟩⟩
  · rw [← hall i]
    exact Parser.cursor_le _
  · intro kind e q h
    exact (Parse.attempt_eq_error h).1
  · intro kind check e q h
    exact (Parse.attempt_eq_error h).1
  · intro acts'
    rw [Act.runAll_concat, Act.run_attemptWith_fails hall i acts', hp]
  · intro kind check n q h
    have hread : kind.parse p = .ok n q := by
      obtain h | h | h := h
      · exact h
      · exact Parse.attempt_eq_ok.mp h
      · exact Parse.attemptThen_eq_ok h
    have hforward := (Parse.moves_parse kind).ok hread
    refine ⟨hforward.cursor_lt, ?_, Parse.parse_between hread⟩
    rw [show q.tokens = p.tokens from hforward.sameTokens, ← hp, hall i]

/-- An attempt that reads a clone and the parser itself before it fails does not keep the expression
from being read afterwards, and the space behind the expression is not passed. -/
theorem acts_keep_places_negatedName :
    ∃ p n q, p.cursor = 0 ∧
      Act.runAll (.ofSource " -x )")
        ([.clone 1 0] ++ [.attemptWith 0 [.next 1, .setCursor 0 1, .parse 0 .paren] true]) 0 = p ∧
      NodeKind.expr.parse p = .ok n q ∧ n.span = ⟨1, 3⟩ ∧ q.cursor = 3 ∧
      ∃ w v, p.words.head? = some w ∧ q.previous? = some v ∧ v.isWhitespace = false ∧
        n.span = w.span.join v.span := by
  obtain ⟨-, hplaces⟩ := acts_keep_places " -x )" [.clone 1 0]
  obtain ⟨-, -, hback, hread⟩ := hplaces (.ofSource " -x )") 0 rfl
  have hahead : Parse.ahead (do let n ← NodeKind.expr.parse; pure (n.span, (← get).cursor))
      (.ofSource " -x )") = some (⟨1, 3⟩, 3) := by decide +kernel
  obtain ⟨_, h⟩ := Parse.ahead_eq_some.mp hahead
  obtain ⟨n, q, hn, h⟩ := Parse.bind_eq_ok.mp h
  obtain ⟨hspan, hq⟩ := Prod.mk.inj (EStateM.Result.ok.inj h).1
  obtain ⟨-, -, hbetween⟩ := hread .expr (fun _ _ => none) n q (.inl hn)
  exact ⟨_, n, q, rfl, hback _, hn, hspan, hq, hbetween⟩

end Rearrange

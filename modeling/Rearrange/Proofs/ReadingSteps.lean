import Rearrange.Parser.Grammar

namespace Rearrange

/-- The tokens that are not whitespace. -/
def words (ts : List Token) : List Token := ts.filter fun t => !t.isWhitespace

def Parser.words (p : Parser) : List Token := Rearrange.words p.after

theorem words_cons_of_whitespace {t : Token} {ts : List Token} (h : t.isWhitespace = true) :
    words (t :: ts) = words ts := by
  simp [words, h]

theorem words_cons {t : Token} {ts : List Token} (h : t.isWhitespace = false) :
    words (t :: ts) = t :: words ts := by
  simp [words, h]

theorem words_append (ts us : List Token) : words (ts ++ us) = words ts ++ words us :=
  List.filter_append ..

namespace Parser

theorem skipWhitespace_go (before after : List Token) :
    Rearrange.words (skipWhitespace.go before after).after = Rearrange.words after ∧
      ∀ t ts, (skipWhitespace.go before after).after = t :: ts → t.isWhitespace = false := by
  induction after generalizing before with
  | nil => exact ⟨rfl, fun t ts h => nomatch h⟩
  | cons u us ih =>
    unfold skipWhitespace.go
    split
    next hu =>
      rw [words_cons_of_whitespace hu]
      exact ih (u :: before)
    next hu =>
      refine ⟨rfl, fun t ts h => ?_⟩
      cases h
      exact Bool.eq_false_iff.mpr hu

theorem words_skipWhitespace (p : Parser) : p.skipWhitespace.words = p.words :=
  (skipWhitespace_go p.before p.after).1

theorem words_of_skipWhitespace {p : Parser} {t : Token} {ts : List Token}
    (h : p.skipWhitespace.after = t :: ts) : p.words = t :: Rearrange.words ts := by
  have ht := (skipWhitespace_go p.before p.after).2 t ts h
  rw [← words_skipWhitespace, words, h, words_cons ht]

theorem words_eq_nil_iff {p : Parser} : p.words = [] ↔ p.skipWhitespace.after = [] := by
  cases h : p.skipWhitespace.after with
  | nil =>
    rw [← words_skipWhitespace, words, h]
    exact iff_of_true rfl rfl
  | cons t ts => simp [words_of_skipWhitespace h]

end Parser

namespace Parse

variable {α β : Type} {p q : Parser} {t : Token} {ts : List Token}

/-- Reading from `p` gives `a` and leaves the words `ts`. -/
def Gives (r : Parse α) (p : Parser) (a : α) (ts : List Token) : Prop :=
  ∃ q, r p = .ok a q ∧ q.words = ts

/-- Reading from `p` fails, but not fatally. -/
def Refuses (r : Parse α) (p : Parser) : Prop := ∃ e q, r p = .error e q ∧ e.fatal = false

theorem bind_eq_ok {r : Parse α} {f : α → Parse β} {b : β} :
    (r >>= f) p = .ok b q ↔ ∃ a p', r p = .ok a p' ∧ f a p' = .ok b q := by
  change EStateM.bind r f p = .ok b q ↔ _
  unfold EStateM.bind
  cases r p with
  | ok a p' =>
    constructor
    · intro h
      exact ⟨a, p', rfl, h⟩
    · rintro ⟨a', p'', h, hf⟩
      cases h
      exact hf
  | error e p' =>
    constructor
    · intro h
      cases h
    · rintro ⟨a', p'', h, -⟩
      cases h

theorem bind_of_ok {r : Parse α} {f : α → Parse β} {a : α} (h : r p = .ok a q) :
    (r >>= f) p = f a q := by
  change EStateM.bind r f p = _
  rw [EStateM.bind, h]

theorem Gives.bind {r : Parse α} {f : α → Parse β} {a : α} {b : β} {us : List Token}
    (h : r.Gives p a ts) (hf : ∀ q, q.words = ts → (f a).Gives q b us) :
    (r >>= f).Gives p b us := by
  obtain ⟨q, hr, hq⟩ := h
  obtain ⟨q', hfq, hq'⟩ := hf q hq
  exact ⟨q', (bind_of_ok hr).trans hfq, hq'⟩

theorem Refuses.bind {r : Parse α} (h : r.Refuses p) (f : α → Parse β) : (r >>= f).Refuses p := by
  obtain ⟨e, q, hr, he⟩ := h
  refine ⟨e, q, ?_, he⟩
  change EStateM.bind r f p = _
  rw [EStateM.bind, hr]

theorem attempt_eq_ok {r : Parse α} {a : α} : attempt r p = .ok a q ↔ r p = .ok a q := by
  unfold attempt
  cases r p with
  | ok b p' => rfl
  | error e p' => constructor <;> (intro h; cases h)

theorem Gives.attempt {r : Parse α} {a : α} (h : r.Gives p a ts) :
    (attempt r).Gives p a ts := by
  obtain ⟨q, hr, hq⟩ := h
  exact ⟨q, attempt_eq_ok.mpr hr, hq⟩

theorem Refuses.attempt {r : Parse α} (h : r.Refuses p) : (attempt r).Refuses p := by
  obtain ⟨e, q, hr, he⟩ := h
  exact ⟨e, p, by rw [Parse.attempt, hr], he⟩

theorem orElse_eq_ok {r s : Parse α} {a : α} (h : orElse (attempt r) s p = .ok a q) :
    r p = .ok a q ∨ s p = .ok a q := by
  unfold orElse attempt at h
  split at h
  next b p' hr =>
    split at hr
    next hr' =>
      cases hr
      cases h
      exact Or.inl hr'
    next => cases hr
  next e p' hr =>
    split at hr
    next => cases hr
    next =>
      cases hr
      split at h
      · cases h
      · exact Or.inr h

theorem Gives.orElse {r : Parse α} {a : α} (h : r.Gives p a ts) (s : Parse α) :
    (orElse (Parse.attempt r) s).Gives p a ts := by
  obtain ⟨q, hr, hq⟩ := h
  exact ⟨q, by rw [Parse.orElse, attempt_eq_ok.mpr hr], hq⟩

theorem Refuses.orElse {r : Parse α} (h : r.Refuses p) (s : Parse α) :
    orElse (Parse.attempt r) s p = s p := by
  obtain ⟨e, q, hr, he⟩ := h
  simp [Parse.orElse, Parse.attempt, hr, he]

theorem Refuses.orElse_refuses {r s : Parse α} (hr : r.Refuses p) (hs : s.Refuses p) :
    (Parse.orElse (Parse.attempt r) s).Refuses p := by
  unfold Refuses
  rw [hr.orElse s]
  exact hs

theorem attemptThen_eq_ok {r : Parse α} {check : α → Parser → Option ParseError} {a : α}
    (h : attemptThen r check p = .ok a q) : r p = .ok a q := by
  have h := attempt_eq_ok.mp h
  split at h
  next b p' hr =>
    split at h
    · cases h
      exact hr
    · cases h
  next => cases h

theorem mapError_eq_ok {r : Parse α} {f : ParseError → ParseError} {a : α} :
    mapError f r p = .ok a q ↔ r p = .ok a q := by
  unfold mapError
  cases r p with
  | ok b p' => rfl
  | error e p' => constructor <;> (intro h; cases h)

theorem next_eq_ok (h : next p = .ok t q) : p.words = t :: q.words := by
  unfold next at h
  simp only at h
  split at h
  next u us hu =>
    cases h
    exact Parser.words_of_skipWhitespace hu
  next => cases h

theorem next_of_words (h : p.words = t :: ts) : next.Gives p t ts := by
  cases hafter : p.skipWhitespace.after with
  | nil =>
    rw [Parser.words_eq_nil_iff.mpr hafter] at h
    cases h
  | cons u us =>
    rw [Parser.words_of_skipWhitespace hafter] at h
    cases h
    exact ⟨⟨t :: p.skipWhitespace.before, us⟩, by simp [next, hafter], rfl⟩

theorem next_refuses (h : p.words = []) : next.Refuses p := by
  refine ⟨errorAt p.skipWhitespace .unexpectedEnd, p.skipWhitespace, ?_, rfl⟩
  simp [next, Parser.words_eq_nil_iff.mp h]

theorem token_eq_ok {kind : TokenKind} (h : token kind p = .ok t q) :
    p.words = t :: q.words ∧ t.kind = kind := by
  obtain ⟨u, p', hnext, h⟩ := bind_eq_ok.mp h
  split at h
  next hu =>
    cases h
    exact ⟨next_eq_ok hnext, hu⟩
  next => cases h

theorem token_of_words {kind : TokenKind} (h : p.words = t :: ts) (ht : t.kind = kind) :
    (token kind).Gives p t ts := by
  obtain ⟨q, hnext, hq⟩ := next_of_words h
  refine ⟨q, ?_, hq⟩
  rw [token, bind_of_ok hnext, if_pos ht]
  rfl

theorem token_refuses {kind : TokenKind} (h : p.words = t :: ts) (ht : t.kind ≠ kind) :
    (token kind).Refuses p := by
  obtain ⟨q, hnext, -⟩ := next_of_words h
  refine ⟨unexpected [kind] t, q, ?_, rfl⟩
  rw [token, bind_of_ok hnext, if_neg ht]
  rfl

theorem full_eq_ok {r : Parse α} {a : α} (h : full r p = .ok a q) :
    ∃ p', r p = .ok a p' ∧ p'.words = [] := by
  obtain ⟨b, p', hr, h⟩ := bind_eq_ok.mp h
  obtain ⟨_, p'', hmodify, h⟩ := bind_eq_ok.mp h
  obtain ⟨s, p''', hget, h⟩ := bind_eq_ok.mp h
  cases hmodify
  cases hget
  split at h
  next hnil =>
    cases h
    exact ⟨p', hr, Parser.words_eq_nil_iff.mpr (List.isEmpty_iff.mp hnil)⟩
  next => cases h

theorem Gives.full {r : Parse α} {a : α} (h : r.Gives p a []) : (full r).Gives p a [] := by
  obtain ⟨q, hr, hq⟩ := h
  have hafter := Parser.words_eq_nil_iff.mp hq
  refine ⟨q.skipWhitespace, ?_, by rw [Parser.words_skipWhitespace, hq]⟩
  rw [Parse.full, bind_of_ok hr]
  change (if q.skipWhitespace.after.isEmpty then pure a else fail .expectedEnd : Parse α) _ = _
  rw [hafter]
  rfl

end Parse

end Rearrange

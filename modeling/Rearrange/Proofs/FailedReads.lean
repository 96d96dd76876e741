import Rearrange.Proofs.StatementForms

namespace Rearrange

namespace Parse

variable {α β : Type} {r s : Parse α} {p : Parser} {e : ParseError}

/-- Reading from `p` fails with `e`. -/
def Fails (r : Parse α) (p : Parser) (e : ParseError) : Prop := ∃ q, r p = .error e q

theorem Fails.unique {e' : ParseError} (h : r.Fails p e) (h' : r.Fails p e') : e = e' := by
  obtain ⟨q, h⟩ := h
  obtain ⟨q', h'⟩ := h'
  cases h.symm.trans h'
  rfl

theorem ahead_eq_some {a : α} : ahead r p = some a ↔ ∃ q, r p = .ok a q := by
  unfold ahead
  cases r p <;> simp

theorem ahead_eq_none_iff : ahead r p = none ↔ ∃ e, r.Fails p e := by
  unfold ahead Fails
  cases r p <;> simp

theorem not_fails_pure {a : α} : ¬ (pure a : Parse α).Fails p e := by
  rintro ⟨q, h⟩
  cases h

theorem fails_throw_iff {e' : ParseError} : (throw e' : Parse α).Fails p e ↔ e = e' := by
  constructor
  · rintro ⟨q, h⟩
    cases h
    rfl
  · rintro rfl
    exact ⟨p, rfl⟩

theorem fails_fail_iff {cause : Fault} :
    (fail cause : Parse α).Fails p e ↔ e = errorAt p cause := by
  constructor
  · rintro ⟨q, h⟩
    cases h
    rfl
  · rintro rfl
    exact ⟨p, rfl⟩

theorem fails_failFatal_iff {cause : Fault} :
    (failFatal cause : Parse α).Fails p e ↔ e = errorAt p cause true := by
  constructor
  · rintro ⟨q, h⟩
    cases h
    rfl
  · rintro rfl
    exact ⟨p, rfl⟩

theorem fails_bind_iff {f : α → Parse β} :
    (r >>= f).Fails p e ↔ r.Fails p e ∨ ∃ a q, r p = .ok a q ∧ (f a).Fails q e := by
  unfold Fails
  change (∃ q, EStateM.bind r f p = .error e q) ↔ _
  unfold EStateM.bind
  cases r p with
  | ok a q =>
    constructor
    · intro h
      exact Or.inr ⟨a, q, rfl, h⟩
    · rintro (⟨q', h⟩ | ⟨a', q', h, hf⟩)
      · cases h
      · cases h
        exact hf
  | error e' q => simp

theorem fails_map_iff {f : α → β} : (f <$> r).Fails p e ↔ r.Fails p e := by
  unfold Fails
  change (∃ q, EStateM.map f r p = .error e q) ↔ _
  unfold EStateM.map
  cases r p <;> simp

theorem fails_attempt_iff : (attempt r).Fails p e ↔ r.Fails p e := by
  unfold Fails attempt
  cases r p <;> simp

theorem fails_attempt_bind_iff {f : α → Parse β} :
    (attempt r >>= f).Fails p e ↔ r.Fails p e ∨ ∃ a q, r p = .ok a q ∧ (f a).Fails q e := by
  rw [fails_bind_iff, fails_attempt_iff]
  simp only [attempt_eq_ok]

theorem fails_get_bind_iff {f : Parser → Parse β} : (get >>= f).Fails p e ↔ (f p).Fails p e :=
  Iff.rfl

theorem fails_mapError_iff {f : ParseError → ParseError} :
    (mapError f r).Fails p e ↔ ∃ e', r.Fails p e' ∧ f e' = e := by
  unfold Fails mapError
  cases r p <;> simp

theorem fails_orElse_iff :
    (orElse (attempt r) s).Fails p e ↔
      r.Fails p e ∧ e.fatal = true ∨ r.Refuses p ∧ s.Fails p e := by
  unfold Fails Refuses orElse attempt
  cases r p with
  | ok a q => simp
  | error e' q =>
    cases hf : e'.fatal with
    | false =>
      suffices (∃ q, s p = .error e q) ↔ (e' = e ∧ e.fatal = true ∨ ∃ q, s p = .error e q) by
        simpa [hf] using this
      constructor
      · exact Or.inr
      · rintro (⟨rfl, h⟩ | h)
        · exact absurd (hf.symm.trans h) Bool.false_ne_true
        · exact h
    | true =>
      suffices e' = e ↔ e' = e ∧ e.fatal = true by simpa [hf] using this
      constructor
      · rintro rfl
        exact ⟨rfl, hf⟩
      · exact And.left

theorem refuses_iff : r.Refuses p ↔ ∃ e, r.Fails p e ∧ e.fatal = false := by
  simp only [Refuses, Fails, exists_and_right]

theorem refuses_map_iff {f : α → β} : (f <$> r).Refuses p ↔ r.Refuses p := by
  simp only [refuses_iff, fails_map_iff]

theorem fails_full_iff :
    (full r).Fails p e ↔ r.Fails p e ∨ ∃ a q, r p = .ok a q ∧ q.words ≠ [] ∧
      e = errorAt q.skipWhitespace .expectedEnd := by
  rw [full, fails_bind_iff]
  refine or_congr_right (exists_congr fun a => exists_congr fun q => and_congr_right fun _ => ?_)
  change ((if q.skipWhitespace.after.isEmpty then pure a else fail .expectedEnd : Parse α).Fails
    q.skipWhitespace e) ↔ _
  rw [ne_eq, Parser.words_eq_nil_iff, ← List.isEmpty_iff]
  split
  next hnil => exact iff_of_false not_fails_pure fun h => h.1 hnil
  next hcons => exact fails_fail_iff.trans (and_iff_right hcons).symm

def FailsWith (r : Parse α) (error : ParseError → Prop) : Prop := ∀ p e, r.Fails p e → error e

variable {error : ParseError → Prop}

theorem FailsWith.pure (a : α) : FailsWith (pure a) error := fun _ _ h => absurd h not_fails_pure

theorem FailsWith.throw (h : error e) : FailsWith (throw e : Parse α) error :=
  fun _ _ he => fails_throw_iff.mp he ▸ h

theorem FailsWith.bind {f : α → Parse β} (h : FailsWith r error)
    (hf : ∀ a, FailsWith (f a) error) : FailsWith (r >>= f) error := by
  intro p e he
  rcases fails_bind_iff.mp he with he | ⟨a, q, -, he⟩
  · exact h p e he
  · exact hf a q e he

theorem FailsWith.map (h : FailsWith r error) (f : α → β) : FailsWith (f <$> r) error :=
  fun p e he => h p e (fails_map_iff.mp he)

theorem FailsWith.attempt (h : FailsWith r error) : FailsWith (attempt r) error :=
  fun p e he => h p e (fails_attempt_iff.mp he)

theorem FailsWith.orElse (hr : FailsWith r error) (hs : FailsWith s error) :
    FailsWith (orElse (Parse.attempt r) s) error := by
  intro p e he
  rcases fails_orElse_iff.mp he with ⟨he, -⟩ | ⟨-, he⟩
  · exact hr p e he
  · exact hs p e he

theorem FailsWith.next (h : ∀ p, error (errorAt p .unexpectedEnd)) : FailsWith next error := by
  rintro p e ⟨q, he⟩
  unfold Parse.next at he
  simp only at he
  split at he
  next => cases he
  next => cases he; exact h _

theorem FailsWith.full (hr : FailsWith r error) (hend : ∀ p, error (errorAt p .expectedEnd)) :
    FailsWith (full r) error := by
  intro p e he
  rcases fails_full_iff.mp he with he | ⟨a, q, -, -, rfl⟩
  · exact hr p e he
  · exact hend _

end Parse

end Rearrange

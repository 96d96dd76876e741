import Rearrange.Proofs.PlacedPhrases
import Rearrange.Proofs.ReadingSteps

namespace Rearrange

namespace Parse

variable {p q : Parser} {t : Phrase}

theorem number_eq_ok (h : number p = .ok t q) :
    ∃ w, p.words = w :: q.words ∧ t.WellShaped ∧ t.isBinary = false ∧ t.Covers [w] := by
  obtain ⟨w, p', hw, h⟩ := bind_eq_ok.mp h
  have hkind : p.words = w :: p'.words ∧ (w.kind = .int ∨ w.kind = .float) := by
    rcases orElse_eq_ok hw with hw | hw
    · exact (token_eq_ok hw).imp_right Or.inl
    · exact (token_eq_ok (attempt_eq_ok.mp hw)).imp_right Or.inr
  cases hv : Number.read w.lexeme with
  | none =>
    rw [hv] at h
    cases h
  | some v =>
    rw [hv] at h
    cases h
    exact ⟨w, hkind.1, trivial, rfl, .number hkind.2 hv⟩

theorem name_eq_ok (h : name p = .ok t q) :
    ∃ w, p.words = w :: q.words ∧ t.WellShaped ∧ t.isBinary = false ∧ t.Covers [w] := by
  obtain ⟨w, p', hw, h⟩ := bind_eq_ok.mp h
  obtain ⟨hwords, hkind⟩ := token_eq_ok (attempt_eq_ok.mp hw)
  cases h
  exact ⟨w, hwords, trivial, rfl, .name hkind⟩

theorem literal_eq_ok (h : literal p = .ok t q) :
    ∃ w, p.words = w :: q.words ∧ t.WellShaped ∧ t.isBinary = false ∧ t.Covers [w] := by
  rcases orElse_eq_ok h with h | h
  · exact number_eq_ok h
  · exact name_eq_ok (attempt_eq_ok.mp h)

theorem parenWith_eq_ok {expr : Parse Phrase} (h : parenWith expr p = .ok t q) :
    ∃ o e c p₁ p₂, p.words = o :: p₁.words ∧ o.kind = .openParen ∧ expr p₁ = .ok e p₂ ∧
      p₂.words = c :: q.words ∧ c.kind = .closeParen ∧ t = .paren e (o.span.join c.span) := by
  obtain ⟨o, p₁, ho, h⟩ := bind_eq_ok.mp h
  obtain ⟨e, p₂, he, h⟩ := bind_eq_ok.mp h
  obtain ⟨c, p₃, hc, h⟩ := bind_eq_ok.mp h
  obtain ⟨howords, hokind⟩ := token_eq_ok (attempt_eq_ok.mp ho)
  obtain ⟨hcwords, hckind⟩ := token_eq_ok (attempt_eq_ok.mp (mapError_eq_ok.mp hc))
  cases h
  exact ⟨o, e, c, p₁, p₂, howords, hokind, attempt_eq_ok.mp he, hcwords, hckind, rfl⟩

theorem unaryOp_eq_ok {op : UnaryOp} {s : Span} (h : unaryOp p = .ok (op, s) q) :
    ∃ w, p.words = w :: q.words ∧ w.kind = .sub ∧ s = w.span := by
  obtain ⟨w, p', hw, h⟩ := bind_eq_ok.mp h
  cases hop : w.kind.unaryOp? with
  | none =>
    rw [hop] at h
    cases h
  | some op =>
    rw [hop] at h
    cases h
    exact ⟨w, next_eq_ok hw, TokenKind.unaryOp?_eq_some.mp hop, rfl⟩

theorem unaryWith_eq_ok {operand : Parse Phrase} (h : unaryWith operand p = .ok t q) :
    ∃ w op e p₁, p.words = w :: p₁.words ∧ w.kind = .sub ∧ operand p₁ = .ok e q ∧
      t = .unary op w.span e (w.span.join e.span) := by
  obtain ⟨⟨op, s⟩, p₁, hop, h⟩ := bind_eq_ok.mp h
  obtain ⟨e, p₂, he, h⟩ := bind_eq_ok.mp h
  obtain ⟨w, hwords, hkind, rfl⟩ := unaryOp_eq_ok (attempt_eq_ok.mp hop)
  cases h
  exact ⟨w, op, e, p₁, hwords, hkind, he, rfl⟩

theorem operandWith_eq_ok {operand expr : Parse Phrase}
    (h : operandWith operand expr p = .ok t q) :
    literal p = .ok t q ∨ parenWith expr p = .ok t q ∨ unaryWith operand p = .ok t q := by
  rcases orElse_eq_ok h with h | h
  · exact Or.inr (Or.inr h)
  · rcases orElse_eq_ok (attempt_eq_ok.mp h) with h | h
    · exact Or.inl h
    · exact Or.inr (Or.inl (attempt_eq_ok.mp h))

theorem binOp_eq_ok {op : BinOp} {s : Span} (h : binOp p = .ok (op, s) q) :
    ∃ w, p.words = w :: q.words ∧ w.kind = op.kind ∧ s = w.span := by
  obtain ⟨w, p', hw, h⟩ := bind_eq_ok.mp h
  cases hop : w.kind.binOp? with
  | none =>
    rw [hop] at h
    cases h
  | some o =>
    rw [hop] at h
    cases h
    exact ⟨w, next_eq_ok hw, TokenKind.binOp?_eq_some.mp hop, rfl⟩

theorem operator_eq_ok {prec : Prec} {op : BinOp} {s : Span}
    (h : operator prec p = .ok (op, s) q) :
    ∃ w, p.words = w :: q.words ∧ w.kind = op.kind ∧ s = w.span := by
  exact binOp_eq_ok (attemptThen_eq_ok h)

theorem chainWith_eq_ok {operand : Parse Phrase} {go : Phrase → Parse Phrase} {prec : Prec}
    {lhs : Phrase} (h : chainWith operand go prec lhs p = .ok t q) :
    t = lhs ∧ q = p ∨ ∃ op s rhs p₁ p₂, operator prec p = .ok (op, s) p₁ ∧
      operand p₁ = .ok rhs p₂ ∧ go (lhs.attach op s rhs) p₂ = .ok t q := by
  unfold chainWith at h
  split at h
  next =>
    cases h
    exact Or.inl ⟨rfl, rfl⟩
  next op s p₁ hop =>
    obtain ⟨rhs, p₂, hrhs, h⟩ := bind_eq_ok.mp h
    exact Or.inr ⟨op, s, rhs, p₁, p₂, hop, hrhs, h⟩

theorem exprWith_eq_ok {operand : Parse Phrase} {chain : Phrase → Parse Phrase}
    (h : exprWith operand chain p = .ok t q) :
    ∃ lhs p₁, operand p = .ok lhs p₁ ∧ chain lhs p₁ = .ok t q := by
  unfold exprWith at h
  split at h
  next => cases h
  next =>
    obtain ⟨lhs, p₁, hlhs, h⟩ := bind_eq_ok.mp h
    exact ⟨lhs, p₁, attempt_eq_ok.mp hlhs, h⟩

/-- The words taken from `p` to `q` spell `t`. -/
def Takes (p q : Parser) (t : Phrase) : Prop := ∃ ts, p.words = ts ++ q.words ∧ t.Spells ts

/-- The words taken from `p` to `q` spell `t`, and its regions are theirs. -/
def Places (p q : Parser) (t : Phrase) : Prop := ∃ ts, p.words = ts ++ q.words ∧ t.Covers ts

theorem Places.takes (h : Places p q t) : Takes p q t := by
  obtain ⟨ts, hts, hcovers⟩ := h
  exact ⟨ts, hts, hcovers.spells⟩

theorem Places.operandWith {operand expr : Parse Phrase}
    (hoperand : ∀ p q t, operand p = .ok t q →
      t.WellShaped ∧ t.isBinary = false ∧ Places p q t)
    (hexpr : ∀ p q t, expr p = .ok t q → t.WellShaped ∧ Places p q t)
    (h : operandWith operand expr p = .ok t q) :
    t.WellShaped ∧ t.isBinary = false ∧ Places p q t := by
  rcases operandWith_eq_ok h with h | h | h
  · obtain ⟨w, hw, hshape, hb, hcovers⟩ := literal_eq_ok h
    exact ⟨hshape, hb, [w], hw, hcovers⟩
  · obtain ⟨o, e, c, p₁, p₂, ho, hok, he, hc, hck, rfl⟩ := parenWith_eq_ok h
    obtain ⟨hshape, ts, hts, hcovers⟩ := hexpr p₁ p₂ e he
    refine ⟨hshape, rfl, o :: ts ++ [c], ?_, .paren hok hcovers hck⟩
    rw [ho, hts, hc]
    simp
  · obtain ⟨w, op, e, p₁, hw, hk, he, rfl⟩ := unaryWith_eq_ok h
    obtain ⟨hshape, hb, ts, hts, hcovers⟩ := hoperand p₁ q e he
    exact ⟨⟨hshape, hb⟩, rfl, w :: ts, by rw [hw, hts]; rfl, .unary hk hcovers⟩

theorem places_of_depth (n : Nat) :
    (∀ p q t, operandAt n p = .ok t q → t.WellShaped ∧ t.isBinary = false ∧ Places p q t) ∧
      (∀ p q t, exprAt n p = .ok t q → t.WellShaped ∧ Places p q t) ∧
        ∀ prec lhs ls p q t, chainAt n prec lhs p = .ok t q → lhs.WellShaped → lhs.Covers ls →
          t.WellShaped ∧ ∃ ts, p.words = ts ++ q.words ∧ t.Covers (ls ++ ts) := by
  induction n with
  | zero =>
    refine ⟨?_, ?_, ?_⟩
    · intro p q t h
      cases h
    · intro p q t h
      cases h
    · intro prec lhs ls p q t h
      cases h
  | succ n ih =>
    obtain ⟨hoperand, hexpr, hchain⟩ := ih
    refine ⟨?_, ?_, ?_⟩
    · intro p q t h
      exact Places.operandWith hoperand hexpr h
    · intro p q t h
      obtain ⟨lhs, p₁, hlhs, h⟩ := exprWith_eq_ok h
      obtain ⟨hshape, -, ls, hls, hcovers⟩ := hoperand p p₁ lhs hlhs
      obtain ⟨hshape', ts, hts, hcovers'⟩ := hchain .any lhs ls p₁ q t h hshape hcovers
      exact ⟨hshape', ls ++ ts, by rw [hls, hts, List.append_assoc], hcovers'⟩
    · intro prec lhs ls p q t h hshape hcovers
      rcases chainWith_eq_ok h with ⟨rfl, rfl⟩ | ⟨op, s, rhs, p₁, p₂, hop, hrhs, h⟩
      · exact ⟨hshape, [], rfl, by rwa [List.append_nil]⟩
      · obtain ⟨w, hw, hk, rfl⟩ := operator_eq_ok hop
        obtain ⟨hrshape, hb, rs, hrs, hrcovers⟩ := hoperand p₁ p₂ rhs hrhs
        obtain ⟨hshape', ts, hts, hcovers'⟩ := hchain prec _ (ls ++ w :: rs) p₂ q t h
          (hshape.attach hrshape hb) (.attach hk hcovers hrcovers)
        refine ⟨hshape', w :: rs ++ ts, by rw [hw, hrs, hts]; simp, ?_⟩
        rwa [← List.append_assoc]

theorem places_of_expr (h : expr p = .ok t q) : t.WellShaped ∧ Places p q t :=
  (places_of_depth p.depth).2.1 p q t h

theorem takes_of_expr (h : expr p = .ok t q) : t.WellShaped ∧ Takes p q t :=
  (places_of_expr h).imp_right Places.takes

end Parse

end Rearrange

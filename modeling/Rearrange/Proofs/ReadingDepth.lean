import Rearrange.Proofs.GrammarSound

namespace Rearrange

namespace Parse

variable {α β : Type} {p q : Parser}

theorem bind_congr_left {r s : Parse α} (h : r p = s q) (f : α → Parse β) :
    (r >>= f) p = (s >>= f) q := by
  change EStateM.bind r f p = EStateM.bind s f q
  rw [EStateM.bind, EStateM.bind, h]

theorem bind_congr_right {r : Parse α} {f g : α → Parse β}
    (h : ∀ a q, r p = .ok a q → f a q = g a q) : (r >>= f) p = (r >>= g) p := by
  change EStateM.bind r f p = EStateM.bind r g p
  unfold EStateM.bind
  split
  next a q hr => exact h a q hr
  next => rfl

theorem attempt_congr {r s : Parse α} (h : r p = s p) : attempt r p = attempt s p := by
  rw [attempt, attempt, h]

theorem orElse_congr {r r' s s' : Parse α} (hr : r p = r' p) (hs : s p = s' p) :
    orElse (attempt r) s p = orElse (attempt r') s' p := by
  unfold orElse attempt
  rw [hr]
  cases r' p with
  | ok => rfl
  | error => simp only [hs]

/-- Both read the same wherever fewer than `n` words come next. -/
def AgreeBelow (n : Nat) (r s : Parse α) : Prop := ∀ p, p.words.length < n → r p = s p

/-- A read that gives a value passes at least one word. -/
def Passes (r : Parse α) : Prop := ∀ p a q, r p = .ok a q → q.words.length < p.words.length

theorem passes_attempt_token (kind : TokenKind) : Passes (attempt (token kind)) := by
  intro p t q h
  rw [(token_eq_ok (attempt_eq_ok.mp h)).1]
  exact Nat.lt_succ_self _

theorem passes_attempt_unaryOp : Passes (attempt unaryOp) := by
  rintro p ⟨op, s⟩ q h
  obtain ⟨w, hw, -⟩ := unaryOp_eq_ok (attempt_eq_ok.mp h)
  rw [hw]
  exact Nat.lt_succ_self _

theorem passes_operator (prec : Prec) : Passes (operator prec) := by
  rintro p ⟨op, s⟩ q h
  obtain ⟨w, hw, -⟩ := operator_eq_ok h
  rw [hw]
  exact Nat.lt_succ_self _

theorem passes_operandAt (n : Nat) : Passes (operandAt n) := by
  intro p t q h
  obtain ⟨-, -, ts, hts, hcovers⟩ := (places_of_depth n).1 p q t h
  obtain ⟨w, ws, rfl, -⟩ := hcovers.exists_cons
  rw [hts, List.length_append, List.length_cons]
  omega

section

variable {operand operand' expr expr' : Parse Phrase}

theorem parenWith_congr (h : AgreeBelow p.words.length expr expr') :
    parenWith expr p = parenWith expr' p := by
  refine bind_congr_right fun opening q hq => bind_congr_left ?_ _
  exact attempt_congr (h q (passes_attempt_token _ p opening q hq))

theorem unaryWith_congr (h : AgreeBelow p.words.length operand operand') :
    unaryWith operand p = unaryWith operand' p :=
  bind_congr_right fun op q hq => bind_congr_left (h q (passes_attempt_unaryOp p op q hq)) _

theorem operandWith_congr (hoperand : AgreeBelow p.words.length operand operand')
    (hexpr : AgreeBelow p.words.length expr expr') :
    operandWith operand expr p = operandWith operand' expr' p := by
  have hprimary : primaryWith expr p = primaryWith expr' p :=
    orElse_congr rfl (attempt_congr (parenWith_congr hexpr))
  exact orElse_congr (unaryWith_congr hoperand) (attempt_congr hprimary)

theorem chainWith_congr {chain chain' : Phrase → Parse Phrase}
    (hoperand : AgreeBelow p.words.length operand operand') (hpasses : Passes operand')
    (hchain : ∀ t, AgreeBelow p.words.length (chain t) (chain' t)) (prec : Prec) (lhs : Phrase) :
    chainWith operand chain prec lhs p = chainWith operand' chain' prec lhs p := by
  unfold chainWith
  split
  next => rfl
  next op s q hop =>
    have hq := passes_operator prec p (op, s) q hop
    refine (bind_congr_left (hoperand q hq) _).trans (bind_congr_right fun rhs q' hrhs => ?_)
    exact hchain _ q' (Nat.lt_trans (hpasses q rhs q' hrhs) hq)

theorem exprWith_congr {chain chain' : Phrase → Parse Phrase} (hoperand : operand p = operand' p)
    (hpasses : Passes operand') (hchain : ∀ t, AgreeBelow p.words.length (chain t) (chain' t)) :
    exprWith operand chain p = exprWith operand' chain' p := by
  unfold exprWith
  split
  next => rfl
  next =>
    refine (bind_congr_left (attempt_congr hoperand) _).trans
      (bind_congr_right fun lhs q hlhs => ?_)
    exact hchain lhs q (hpasses p lhs q (attempt_eq_ok.mp hlhs))

end

theorem eq_of_depth (n m : Nat) :
    (∀ p, 2 * p.words.length + 1 ≤ n → 2 * p.words.length + 1 ≤ m →
        operandAt n p = operandAt m p) ∧
      (∀ p, 2 * p.words.length + 2 ≤ n → 2 * p.words.length + 2 ≤ m → exprAt n p = exprAt m p) ∧
        ∀ prec lhs p, 2 * p.words.length + 1 ≤ n → 2 * p.words.length + 1 ≤ m →
          chainAt n prec lhs p = chainAt m prec lhs p := by
  induction n generalizing m with
  | zero => exact ⟨by omega, by omega, by omega⟩
  | succ n ih =>
    cases m with
    | zero => exact ⟨by omega, by omega, by omega⟩
    | succ m =>
      obtain ⟨hoperand, hexpr, hchain⟩ := ih m
      refine ⟨?_, ?_, ?_⟩
      · intro p hn hm
        refine operandWith_congr (fun q hq => ?_) fun q hq => ?_
        · exact hoperand q (by omega) (by omega)
        · exact hexpr q (by omega) (by omega)
      · intro p hn hm
        refine exprWith_congr ?_ (passes_operandAt m) fun t q hq => ?_
        · exact hoperand p (by omega) (by omega)
        · exact hchain .any t q (by omega) (by omega)
      · intro prec lhs p hn hm
        refine chainWith_congr (fun q hq => ?_) (passes_operandAt m) (fun t q hq => ?_) prec lhs
        · exact hoperand q (by omega) (by omega)
        · exact hchain prec t q (by omega) (by omega)

theorem words_le_depth (p : Parser) : 2 * p.words.length + 2 ≤ p.depth := by
  have hwords : p.words.length ≤ p.after.length := List.length_filter_le _ _
  rw [Parser.depth]
  omega

theorem operand_eq {n : Nat} (h : p.depth ≤ n) : operand p = operandAt n p := by
  have := words_le_depth p
  exact (eq_of_depth p.depth n).1 p (by omega) (by omega)

theorem expr_eq {n : Nat} (h : p.depth ≤ n) : expr p = exprAt n p := by
  have := words_le_depth p
  exact (eq_of_depth p.depth n).2.1 p (by omega) (by omega)

theorem chain_eq {n : Nat} (h : p.depth ≤ n) (prec : Prec) (lhs : Phrase) :
    chain prec lhs p = chainAt n prec lhs p := by
  have := words_le_depth p
  exact (eq_of_depth p.depth n).2.2 prec lhs p (by omega) (by omega)

theorem agreeBelow_depth (p : Parser) :
    AgreeBelow p.words.length (operandAt p.depth) operand ∧
      AgreeBelow p.words.length (exprAt p.depth) expr ∧
        ∀ prec lhs, AgreeBelow p.words.length (chainAt p.depth prec lhs) (chain prec lhs) := by
  have hp := words_le_depth p
  refine ⟨fun q hq => ?_, fun q hq => ?_, fun prec lhs q hq => ?_⟩
  · have := words_le_depth q
    exact (eq_of_depth p.depth q.depth).1 q (by omega) (by omega)
  · have := words_le_depth q
    exact (eq_of_depth p.depth q.depth).2.1 q (by omega) (by omega)
  · have := words_le_depth q
    exact (eq_of_depth p.depth q.depth).2.2 prec lhs q (by omega) (by omega)

theorem passes_operand : Passes operand := fun p => passes_operandAt p.depth p

theorem operand_eq_operandWith : operand = operandWith operand expr := by
  funext p
  rw [operand_eq (Nat.le_succ p.depth)]
  exact operandWith_congr (agreeBelow_depth p).1 (agreeBelow_depth p).2.1

theorem expr_eq_exprWith : expr = exprWith operand (chain .any) := by
  funext p
  rw [expr_eq (Nat.le_succ p.depth)]
  exact exprWith_congr rfl passes_operand ((agreeBelow_depth p).2.2 .any)

theorem chain_eq_chainWith (prec : Prec) (lhs : Phrase) :
    chain prec lhs = chainWith operand (chain prec) prec lhs := by
  funext p
  rw [chain_eq (Nat.le_succ p.depth)]
  exact chainWith_congr (agreeBelow_depth p).1 passes_operand ((agreeBelow_depth p).2.2 prec) prec
    lhs

end Parse

end Rearrange

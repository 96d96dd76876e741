import Rearrange.Proofs.Chains
import Rearrange.Proofs.GrammarSound

namespace Rearrange

namespace Parse

variable {p : Parser} {w : Token} {ts us : List Token}

/-- Reading gives `t`, up to its regions, wherever the words `ts` come before `us`. -/
def Reads (r : Parse Phrase) (t : Phrase) (ts us : List Token) : Prop :=
  ∀ p, p.words = ts ++ us → ∃ u, r.Gives p u us ∧ u.unplaced = t.unplaced

theorem number_of_words {v : Float} (h : p.words = w :: ts)
    (hk : w.kind = .int ∨ w.kind = .float) (hv : Number.read w.lexeme = some v) :
    number.Gives p (.number v w.span) ts := by
  have htoken : (orElse (attempt (token .int)) (attempt (token .float))).Gives p w ts := by
    rcases hk with hk | hk
    · exact (token_of_words h hk).orElse _
    · have hint : (token .int).Refuses p := token_refuses h (by rw [hk]; decide)
      obtain ⟨q, hq, hts⟩ := (token_of_words h hk).attempt
      exact ⟨q, by rw [hint.orElse, hq], hts⟩
  refine htoken.bind fun q hq => ⟨q, ?_, hq⟩
  rw [hv]
  rfl

theorem number_refuses (h : p.words = w :: ts) (hi : w.kind ≠ .int) (hf : w.kind ≠ .float) :
    number.Refuses p := by
  refine Refuses.bind (Refuses.orElse_refuses ?_ (Refuses.attempt ?_)) _
  · exact token_refuses h hi
  · exact token_refuses h hf

theorem name_of_words (h : p.words = w :: ts) (hk : w.kind = .name) :
    name.Gives p (.name w.lexeme w.span) ts :=
  (token_of_words h hk).attempt.bind fun q hq => ⟨q, rfl, hq⟩

theorem name_refuses (h : p.words = w :: ts) (hk : w.kind ≠ .name) : name.Refuses p :=
  (token_refuses h hk).attempt.bind _

theorem literal_of_number {v : Float} (h : p.words = w :: ts)
    (hk : w.kind = .int ∨ w.kind = .float) (hv : Number.read w.lexeme = some v) :
    literal.Gives p (.number v w.span) ts :=
  (number_of_words h hk hv).orElse _

theorem literal_of_name (h : p.words = w :: ts) (hk : w.kind = .name) :
    literal.Gives p (.name w.lexeme w.span) ts := by
  have hnumber : number.Refuses p :=
    number_refuses h (by rw [hk]; decide) (by rw [hk]; decide)
  obtain ⟨q, hq, hts⟩ := (name_of_words h hk).attempt
  exact ⟨q, by rw [literal, hnumber.orElse, hq], hts⟩

theorem unaryOp_of_words (h : p.words = w :: ts) (hk : w.kind = .sub) (op : UnaryOp) :
    unaryOp.Gives p (op, w.span) ts := by
  refine (next_of_words h).bind fun q hq => ⟨q, ?_, hq⟩
  rw [TokenKind.unaryOp?_eq_some.mpr hk]
  rfl

theorem unaryWith_refuses {operand : Parse Phrase} (h : p.words = w :: ts) (hk : w.kind ≠ .sub) :
    (unaryWith operand).Refuses p := by
  refine Refuses.bind (Refuses.attempt ?_) _
  obtain ⟨q, hnext, -⟩ := next_of_words h
  refine ⟨unexpected [.sub] w, q, ?_, rfl⟩
  have hop : w.kind.unaryOp? = none :=
    Option.eq_none_iff_forall_ne_some.mpr fun op hop => hk (TokenKind.unaryOp?_eq_some.mp hop)
  rw [unaryOp, bind_of_ok hnext, hop]
  rfl

section

variable {operand expr : Parse Phrase}

theorem operandWith_of_literal {t : Phrase} (h : p.words = w :: ts) (hk : w.kind ≠ .sub)
    (hliteral : literal.Gives p t us) : (operandWith operand expr).Gives p t us := by
  have hprimary : (primaryWith expr).Gives p t us := hliteral.orElse _
  obtain ⟨q, hq, hus⟩ := hprimary.attempt
  exact ⟨q, by rw [operandWith, (unaryWith_refuses h hk).orElse, hq], hus⟩

theorem Reads.operandWith_paren {e : Phrase} {s : Span} {o c : Token} (ho : o.kind = .openParen)
    (hc : c.kind = .closeParen) (hexpr : expr.Reads e ts (c :: us)) :
    (operandWith operand expr).Reads (.paren e s) (o :: ts ++ [c]) us := by
  intro p hp
  have hp : p.words = o :: (ts ++ c :: us) := by simpa using hp
  have hunary : (unaryWith operand).Refuses p := unaryWith_refuses hp (by rw [ho]; decide)
  have hliteral : literal.Refuses p :=
    (number_refuses hp (by rw [ho]; decide) (by rw [ho]; decide)).orElse_refuses
      (name_refuses hp (by rw [ho]; decide)).attempt
  obtain ⟨p₁, ho₁, hp₁⟩ := (token_of_words hp ho).attempt
  obtain ⟨u, ⟨p₂, he, hp₂⟩, hu⟩ := hexpr p₁ hp₁
  obtain ⟨q, hclose, hq⟩ := (token_of_words hp₂ hc).attempt
  refine ⟨.paren u (o.span.join c.span), ⟨q, ?_, hq⟩, by rw [Phrase.unplaced, hu]; rfl⟩
  have hparen : parenWith expr p = .ok (.paren u (o.span.join c.span)) q := by
    rw [parenWith, bind_of_ok ho₁, bind_of_ok (attempt_eq_ok.mpr he),
      bind_of_ok (mapError_eq_ok.mpr hclose)]
    rfl
  rw [operandWith, hunary.orElse, attempt_eq_ok, primaryWith, hliteral.orElse, attempt_eq_ok,
    hparen]

theorem Reads.operandWith_unary {op : UnaryOp} {e : Phrase} {s v : Span} (hk : w.kind = .sub)
    (hoperand : operand.Reads e ts us) :
    (operandWith operand expr).Reads (.unary op s e v) (w :: ts) us := by
  intro p hp
  obtain ⟨p₁, hop, hp₁⟩ := (unaryOp_of_words hp hk op).attempt
  obtain ⟨u, ⟨q, he, hq⟩, hu⟩ := hoperand p₁ hp₁
  refine ⟨.unary op w.span u (w.span.join u.span), ?_, by rw [Phrase.unplaced, hu]; rfl⟩
  have hunary : (unaryWith operand).Gives p (.unary op w.span u (w.span.join u.span)) us := by
    refine ⟨q, ?_, hq⟩
    rw [unaryWith, bind_of_ok hop]
    change (operand >>= _) p₁ = _
    rw [bind_of_ok he]
    rfl
  exact hunary.orElse _

end

def Ends (us : List Token) : Prop := ∀ w ws, us = w :: ws → w.kind.binOp? = none

theorem operator_of_words {op : BinOp} (h : p.words = w :: ts) (hk : w.kind = op.kind) :
    (operator .any).Gives p (op, w.span) ts := by
  have hbinOp : binOp.Gives p (op, w.span) ts := by
    refine (next_of_words h).bind fun q hq => ⟨q, ?_, hq⟩
    rw [TokenKind.binOp?_eq_some.mpr hk]
    rfl
  obtain ⟨q, hq, hts⟩ := hbinOp
  have hprec : Prec.any ≤ op.prec := Nat.zero_le _
  exact ⟨q, by simp [operator, attemptThen, attempt, hq, hprec], hts⟩

theorem operator_of_ends (prec : Prec) (h : Ends p.words) :
    ∃ e q, operator prec p = .error e q := by
  have hbinOp : ∃ e q, binOp p = .error e q := by
    cases hw : p.words with
    | nil =>
      have hrefuses : binOp.Refuses p := (next_refuses hw).bind _
      obtain ⟨e, q, he, -⟩ := hrefuses
      exact ⟨e, q, he⟩
    | cons w ws =>
      obtain ⟨q, hnext, -⟩ := next_of_words hw
      refine ⟨unexpected [.add, .sub, .mul, .div] w, q, ?_⟩
      rw [binOp, bind_of_ok hnext, h w ws hw]
      rfl
  obtain ⟨e, q, he⟩ := hbinOp
  exact ⟨e, p, by simp [operator, attemptThen, attempt, he]⟩

section

variable {operand : Parse Phrase} {go : Phrase → Parse Phrase} {lhs : Phrase}

theorem chainWith_of_ends {prec : Prec} (h : Ends p.words) :
    chainWith operand go prec lhs p = .ok lhs p := by
  obtain ⟨e, q, he⟩ := operator_of_ends prec h
  rw [chainWith, he]

theorem Reads.chainWith {op : BinOp} {e t : Phrase} {es : List Token} (hk : w.kind = op.kind)
    (hoperand : operand.Reads e es (ts ++ us))
    (hgo : ∀ rhs, rhs.unplaced = e.unplaced →
      (go (lhs.attach op w.span rhs)).Reads t ts us) :
    (chainWith operand go .any lhs).Reads t (w :: es ++ ts) us := by
  intro p hp
  have hp : p.words = w :: (es ++ (ts ++ us)) := by simpa using hp
  obtain ⟨p₁, hop, hp₁⟩ := operator_of_words hp hk
  obtain ⟨rhs, ⟨p₂, hrhs, hp₂⟩, hsame⟩ := hoperand p₁ hp₁
  obtain ⟨u, ⟨q, hgo, hq⟩, hu⟩ := hgo rhs hsame p₂ hp₂
  refine ⟨u, ⟨q, ?_, hq⟩, hu⟩
  rw [Parse.chainWith, hop]
  exact (bind_of_ok hrhs).trans hgo

theorem Reads.exprWith {chain : Phrase → Parse Phrase} {e t : Phrase} {es : List Token}
    (hspells : e.Spells es) (hoperand : operand.Reads e es (ts ++ us))
    (hchain : ∀ lhs, lhs.unplaced = e.unplaced → (chain lhs).Reads t ts us) :
    (exprWith operand chain).Reads t (es ++ ts) us := by
  intro p hp
  obtain ⟨w, ws, rfl, hk⟩ := hspells.exists_cons
  have hp : p.words = (w :: ws) ++ (ts ++ us) := by simpa using hp
  obtain ⟨err, q, hclose, -⟩ := token_refuses hp hk
  obtain ⟨lhs, ⟨p₁, hlhs, hp₁⟩, hsame⟩ := hoperand p hp
  obtain ⟨u, ⟨q, hgo, hq⟩, hu⟩ := hchain lhs hsame p₁ hp₁
  refine ⟨u, ⟨q, ?_, hq⟩, hu⟩
  rw [Parse.exprWith, ahead, hclose]
  exact (bind_of_ok (attempt_eq_ok.mpr hlhs)).trans hgo

end

theorem reads_operand_of_depth {n : Nat} {t : Phrase} (hshape : t.WellShaped)
    (hb : t.isBinary = false) (hspells : t.Spells ts)
    (hoperand : ∀ e es, e.WellShaped → e.isBinary = false → e.Spells es → 2 * es.length ≤ n →
      (operandAt n).Reads e es us)
    (hexpr : ∀ e es c, e.WellShaped → e.Spells es → c.kind = .closeParen →
      2 * es.length + 1 ≤ n → (exprAt n).Reads e es (c :: us))
    (hn : 2 * ts.length ≤ n + 1) : (operandAt (n + 1)).Reads t ts us := by
  cases hspells with
  | @number w v s hk hv =>
    intro p hp
    have hsub : w.kind ≠ .sub := by rcases hk with hk | hk <;> rw [hk] <;> decide
    exact ⟨_, operandWith_of_literal hp hsub (literal_of_number hp hk hv), rfl⟩
  | @name w s hk =>
    intro p hp
    exact ⟨_, operandWith_of_literal hp (by rw [hk]; decide) (literal_of_name hp hk), rfl⟩
  | @paren o c e es s ho he hc =>
    have hn : 2 * es.length + 1 ≤ n := by simp at hn; omega
    exact Reads.operandWith_paren ho hc (hexpr e es c hshape he hc hn)
  | @unary w op e es s u hk he =>
    have hn : 2 * es.length ≤ n := by simp at hn; omega
    exact Reads.operandWith_unary hk (hoperand e es hshape.1 hshape.2 he hn)
  | binary => cases hb

theorem reads_of_depth (n : Nat) :
    (∀ t ts us, t.WellShaped → t.isBinary = false → t.Spells ts → 2 * ts.length ≤ n →
      (operandAt n).Reads t ts us) ∧
      (∀ t ts us, t.WellShaped → t.Spells ts → Ends us → 2 * ts.length + 1 ≤ n →
        (exprAt n).Reads t ts us) ∧
        ∀ xs lhs ts us, (∀ x ∈ xs, x.2.WellShaped ∧ x.2.isBinary = false) →
          Phrase.SpellsLinks xs ts → Ends us → 2 * ts.length + 1 ≤ n →
            (chainAt n .any lhs).Reads (lhs.grow xs) ts us := by
  induction n with
  | zero =>
    refine ⟨?_, fun _ _ _ _ _ _ hn => absurd hn (by omega), fun _ _ _ _ _ _ _ hn =>
      absurd hn (by omega)⟩
    intro t ts us _ _ hspells hn
    obtain ⟨w, ws, rfl, -⟩ := hspells.exists_cons
    simp at hn
  | succ n ih =>
    obtain ⟨hoperand, hexpr, hchain⟩ := ih
    refine ⟨?_, ?_, ?_⟩
    · intro t ts us hshape hb hspells hn
      refine reads_operand_of_depth hshape hb hspells (fun e es => hoperand e es us) ?_ hn
      intro e es c he hes hc hlen
      refine hexpr e es (c :: us) he hes ?_ hlen
      intro w ws h
      cases h
      rw [hc]
      rfl
    · intro t ts us hshape hspells hends hn
      obtain ⟨es, xs, rfl, hfirst, hlinks⟩ := hspells.exists_links
      obtain ⟨hfshape, hfb⟩ := hshape.first
      obtain ⟨w, ws, rfl, -⟩ := hfirst.exists_cons
      rw [List.length_append, List.length_cons] at hn
      have hhead := hoperand t.first (w :: ws) (xs ++ us) hfshape hfb hfirst
        (by rw [List.length_cons]; omega)
      refine Reads.exprWith hfirst hhead fun lhs hlhs p hp => ?_
      obtain ⟨u, hgives, hu⟩ := hchain t.links lhs xs us hshape.of_mem_links hlinks hends
        (by omega) p hp
      exact ⟨u, hgives, by rw [hu, Phrase.unplaced_grow hlhs, Phrase.unplaced_grow_links hshape]⟩
    · intro xs lhs ts us hxs hlinks hends hn
      cases hlinks with
      | nil =>
        intro p hp
        refine ⟨lhs, ⟨p, ?_, hp⟩, rfl⟩
        exact chainWith_of_ends (by rw [hp]; exact hends)
      | @cons w op e xs es ts hk he hlinks =>
        obtain ⟨heshape, heb⟩ := hxs _ (List.mem_cons_self ..)
        rw [List.length_append, List.length_cons] at hn
        have hoperand := hoperand e es (ts ++ us) heshape heb he (by omega)
        refine Reads.chainWith hk hoperand fun rhs hrhs p hp => ?_
        obtain ⟨u, hgives, hu⟩ := hchain xs (lhs.attach op w.span rhs) ts us
          (fun x hx => hxs x (List.mem_cons_of_mem _ hx)) hlinks hends (by omega) p hp
        -- The operand that was read is `e` up to its regions only.
        refine ⟨u, hgives, hu.trans (Phrase.unplaced_grow ?_ xs)⟩
        rw [Phrase.unplaced_attach, Phrase.unplaced_attach, hrhs]

theorem reads_operand {t : Phrase} (hshape : t.WellShaped) (hb : t.isBinary = false)
    (hspells : t.Spells ts) : operand.Reads t ts us := by
  intro p hp
  have hlen : p.words.length ≤ p.after.length := List.length_filter_le _ _
  rw [hp, List.length_append] at hlen
  exact (reads_of_depth p.depth).1 t ts us hshape hb hspells (by rw [Parser.depth]; omega) p hp

theorem reads_expr {t : Phrase} (hshape : t.WellShaped) (hspells : t.Spells ts)
    (hends : Ends us) : expr.Reads t ts us := by
  intro p hp
  have hlen : ts.length ≤ p.after.length := by
    have hwords : p.words.length ≤ p.after.length := List.length_filter_le _ _
    rw [hp, List.length_append] at hwords
    omega
  exact (reads_of_depth p.depth).2.1 t ts us hshape hspells hends (by rw [Parser.depth]; omega) p hp

theorem expr_of_words {t : Phrase} (hshape : t.WellShaped) (hspells : t.Spells ts)
    (h : p.words = ts) : ∃ u, expr.Gives p u [] ∧ u.unplaced = t.unplaced := by
  have hends : Ends [] := fun w ws h => nomatch h
  exact reads_expr hshape hspells hends p (by rw [h, List.append_nil])

end Parse

end Rearrange

import Rearrange.Proofs.PhraseRegions
import Rearrange.Proofs.StableAnswers

namespace Rearrange

open Lexer

def Located.shift {Cause : Type} (n : Nat) (e : Located Cause) : Located Cause :=
  { e with spans := e.spans.map (Span.shift n) }

theorem words_named {v : String} (hv : isName v = true) (source : String) :
    ∃ n c, n.kind = .name ∧ n.lexeme = v ∧ c.kind = .colon ∧
      words (tokenize (v ++ ": " ++ source)) =
        n :: c :: (words (tokenize source)).map (Token.shift (v ++ ": ").utf8ByteSize) := by
  have htext : (v ++ ": " ++ source).toList = v.toList ++ ([':'] ++ ' ' :: source.toList) := by
    simp [String.toList_append]
  have hsize : (v ++ ": ").utf8ByteSize = v.utf8ByteSize + 1 + 1 := by
    rw [String.utf8ByteSize_append]
    rfl
  have hname := tokensFrom_of_cutsOff
    (cutsOff_name hv (breaks_cons (c := ':') (by decide) (' ' :: source.toList))) 0
  have hcolon := tokensFrom_of_cutsOff
    (cutsOff_single (c := ':') (by decide) (' ' :: source.toList)) v.utf8ByteSize
  rw [String.ofList_toList, Nat.zero_add] at hname
  refine ⟨⟨.name, ⟨0, v.utf8ByteSize⟩, v⟩, ⟨.colon, ⟨v.utf8ByteSize, v.utf8ByteSize + 1⟩, ":"⟩, rfl,
    rfl, rfl, ?_⟩
  rw [tokenize, htext]
  change words (tokensFrom 0 (v.toList ++ ':' :: (' ' :: source.toList))) = _
  rw [hname, words_cons rfl]
  change _ :: words (tokensFrom _ ([':'] ++ ' ' :: source.toList)) = _
  rw [hcolon, words_cons rfl, words_blank, hsize, ← words_map_shift]
  rw [tokenize, ← tokensFrom_eq_map_shift]
  rfl

namespace Equation

def shift (n : Nat) (e : Equation) : Equation := ⟨e.lhs.shift n, e.rhs.shift n, e.span.shift n⟩

variable {e e' : Equation} {ts : List Token}

theorem Covers.shift (h : e.Covers ts) (n : Nat) : (e.shift n).Covers (ts.map (Token.shift n)) := by
  obtain ⟨ls, a, rs, rfl, ha, ⟨hlshape, hl⟩, ⟨hrshape, hr⟩, hspan⟩ := h
  have hshape {t : Phrase} (h : t.WellShaped) : (t.shift n).WellShaped := by
    rw [← Phrase.wellShaped_unplaced, Phrase.unplaced_shift]
    exact (Phrase.wellShaped_unplaced t).mpr h
  refine ⟨ls.map (Token.shift n), a.shift n, rs.map (Token.shift n), ?_, ha,
    ⟨hshape hlshape, hl.shift n⟩, ⟨hshape hrshape, hr.shift n⟩, ?_⟩
  · rw [List.map_append, List.map_cons]
  · rw [Equation.shift, hspan]
    simp only [Phrase.span_shift]
    rfl

theorem Covers.unique (h : e.Covers ts) (h' : e'.Covers ts) (hl : e.lhs.unplaced = e'.lhs.unplaced)
    (hr : e.rhs.unplaced = e'.rhs.unplaced) : e = e' := by
  obtain ⟨ls, a, rs, rfl, -, ⟨-, hls⟩, ⟨-, hrs⟩, hspan⟩ := h
  obtain ⟨ls', a', rs', hts, -, ⟨-, hls'⟩, ⟨-, hrs'⟩, hspan'⟩ := h'
  obtain ⟨hlhs, rfl⟩ := hls.unique_append hls' hl hts
  obtain ⟨-, rfl⟩ := List.cons.inj (List.append_cancel_left hts)
  have hrhs := hrs.unique hrs' hr
  have hspans : e.span = e'.span := by rw [hspan, hspan', hlhs, hrhs]
  cases e
  cases e'
  exact Equation.mk.injEq .. ▸ ⟨hlhs, hrhs, hspans⟩

theorem answer_shift (n : Nat) (e : Equation) (target : String) :
    (e.shift n).answer target = (e.answer target).mapError (Located.shift n) := by
  have hsame (t : Phrase) : (t.shift n).toExpr = t.toExpr := by
    rw [← Phrase.toExpr_unplaced, Phrase.unplaced_shift, Phrase.toExpr_unplaced]
  simp only [Equation.answer, Equation.shift, hsame]
  split <;> rfl

end Equation

theorem Statement.ofSource_named {source v : String} {e : Equation}
    (h : ofSource source = .ok (.equation e)) (hv : isName v = true) :
    ∃ r, ofSource (v ++ ": " ++ source) = .ok (.request r) ∧ r.target = v ∧
      r.equation = e.shift (v ++ ": ").utf8ByteSize := by
  obtain ⟨p, he, hnil⟩ := Parse.statement_gives_equation.mp (Statement.ofSource_eq_ok.mp h)
  obtain ⟨ts, hts, hcovers⟩ := Parse.equation_covers he
  rw [hnil, List.append_nil] at hts
  have hshift := hcovers.shift (v ++ ": ").utf8ByteSize
  obtain ⟨n, c, hn, hlexeme, hc, hwords⟩ := words_named hv source
  have hp : (Parser.ofSource (v ++ ": " ++ source)).words =
      n :: c :: ts.map (Token.shift (v ++ ": ").utf8ByteSize) := by
    rw [← hts]
    exact hwords
  obtain ⟨ls, a, rs, hsplit, ha, ⟨hlshape, hl⟩, ⟨hrshape, hr⟩, -⟩ := hshift
  rw [hsplit] at hp
  obtain ⟨r, hgives, htarget, hleft, hright⟩ :=
    Parse.request_of_words hn hc hlshape hl.spells ha hrshape hr.spells hp
  refine ⟨r, Statement.ofSource_eq_ok.mpr (Parse.statement_gives_request.mpr hgives),
    htarget.trans hlexeme, ?_⟩
  -- What is read covers the same words, so its regions are these.
  obtain ⟨q, hread, hq⟩ := hgives
  obtain ⟨us, hus, n', c', es, rfl, -, -, -, -, hes, -⟩ := Parse.request_covers hread
  rw [hp, hq, List.append_nil] at hus
  cases hus
  rw [← hsplit] at hes
  exact hes.unique (hcovers.shift _) hleft hright

theorem insertName_pairwise {n : String} {ns : List String} (h : ns.Pairwise (· < ·)) :
    (insertName n ns).Pairwise (· < ·) := by
  induction ns with
  | nil => exact List.pairwise_singleton ..
  | cons m ms ih =>
    obtain ⟨hm, hms⟩ := List.pairwise_cons.mp h
    rw [insertName]
    split
    next hlt =>
      refine List.pairwise_cons.mpr ⟨fun k hk => ?_, h⟩
      rcases List.mem_cons.mp hk with rfl | hk
      · exact hlt
      · exact hlt.trans (hm k hk)
    next hnlt =>
      split
      next => exact h
      next hne =>
        refine List.pairwise_cons.mpr ⟨fun k hk => ?_, ih hms⟩
        rcases mem_insertName.mp hk with rfl | hk
        · exact lt_of_le_of_ne (not_lt.mp hnlt) (Ne.symm hne)
        · exact hm k hk

theorem distinctNames_pairwise (ns : List String) : (distinctNames ns).Pairwise (· < ·) := by
  induction ns with
  | nil => exact .nil
  | cons n ns ih => exact insertName_pairwise ih

namespace Equation

def varSet (e : Equation) : Set String :=
  {n | e.lhs.toExpr.mentions n = true ∨ e.rhs.toExpr.mentions n = true}

variable {e : Equation}

theorem mem_vars_iff {n : String} : n ∈ e.vars ↔ n ∈ e.varSet := by
  rw [mem_vars, names, List.mem_append, ← Expr.mentions_iff, ← Expr.mentions_iff]
  rfl

theorem vars_eq_singleton_iff {v : String} : e.vars = [v] ↔ e.varSet = {v} := by
  constructor
  · intro h
    ext n
    rw [← mem_vars_iff, h, List.mem_singleton, Set.mem_singleton_iff]
  · intro h
    have hmem (n : String) : n ∈ e.vars ↔ n = v := by
      rw [mem_vars_iff, h, Set.mem_singleton_iff]
    have hnodup : e.vars.Nodup := (distinctNames_pairwise _).imp ne_of_lt
    exact List.perm_singleton.mp ((List.perm_ext_iff_of_nodup hnodup (List.nodup_singleton v)).mpr
      fun n => (hmem n).trans List.mem_singleton.symm)

end Equation

/-- An equation with a single variable is answered alike with and without the name of this variable
in front of it, apart from the place. Any other equation is refused, and all its variables are
offered in order. -/
theorem answer_named {source : String} {e : Equation}
    (h : Statement.ofSource source = .ok (.equation e)) :
    (∀ v, e.varSet = {v} → answer (v ++ ": " ++ source) =
        (answer source).mapError (Located.shift (v ++ ": ").utf8ByteSize)) ∧
      ((∀ v, e.varSet ≠ {v}) → ∃ candidates,
        answer source = .error ⟨.ambiguousTarget candidates, [e.span], false⟩ ∧
          (∀ n, n ∈ candidates ↔ n ∈ e.varSet) ∧ candidates.Pairwise (· < ·)) := by
  have hanswer : answer source = (Statement.equation e).answer := answer_of_ofSource h
  constructor
  · intro v hv
    have hvars := Equation.vars_eq_singleton_iff.mpr hv
    have hname : isName v = true := by
      refine Statement.isName_of_names h (Equation.mem_vars.mp ?_)
      rw [hvars]
      exact List.mem_singleton.mpr rfl
    obtain ⟨r, hr, htarget, hequation⟩ := Statement.ofSource_named h hname
    rw [hanswer, answer_of_ofSource hr, Statement.answer, Statement.answer, hvars, htarget,
      hequation]
    exact e.answer_shift _ v
  · intro hv
    refine ⟨e.vars, ?_, fun n => Equation.mem_vars_iff, distinctNames_pairwise _⟩
    rw [hanswer, Statement.answer]
    split
    next v hvars => exact absurd (Equation.vars_eq_singleton_iff.mp hvars) (hv v)
    next => rfl

theorem answer_named_trivial :
    answer "x: x = x" = .error ⟨.solve (.unsolvable "x" 1), [⟨3, 8⟩], false⟩ ∧
      ∃ candidates, answer "b = a" = .error ⟨.ambiguousTarget candidates, [⟨0, 5⟩], false⟩ ∧
        candidates.Pairwise (· < ·) := by
  have hx : Statement.ofSource "x = x" =
      .ok (.equation ⟨.name "x" ⟨0, 1⟩, .name "x" ⟨4, 5⟩, ⟨0, 5⟩⟩) := by decide +kernel
  have hab : Statement.ofSource "b = a" =
      .ok (.equation ⟨.name "b" ⟨0, 1⟩, .name "a" ⟨4, 5⟩, ⟨0, 5⟩⟩) := by decide +kernel
  have hanswer : answer "x = x" = .error ⟨.solve (.unsolvable "x" 1), [⟨0, 5⟩], false⟩ := by
    decide +kernel
  have hsingle : Equation.varSet ⟨.name "x" ⟨0, 1⟩, .name "x" ⟨4, 5⟩, ⟨0, 5⟩⟩ = {"x"} := by
    refine Set.ext fun n => ?_
    change ("x" == n) = true ∨ ("x" == n) = true ↔ n = "x"
    rw [or_self, beq_iff_eq, eq_comm]
  have hpair (v : String) : Equation.varSet ⟨.name "b" ⟨0, 1⟩, .name "a" ⟨4, 5⟩, ⟨0, 5⟩⟩ ≠ {v} := by
    intro hv
    have hb : "b" = v := (Set.ext_iff.mp hv "b").mp (Or.inl rfl)
    have ha : "a" = v := (Set.ext_iff.mp hv "a").mp (Or.inr rfl)
    exact absurd (hb.trans ha.symm) (by decide)
  constructor
  · have hnamed := (answer_named hx).1 "x" hsingle
    rw [hanswer] at hnamed
    exact hnamed
  · obtain ⟨candidates, hfails, -, hsorted⟩ := (answer_named hab).2 hpair
    exact ⟨candidates, hfails, hsorted⟩

end Rearrange

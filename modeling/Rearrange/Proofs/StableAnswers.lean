import Rearrange.Answer
import Rearrange.Proofs.FaithfulText
import Rearrange.Proofs.JustifiedSolutions
import Rearrange.Proofs.StatementForms

namespace Rearrange

open Lexer

theorem Phrase.Spells.exists_name {t : Phrase} {ts : List Token} (h : t.Spells ts) {n : String}
    (hn : n ∈ t.toExpr.names) : ∃ w ∈ ts, w.kind = .name ∧ w.lexeme = n := by
  induction h with
  | number => cases hn
  | @name w s hk => exact ⟨w, List.mem_singleton.mpr rfl, hk, (List.mem_singleton.mp hn).symm⟩
  | paren _ _ _ ih =>
    obtain ⟨w, hw, h⟩ := ih hn
    exact ⟨w, by simp [hw], h⟩
  | @unary _ op _ _ _ _ _ _ ih =>
    cases op
    obtain ⟨w, hw, h⟩ := ih hn
    exact ⟨w, by simp [hw], h⟩
  | binary _ _ _ ihl ihr =>
    rcases List.mem_append.mp hn with hn | hn
    · obtain ⟨w, hw, h⟩ := ihl hn
      exact ⟨w, by simp [hw], h⟩
    · obtain ⟨w, hw, h⟩ := ihr hn
      exact ⟨w, by simp [hw], h⟩

theorem Phrase.Spells.isName {source : String} {t : Phrase} {ts : List Token} (h : t.Spells ts)
    (hts : ∀ w ∈ ts, w ∈ tokenize source) {n : String} (hn : n ∈ t.toExpr.names) :
    isName n = true := by
  obtain ⟨w, hw, hk, rfl⟩ := h.exists_name hn
  exact isName_of_mem_tokenize (hts w hw) hk

def Equation.names (q : Equation) : List String :=
  q.lhs.toExpr.names ++ q.rhs.toExpr.names

def Statement.names : Statement → List String
  | request r => r.target :: r.equation.names
  | equation q => q.names
  | phrase t => t.toExpr.names

theorem Equation.Spells.isName {source : String} {q : Equation} {ts : List Token}
    (h : q.Spells ts) (hts : ∀ w ∈ ts, w ∈ tokenize source) {n : String} (hn : n ∈ q.names) :
    isName n = true := by
  obtain ⟨ls, a, rs, rfl, -, ⟨-, hl⟩, -, hr⟩ := h
  rcases List.mem_append.mp hn with hn | hn
  · exact hl.isName (fun w hw => hts w (by simp [hw])) hn
  · exact hr.isName (fun w hw => hts w (by simp [hw])) hn

theorem Statement.isName_of_names {line : String} {s : Statement}
    (h : Statement.ofSource line = .ok s) {n : String} (hn : n ∈ s.names) : isName n = true := by
  have hgives := Statement.ofSource_eq_ok.mp h
  have htokens : ∀ w ∈ (Parser.ofSource line).words, w ∈ tokenize line := fun w hw =>
    (List.mem_filter.mp hw).1
  cases s with
  | request r =>
    obtain ⟨p, hr, hnil⟩ := Parse.statement_gives_request.mp hgives
    obtain ⟨ts, hts, w, c, es, rfl, hk, -, htarget, hspells⟩ := Parse.request_eq_ok hr
    rw [hts, hnil, List.append_nil] at htokens
    rcases List.mem_cons.mp hn with rfl | hn
    · rw [htarget]
      exact isName_of_mem_tokenize (htokens w (by simp)) hk
    · exact hspells.isName (fun w hw => htokens w (by simp [hw])) hn
  | equation q =>
    obtain ⟨p, hq, hnil⟩ := Parse.statement_gives_equation.mp hgives
    obtain ⟨ts, hts, hspells⟩ := Parse.equation_eq_ok hq
    rw [hts, hnil, List.append_nil] at htokens
    exact hspells.isName htokens hn
  | phrase t =>
    obtain ⟨p, ht, hnil⟩ := Parse.statement_gives_phrase.mp hgives
    obtain ⟨-, ts, hts, hspells⟩ := Parse.takes_of_expr ht
    rw [hts, hnil, List.append_nil] at htokens
    exact hspells.isName htokens hn

namespace Expr

theorem names_unsigned (e : Expr) : e.unsigned.names = e.names := by
  induction e with
  | const c =>
    rw [unsigned]
    split <;> rfl
  | var n => rfl
  | neg e ih => exact ih
  | bin op l r ihl ihr => exact congrArg₂ (· ++ ·) ihl ihr

theorem Normal.simplify_unsigned {rules : RuleSet} {e : Expr} (h : e.Normal rules) :
    e.unsigned.simplify rules = e := by
  induction e with
  | const c =>
    rw [unsigned]
    split
    next =>
      have hfirst : Step.first? rules.table (neg (const (-c))) =
          some (.negateConstant, const (-(-c))) := by cases rules <;> rfl
      change (neg (const (-c))).simplify rules = _
      rw [simplify_neg, simplify_const, settle_of_first? hfirst, Number.neg_neg,
        settle_of_settled (settled_const rules c)]
    next => exact simplify_const rules c
  | var n => exact simplify_var rules n
  | neg e ih =>
    change (neg e.unsigned).simplify rules = _
    rw [simplify_neg, ih h.1, settle_of_settled h.2]
  | bin op l r ihl ihr => rw [unsigned, simplify_bin, ihl h.1, ihr h.2.1, settle_of_settled h.2.2]

end Expr

theorem solve_isolated {target : String} {value rhs : Expr} (h : value.mentions target = false)
    (hrhs : rhs.simplify .baseline = value) :
    ∃ s, solve target (.var target) rhs = .ok s ∧ s.value = value := by
  have hjob : (Job.mk (.var target) rhs).simplify .baseline = ⟨.var target, value⟩ := by
    rw [Job.simplify, Expr.simplify_var, hrhs]
  have hvalue : (Job.mk (.var target) value).value? target = some value := by
    rw [Job.value?_eq_or, Solve.isolated?_eq_some.mpr ⟨rfl, h, rfl⟩]
    rfl
  have hpop : ∃ rest, (Search.start target .baseline (.var target) rhs).queue.pop =
      some (0, ⟨.var target, value⟩, rest) := by
    rw [Search.start_queue, hjob]
    exact ⟨_, rfl⟩
  obtain ⟨rest, hpop⟩ := hpop
  have hsolve : solve target (.var target) rhs =
      (Search.run target .baseline false (99 + 1) (.start target .baseline (.var target) rhs)).1 :=
    rfl
  rw [hsolve, Search.run, hpop]
  simp only [hvalue]
  exact ⟨_, rfl, rfl⟩

section

variable {x : String} {e : Expr} (hx : isName x = true) (hnames : ∀ n ∈ e.names, isName n = true)
  (hfinite : e.isFinite = true)

include hnames hfinite

theorem ofSource_render :
    ∃ t, Statement.ofSource e.render = .ok (.phrase t) ∧ t.toExpr = e.unsigned := by
  obtain ⟨t, q, hfull, ht⟩ := Expr.read_render hnames hfinite
  exact ⟨t, Statement.ofSource_eq_ok.mpr
    (Parse.statement_gives_phrase.mpr (Parse.full_iff.mp ⟨q, hfull⟩)), ht⟩

include hx

theorem words_isolated (o : Nat) :
    ∃ ls a rs, words (tokensFrom o (x ++ " = " ++ e.render).toList) = ls ++ a :: rs ∧
      (Phrase.name x (.point 0)).Spells ls ∧ a.kind = .assign ∧ e.phrase.Spells rs := by
  have htext : (x ++ " = " ++ e.render).toList =
      x.toList ++ ' ' :: '=' :: ' ' :: e.render.toList := by
    simp [String.toList_append]
  obtain ⟨ls, o₁, hls, hspells⟩ :=
    Phrase.Heads.name hx (breaks_cons (c := ' ') (by decide) ('=' :: ' ' :: e.render.toList)) o
  obtain ⟨a, o₂, ha, hk⟩ := words_single (c := '=') (by decide) (o₁ + 1) (' ' :: e.render.toList)
  refine ⟨ls, a, words (tokensFrom (o₂ + 1) e.render.toList), ?_, hspells, hk,
    e.spells_render hnames hfinite (o₂ + 1)⟩
  rw [htext, hls, words_blank, ha, words_blank]

theorem ofSource_isolated :
    ∃ q, Statement.ofSource (x ++ " = " ++ e.render) = .ok (.equation q) ∧
      q.lhs.toExpr = .var x ∧ q.rhs.toExpr = e.unsigned := by
  obtain ⟨ls, a, rs, hwords, hls, ha, hrs⟩ := words_isolated hx hnames hfinite 0
  have hname : (Phrase.name x (.point 0)).WellShaped := trivial
  obtain ⟨q, hq, hl, hr⟩ := Parse.equation_of_words (p := .ofSource (x ++ " = " ++ e.render))
    hname hls ha e.wellShaped_phrase hrs hwords
  refine ⟨q, Statement.ofSource_eq_ok.mpr (Parse.statement_gives_equation.mpr hq), ?_, ?_⟩
  · rw [← q.lhs.toExpr_unplaced, hl]
    rfl
  · rw [← q.rhs.toExpr_unplaced, hr, e.phrase.toExpr_unplaced, e.toExpr_phrase]

theorem ofSource_request :
    ∃ r, Statement.ofSource (x ++ ": " ++ (x ++ " = " ++ e.render)) = .ok (.request r) ∧
      r.target = x ∧ r.equation.lhs.toExpr = .var x ∧ r.equation.rhs.toExpr = e.unsigned := by
  have htext : (x ++ ": " ++ (x ++ " = " ++ e.render)).toList =
      x.toList ++ ':' :: ' ' :: (x ++ " = " ++ e.render).toList := by
    simp [String.toList_append]
  have hcolon : Breaks (':' :: ' ' :: (x ++ " = " ++ e.render).toList) :=
    breaks_cons (by decide) _
  obtain ⟨n, o₁, hn, hnk, hlexeme⟩ := words_of_cutsOff (cutsOff_name hx hcolon) rfl 0
  obtain ⟨c, o₂, hc, hck⟩ :=
    words_single (c := ':') (by decide) o₁ (' ' :: (x ++ " = " ++ e.render).toList)
  obtain ⟨ls, a, rs, hwords, hls, ha, hrs⟩ := words_isolated hx hnames hfinite (o₂ + 1)
  have hall : (Parser.ofSource (x ++ ": " ++ (x ++ " = " ++ e.render))).words =
      n :: c :: (ls ++ a :: rs) := by
    change words (tokensFrom 0 _) = _
    rw [htext, hn, hc, words_blank, hwords]
  have hname : (Phrase.name x (.point 0)).WellShaped := trivial
  obtain ⟨r, hr, htarget, hleft, hright⟩ :=
    Parse.request_of_words hnk hck hname hls ha e.wellShaped_phrase hrs hall
  refine ⟨r, Statement.ofSource_eq_ok.mpr (Parse.statement_gives_request.mpr hr), ?_, ?_, ?_⟩
  · rw [htarget, hlexeme, String.ofList_toList]
  · rw [← r.equation.lhs.toExpr_unplaced, hleft]
    rfl
  · rw [← r.equation.rhs.toExpr_unplaced, hright, e.phrase.toExpr_unplaced, e.toExpr_phrase]

end

theorem mem_insertName {m n : String} {ns : List String} :
    m ∈ insertName n ns ↔ m = n ∨ m ∈ ns := by
  induction ns with
  | nil => simp [insertName]
  | cons k ns ih =>
    rw [insertName]
    split
    next => simp
    next =>
      split
      next h => simp [h]
      next => simp [ih, or_left_comm]

theorem mem_distinctNames {m : String} {ns : List String} : m ∈ distinctNames ns ↔ m ∈ ns := by
  induction ns with
  | nil => rfl
  | cons n ns ih =>
    change m ∈ insertName n (distinctNames ns) ↔ _
    rw [mem_insertName, ih, List.mem_cons]

theorem Equation.mem_vars {q : Equation} {n : String} : n ∈ q.vars ↔ n ∈ q.names :=
  mem_distinctNames

def Equation.value? (q : Equation) (target : String) : Option Expr :=
  match solve target q.lhs.toExpr q.rhs.toExpr with
  | .ok s => some s.value
  | .error _ => none

def Statement.value? : Statement → Option Expr
  | request r => r.equation.value? r.target
  | equation q =>
    match q.vars with
    | [target] => q.value? target
    | _ => none
  | phrase t => some (t.toExpr.simplify .baseline)

def Statement.again (out : String) : Statement → String
  | request r => r.target ++ ": " ++ out
  | equation _ | phrase _ => out

theorem Equation.answer_eq_ok {q : Equation} {target out : String}
    (h : q.answer target = .ok out) :
    ∃ e, q.value? target = some e ∧ out = target ++ " = " ++ e.render ∧ e.Normal .baseline ∧
      e.mentions target = false ∧ ∀ n ∈ e.names, n ∈ q.names := by
  unfold Equation.answer at h
  unfold Equation.value?
  cases hsolve : solve target q.lhs.toExpr q.rhs.toExpr with
  | error err =>
    rw [hsolve] at h
    cases h
  | ok s =>
    rw [hsolve] at h
    cases h
    have hjust := Solution.justified hsolve
    have hnormal : s.value.Normal .baseline := by
      have hsimplified := Expr.normal_simplify .baseline s.value
      rwa [hjust.simplified] at hsimplified
    refine ⟨s.value, rfl, rfl, hnormal, hjust.isolates, fun n hn => ?_⟩
    exact List.mem_append.mpr ((hjust.closed n (Expr.mentions_iff.mpr hn)).imp
      Expr.mentions_iff.mp Expr.mentions_iff.mp)

theorem Equation.answer_isolated {q : Equation} {x : String} {e : Expr}
    (hl : q.lhs.toExpr = .var x) (hr : q.rhs.toExpr = e.unsigned) (hnormal : e.Normal .baseline)
    (h : e.mentions x = false) : q.answer x = .ok (x ++ " = " ++ e.render) := by
  obtain ⟨s, hs, hvalue⟩ := solve_isolated h hnormal.simplify_unsigned
  rw [Equation.answer, hl, hr, hs, ← hvalue]

theorem answer_of_ofSource {line : String} {s : Statement} (h : Statement.ofSource line = .ok s) :
    answer line = s.answer := by
  rw [answer, h]

theorem answer_eq_ok {line out : String} (h : answer line = .ok out) :
    ∃ s, Statement.ofSource line = .ok s ∧ s.answer = .ok out := by
  unfold answer at h
  cases hs : Statement.ofSource line with
  | ok s =>
    rw [hs] at h
    exact ⟨s, rfl, h⟩
  | error err =>
    rw [hs] at h
    cases h

/-- An answer that is entered again, with the target if one was named, is its own answer. -/
theorem answer_again {line out : String} (h : answer line = .ok out) :
    ∃ s e, Statement.ofSource line = .ok s ∧ s.value? = some e ∧
      (e.isFinite = true → answer (s.again out) = .ok out) := by
  obtain ⟨s, hs, hout⟩ := answer_eq_ok h
  have hwritten {n : String} (hn : n ∈ s.names) : isName n = true := Statement.isName_of_names hs hn
  cases s with
  | request r =>
    obtain ⟨e, hvalue, rfl, hnormal, hfree, hnames⟩ := Equation.answer_eq_ok hout
    refine ⟨.request r, e, hs, hvalue, fun hfinite => ?_⟩
    obtain ⟨r', hr', hsame, hl, hr⟩ := ofSource_request (hwritten (List.mem_cons_self ..))
      (fun n hn => hwritten (List.mem_cons_of_mem _ (hnames n hn))) hfinite
    rw [Statement.again, answer_of_ofSource hr', Statement.answer, hsame]
    exact Equation.answer_isolated hl hr hnormal hfree
  | equation q =>
    rw [Statement.answer] at hout
    split at hout
    next x hvars =>
      obtain ⟨e, hvalue, rfl, hnormal, hfree, hnames⟩ := Equation.answer_eq_ok hout
      have hx : x ∈ q.names := Equation.mem_vars.mp (by simp [hvars])
      -- The value is free of the only variable there is.
      have hnone : e.names = [] := by
        refine List.eq_nil_iff_forall_not_mem.mpr fun n hn => ?_
        have hvar : n ∈ q.vars := Equation.mem_vars.mpr (hnames n hn)
        rw [hvars, List.mem_singleton] at hvar
        subst hvar
        exact absurd (Expr.mentions_iff.mpr hn) (by simp [hfree])
      refine ⟨.equation q, e, hs, by rw [Statement.value?, hvars]; exact hvalue,
        fun hfinite => ?_⟩
      obtain ⟨q', hq', hl, hr⟩ := ofSource_isolated (hwritten hx) (by simp [hnone]) hfinite
      have hvars' : q'.vars = [x] := by
        rw [Equation.vars, hl, hr, Expr.names_unsigned, hnone]
        rfl
      rw [Statement.again, answer_of_ofSource hq', Statement.answer, hvars']
      exact Equation.answer_isolated hl hr hnormal hfree
    next => cases hout
  | phrase t =>
    cases hout
    refine ⟨.phrase t, _, hs, rfl, fun hfinite => ?_⟩
    have hnames : ∀ n ∈ (t.toExpr.simplify .baseline).names, isName n = true := fun n hn =>
      hwritten (Expr.mentions_iff.mp (Expr.mentions_of_simplify (Expr.mentions_iff.mpr hn)))
    obtain ⟨t', ht', hsame⟩ := ofSource_render hnames hfinite
    rw [Statement.again, answer_of_ofSource ht', Statement.answer, hsame,
      (Expr.normal_simplify .baseline t.toExpr).simplify_unsigned]

theorem answer_again_request :
    answer "y: x + 4 * y = -0.5" = .ok "y = ((-0.5 - x) / 4)" ∧
      answer "y: y = ((-0.5 - x) / 4)" = .ok "y = ((-0.5 - x) / 4)" := by
  have h : answer "y: x + 4 * y = -0.5" = .ok "y = ((-0.5 - x) / 4)" := by decide +kernel
  have hvalue : (Statement.ofSource "y: x + 4 * y = -0.5").toOption.bind Statement.value? =
      some ((.const (-0.5) - .var "x") / .const 4) := by decide +kernel
  have hagain : (Statement.ofSource "y: x + 4 * y = -0.5").toOption.map
      (Statement.again "y = ((-0.5 - x) / 4)") = some "y: y = ((-0.5 - x) / 4)" := by decide +kernel
  obtain ⟨s, e, hs, he, hstable⟩ := answer_again h
  rw [hs] at hvalue hagain
  cases he.symm.trans hvalue
  rw [← Option.some.inj hagain]
  exact ⟨h, hstable (by decide +kernel)⟩

end Rearrange

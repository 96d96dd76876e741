import Rearrange.Proofs.Simplified

namespace Rearrange

namespace Expr

def FirstRule (rules : RuleSet) (s : Step) (e e' : Expr) : Prop :=
  ∃ before after, rules.table = before ++ s :: after ∧ s.rewrite? e = some e' ∧
    ∀ t ∈ before, t.rewrite? e = none

/-- One part of `e` is rewritten by `s`, the first rule that applies to that part, and this gives
`e'`. -/
def RewritesBy (rules : RuleSet) (s : Step) (e e' : Expr) : Prop :=
  ∃ (c : Context) (part part' : Expr), e = c.fill part ∧ e' = c.fill part' ∧
    part.FirstRule rules s part'

/-- `e.Derives rules ss e'` says that the steps `ss`, one after the other, lead from `e` to `e'`. -/
inductive Derives (rules : RuleSet) : Expr → List Step → Expr → Prop
  | refl (e : Expr) : Derives rules e [] e
  | step {s : Step} {ss : List Step} {a b c : Expr} :
    a.RewritesBy rules s b → Derives rules b ss c → Derives rules a (s :: ss) c

variable {rules : RuleSet} {s : Step} {ss ts : List Step} {a b c e e' : Expr}

theorem firstRule_of_first? (h : Step.first? rules.table e = some (s, e')) :
    e.FirstRule rules s e' := by
  obtain ⟨before, t, after, htable, ht, hbefore⟩ := List.findSome?_eq_some_iff.mp h
  obtain ⟨x, hx, hpair⟩ := Option.map_eq_some_iff.mp ht
  cases hpair
  exact ⟨before, after, htable, hx, fun u hu => Option.map_eq_none_iff.mp (hbefore u hu)⟩

theorem FirstRule.rewritesBy (h : e.FirstRule rules s e') : e.RewritesBy rules s e' :=
  ⟨.hole, e, e', rfl, rfl, h⟩

theorem RewritesBy.neg (h : a.RewritesBy rules s b) : (neg a).RewritesBy rules s (neg b) := by
  obtain ⟨c, part, part', rfl, rfl, hfirst⟩ := h
  exact ⟨.neg c, part, part', rfl, rfl, hfirst⟩

theorem RewritesBy.lhs (h : a.RewritesBy rules s b) (op : BinOp) (r : Expr) :
    (bin op a r).RewritesBy rules s (bin op b r) := by
  obtain ⟨c, part, part', rfl, rfl, hfirst⟩ := h
  exact ⟨.lhs op c r, part, part', rfl, rfl, hfirst⟩

theorem RewritesBy.rhs (h : a.RewritesBy rules s b) (op : BinOp) (l : Expr) :
    (bin op l a).RewritesBy rules s (bin op l b) := by
  obtain ⟨c, part, part', rfl, rfl, hfirst⟩ := h
  exact ⟨.rhs op l c, part, part', rfl, rfl, hfirst⟩

theorem Derives.trans (h : a.Derives rules ss b) (h' : b.Derives rules ts c) :
    a.Derives rules (ss ++ ts) c := by
  induction h with
  | refl => exact h'
  | step hs _ ih => exact .step hs (ih h')

theorem Derives.map {f : Expr → Expr}
    (hf : ∀ s a b, a.RewritesBy rules s b → (f a).RewritesBy rules s (f b))
    (h : a.Derives rules ss b) : (f a).Derives rules ss (f b) := by
  induction h with
  | refl => exact .refl _
  | step hs _ ih => exact .step (hf _ _ _ hs) ih

theorem derives_settle (rules : RuleSet) (e : Expr) :
    e.Derives rules (settle rules e).2 (settle rules e).1 := by
  induction e using settle_induction rules with
  | settled e h =>
    rw [settle_of_settled h]
    exact .refl e
  | step s e e' h ih =>
    rw [settle_of_first? h]
    exact .step (firstRule_of_first? h).rewritesBy ih

theorem derives_simplifySteps (rules : RuleSet) (e : Expr) :
    e.Derives rules (e.simplifySteps rules).2 (e.simplify rules) := by
  induction e with
  | const c => exact derives_settle rules (const c)
  | var n => exact derives_settle rules (var n)
  | neg e ih =>
    have hbelow : (neg e).Derives rules (e.simplifySteps rules).2 (neg (e.simplify rules)) :=
      ih.map fun _ _ _ h => h.neg
    exact hbelow.trans (derives_settle rules _)
  | bin op l r ihl ihr =>
    have hleft : (bin op l r).Derives rules (l.simplifySteps rules).2
        (bin op (l.simplify rules) r) :=
      ihl.map fun _ _ _ h => h.lhs op r
    have hright : (bin op (l.simplify rules) r).Derives rules (r.simplifySteps rules).2
        (bin op (l.simplify rules) (r.simplify rules)) :=
      ihr.map fun _ _ _ h => h.rhs op _
    exact (hleft.trans hright).trans (derives_settle rules _)

theorem settled_iff : e.Settled rules ↔ ∀ s ∈ rules.table, s.rewrite? e = none := by
  simp only [Settled, Step.first?, List.findSome?_eq_none_iff, Option.map_eq_none_iff]

theorem steps_settle_eq_nil_iff : (settle rules e).2 = [] ↔ e.Settled rules := by
  cases h : Step.first? rules.table e with
  | none => exact iff_of_true (by rw [settle_of_settled h]) h
  | some p =>
    obtain ⟨s, e'⟩ := p
    rw [settle_of_first? h]
    refine iff_of_false (List.cons_ne_nil _ _) fun hsettled => ?_
    cases hsettled.symm.trans h

theorem simplifySteps_eq_nil_iff : (e.simplifySteps rules).2 = [] ↔ e.Normal rules := by
  induction e with
  | const c => exact steps_settle_eq_nil_iff
  | var n => exact steps_settle_eq_nil_iff
  | neg e ih =>
    change (e.simplifySteps rules).2 ++ (settle rules (neg (e.simplify rules))).2 = [] ↔ _
    rw [List.append_eq_nil_iff, ih, steps_settle_eq_nil_iff, Normal]
    exact and_congr_right fun he => by rw [he.simplify_eq]
  | bin op l r ihl ihr =>
    change (l.simplifySteps rules).2 ++ (r.simplifySteps rules).2 ++
      (settle rules (bin op (l.simplify rules) (r.simplify rules))).2 = [] ↔ _
    rw [List.append_eq_nil_iff, List.append_eq_nil_iff, ihl, ihr, steps_settle_eq_nil_iff, Normal,
      and_assoc]
    exact and_congr_right fun hl => and_congr_right fun hr => by rw [hl.simplify_eq, hr.simplify_eq]

theorem normal_iff_postOrder : e.Normal rules ↔ ∀ part ∈ e.postOrder, part.Settled rules := by
  refine ⟨fun h part => h.settled_of_mem_postOrder, fun h => ?_⟩
  induction e with
  | const c => exact h _ (List.mem_singleton_self _)
  | var n => exact h _ (List.mem_singleton_self _)
  | neg e ih =>
    exact ⟨ih fun part hpart => h part (List.mem_append_left _ hpart),
      h _ (List.mem_append_right _ (List.mem_singleton_self _))⟩
  | bin op l r ihl ihr =>
    have hparts (part : Expr) (hpart : part ∈ l.postOrder ++ r.postOrder) : part.Settled rules :=
      h part (List.mem_append_left _ hpart)
    exact ⟨ihl fun part hpart => hparts part (List.mem_append_left _ hpart),
      ihr fun part hpart => hparts part (List.mem_append_right _ hpart),
      h _ (List.mem_append_right _ (List.mem_singleton_self _))⟩

section

variable {σ : Type}

def settleInto (push : σ → Step → σ) (rules : RuleSet) (e : Expr) (collected : σ) : Expr × σ :=
  match _h : Step.first? rules.table e with
  | none => (e, collected)
  | some (s, e') => settleInto push rules e' (push collected s)
termination_by e.size + e.sums
decreasing_by exact (Step.rewrites_of_first? (by assumption)).size_add_sums_lt

def simplifyInto (push : σ → Step → σ) (rules : RuleSet) : Expr → σ → Expr × σ
  | const c, collected => settleInto push rules (const c) collected
  | var n, collected => settleInto push rules (var n) collected
  | neg e, collected =>
    let (e', collected) := simplifyInto push rules e collected
    settleInto push rules (neg e') collected
  | bin op l r, collected =>
    let (l', collected) := simplifyInto push rules l collected
    let (r', collected) := simplifyInto push rules r collected
    settleInto push rules (bin op l' r') collected

variable (push : σ → Step → σ)

theorem settleInto_eq (rules : RuleSet) (e : Expr) (collected : σ) :
    settleInto push rules e collected =
      ((settle rules e).1, (settle rules e).2.foldl push collected) := by
  induction e using settle_induction rules generalizing collected with
  | settled e h =>
    rw [settle_of_settled h, settleInto]
    split
    next => rfl
    next hs => rw [h] at hs; cases hs
  | step s e e' h ih =>
    rw [settle_of_first? h, settleInto]
    split
    next hs => rw [h] at hs; cases hs
    next hs =>
      rw [h] at hs
      cases hs
      exact ih _

theorem simplifyInto_eq (rules : RuleSet) (e : Expr) (collected : σ) :
    e.simplifyInto push rules collected =
      (e.simplify rules, (e.simplifySteps rules).2.foldl push collected) := by
  induction e generalizing collected with
  | const c => exact settleInto_eq push rules (const c) collected
  | var n => exact settleInto_eq push rules (var n) collected
  | neg e ih =>
    simp only [simplifyInto, ih, settleInto_eq, simplify, simplifySteps, List.foldl_append]
  | bin op l r ihl ihr =>
    simp only [simplifyInto, ihl, ihr, settleInto_eq, simplify, simplifySteps, List.foldl_append]

end

end Expr

open Rearrange.Expr

/-- The listed steps lead from an expression to the simplified one, a single rewrite each, and none
is listed if and only if no rule applies anywhere. Whatever collects the steps gets these. -/
theorem steps_derive (rules : RuleSet) (e : Expr) :
    ∃ steps, e.simplifySteps rules = (e.simplify rules, steps) ∧
      e.Derives rules steps (e.simplify rules) ∧
      (steps = [] ↔ ∀ part ∈ e.postOrder, ∀ s ∈ rules.table, s.rewrite? part = none) ∧
      (steps = [] → e.simplify rules = e) ∧
      ∀ (σ : Type) (push : σ → Step → σ) (collected : σ),
        e.simplifyInto push rules collected = (e.simplify rules, steps.foldl push collected) := by
  refine ⟨(e.simplifySteps rules).2, rfl, derives_simplifySteps rules e, ?_, ?_,
    fun σ push collected => simplifyInto_eq push rules e collected⟩
  · simp only [simplifySteps_eq_nil_iff, normal_iff_postOrder, settled_iff]
  · exact fun h => (simplifySteps_eq_nil_iff.mp h).simplify_eq

/-- `0 + x * 1 - 0` -/
def paddedVariable : Expr := const 0 + var "x" * const 1 - const 0

theorem steps_derive_paddedVariable :
    paddedVariable.Derives .baseline [.multiplyOne, .addZero, .subtractZero] (var "x") ∧
      paddedVariable.simplifyInto (fun n _ => n + 1) .baseline 0 = (var "x", 3) ∧
      ((var "x" + var "y").simplifySteps .baseline).2 = [] ∧
      (var "x" + var "y").simplify .baseline = var "x" + var "y" := by
  have hsteps : paddedVariable.simplifySteps .baseline =
      (var "x", [.multiplyOne, .addZero, .subtractZero]) := by
    decide +kernel
  have hnone : ((var "x" + var "y").simplifySteps .baseline).2 = [] := by decide +kernel
  obtain ⟨steps, hlisted, hderives, -, -, hcollects⟩ := steps_derive .baseline paddedVariable
  obtain ⟨rest, hlisted', -, -, hsame, -⟩ := steps_derive .baseline (var "x" + var "y")
  have hcounts := hcollects Nat (fun n _ => n + 1) 0
  obtain ⟨hresult, rfl⟩ := Prod.mk.inj (hsteps.symm.trans hlisted)
  rw [← hresult] at hderives hcounts
  rw [hlisted'] at hnone
  exact ⟨hderives, hcounts, by rw [hlisted']; exact hnone, hsame hnone⟩

end Rearrange

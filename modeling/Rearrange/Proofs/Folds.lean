import Rearrange.Proofs.Settling

namespace Rearrange

structure Fold where
  op : BinOp
  lhs : Float
  rhs : Float
deriving DecidableEq

def Step.fold? : Step → Expr → Option Fold
  | .foldConstants, .bin op (.const a) (.const b) => some ⟨op, a, b⟩
  | _, _ => none

namespace Expr

def settleFolds (rules : RuleSet) (e : Expr) : List Fold :=
  match _h : Step.first? rules.table e with
  | none => []
  | some (s, e') => (s.fold? e).toList ++ settleFolds rules e'
termination_by e.size + e.sums
decreasing_by exact (Step.rewrites_of_first? (by assumption)).size_add_sums_lt

/-- The operations on constants done while an expression is simplified. -/
def folds (rules : RuleSet) : Expr → List Fold
  | const c => settleFolds rules (const c)
  | var n => settleFolds rules (var n)
  | neg e => e.folds rules ++ settleFolds rules (neg (e.simplify rules))
  | bin op l r =>
    l.folds rules ++ r.folds rules ++
      settleFolds rules (bin op (l.simplify rules) (r.simplify rules))

theorem settleFolds_of_settled {rules : RuleSet} {e : Expr} (h : e.Settled rules) :
    settleFolds rules e = [] := by
  rw [settleFolds]
  split
  next => rfl
  next hs => rw [h] at hs; cases hs

theorem settleFolds_of_first? {rules : RuleSet} {e e' : Expr} {s : Step}
    (h : Step.first? rules.table e = some (s, e')) :
    settleFolds rules e = (s.fold? e).toList ++ settleFolds rules e' := by
  rw [settleFolds]
  split
  next hs => rw [h] at hs; cases hs
  next hs => rw [h] at hs; cases hs; rfl

theorem length_fold? {s : Step} {e e' : Expr} (h : s.Rewrites e e') :
    (s.fold? e).toList.length = [s].count .foldConstants := by
  cases h <;> rfl

theorem length_settleFolds (rules : RuleSet) (e : Expr) :
    (settleFolds rules e).length = (settle rules e).2.count .foldConstants := by
  induction e using settle_induction rules with
  | settled e h => rw [settleFolds_of_settled h, settle_of_settled h]; rfl
  | step s e e' h ih =>
    rw [settleFolds_of_first? h, settle_of_first? h, List.length_append, ih,
      length_fold? (Step.rewrites_of_first? h), ← List.count_append]
    rfl

theorem length_folds (rules : RuleSet) (e : Expr) :
    (e.folds rules).length = (e.simplifySteps rules).2.count .foldConstants := by
  induction e with
  | const c => exact length_settleFolds rules _
  | var n => exact length_settleFolds rules _
  | neg e ih => simp [folds, simplifySteps, ih, length_settleFolds, simplify]
  | bin op l r ihl ihr =>
    simp [folds, simplifySteps, ihl, ihr, length_settleFolds, simplify]

/-- A relation between expressions that can be followed from one expression to the next, and from
operands to what is made of them. -/
structure Congruence (R : Expr → Expr → Prop) : Prop where
  refl (e : Expr) : R e e
  trans {a b c : Expr} : R a b → R b c → R a c
  neg {a b : Expr} : R a b → R (neg a) (neg b)
  bin (op : BinOp) {a b c d : Expr} : R a b → R c d → R (bin op a c) (bin op b d)

section

variable {rules : RuleSet} {P : Fold → Prop} {R : Expr → Expr → Prop}

theorem Congruence.settle (hR : Congruence R)
    (hstep : ∀ s e e', Step.Rewrites s e e' → (∀ f ∈ s.fold? e, P f) → R e e') {e : Expr}
    (hfolds : ∀ f ∈ settleFolds rules e, P f) : R e (settle rules e).1 := by
  induction e using settle_induction rules with
  | settled e h => rw [settle_of_settled h]; exact hR.refl e
  | step s e e' h ih =>
    rw [settleFolds_of_first? h] at hfolds
    have hfirst := hstep s e e' (Step.rewrites_of_first? h)
      fun f hf => hfolds f (List.mem_append_left _ (Option.mem_toList.mpr hf))
    rw [settle_of_first? h]
    exact hR.trans hfirst (ih fun f hf => hfolds f (List.mem_append_right _ hf))

theorem Congruence.simplify (hR : Congruence R)
    (hstep : ∀ s e e', Step.Rewrites s e e' → (∀ f ∈ s.fold? e, P f) → R e e') {e : Expr}
    (hfolds : ∀ f ∈ e.folds rules, P f) : R e (e.simplify rules) := by
  induction e with
  | const c => rw [simplify_const]; exact hR.refl _
  | var n => rw [simplify_var]; exact hR.refl _
  | neg e ih =>
    simp only [folds, List.mem_append] at hfolds
    have he := ih fun f hf => hfolds f (Or.inl hf)
    rw [simplify_neg]
    exact hR.trans (hR.neg he) (hR.settle hstep fun f hf => hfolds f (Or.inr hf))
  | bin op l r ihl ihr =>
    simp only [folds, List.mem_append] at hfolds
    have hl := ihl fun f hf => hfolds f (Or.inl (Or.inl hf))
    have hr := ihr fun f hf => hfolds f (Or.inl (Or.inr hf))
    rw [simplify_bin]
    exact hR.trans (hR.bin op hl hr) (hR.settle hstep fun f hf => hfolds f (Or.inr hf))

end

end Expr

end Rearrange

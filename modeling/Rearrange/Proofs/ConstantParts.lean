import Rearrange.Proofs.Simplified
import Rearrange.Proofs.SimplifierRuns

namespace Rearrange

namespace Expr

/-- The value of an expression without variables, computed from the leaves up. -/
def constant? : Expr → Option Float
  | const c => some c
  | var _ => none
  | neg e => e.constant?.map fun a => -a
  | bin op l r =>
    match l.constant?, r.constant? with
    | some a, some b => some (op.eval a b)
    | _, _ => none

variable {rules : RuleSet} {e r : Expr} {v : Float}

theorem names_neg_eq_nil : (neg e).names = [] ↔ e.names = [] := Iff.rfl

theorem names_bin_eq_nil {op : BinOp} : (bin op e r).names = [] ↔ e.names = [] ∧ r.names = [] :=
  List.append_eq_nil_iff

theorem constant?_bin {op : BinOp} {a b : Float} (he : e.constant? = some a)
    (hr : r.constant? = some b) : (bin op e r).constant? = some (op.eval a b) := by
  rw [constant?, he, hr]

theorem exists_constant (h : e.names = []) : ∃ v, e.constant? = some v := by
  induction e with
  | const c => exact ⟨c, rfl⟩
  | var n => exact absurd h (List.cons_ne_nil n [])
  | neg e ih =>
    obtain ⟨v, hv⟩ := ih (names_neg_eq_nil.mp h)
    exact ⟨-v, by rw [constant?, hv]; rfl⟩
  | bin op l r ihl ihr =>
    obtain ⟨hl, hr⟩ := names_bin_eq_nil.mp h
    obtain ⟨a, ha⟩ := ihl hl
    obtain ⟨b, hb⟩ := ihr hr
    exact ⟨op.eval a b, constant?_bin ha hb⟩

theorem first?_neg_const (rules : RuleSet) (a : Float) :
    Step.first? rules.table (neg (const a)) = some (.negateConstant, const (-a)) := by
  cases rules <;> rfl

theorem first?_bin_const (rules : RuleSet) (op : BinOp) (a b : Float) :
    Step.first? rules.table (bin op (const a) (const b)) =
      some (.foldConstants, const (op.eval a b)) := by
  cases rules <;> rfl

theorem simplify_of_constant? (h : e.constant? = some v) : e.simplify rules = const v := by
  induction e generalizing v with
  | const c =>
    rw [← Option.some.inj h]
    exact simplify_const rules c
  | var n => cases h
  | neg e ih =>
    obtain ⟨a, ha, rfl⟩ := Option.map_eq_some_iff.mp h
    rw [simplify_neg, ih ha, settle_of_first? (first?_neg_const rules a),
      settle_of_settled (settled_const rules _)]
  | bin op l r ihl ihr =>
    rw [constant?] at h
    split at h
    next a b ha hb =>
      rw [simplify_bin, ihl ha, ihr hb, settle_of_first? (first?_bin_const rules op a b),
        settle_of_settled (settled_const rules _), ← Option.some.inj h]
    next => cases h

theorem Normal.exists_const (h : e.Normal rules) (hnames : e.names = []) : ∃ c, e = const c := by
  obtain ⟨v, hv⟩ := exists_constant hnames
  exact ⟨v, h.simplify_eq.symm.trans (simplify_of_constant? hv)⟩

end Expr

open Rearrange.Expr

def Rewrite.Evaluates (w : Rewrite) : Prop :=
  w.step ∈ Step.constantRules ∧ ∃ v, w.before.constant? = some v ∧ w.after = const v

namespace Expr

variable {rules : RuleSet} {e e' r : Expr} {s : Step} {trace : List Rewrite}

theorem NormalBelow.evaluates (h : e.NormalBelow rules) (hnames : e.names = [])
    (hfirst : Step.first? rules.table e = some (s, e')) : Rewrite.Evaluates ⟨s, e, e'⟩ := by
  cases e with
  | const c => cases (settled_const rules c).symm.trans hfirst
  | var n => exact absurd hnames (List.cons_ne_nil n [])
  | neg e =>
    obtain ⟨a, rfl⟩ := Normal.exists_const h (names_neg_eq_nil.mp hnames)
    cases (first?_neg_const rules a).symm.trans hfirst
    exact ⟨List.mem_cons_of_mem _ (List.mem_singleton_self _), -a, rfl, rfl⟩
  | bin op l r =>
    obtain ⟨hl, hr⟩ := names_bin_eq_nil.mp hnames
    obtain ⟨a, rfl⟩ := h.1.exists_const hl
    obtain ⟨b, rfl⟩ := h.2.exists_const hr
    cases (first?_bin_const rules op a b).symm.trans hfirst
    exact ⟨List.mem_cons_self, op.eval a b, rfl, rfl⟩

theorem Settles.evaluates (h : e.Settles rules trace r) (hbelow : e.NormalBelow rules) :
    r.Normal rules ∧ ∀ w ∈ trace, w.before.names = [] → w.Evaluates := by
  induction h with
  | done hsettled => exact ⟨normal_iff.mpr ⟨hbelow, hsettled⟩, nofun⟩
  | round hfirst _ ih =>
    obtain ⟨hnormal, htrace⟩ := ih (hbelow.rewrites (Step.rewrites_of_first? hfirst))
    refine ⟨hnormal, fun w hw => ?_⟩
    rcases List.mem_cons.mp hw with rfl | hw
    · exact fun hnames => hbelow.evaluates hnames hfirst
    · exact htrace w hw

theorem Simplifies.evaluates (h : e.Simplifies rules trace r) :
    r.Normal rules ∧ ∀ w ∈ trace, w.before.names = [] → w.Evaluates := by
  induction h with
  | const hsettles | var hsettles => exact hsettles.evaluates trivial
  | neg _ hsettles ih =>
    obtain ⟨hnormal, hbelow⟩ := ih
    obtain ⟨hroot, hhere⟩ := hsettles.evaluates hnormal
    refine ⟨hroot, fun w hw => ?_⟩
    rcases List.mem_append.mp hw with hw | hw
    · exact hbelow w hw
    · exact hhere w hw
  | bin _ _ hsettles ihl ihr =>
    obtain ⟨hnormall, hleft⟩ := ihl
    obtain ⟨hnormalr, hright⟩ := ihr
    obtain ⟨hroot, hhere⟩ := hsettles.evaluates ⟨hnormall, hnormalr⟩
    refine ⟨hroot, fun w hw => ?_⟩
    rcases List.mem_append.mp hw with hw | hw
    · rcases List.mem_append.mp hw with hw | hw
      · exact hleft w hw
      · exact hright w hw
    · exact hhere w hw

end Expr

/-- An expression without variables is simplified to its value, also as a part of another one. In
the run of any expression, what has no variables is only rewritten to its value, and only by the
rules for constants. -/
theorem simplify_evaluates_constants (rules : RuleSet) (e : Expr) :
    (e.names = [] → ∃ v, e.constant? = some v ∧ e.simplify rules = const v ∧
      ∀ c : Context, (c.fill e).simplify rules = (c.fill (const v)).simplify rules) ∧
    ∃ trace, e.Simplifies rules trace (e.simplify rules) ∧
      trace.map Rewrite.step = (e.simplifySteps rules).2 ∧
      ∀ w ∈ trace, w.before.names = [] → w.Evaluates := by
  constructor
  · intro hnames
    obtain ⟨v, hv⟩ := exists_constant hnames
    have hsimplify : e.simplify rules = const v := simplify_of_constant? hv
    refine ⟨v, hv, hsimplify, fun c => ?_⟩
    rw [← c.simplify_fill rules e, hsimplify]
  · obtain ⟨trace, htrace, hsteps⟩ := exists_simplifies rules e
    exact ⟨trace, htrace, hsteps, htrace.evaluates.2⟩

/-- `0 * (1 / 0)`, which is no number. -/
def zeroTimesInfinity : Expr := const 0 * (const 1 / const 0)

theorem simplify_evaluates_constants_zeroTimesInfinity :
    zeroTimesInfinity.names = [] ∧ zeroTimesInfinity.simplify .extended = const Float.nan ∧
      (var "x" + zeroTimesInfinity).simplify .extended =
        (var "x" + const Float.nan).simplify .extended := by
  have hnames : zeroTimesInfinity.names = [] := rfl
  have hnan : zeroTimesInfinity.constant? = some Float.nan := by decide +kernel
  obtain ⟨v, hv, hsimplify, hcontext⟩ :=
    (simplify_evaluates_constants .extended zeroTimesInfinity).1 hnames
  cases hnan.symm.trans hv
  exact ⟨hnames, hsimplify, hcontext (.rhs .add (var "x") .hole)⟩

end Rearrange

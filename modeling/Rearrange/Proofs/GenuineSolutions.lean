import Rearrange.Proofs.Fractions
import Rearrange.Proofs.Occurrence
import Rearrange.Proofs.RationalReading
import Rearrange.Proofs.SearchFolds

namespace Rearrange

def Number.rational? (x : Float) : Option ℚ := if x.isFinite then some (rational x) else none

def BinOp.rational? : BinOp → ℚ → ℚ → Option ℚ
  | div, a, b => if b = 0 then none else some (a / b)
  | op, a, b => some (op.apply a b)

/-- The value of an expression, if it is defined: all constants are finite, and nothing is divided
by zero. -/
def Expr.rational? (ρ : String → ℚ) : Expr → Option ℚ
  | const c => Number.rational? c
  | var n => some (ρ n)
  | neg e => (e.rational? ρ).map Neg.neg
  | bin op l r => (l.rational? ρ).bind fun a => (r.rational? ρ).bind fun b => op.rational? a b

def Fold.rational? (f : Fold) : Option ℚ :=
  (Number.rational? f.lhs).bind fun a => (Number.rational? f.rhs).bind fun b => f.op.rational? a b

def Fold.ExactRational (f : Fold) : Prop :=
  f.rational?.isSome ∧ Number.rational? (f.op.eval f.lhs f.rhs) = f.rational?

instance (f : Fold) : Decidable f.ExactRational := inferInstanceAs (Decidable (_ ∧ _))

theorem Number.rational?_eq_some {x : Float} {q : ℚ} (h : rational? x = some q) :
    rational x = q := by
  unfold rational? at h
  split at h
  next => exact Option.some.inj h
  next => cases h

theorem BinOp.rational?_eq_some {op : BinOp} {a b q : ℚ} (h : op.rational? a b = some q) :
    op.apply a b = q ∧ (op = .div → b ≠ 0) := by
  cases op with
  | div =>
    rw [rational?] at h
    split at h
    next => cases h
    next hb => exact ⟨Option.some.inj h, fun _ => hb⟩
  | _ => exact ⟨Option.some.inj h, fun hop => nomatch hop⟩

theorem Fold.ExactRational.regular {f : Fold} (h : f.ExactRational) : f.Regular rationalReading := by
  obtain ⟨hsome, heval⟩ := h
  obtain ⟨q, hq⟩ := Option.isSome_iff_exists.mp hsome
  rw [hq] at heval
  obtain ⟨a, ha, hrest⟩ := Option.bind_eq_some_iff.mp hq
  obtain ⟨b, hb, hop⟩ := Option.bind_eq_some_iff.mp hrest
  obtain ⟨hvalue, hdivisor⟩ := BinOp.rational?_eq_some hop
  have hl : rationalReading.value f.lhs = a := Number.rational?_eq_some ha
  have hr : rationalReading.value f.rhs = b := Number.rational?_eq_some hb
  have hresult : rationalReading.value (f.op.eval f.lhs f.rhs) = q :=
    Number.rational?_eq_some heval
  rw [Regular, Exact, hl, hr, hresult, hvalue]
  exact ⟨rfl, hdivisor⟩

theorem Expr.fraction_of_rational? {ρ : String → ℚ} {e : Expr} {q : ℚ}
    (h : e.rational? ρ = some q) :
    (e.fraction rationalReading ρ).den ≠ 0 ∧
      (e.fraction rationalReading ρ).num = q * (e.fraction rationalReading ρ).den := by
  induction e generalizing q with
  | const c =>
    have hc : rationalReading.value c = q := Number.rational?_eq_some h
    exact ⟨one_ne_zero, by rw [fraction, hc, mul_one]⟩
  | var n => exact ⟨one_ne_zero, by rw [fraction, Option.some.inj h, mul_one]⟩
  | neg e ih =>
    obtain ⟨p, hp, rfl⟩ := Option.map_eq_some_iff.mp h
    obtain ⟨hden, hnum⟩ := ih hp
    exact ⟨hden, by rw [fraction, hnum, neg_mul]⟩
  | bin op l r ihl ihr =>
    obtain ⟨a, ha, hrest⟩ := Option.bind_eq_some_iff.mp h
    obtain ⟨b, hb, hop⟩ := Option.bind_eq_some_iff.mp hrest
    obtain ⟨hdl, hnl⟩ := ihl ha
    obtain ⟨hdr, hnr⟩ := ihr hb
    obtain ⟨rfl, hdivisor⟩ := BinOp.rational?_eq_some hop
    rw [fraction]
    cases op with
    | add | sub | mul =>
      refine ⟨mul_ne_zero hdl hdr, ?_⟩
      simp only [BinOp.combine, BinOp.apply, hnl, hnr]
      ring
    | div =>
      have hb0 := hdivisor rfl
      have hnum : (r.fraction rationalReading ρ).num ≠ 0 := by
        rw [hnr]
        exact mul_ne_zero hb0 hdr
      refine ⟨mul_ne_zero hdl hnum, ?_⟩
      simp only [BinOp.combine, BinOp.apply, hnl, hnr]
      field_simp

theorem Job.eq_of_balanced {ρ : String → ℚ} {j : Job} {p q : ℚ} (h : j.Balanced rationalReading ρ)
    (hl : j.lhs.rational? ρ = some p) (hr : j.rhs.rational? ρ = some q) : p = q := by
  obtain ⟨hdl, hnl⟩ := Expr.fraction_of_rational? hl
  obtain ⟨hdr, hnr⟩ := Expr.fraction_of_rational? hr
  rw [Balanced, hnl, hnr] at h
  have hden := mul_ne_zero hdl hdr
  apply mul_right_cancel₀ hden
  linear_combination h

theorem Job.balanced_of_derivation {K : Type*} [Field K] {v : Reading K} {ρ : String → K}
    {target : String} {rules : RuleSet} {js : List Job} {j k : Job}
    (hchain : js.IsChain fun j k => k ∈ j.successors target rules ∧
      ∀ f ∈ j.successorFolds target rules, f.Regular v)
    (hj : js.head? = some j) (hk : js.getLast? = some k) (h : k.Balanced v ρ) :
    j.Balanced v ρ := by
  induction js generalizing j with
  | nil => cases hj
  | cons l js ih =>
    cases Option.some.inj hj
    cases js with
    | nil =>
      cases Option.some.inj hk
      exact h
    | cons m js =>
      obtain ⟨⟨hm, hfolds⟩, hrest⟩ := List.isChain_cons_cons.mp hchain
      rw [List.getLast?_cons_cons] at hk
      exact balanced_of_mem_successors hm hfolds (ih hrest rfl hk)

/-- A finite constant that a search finds for the target makes the sides of the equation equal, if
it makes both of them defined. -/
theorem solve_value_satisfies {target : String} {lhs rhs : Expr} {options : Solve.Options}
    {solution : Solution} (solved : solve target lhs rhs options = .ok solution)
    (hfolds : ∀ f ∈ solveFolds target lhs rhs options, f.ExactRational) {c : Float}
    (hvalue : solution.value = .const c) {ρ : String → ℚ}
    (hc : Number.rational? c = some (ρ target)) {p q : ℚ} (hl : lhs.rational? ρ = some p)
    (hr : rhs.rational? ρ = some q) : p = q := by
  obtain ⟨j, ⟨hhead, hlast, -⟩, hj⟩ := solve_derivation solved
  have hchain := (solve_derivation_folds solved).imp fun j k hjk =>
    And.imp_right (fun hmem f hf => (hfolds f (hmem f hf)).regular) hjk
  have htarget : rationalReading.value c = ρ target := Number.rational?_eq_some hc
  have hend : j.Balanced rationalReading ρ := by
    obtain ⟨-, hjob | hjob⟩ := Job.value?_eq_some hj <;>
    · rw [hjob, hvalue, Job.Balanced]
      simp only [Expr.fraction, htarget]
  have hsimplified := Job.balanced_of_derivation hchain hhead hlast hend
  have hequation : (Job.mk lhs rhs).Balanced rationalReading ρ :=
    Job.balanced_of_simplify
      (fun f hf => (hfolds f (List.mem_append_left _ hf)).regular) hsimplified
  exact Job.eq_of_balanced hequation hl hr

/-- `(x - 6) / x + 2 = 2` -/
def ratioEquation : Job := ⟨(.var "x" - .const 6) / .var "x" + .const 2, .const 2⟩

def ratioSolution : Solution where
  value := .const 6
  derivation := [ratioEquation, ⟨(.var "x" - .const 6) / .var "x", .const 0⟩,
    ⟨.var "x" - .const 6, .const 0⟩, ⟨.var "x", .const 6⟩]
  explored := 11

theorem solve_value_satisfies_ratio :
    solve "x" ratioEquation.lhs ratioEquation.rhs = .ok ratioSolution ∧
      (∀ f ∈ solveFolds "x" ratioEquation.lhs ratioEquation.rhs, f.ExactRational) ∧
      Number.rational? 6 = some 6 ∧ ratioEquation.lhs.rational? (fun _ => 6) = some (0 / 6 + 2) ∧
      ratioEquation.rhs.rational? (fun _ => 6) = some 2 ∧ (0 / 6 + 2 : ℚ) = 2 := by
  have hsolved : solve "x" ratioEquation.lhs ratioEquation.rhs = .ok ratioSolution := by
    decide +kernel
  have hfolds : ∀ f ∈ solveFolds "x" ratioEquation.lhs ratioEquation.rhs, f.ExactRational := by
    decide +kernel
  have hc : Number.rational? 6 = some 6 := by decide +kernel
  have hl : ratioEquation.lhs.rational? (fun _ => 6) = some (0 / 6 + 2) := by decide +kernel
  have hr : ratioEquation.rhs.rational? (fun _ => 6) = some 2 := by decide +kernel
  exact ⟨hsolved, hfolds, hc, hl, hr,
    solve_value_satisfies (ρ := fun _ => 6) hsolved hfolds rfl hc hl hr⟩

/-- `x / x = 0` -/
def selfQuotient : Job := ⟨.var "x" / .var "x", .const 0⟩

/-- A value that a search finds need not make the sides of the equation defined. -/
theorem solve_finds_pole :
    (∀ name, selfQuotient.Mentions name → name = "x") ∧
      solve "x" selfQuotient.lhs selfQuotient.rhs =
        .ok ⟨.const 0, [selfQuotient, ⟨.var "x", .const 0⟩], 2⟩ ∧
      (∀ f ∈ solveFolds "x" selfQuotient.lhs selfQuotient.rhs, f.ExactRational) ∧
      Number.rational? 0 = some 0 ∧
      ¬ ∃ q, selfQuotient.lhs.rational? (fun _ => 0) = some q ∧
        selfQuotient.rhs.rational? (fun _ => 0) = some q := by
  refine ⟨fun name hname => ?_, by decide +kernel, by decide +kernel, by decide +kernel, ?_⟩
  · have hx : ("x" == name) = true := by
      simpa [Job.Mentions, selfQuotient, Expr.mentions] using hname
    exact (beq_iff_eq.mp hx).symm
  · have hpole : selfQuotient.lhs.rational? (fun _ => 0) = none := by decide +kernel
    rintro ⟨q, hq, -⟩
    rw [hpole] at hq
    cases hq

end Rearrange

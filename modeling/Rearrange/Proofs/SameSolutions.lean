import Rearrange.Proofs.Moves
import Rearrange.Proofs.RationalReading
import Rearrange.Proofs.SearchOutcome

namespace Rearrange

/-- The moves lead from each of the jobs to the next, which is simplified. -/
def Traces (target : String) (rules : RuleSet) : List Move → List Job → Prop
  | [], [_] => True
  | m :: ms, j :: k :: js =>
    m ∈ j.moves target ∧ m.job.simplify rules = k ∧ Traces target rules ms (k :: js)
  | _, _ => False

instance decidableTraces (target : String) (rules : RuleSet) :
    (ms : List Move) → (js : List Job) → Decidable (Traces target rules ms js)
  | [], [] | [], _ :: _ :: _ | _ :: _, [] | _ :: _, [_] => inferInstanceAs (Decidable False)
  | [], [_] => inferInstanceAs (Decidable True)
  | m :: ms, j :: k :: js =>
    have := decidableTraces target rules ms (k :: js)
    inferInstanceAs (Decidable (m ∈ j.moves target ∧ m.job.simplify rules = k ∧ _))

theorem exists_traces {target : String} {rules : RuleSet} {js : List Job} (hne : js ≠ [])
    (h : js.IsChain fun j k => k ∈ j.successors target rules) :
    ∃ ms, Traces target rules ms js := by
  induction js with
  | nil => exact absurd rfl hne
  | cons j js ih =>
    cases js with
    | nil => exact ⟨[], trivial⟩
    | cons k js =>
      obtain ⟨hstep, hchain⟩ := List.isChain_cons_cons.mp h
      obtain ⟨m, hm, hk⟩ := Job.mem_successors_iff.mp hstep
      obtain ⟨ms, hms⟩ := ih (by simp) hchain
      exact ⟨m :: ms, hm, hk, hms⟩

section

variable {K : Type*} [Field K] {v : Reading K} {ρ : String → K}

/-- Simplifying the equation of a move is exact, and its divisors are not zero. -/
def Move.Safe (rules : RuleSet) (v : Reading K) (ρ : String → K) (m : Move) : Prop :=
  (∀ f ∈ m.job.folds rules, f.Exact v) ∧ ∀ d ∈ m.divisors, d.value v ρ ≠ 0

instance [DecidableEq K] (rules : RuleSet) (m : Move) : Decidable (m.Safe rules v ρ) :=
  inferInstanceAs (Decidable (_ ∧ _))

theorem Traces.holds_iff {target : String} {rules : RuleSet} {ms : List Move} {js : List Job}
    {j k : Job} (h : Traces target rules ms js) (safe : ∀ m ∈ ms, m.Safe rules v ρ)
    (hj : js.head? = some j) (hk : js.getLast? = some k) : k.Holds v ρ ↔ j.Holds v ρ := by
  induction ms generalizing js j with
  | nil =>
    match js, h with
    | [l], _ =>
      cases Option.some.inj hj
      cases Option.some.inj hk
      rfl
  | cons m ms ih =>
    match js, h with
    | l :: l' :: js, ⟨hm, hl', htrace⟩ =>
      cases Option.some.inj hj
      obtain ⟨hexact, hnonzero⟩ := safe m (by simp)
      have hrest := ih htrace (fun n hn => safe n (by simp [hn])) rfl
        (by rw [← hk, List.getLast?_cons_cons])
      rw [hrest, ← hl', Job.holds_simplify hexact, Job.holds_of_mem_moves hm hnonzero]

/-- Where the folds are exact and no move divides by zero, a solution is equivalent to the equation
it was found for. -/
theorem solve_keeps_solutions {target : String} {lhs rhs : Expr} {options : Solve.Options}
    {solution : Solution} (solved : solve target lhs rhs options = .ok solution)
    (hfolds : ∀ f ∈ (Job.mk lhs rhs).folds options.rules, f.Exact v) :
    (∃ ms, Traces target options.rules ms solution.derivation) ∧
      ∀ ms, Traces target options.rules ms solution.derivation →
        (∀ m ∈ ms, m.Safe options.rules v ρ) →
          ((Job.mk lhs rhs).Holds v ρ ↔ ρ target = solution.value.value v ρ) := by
  obtain ⟨j, ⟨hhead, hlast, hchain⟩, hvalue⟩ := solve_derivation solved
  have hne : solution.derivation ≠ [] := List.ne_nil_of_mem (List.mem_of_getLast? hlast)
  refine ⟨exists_traces hne hchain, fun ms htrace safe => ?_⟩
  rw [← Job.holds_simplify hfolds, ← htrace.holds_iff safe hhead hlast]
  obtain ⟨-, hjob | hjob⟩ := Job.value?_eq_some hvalue
  · rw [hjob]
    rfl
  · rw [hjob]
    exact eq_comm

end

/-- `a / x - 1 = 2` -/
def quotientEquation : Job := ⟨.var "a" / .var "x" - .const 1, .const 2⟩

/-- Adds `1`, multiplies by `x`, and divides by `3`. -/
def quotientMoves : List Move := [
  ⟨⟨.var "a" / .var "x", .const 2 + .const 1⟩, []⟩,
  ⟨⟨.var "a", .const 3 * .var "x"⟩, [.var "x"]⟩,
  ⟨⟨.var "x", .var "a" / .const 3⟩, [.const 3]⟩]

def quotientSolution : Solution where
  value := .var "a" / .const 3
  derivation := [quotientEquation, ⟨.var "a" / .var "x", .const 3⟩,
    ⟨.var "a", .const 3 * .var "x"⟩, ⟨.var "x", .var "a" / .const 3⟩]
  explored := 13

def quotientValues (n : String) : ℚ := if n = "a" then 12 else 4

theorem solve_keeps_solutions_quotient :
    solve "x" quotientEquation.lhs quotientEquation.rhs = .ok quotientSolution ∧
      (∀ f ∈ quotientEquation.folds .baseline, f.Exact rationalReading) ∧
      Traces "x" .baseline quotientMoves quotientSolution.derivation ∧
      (∀ m ∈ quotientMoves, m.Safe .baseline rationalReading quotientValues) ∧
      (quotientEquation.Holds rationalReading quotientValues ↔
        quotientValues "x" = quotientSolution.value.value rationalReading quotientValues) := by
  have hsolved : solve "x" quotientEquation.lhs quotientEquation.rhs = .ok quotientSolution := by
    decide +kernel
  have hfolds : ∀ f ∈ quotientEquation.folds .baseline, f.Exact rationalReading := by
    decide +kernel
  have htrace : Traces "x" .baseline quotientMoves quotientSolution.derivation := by
    decide +kernel
  have hsafe : ∀ m ∈ quotientMoves, m.Safe .baseline rationalReading quotientValues := by
    decide +kernel
  exact ⟨hsolved, hfolds, htrace, hsafe,
    (solve_keeps_solutions hsolved hfolds).2 quotientMoves htrace hsafe⟩

end Rearrange

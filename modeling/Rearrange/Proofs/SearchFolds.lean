import Rearrange.Proofs.Moves
import Rearrange.Proofs.SearchOutcome

namespace Rearrange

namespace Search

def folds (target : String) (rules : RuleSet) : (budget : Nat) → Search → List Fold
  | 0, _ => []
  | budget + 1, s =>
    match s.queue.pop with
    | none => []
    | some (index, job, rest) =>
      match job.value? target with
      | some _ => []
      | none =>
        job.successorFolds target rules ++
          folds target rules budget
            ((job.successors target rules).foldl (offer index) (s.taking index job rest))

variable {target : String} {rules : RuleSet} {s t : Search}

theorem foldl_offer_grows (parent : Nat) (js : List Job) (s : Search) :
    s.queue.Grows (js.foldl (offer parent) s).queue := by
  induction js generalizing s with
  | nil => exact fun _ _ ha => ha
  | cons j js ih => exact fun i a ha => ih _ i a (offer_grows parent s j i a ha)

theorem Expands.grows (h : s.Expands target rules t) : s.queue.Grows t.queue := by
  cases h with
  | @intro index job rest hpop hvalue =>
    intro i a ha
    rw [← (JobQueue.pop_eq_some hpop).2.2.1] at ha
    exact foldl_offer_grows index _ (s.taking index job rest) i a ha

theorem ExpandsIn.grows {n : Nat} (h : ExpandsIn target rules n s t) : s.queue.Grows t.queue := by
  induction h with
  | refl => exact fun _ _ ha => ha
  | step hs _ ih => exact fun i a ha => ih i a (hs.grows i a ha)

theorem Expands.folds_eq (h : s.Expands target rules t) (budget : Nat) :
    ∃ a, s.queue.admissions[s.queue.popped]? = some a ∧
      s.folds target rules (budget + 1) =
        a.job.successorFolds target rules ++ t.folds target rules budget := by
  cases h with
  | @intro index job rest hpop hvalue =>
    obtain ⟨rfl, ⟨a, ha, rfl⟩, -⟩ := JobQueue.pop_eq_some hpop
    refine ⟨a, ha, ?_⟩
    rw [folds, hpop]
    simp only [hvalue]

theorem ExpandsIn.mem_folds {n budget i : Nat} {a : Admission} {f : Fold}
    (h : ExpandsIn target rules n s t) (hn : n ≤ budget) (hlow : s.queue.popped ≤ i)
    (hhigh : i < s.queue.popped + n) (ha : t.queue.admissions[i]? = some a)
    (hf : f ∈ a.job.successorFolds target rules) : f ∈ s.folds target rules budget := by
  induction h generalizing budget with
  | refl => omega
  | @step n s t u hs hsteps ih =>
    obtain ⟨budget, rfl⟩ : ∃ b, budget = b + 1 := ⟨budget - 1, by omega⟩
    obtain ⟨b, hb, hfolds⟩ := hs.folds_eq budget
    rw [hfolds, List.mem_append]
    rcases Nat.lt_or_eq_of_le hlow with hlow | rfl
    · have hpopped := hs.popped
      exact Or.inr (ih (by omega) (by omega) (by omega) ha)
    · have hlater := hsteps.grows _ b (hs.grows _ b hb)
      cases Option.some.inj (hlater.symm.trans ha)
      exact Or.inl hf

theorem Layered.line_isChain {root : Job} {n i : Nat} {js : List Job}
    (h : s.Layered target rules root n) (hl : s.queue.Line i js) :
    js.IsChain fun j k => k ∈ j.successors target rules ∧
      ∃ (p : Nat) (a : Admission), p < i ∧ s.queue.admissions[p]? = some a ∧ a.job = j := by
  induction hl with
  | root => exact List.isChain_singleton _
  | @child i p j js hi hp ih =>
    have hpi := h.parentsBefore i j p hi
    obtain ⟨r, b, hr, -, -, hb, hs⟩ := h.child i _ (by omega) hi
    cases Option.some.inj hr
    refine List.isChain_append.mpr ⟨ih.imp ?_, List.isChain_singleton j, ?_⟩
    · rintro k l ⟨hkl, q, a, hq, ha⟩
      exact ⟨hkl, q, a, by omega, ha⟩
    · intro k hk l hl
      cases Option.some.inj ((hp.getLast? hb).symm.trans hk)
      cases Option.some.inj hl
      exact ⟨hs, p, b, hpi, hb, rfl⟩

end Search

def solveFolds (target : String) (lhs rhs : Expr) (options : Solve.Options := {}) : List Fold :=
  (Job.mk lhs rhs).folds options.rules ++
    Search.folds target options.rules options.budget (.start target options.rules lhs rhs)

theorem solve_derivation_folds {target : String} {lhs rhs : Expr} {options : Solve.Options}
    {solution : Solution} (h : solve target lhs rhs options = .ok solution) :
    solution.derivation.IsChain fun j k => k ∈ j.successors target options.rules ∧
      ∀ f ∈ j.successorFolds target options.rules, f ∈ solveFolds target lhs rhs options := by
  obtain ⟨n, s, t, hn, hsteps, hadm, hl, hline⟩ := solve_eq_ok_expandsIn h
  refine (hl.line_isChain hline).imp ?_
  rintro j k ⟨hk, p, a, hp, ha, rfl⟩
  refine ⟨hk, fun f hf => List.mem_append_right _ ?_⟩
  rw [← hadm] at ha
  have hstart : (Search.start target options.rules lhs rhs).queue.popped = 0 := by
    rw [Search.start_queue]
    rfl
  exact hsteps.mem_folds (Nat.le_of_lt hn) (by omega) (by omega) ha hf

end Rearrange

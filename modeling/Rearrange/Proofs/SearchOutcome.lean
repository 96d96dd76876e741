import Rearrange.Proofs.SearchLayers

namespace Rearrange

open Search

theorem Search.layered_of_expandsIn {target : String} {rules : RuleSet} {lhs rhs : Expr} {n : Nat}
    {s : Search} (h : ExpandsIn target rules n (start target rules lhs rhs) s) :
    s.Layered target rules ((Job.mk lhs rhs).simplify rules) n ∧ s.queue.popped = n ∧
      s.explored = n := by
  have hstart := layered_start target rules lhs rhs
  have hzero : (start target rules lhs rhs).queue.popped = 0 := by
    rw [start_queue]
    rfl
  have hpopped : s.queue.popped = n := by rw [h.popped, hzero, Nat.zero_add]
  have hl := Layered.expandsIn (by rw [hzero]; exact hstart) h
  rw [hpopped] at hl
  exact ⟨hl, hpopped, by rw [h.explored]; exact Nat.zero_add n⟩

/-- A search gives up when its budget is spent or no job is left. Otherwise it ends at the first job
that gives the target a value. -/
theorem solve_cases (target : String) (lhs rhs : Expr) (options : Solve.Options) :
    (∃ (n : Nat) (s : Search), n ≤ options.budget ∧
      s.Layered target options.rules ((Job.mk lhs rhs).simplify options.rules) n ∧
      s.queue.popped = n ∧ (n = options.budget ∨ s.queue.pop = none) ∧
      solve target lhs rhs options = .error (.unsolvable target n)) ∨
    ∃ (n : Nat) (s : Search) (a : Admission) (value : Expr) (js : List Job), n < options.budget ∧
      s.Layered target options.rules ((Job.mk lhs rhs).simplify options.rules) n ∧
      s.queue.admissions[n]? = some a ∧ a.job.value? target = some value ∧ s.queue.Line n js ∧
      (∃ t, ExpandsIn target options.rules n (start target options.rules lhs rhs) t ∧
        t.queue.admissions = s.queue.admissions) ∧
      solve target lhs rhs options =
        if options.rejectNonFinite && !value.isFinite then .error (.nonFinite target value)
        else .ok ⟨value, js, n + 1⟩ := by
  obtain ⟨n, t, hsteps, hend⟩ := run_cases target options.rules options.rejectNonFinite
    options.budget (start target options.rules lhs rhs)
  obtain ⟨hl, hpopped, hexplored⟩ := layered_of_expandsIn hsteps
  have hsolve : solve target lhs rhs options = (run target options.rules options.rejectNonFinite
    options.budget (start target options.rules lhs rhs)).1 := rfl
  rcases hend with ⟨hn, hstop, hrun⟩ | ⟨index, job, rest, value, hn, hpop, hvalue, hrun⟩
  · refine Or.inl ⟨n, t, hn, hl, hpopped, hstop, ?_⟩
    rw [hsolve, hrun, giveUp, hexplored]
  · have htaking := hl.taking hpop
    obtain ⟨hindex, ⟨a, ha, rfl⟩, hadm, -⟩ := JobQueue.pop_eq_some hpop
    obtain rfl := hindex.trans hpopped
    rw [← hadm] at ha
    obtain ⟨js, hjs, hline⟩ :=
      JobQueue.derivation?_eq_some htaking.parentsBefore (JobQueue.lt_admitted ha)
    refine Or.inr ⟨index, _, a, value, js, hn, htaking, ha, hvalue, hline,
      ⟨t, hsteps, hadm.symm⟩, ?_⟩
    rw [hsolve, hrun, finish, hjs, taking, hexplored]
    rfl

variable {target : String} {lhs rhs : Expr} {options : Solve.Options}

theorem solve_eq_ok {solution : Solution} (h : solve target lhs rhs options = .ok solution) :
    ∃ (n : Nat) (s : Search) (a : Admission), n < options.budget ∧
      s.Layered target options.rules ((Job.mk lhs rhs).simplify options.rules) n ∧
      s.queue.admissions[n]? = some a ∧ a.job.value? target = some solution.value ∧
      s.queue.Line n solution.derivation ∧ solution.explored = n + 1 := by
  obtain ⟨n, s, -, -, -, -, hsolve⟩ | ⟨n, s, a, value, js, hn, hl, ha, hvalue, hline, -, hsolve⟩ :=
    solve_cases target lhs rhs options
  · rw [hsolve] at h
    cases h
  · rw [hsolve] at h
    split at h <;> cases h
    exact ⟨n, s, a, hn, hl, ha, hvalue, hline, rfl⟩

theorem solve_eq_ok_expandsIn {solution : Solution}
    (h : solve target lhs rhs options = .ok solution) :
    ∃ (n : Nat) (s t : Search), n < options.budget ∧
      ExpandsIn target options.rules n (start target options.rules lhs rhs) t ∧
      t.queue.admissions = s.queue.admissions ∧
      s.Layered target options.rules ((Job.mk lhs rhs).simplify options.rules) n ∧
      s.queue.Line n solution.derivation := by
  obtain ⟨n, s, -, -, -, -, hsolve⟩ |
      ⟨n, s, a, value, js, hn, hl, -, -, hline, ⟨t, hsteps, hadm⟩, hsolve⟩ :=
    solve_cases target lhs rhs options
  · rw [hsolve] at h
    cases h
  · rw [hsolve] at h
    split at h <;> cases h
    exact ⟨n, s, t, hn, hsteps, hadm, hl, hline⟩

theorem solve_derivation {solution : Solution} (h : solve target lhs rhs options = .ok solution) :
    ∃ j, Job.Path target options.rules ((Job.mk lhs rhs).simplify options.rules) j
        solution.derivation ∧ j.value? target = some solution.value := by
  obtain ⟨n, s, a, -, hl, ha, hvalue, hline, -⟩ := solve_eq_ok h
  exact ⟨a.job, hl.path hline ha, hvalue⟩

theorem solve_eq_unsolvable {name : String} {explored : Nat}
    (h : solve target lhs rhs options = .error (.unsolvable name explored)) :
    ∃ s : Search,
      s.Layered target options.rules ((Job.mk lhs rhs).simplify options.rules) explored ∧
      s.queue.popped = explored ∧ (explored = options.budget ∨ s.queue.pop = none) := by
  obtain ⟨n, s, -, hl, hpopped, hstop, hsolve⟩ | ⟨n, s, a, value, js, -, -, -, -, -, -, hsolve⟩ :=
    solve_cases target lhs rhs options
  · rw [hsolve] at h
    cases h
    exact ⟨s, hl, hpopped, hstop⟩
  · rw [hsolve] at h
    split at h <;> cases h

theorem solve_eq_error {e : SolveError} (h : solve target lhs rhs options = .error e)
    (accept : options.rejectNonFinite = false) : ∃ explored, e = .unsolvable target explored := by
  obtain ⟨n, s, -, -, -, -, hsolve⟩ | ⟨n, s, a, value, js, -, -, -, -, -, -, hsolve⟩ :=
    solve_cases target lhs rhs options
  · rw [hsolve] at h
    cases h
    exact ⟨n, rfl⟩
  · rw [hsolve, accept, Bool.false_and, if_neg Bool.false_ne_true] at h
    cases h

end Rearrange

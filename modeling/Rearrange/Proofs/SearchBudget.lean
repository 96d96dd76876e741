import Rearrange.Proofs.SearchOutcome

namespace Rearrange

def SearchEvent.isExploring : SearchEvent → Bool
  | exploring .. => true
  | _ => false

/-- How many jobs are taken out while the events happen. -/
def explorations (events : List SearchEvent) : Nat := events.countP SearchEvent.isExploring

theorem explorations_cons (e : SearchEvent) (es : List SearchEvent) :
    explorations (e :: es) = explorations es + if e.isExploring then 1 else 0 :=
  List.countP_cons

namespace Search

variable {target : String} {rules : RuleSet} {s t u : Search}

theorem ExpandsIn.run_eq {n : Nat} (h : ExpandsIn target rules n s t) (reject : Bool)
    (budget : Nat) :
    run target rules reject (n + budget) s = run target rules reject budget t := by
  induction h with
  | refl => rw [Nat.zero_add]
  | step hs _ ih => rw [Nat.add_right_comm, hs.run_eq, ih]

/-- Between `s` and `t`, `n` jobs were taken out, and nothing was struck from the record. -/
def Records (n : Nat) (s t : Search) : Prop :=
  s.events <:+ t.events ∧ explorations t.events = explorations s.events + n

theorem Records.trans {m n : Nat} (hs : Records m s t) (ht : Records n t u) :
    Records (m + n) s u :=
  ⟨hs.1.trans ht.1, by rw [ht.2, hs.2, Nat.add_assoc]⟩

theorem records_offer (parent : Nat) (s : Search) (j : Job) : Records 0 s (s.offer parent j) := by
  unfold offer
  split
  next => exact ⟨List.suffix_cons _ _, explorations_cons _ _⟩
  next => exact ⟨List.suffix_rfl, rfl⟩

theorem records_foldl_offer (parent : Nat) (js : List Job) (s : Search) :
    Records 0 s (js.foldl (offer parent) s) := by
  induction js generalizing s with
  | nil => exact ⟨List.suffix_rfl, rfl⟩
  | cons j js ih => exact (records_offer parent s j).trans (ih _)

theorem records_taking (s : Search) (index : Nat) (job : Job) (rest : JobQueue) :
    Records 1 s (s.taking index job rest) :=
  ⟨List.suffix_cons _ _, explorations_cons _ _⟩

theorem Expands.records (h : s.Expands target rules t) : Records 1 s t := by
  cases h with
  | @intro index job rest hpop hvalue =>
    exact (records_taking s index job rest).trans (records_foldl_offer index _ _)

theorem ExpandsIn.records {n : Nat} (h : ExpandsIn target rules n s t) : Records n s t := by
  induction h with
  | refl => exact ⟨List.suffix_rfl, rfl⟩
  | @step n s t u hs _ ih =>
    rw [Nat.add_comm]
    exact hs.records.trans ih

theorem run_events (target : String) (rules : RuleSet) (reject : Bool) (budget : Nat)
    (s : Search) : s.events <:+ (run target rules reject budget s).2 := by
  obtain ⟨n, t, hsteps, ⟨-, -, hrun⟩ | ⟨index, job, rest, value, -, -, -, hrun⟩⟩ :=
    run_cases target rules reject budget s
  · rw [hrun]
    exact hsteps.records.1.trans (List.suffix_cons _ _)
  · rw [hrun]
    exact (hsteps.records.trans (records_taking t index job rest)).1.trans (List.suffix_cons _ _)

end Search

open Search

/-- The trace of a search takes out at most `budget` jobs, counts them in its outcome, and ends in
a failure only if as many were taken out or none is left. -/
structure WithinBudget (budget : Nat) (trace : Except SolveError Solution × List SearchEvent) :
    Prop where
  explorations_le : explorations trace.2 ≤ budget
  solved : ∀ s, trace.1 = .ok s → s.explored = explorations trace.2
  gaveUp : ∀ name explored, trace.1 = .error (.unsolvable name explored) →
    explored = explorations trace.2 ∧ (explored = budget ∨
      ∃ admitted, trace.2.getLast? = some (.gaveUp name explored admitted 0))

section

variable {target : String} {lhs rhs : Expr} {rules : RuleSet} {reject : Bool} {t : Search}
  {budget n : Nat} (h : ExpandsIn target rules n (start target rules lhs rhs) t)

include h

theorem explorations_of_expandsIn : explorations t.events = n ∧ t.explored = n := by
  have hstart : explorations (start target rules lhs rhs).events = 0 := rfl
  exact ⟨by rw [h.records.2, hstart, Nat.zero_add], by rw [h.explored]; exact Nat.zero_add n⟩

theorem withinBudget_giveUp (hn : n ≤ budget) (hstop : n = budget ∨ t.queue.pop = none) :
    WithinBudget budget ((t.giveUp target).1, (t.giveUp target).2.reverse) := by
  obtain ⟨hevents, hexplored⟩ := explorations_of_expandsIn h
  have hcount : explorations (t.giveUp target).2.reverse = n := by
    rw [explorations, List.countP_reverse, ← hevents]
    exact explorations_cons _ _
  refine ⟨by rw [hcount]; exact hn, ?_, ?_⟩
  · intro solution hok
    cases hok
  · intro name explored herror
    cases herror
    refine ⟨hexplored.trans hcount.symm, ?_⟩
    rcases hstop with hspent | hpop
    · exact Or.inl (hexplored.trans hspent)
    · refine Or.inr ⟨t.queue.admitted, ?_⟩
      have hpending : t.queue.pending = 0 := by
        have hsum := t.queue.popped_add_pending
        rw [JobQueue.pop_eq_none_iff.mp hpop] at hsum
        omega
      simp [giveUp, hpending]

theorem withinBudget_finish (hn : n < budget) (index : Nat) (job : Job) (rest : JobQueue)
    (value : Expr) :
    WithinBudget budget (((t.taking index job rest).finish target reject index value).1,
      ((t.taking index job rest).finish target reject index value).2.reverse) := by
  obtain ⟨hevents, hexplored⟩ := explorations_of_expandsIn h
  have hcount : explorations
      ((t.taking index job rest).finish target reject index value).2.reverse = n + 1 := by
    rw [explorations, List.countP_reverse, ← hevents]
    exact (records_taking t index job rest).2
  refine ⟨by rw [hcount]; exact hn, ?_, ?_⟩
  · intro solution hok
    unfold finish at hok
    simp only at hok
    split at hok <;> cases hok
    rw [hcount, ← hexplored]
    rfl
  · intro name explored herror
    unfold finish at herror
    simp only at herror
    split at herror <;> cases herror

end

/-- A search stays within its budget. What it records before it stops is where the record of a
search with a larger budget begins, and unless the whole budget was spent in vain, the larger budget
makes no difference. -/
theorem solve_budget (target : String) (lhs rhs : Expr) (rules : RuleSet) (reject : Bool)
    {n m : Nat} (h : n ≤ m) :
    WithinBudget n (solveTraced target lhs rhs ⟨n, rules, reject⟩) ∧
      (solveTraced target lhs rhs ⟨n, rules, reject⟩).2.dropLast <+:
        (solveTraced target lhs rhs ⟨m, rules, reject⟩).2 ∧
      ((∀ name, (solveTraced target lhs rhs ⟨n, rules, reject⟩).1 ≠
          .error (.unsolvable name n)) →
        solveTraced target lhs rhs ⟨m, rules, reject⟩ =
          solveTraced target lhs rhs ⟨n, rules, reject⟩) := by
  have htrace (budget : Nat) : solveTraced target lhs rhs ⟨budget, rules, reject⟩ =
      ((run target rules reject budget (start target rules lhs rhs)).1,
        (run target rules reject budget (start target rules lhs rhs)).2.reverse) := rfl
  rw [htrace n, htrace m]
  obtain ⟨k, t, hsteps, ⟨hk, hstop, hrun⟩ | ⟨index, job, rest, value, hk, hpop, hvalue, hrun⟩⟩ :=
    run_cases target rules reject n (start target rules lhs rhs)
  all_goals
    -- The larger budget is spent on the same expansions first.
    have hlonger : run target rules reject m (start target rules lhs rhs) =
        run target rules reject (m - k) t := by
      rw [← hsteps.run_eq reject (m - k), Nat.add_sub_of_le (by omega)]
    rw [hrun, hlonger]
  · have hevents : (t.giveUp target).2.reverse.dropLast = t.events.reverse := by simp [giveUp]
    refine ⟨withinBudget_giveUp hsteps hk hstop, ?_, fun hvain => ?_⟩
    · rw [hevents]
      exact List.reverse_prefix.mpr (run_events target rules reject (m - k) t)
    · have hexplored := (explorations_of_expandsIn hsteps).2
      have hpop : t.queue.pop = none := by
        refine hstop.resolve_left fun hspent => hvain target ?_
        rw [← hspent, ← hexplored]
        rfl
      rw [run_of_pop_eq_none hpop]
  · have hsame : run target rules reject (m - k) t =
        (t.taking index job rest).finish target reject index value := by
      rw [show m - k = m - k - 1 + 1 by omega, run_of_value? hpop hvalue]
    rw [hsame]
    exact ⟨withinBudget_finish hsteps hk index job rest value, List.dropLast_prefix _, fun _ => rfl⟩

/-- `x + 1 = 2` says nothing about `z`, and 18 jobs are enough to find out. -/
theorem solve_budget_absent :
    18 ≤ 2 ^ 64 - 1 ∧
      solve "z" (.var "x" + .const 1) (.const 2) ⟨2 ^ 64 - 1, .baseline, true⟩ =
        .error (.unsolvable "z" 17) := by
  have hshort : (solveTraced "z" (.var "x" + .const 1) (.const 2) ⟨18, .baseline, true⟩).1 =
      .error (.unsolvable "z" 17) := by
    decide +kernel
  have hle : 18 ≤ 2 ^ 64 - 1 := by norm_num
  have hlong := (solve_budget "z" (.var "x" + .const 1) (.const 2) .baseline true hle).2.2 (by
    rw [hshort]
    simp)
  refine ⟨hle, ?_⟩
  rw [solve, hlong, hshort]

end Rearrange

import Rearrange.Proofs.QueueRuns
import Rearrange.Proofs.SearchBudget

namespace Rearrange

namespace SearchEvent

def isDuplicate : SearchEvent → Bool
  | duplicate .. => true
  | _ => false

def taken? : SearchEvent → Option (Nat × Job)
  | exploring index job => some (index, job)
  | _ => none

end SearchEvent

theorem explorations_eq_length (es : List SearchEvent) :
    explorations es = (es.filterMap SearchEvent.taken?).length := by
  rw [List.length_filterMap_eq_countP, explorations]
  refine List.countP_congr fun e _ => ?_
  cases e <;> rfl

/-- A job that was taken out, and its successors, each with whether it was admitted. -/
structure Turn where
  index : Nat
  job : Job
  candidates : List (Job × Bool)

namespace Turn

def admitted (t : Turn) : List Job := (t.candidates.filter Prod.snd).map Prod.fst

def skipped (t : Turn) : List Job := (t.candidates.filter fun c => !c.2).map Prod.fst

def admissions (t : Turn) : List Admission := t.admitted.map fun j => ⟨j, some t.index⟩

def records (t : Turn) : List SearchEvent :=
  .exploring t.index t.job :: t.skipped.map .duplicate

theorem countP_records (t : Turn) :
    t.records.countP SearchEvent.isDuplicate = t.skipped.length := by
  have hall : (t.skipped.map SearchEvent.duplicate).countP SearchEvent.isDuplicate =
      (t.skipped.map SearchEvent.duplicate).length := by
    refine List.countP_eq_length.mpr fun e he => ?_
    obtain ⟨j, -, rfl⟩ := List.mem_map.mp he
    rfl
  rw [records, List.countP_cons_of_neg Bool.false_ne_true, hall, List.length_map]

theorem length_candidates (t : Turn) :
    t.candidates.length = t.admissions.length + t.records.countP SearchEvent.isDuplicate := by
  rw [countP_records, admissions, admitted, skipped, List.length_map, List.length_map,
    List.length_map, ← List.countP_eq_length_filter, ← List.countP_eq_length_filter,
    List.length_eq_countP_add_countP Prod.snd]
  simp

theorem filterMap_records (t : Turn) :
    t.records.filterMap SearchEvent.taken? = [(t.index, t.job)] := by
  have hnone : (t.skipped.map SearchEvent.duplicate).filterMap SearchEvent.taken? = [] := by
    refine List.filterMap_eq_nil_iff.mpr fun e he => ?_
    obtain ⟨j, -, rfl⟩ := List.mem_map.mp he
    rfl
  rw [records, List.filterMap_cons, hnone]
  rfl

end Turn

namespace JobQueue

variable {q r : JobQueue} {i : Nat} {j : Job}

theorem grows_of_append {as : List Admission}
    (h : r.admissions.toList = q.admissions.toList ++ as) : q.Grows r := by
  intro i a ha
  rw [← Array.getElem?_toList] at ha ⊢
  rw [h]
  exact List.getElem?_append_left (List.getElem?_eq_some_iff.mp ha).1 ▸ ha

theorem Grows.hasSeen (h : q.Grows r) (hj : q.hasSeen j = true) : r.hasSeen j = true := by
  obtain ⟨i, a, ha, heq⟩ := hasSeen_iff.mp hj
  exact hasSeen_iff.mpr ⟨i, a, h i a ha, heq⟩

theorem Grows.job? (h : q.Grows r) (hj : q.job? i = some j) : r.job? i = some j := by
  obtain ⟨a, ha, rfl⟩ := job?_eq_some.mp hj
  exact job?_eq_some.mpr ⟨a, h i a ha, rfl⟩

end JobQueue

namespace Search

variable {target : String} {rules : RuleSet} {root : Job} {s t : Search} {ts : List Turn}

theorem exists_candidates (index : Nat) (job : Job) (js : List Job) (s : Search) :
    ∃ cs, cs.map Prod.fst = js ∧
      (js.foldl (offer index) s).queue.admissions.toList =
          s.queue.admissions.toList ++ (Turn.mk index job cs).admissions ∧
        (js.foldl (offer index) s).events.reverse =
            s.events.reverse ++ (Turn.mk index job cs).skipped.map .duplicate ∧
          ∀ j ∈ (Turn.mk index job cs).skipped,
            (js.foldl (offer index) s).queue.hasSeen j = true := by
  induction js generalizing s with
  | nil => exact ⟨[], rfl, (List.append_nil _).symm, (List.append_nil _).symm, nofun⟩
  | cons j js ih =>
    obtain ⟨cs, rfl, hadm, hevents, hskipped⟩ := ih (s.offer index j)
    have hgrows := JobQueue.grows_of_append hadm
    cases hseen : s.queue.hasSeen j with
    | true =>
      have hoffer : s.offer index j = { s with events := .duplicate j :: s.events } := if_pos hseen
      refine ⟨(j, false) :: cs, rfl, ?_, ?_, fun k hk => ?_⟩
      · rw [List.foldl_cons, hadm, hoffer]
        rfl
      · rw [List.foldl_cons, hevents, hoffer, List.reverse_cons, List.append_assoc]
        rfl
      · obtain rfl | hk := List.mem_cons.mp hk
        · refine hgrows.hasSeen ?_
          rw [hoffer]
          exact hseen
        · exact hskipped k hk
    | false =>
      have hqueue : (s.offer index j).queue = s.queue.add j (some index) := by
        rw [offer_queue, hseen, if_neg Bool.false_ne_true]
      have hrecord : (s.offer index j).events = s.events := by
        rw [offer, hseen, if_neg Bool.false_ne_true]
      refine ⟨(j, true) :: cs, rfl, ?_, ?_, hskipped⟩
      · rw [List.foldl_cons, hadm, hqueue, JobQueue.add, Array.toList_push, List.append_assoc]
        rfl
      · rw [List.foldl_cons, hevents, hrecord]
        rfl

/-- The turns account for all that was admitted and put on record from the start at `root`. -/
structure Accounts (target : String) (rules : RuleSet) (root : Job) (s : Search) (ts : List Turn) :
    Prop where
  indices : ts.map Turn.index = List.range s.explored
  popped : s.queue.popped = s.explored
  taken : ∀ t ∈ ts, s.queue.job? t.index = some t.job
  candidates : ∀ t ∈ ts, t.candidates.map Prod.fst = t.job.successors target rules
  skipped : ∀ t ∈ ts, ∀ j ∈ t.skipped, s.queue.hasSeen j = true
  admissions : s.queue.admissions.toList = ⟨root, none⟩ :: ts.flatMap Turn.admissions
  events : s.events.reverse = .started target root :: ts.flatMap Turn.records

theorem accounts_start (target : String) (rules : RuleSet) (lhs rhs : Expr) :
    (start target rules lhs rhs).Accounts target rules ((Job.mk lhs rhs).simplify rules) [] where
  indices := rfl
  popped := by rw [start_queue]; rfl
  taken := nofun
  candidates := nofun
  skipped := nofun
  admissions := by rw [start_queue]; rfl
  events := rfl

theorem Accounts.expands (h : s.Accounts target rules root ts) (he : s.Expands target rules t) :
    ∃ x, t.Accounts target rules root (ts ++ [x]) := by
  have hpopped := he.popped
  have hexplored := he.explored
  cases he with
  | @intro index job rest hpop hvalue =>
    obtain ⟨rfl, ⟨a, ha, rfl⟩, hrest, -⟩ := JobQueue.pop_eq_some hpop
    obtain ⟨cs, hcs, hadm, hevents, hskipped⟩ := exists_candidates s.queue.popped a.job
      (a.job.successors target rules) (s.taking s.queue.popped a.job rest)
    rw [show (s.taking s.queue.popped a.job rest).queue.admissions = _ from hrest] at hadm
    have hgrows := JobQueue.grows_of_append hadm
    refine ⟨⟨s.queue.popped, a.job, cs⟩, ?_, ?_, ?_, ?_, ?_, ?_, ?_⟩
    · rw [List.map_append, h.indices, hexplored, List.range_succ, h.popped]
      rfl
    · rw [hpopped, hexplored, h.popped]
    · intro x hx
      obtain hx | hx := List.mem_append.mp hx
      · exact hgrows.job? (h.taken x hx)
      · obtain rfl := List.mem_singleton.mp hx
        exact hgrows.job? (JobQueue.job?_eq_some.mpr ⟨a, ha, rfl⟩)
    · intro x hx
      obtain hx | hx := List.mem_append.mp hx
      · exact h.candidates x hx
      · obtain rfl := List.mem_singleton.mp hx
        exact hcs
    · intro x hx j hj
      obtain hx | hx := List.mem_append.mp hx
      · exact hgrows.hasSeen (h.skipped x hx j hj)
      · obtain rfl := List.mem_singleton.mp hx
        exact hskipped j hj
    · rw [hadm, h.admissions, List.flatMap_append, List.flatMap_singleton]
      rfl
    · rw [hevents, taking, List.reverse_cons, h.events, List.flatMap_append,
        List.flatMap_singleton, List.append_assoc]
      rfl

theorem Accounts.expandsIn {n : Nat} (h : s.Accounts target rules root ts)
    (he : ExpandsIn target rules n s t) : ∃ us, t.Accounts target rules root us := by
  induction he generalizing ts with
  | refl => exact ⟨ts, h⟩
  | step hs _ ih =>
    obtain ⟨x, hx⟩ := h.expands hs
    exact ih hx

theorem Accounts.count (h : s.Accounts target rules root ts) :
    (ts.map fun t => t.candidates.length).sum + 1 =
      s.queue.admitted + s.events.countP SearchEvent.isDuplicate := by
  have hadmitted : s.queue.admitted = (ts.map fun t => t.admissions.length).sum + 1 := by
    rw [JobQueue.admitted, ← Array.length_toList, h.admissions, List.length_cons,
      List.length_flatMap]
  have hduplicates : s.events.countP SearchEvent.isDuplicate =
      (ts.map fun t => t.records.countP SearchEvent.isDuplicate).sum := by
    rw [← List.countP_reverse, h.events, List.countP_cons_of_neg Bool.false_ne_true,
      List.countP_flatMap]
    rfl
  have hsum : (ts.map fun t => t.candidates.length).sum =
      (ts.map fun t => t.admissions.length).sum +
        (ts.map fun t => t.records.countP SearchEvent.isDuplicate).sum := by
    simp only [Turn.length_candidates, List.sum_map_add]
  omega

theorem Accounts.balance (h : s.Accounts target rules root ts) :
    s.queue.admitted = s.explored + s.queue.pending := by
  rw [← h.popped, s.queue.popped_add_pending]

theorem Accounts.taken_events (h : s.Accounts target rules root ts) :
    s.events.reverse.filterMap SearchEvent.taken? = ts.map fun t => (t.index, t.job) := by
  rw [h.events, List.filterMap_cons_none rfl, List.filterMap_flatMap]
  simp only [Turn.filterMap_records]
  exact List.flatMap_pure_eq_map _ _

theorem Accounts.taken_indices (h : s.Accounts target rules root ts) :
    (s.events.reverse.filterMap SearchEvent.taken?).map Prod.fst = List.range s.explored := by
  rw [h.taken_events, List.map_map, ← h.indices]
  rfl

theorem Accounts.job_of_taken (h : s.Accounts target rules root ts) :
    ∀ p ∈ s.events.reverse.filterMap SearchEvent.taken?, s.queue.job? p.1 = some p.2 := by
  rw [h.taken_events]
  intro p hp
  obtain ⟨t, ht, rfl⟩ := List.mem_map.mp hp
  exact h.taken t ht

theorem exists_accounts {n : Nat} {lhs rhs : Expr}
    (h : ExpandsIn target rules n (start target rules lhs rhs) s) :
    s.explored = n ∧ ∃ ts, s.Accounts target rules ((Job.mk lhs rhs).simplify rules) ts :=
  ⟨(layered_of_expandsIn h).2.2, (accounts_start target rules lhs rhs).expandsIn h⟩

theorem exists_last_head (target : String) (lhs rhs : Expr) (options : Solve.Options) :
    ∃ n s, n ≤ options.budget ∧
      ExpandsIn target options.rules n (start target options.rules lhs rhs) s ∧
      ((solveTraced target lhs rhs options).2 =
          s.events.reverse ++ [.gaveUp target n s.queue.admitted s.queue.pending] ∨
        ∃ job value, n < options.budget ∧ s.queue.job? n = some job ∧
          (solveTraced target lhs rhs options).2 =
            s.events.reverse ++ [.exploring n job, .isolated target (n + 1) value]) := by
  obtain ⟨n, s, hsteps, hend⟩ := run_cases target options.rules options.rejectNonFinite
    options.budget (start target options.rules lhs rhs)
  have hexplored : s.explored = n := (layered_of_expandsIn hsteps).2.2
  have htrace : (solveTraced target lhs rhs options).2 = (run target options.rules
    options.rejectNonFinite options.budget (start target options.rules lhs rhs)).2.reverse := rfl
  obtain ⟨hn, -, hrun⟩ | ⟨index, job, rest, value, hn, hpop, -, hrun⟩ := hend
  · refine ⟨n, s, hn, hsteps, Or.inl ?_⟩
    rw [htrace, hrun, giveUp, hexplored, List.reverse_cons]
  · obtain ⟨hindex, ⟨a, ha, rfl⟩, -, -⟩ := JobQueue.pop_eq_some hpop
    obtain rfl : index = n := hindex.trans (layered_of_expandsIn hsteps).2.1
    have hjob : s.queue.job? index = some a.job := JobQueue.job?_eq_some.mpr ⟨a, ha, rfl⟩
    refine ⟨index, s, Nat.le_of_lt hn, hsteps, Or.inr ⟨a.job, value, hn, hjob, ?_⟩⟩
    rw [htrace, hrun, finish, taking, hexplored, List.reverse_cons, List.reverse_cons,
      List.append_assoc]
    rfl

end Search

open Search

/-- Every candidate of a search is accounted for. Wherever another job may be taken out, the queue
holds the jobs admitted and not explored yet, and each successor of an explored job is admitted with
it as its parent or on record once as a duplicate. Jobs are taken out in the order of their indices,
once each. -/
theorem search_accounts (target : String) (lhs rhs : Expr) (options : Solve.Options) :
    (∀ n s, ExpandsIn target options.rules n (start target options.rules lhs rhs) s →
        s.queue.admitted = s.explored + s.queue.pending ∧ s.queue.Distinct ∧
          ∃ ts, ts.length = n ∧ s.Accounts target options.rules
              ((Job.mk lhs rhs).simplify options.rules) ts ∧
            (ts.map fun t => t.candidates.length).sum + 1 =
              s.queue.admitted + s.events.countP SearchEvent.isDuplicate) ∧
      ∃ n s, n ≤ options.budget ∧
        ExpandsIn target options.rules n (start target options.rules lhs rhs) s ∧
        ((solveTraced target lhs rhs options).2 =
            s.events.reverse ++ [.gaveUp target n s.queue.admitted s.queue.pending] ∨
          ∃ job value, n < options.budget ∧ s.queue.job? n = some job ∧
            (solveTraced target lhs rhs options).2 =
              s.events.reverse ++ [.exploring n job, .isolated target (n + 1) value]) ∧
        ((solveTraced target lhs rhs options).2.filterMap SearchEvent.taken?).map Prod.fst =
            List.range (explorations (solveTraced target lhs rhs options).2) ∧
          ∀ p ∈ (solveTraced target lhs rhs options).2.filterMap SearchEvent.taken?,
            s.queue.job? p.1 = some p.2 := by
  constructor
  · intro n s h
    obtain ⟨hexplored, ts, hts⟩ := exists_accounts h
    refine ⟨hts.balance, (layered_of_expandsIn h).1.distinct, ts, ?_, hts, hts.count⟩
    rw [← List.length_map Turn.index, hts.indices, List.length_range, hexplored]
  obtain ⟨n, s, hn, hsteps, hend⟩ := exists_last_head target lhs rhs options
  refine ⟨n, s, hn, hsteps, hend, ?_⟩
  obtain ⟨rfl, ts, hts⟩ := exists_accounts hsteps
  suffices h : ∃ m, ((solveTraced target lhs rhs options).2.filterMap SearchEvent.taken?).map
      Prod.fst = List.range m ∧
        ∀ p ∈ (solveTraced target lhs rhs options).2.filterMap SearchEvent.taken?,
          s.queue.job? p.1 = some p.2 by
    obtain ⟨m, hindices, hjobs⟩ := h
    refine ⟨?_, hjobs⟩
    rw [explorations_eq_length, ← List.length_map Prod.fst, hindices, List.length_range]
  obtain htrace | ⟨job, value, -, hjob, htrace⟩ := hend
  · -- nothing is taken out any more
    rw [htrace, List.filterMap_append, List.filterMap_cons_none rfl, List.filterMap_nil,
      List.append_nil]
    exact ⟨s.explored, hts.taken_indices, hts.job_of_taken⟩
  · have htaken : [SearchEvent.exploring s.explored job, .isolated target (s.explored + 1)
        value].filterMap SearchEvent.taken? = [(s.explored, job)] := rfl
    rw [htrace, List.filterMap_append, htaken]
    refine ⟨s.explored + 1, ?_, fun p hp => ?_⟩
    · rw [List.map_append, hts.taken_indices, List.range_succ, List.map_singleton]
    · obtain hp | hp := List.mem_append.mp hp
      · exact hts.job_of_taken p hp
      · obtain rfl := List.mem_singleton.mp hp
        exact hjob

/-- `x + x = 2` -/
def doubledVar : Job := ⟨.var "x" + .var "x", .const 2⟩

/-- In `x + x = 2` both summands give the same successor, so one duplicate is on record. -/
theorem search_accounts_doubledVar :
    (∃ (s : Search) (ts : List Turn),
        ExpandsIn "x" .baseline 1 (start "x" .baseline doubledVar.lhs doubledVar.rhs) s ∧
          s.queue.admitted = s.explored + s.queue.pending ∧ ts.length = 1 ∧
            (ts.map fun t => t.candidates.length).sum + 1 =
              s.queue.admitted + s.events.countP SearchEvent.isDuplicate ∧
            s.events.countP SearchEvent.isDuplicate = 1) ∧
      ∃ (s : Search) (p : Nat × Job),
        p ∈ (solveTraced "x" doubledVar.lhs doubledVar.rhs ⟨1, .baseline, false⟩).2.filterMap
            SearchEvent.taken? ∧
          s.queue.job? p.1 = some p.2 := by
  obtain ⟨hheads, n, s, -, -, -, hindices, htaken⟩ :=
    search_accounts "x" doubledVar.lhs doubledVar.rhs ⟨1, .baseline, false⟩
  constructor
  · have hfailed : (run "x" .baseline false 1
        (start "x" .baseline doubledVar.lhs doubledVar.rhs)).1 = .error (.unsolvable "x" 1) := by
      decide +kernel
    have hduplicate : (run "x" .baseline false 1
        (start "x" .baseline doubledVar.lhs doubledVar.rhs)).2.countP SearchEvent.isDuplicate =
          1 := by
      decide +kernel
    obtain ⟨k, t, hsteps, ⟨-, -, hrun⟩ | ⟨index, job, rest, value, -, -, -, hrun⟩⟩ :=
      run_cases "x" .baseline false 1 (start "x" .baseline doubledVar.lhs doubledVar.rhs)
    · rw [hrun, giveUp, (explorations_of_expandsIn hsteps).2] at hfailed
      cases hfailed
      rw [hrun, giveUp, List.countP_cons_of_neg Bool.false_ne_true] at hduplicate
      obtain ⟨hbalance, -, ts, hlength, -, hcount⟩ := hheads 1 t hsteps
      exact ⟨t, ts, hsteps, hbalance, hlength, hcount, hduplicate⟩
    · rw [hrun] at hfailed
      cases hfailed
  · have hone : explorations
        (solveTraced "x" doubledVar.lhs doubledVar.rhs ⟨1, .baseline, false⟩).2 = 1 := by
      decide +kernel
    rw [hone] at hindices
    obtain ⟨p, ps, hps, -⟩ := List.map_eq_cons_iff.mp hindices
    have hmem : p ∈ (solveTraced "x" doubledVar.lhs doubledVar.rhs
        ⟨1, .baseline, false⟩).2.filterMap SearchEvent.taken? := by
      rw [hps]
      exact List.mem_cons_self ..
    exact ⟨s, p, hmem, htaken p hmem⟩

end Rearrange

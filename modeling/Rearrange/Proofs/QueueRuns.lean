import Rearrange.Proofs.QueueLineage

namespace Rearrange

inductive QueueCall where
  | push (job : Job) (parent : Option Nat)
  | pop
  | hasSeen (job : Job)

inductive QueueEvent where
  | pushed (job : Job) (admitted : Bool)
  | popped (index : Option Nat)
  | asked (job : Job) (seen : Bool)
deriving DecidableEq

namespace QueueEvent

def admission? : QueueEvent → Option Job
  | pushed j true => some j
  | _ => none

def index? : QueueEvent → Option Nat
  | popped i => i
  | _ => none

def admissions (events : List QueueEvent) : List Job := events.filterMap admission?

def indices (events : List QueueEvent) : List Nat := events.filterMap index?

end QueueEvent

open QueueEvent

theorem Job.beq_mirrored {j k : Job} (h : (j == k.mirrored) = true) : (k == j.mirrored) = true :=
  beq_iff.mpr ((beq_iff.mp h).symm.imp Expr.equal_symm Expr.equal_symm)

namespace JobQueue

def call (q : JobQueue) : QueueCall → QueueEvent × JobQueue
  | .push j parent => (.pushed j (q.push j parent).1, (q.push j parent).2)
  | .pop =>
    match q.pop with
    | some (i, _, rest) => (.popped (some i), rest)
    | none => (.popped none, q)
  | .hasSeen j => (.asked j (q.hasSeen j), q)

def run (q : JobQueue) : List QueueCall → List QueueEvent × JobQueue
  | [] => ([], q)
  | c :: cs => ((q.call c).1 :: ((q.call c).2.run cs).1, ((q.call c).2.run cs).2)

def jobs (q : JobQueue) : List Job := q.admissions.toList.map Admission.job

theorem job?_eq (q : JobQueue) (i : Nat) : q.job? i = q.jobs[i]? := by
  simp [job?, jobs]

theorem jobs_add (q : JobQueue) (j : Job) (parent : Option Nat) :
    (q.add j parent).jobs = q.jobs ++ [j] := by
  simp [jobs, add]

theorem job?_eq_some {q : JobQueue} {i : Nat} {j : Job} :
    q.job? i = some j ↔ ∃ a, q.admissions[i]? = some a ∧ a.job = j :=
  Option.map_eq_some_iff

theorem push_of_hasSeen {q : JobQueue} {j : Job} (h : q.hasSeen j = true) (parent : Option Nat) :
    q.push j parent = (false, q) := if_pos h

theorem push_of_fresh {q : JobQueue} {j : Job} (h : q.hasSeen j = false) (parent : Option Nat) :
    q.push j parent = (true, q.add j parent) := if_neg (Bool.eq_false_iff.mp h)

/-- The queue holds what a list of events says: the jobs admitted, and in the frontier the indices
that have not been given out. -/
structure Follows (q : JobQueue) (events : List QueueEvent) : Prop where
  jobs : q.jobs = QueueEvent.admissions events
  frontier : indices events ++ q.frontier.toList = List.range q.admitted
  distinct : q.Distinct

theorem follows_empty : empty.Follows [] :=
  ⟨rfl, rfl, fun _ _ _ _ _ ha => absurd (lt_admitted ha) (Nat.not_lt_zero _)⟩

variable {q : JobQueue} {events : List QueueEvent}

theorem Follows.idle (h : q.Follows events) {e : QueueEvent} (hadmission : e.admission? = none)
    (hindex : e.index? = none) : q.Follows (events ++ [e]) := by
  refine ⟨?_, ?_, h.distinct⟩
  · rw [QueueEvent.admissions, List.filterMap_append, List.filterMap_cons_none hadmission,
      List.filterMap_nil, List.append_nil]
    exact h.jobs
  · rw [indices, List.filterMap_append, List.filterMap_cons_none hindex, List.filterMap_nil,
      List.append_nil]
    exact h.frontier

theorem Follows.push (h : q.Follows events) (j : Job) (parent : Option Nat) :
    (q.push j parent).2.Follows (events ++ [.pushed j (q.push j parent).1]) := by
  cases hseen : q.hasSeen j with
  | true => rw [push_of_hasSeen hseen]; exact h.idle rfl rfl
  | false =>
    rw [push_of_fresh hseen]
    refine ⟨?_, ?_, h.distinct.add hseen⟩
    · rw [jobs_add, h.jobs, QueueEvent.admissions, QueueEvent.admissions, List.filterMap_append]
      rfl
    · have hindices : indices (events ++ [.pushed j true]) = indices events :=
        (List.filterMap_append ..).trans (List.append_nil _)
      rw [hindices, frontier_add, admitted_add, List.range_succ, ← h.frontier, List.append_assoc]

theorem Follows.pop {rest : JobQueue} {i : Nat} {j : Job} (h : q.Follows events)
    (hpop : q.pop = some (i, j, rest)) : rest.Follows (events ++ [.popped (some i)]) := by
  obtain ⟨hfrontier, -, hadm⟩ := frontier_of_pop hpop
  refine ⟨?_, ?_, ?_⟩
  · rw [JobQueue.jobs, hadm, QueueEvent.admissions, List.filterMap_append]
    exact h.jobs.trans (List.append_nil _).symm
  · have hindices : indices (events ++ [.popped (some i)]) = indices events ++ [i] :=
      List.filterMap_append ..
    have hadmitted : rest.admitted = q.admitted := congrArg Array.size hadm
    rw [hindices, hadmitted, ← h.frontier, hfrontier, List.append_assoc]
    rfl
  · unfold Distinct
    rw [hadm]
    exact h.distinct

theorem Follows.call (h : q.Follows events) (c : QueueCall) :
    (q.call c).2.Follows (events ++ [(q.call c).1]) := by
  cases c with
  | push j parent => exact h.push j parent
  | hasSeen j => exact h.idle rfl rfl
  | pop =>
    unfold JobQueue.call
    cases hpop : q.pop with
    | none => exact h.idle rfl rfl
    | some p => exact h.pop hpop

theorem Follows.run (h : q.Follows events) (calls : List QueueCall) :
    (q.run calls).2.Follows (events ++ (q.run calls).1) := by
  induction calls generalizing q events with
  | nil => rw [JobQueue.run, List.append_nil]; exact h
  | cons c cs ih =>
    have hrest := ih (h.call c)
    rwa [List.append_assoc] at hrest

theorem jobs_prefix_call (q : JobQueue) (c : QueueCall) : q.jobs <+: (q.call c).2.jobs := by
  cases c with
  | push j parent =>
    change q.jobs <+: (q.push j parent).2.jobs
    cases hseen : q.hasSeen j with
    | true => rw [push_of_hasSeen hseen]
    | false => rw [push_of_fresh hseen, jobs_add]; exact List.prefix_append _ _
  | hasSeen j => exact List.prefix_rfl
  | pop =>
    unfold call
    cases hpop : q.pop with
    | none => exact List.prefix_rfl
    | some p =>
      obtain ⟨-, -, hadm, -⟩ := pop_eq_some hpop
      simp only [jobs, hadm]
      exact List.prefix_rfl

theorem jobs_prefix_run (q : JobQueue) (calls : List QueueCall) :
    q.jobs <+: (q.run calls).2.jobs := by
  induction calls generalizing q with
  | nil => exact List.prefix_rfl
  | cons c cs ih => exact (q.jobs_prefix_call c).trans (ih _)

structure Accounts (q : JobQueue) (events : List QueueEvent) : Prop where
  distinct : ∀ i k j l, i ≠ k → q.job? i = some j → q.job? k = some l →
    (j == l) = false ∧ (j == l.mirrored) = false
  hasSeen_iff : ∀ j, q.hasSeen j = true ↔
    ∃ i k, q.job? i = some k ∧ ((k == j) = true ∨ (k == j.mirrored) = true)
  push_fresh : ∀ j parent, (q.push j parent).1 = !q.hasSeen j
  push_rejected : ∀ j parent, (q.push j parent).1 = false → (q.push j parent).2 = q
  job_eq : ∀ i, q.job? i = (QueueEvent.admissions events)[i]?
  indices_eq : indices events = List.range (indices events).length
  frontier_eq : indices events ++ q.frontier.toList = List.range q.admitted
  pop_eq : q.pop.map Prod.fst = if q.pending = 0 then none else some (indices events).length
  admitted_eq : q.admitted = (indices events).length + q.pending

theorem Distinct.job? (h : q.Distinct) {i k : Nat} {j l : Job} (hne : i ≠ k)
    (hj : q.job? i = some j) (hl : q.job? k = some l) :
    (j == l) = false ∧ (j == l.mirrored) = false := by
  obtain ⟨a, ha, rfl⟩ := job?_eq_some.mp hj
  obtain ⟨b, hb, rfl⟩ := job?_eq_some.mp hl
  rcases Nat.lt_or_gt_of_ne hne with hlt | hlt
  · exact h i k a b hlt ha hb
  · obtain ⟨heq, hmirrored⟩ := h k i b a hlt hb ha
    exact ⟨Bool.eq_false_iff.mpr fun hab => Bool.eq_false_iff.mp heq (Job.beq_symm hab),
      Bool.eq_false_iff.mpr fun hab => Bool.eq_false_iff.mp hmirrored (Job.beq_mirrored hab)⟩

theorem Follows.indices_eq (h : q.Follows events) : indices events = List.range q.popped := by
  have hlength := congrArg List.length h.frontier
  rw [List.length_append, length_frontier, List.length_range] at hlength
  have hsum := q.popped_add_pending
  have htake := List.prefix_iff_eq_take.mp ⟨_, h.frontier⟩
  rwa [List.take_range, show min (indices events).length q.admitted = q.popped by omega] at htake

theorem Follows.accounts (h : q.Follows events) : q.Accounts events := by
  have hlength : (indices events).length = q.popped := by rw [h.indices_eq, List.length_range]
  have hpending := q.popped_add_pending
  refine ⟨fun i k j l => h.distinct.job?, fun j => ?_, fun j parent => ?_, fun j parent => ?_,
    fun i => ?_, ?_, h.frontier, ?_, ?_⟩
  · rw [hasSeen_iff]
    constructor
    · rintro ⟨i, a, ha, hseen⟩
      exact ⟨i, a.job, job?_eq_some.mpr ⟨a, ha, rfl⟩, hseen⟩
    · rintro ⟨i, k, hk, hseen⟩
      obtain ⟨a, ha, rfl⟩ := job?_eq_some.mp hk
      exact ⟨i, a, ha, hseen⟩
  · cases hseen : q.hasSeen j with
    | true => rw [push_of_hasSeen hseen]; rfl
    | false => rw [push_of_fresh hseen]; rfl
  · intro hrejected
    cases hseen : q.hasSeen j with
    | true => rw [push_of_hasSeen hseen]
    | false => rw [push_of_fresh hseen] at hrejected; cases hrejected
  · rw [job?_eq, h.jobs]
  · rw [hlength, h.indices_eq]
  · rw [hlength]
    cases hpop : q.pop with
    | none =>
      have := pop_eq_none_iff.mp hpop
      rw [if_pos (by omega)]
      rfl
    | some p =>
      have hne : q.pop ≠ none := by rw [hpop]; simp
      rw [if_neg fun hzero => hne (pop_eq_none_iff.mpr (by omega)), Option.map_some,
        (pop_eq_some hpop).1]
  · rw [hlength, hpending]

end JobQueue

/-- After any calls on an empty queue, what the queue answers is told by the events so far, and no
further calls change a job that was admitted. -/
theorem queue_accounts (calls : List QueueCall) :
    (JobQueue.empty.run calls).2.Accounts (JobQueue.empty.run calls).1 ∧
      ∀ more i j, (JobQueue.empty.run calls).2.job? i = some j →
        ((JobQueue.empty.run calls).2.run more).2.job? i = some j := by
  have hfollows := JobQueue.follows_empty.run calls
  rw [List.nil_append] at hfollows
  refine ⟨hfollows.accounts, fun more i j hj => ?_⟩
  rw [JobQueue.job?_eq] at hj ⊢
  obtain ⟨js, hjs⟩ := JobQueue.jobs_prefix_run (JobQueue.empty.run calls).2 more
  rw [← hjs, List.getElem?_append_left (List.getElem?_eq_some_iff.mp hj).1, hj]

/-- `x = 0` -/
def zeroJob : Job := ⟨.var "x", .const 0⟩

/-- `0 / 0 = x` -/
def undefinedJob : Job := ⟨.const (0 / 0), .var "x"⟩

def zeroJobCalls : List QueueCall :=
  [.push zeroJob none, .push ⟨.const (-0), .var "x"⟩ (some 0), .pop, .push undefinedJob (some 0),
    .hasSeen undefinedJob.mirrored, .pop, .pop]

theorem queue_accounts_zeroJob :
    (JobQueue.empty.run zeroJobCalls).1 =
        [.pushed zeroJob true, .pushed ⟨.const (-0), .var "x"⟩ false, .popped (some 0),
          .pushed undefinedJob true, .asked undefinedJob.mirrored true, .popped (some 1),
          .popped none] ∧
      (∃ i k, (JobQueue.empty.run zeroJobCalls).2.job? i = some k ∧
        ((k == zeroJob.mirrored) = true ∨ (k == zeroJob.mirrored.mirrored) = true)) ∧
      (JobQueue.empty.run zeroJobCalls).2.job? 1 = some undefinedJob ∧
      ((JobQueue.empty.run zeroJobCalls).2.run zeroJobCalls).2.job? 1 = some undefinedJob := by
  have hjob : (JobQueue.empty.run zeroJobCalls).2.job? 1 = some undefinedJob := by decide +kernel
  obtain ⟨haccounts, hkeeps⟩ := queue_accounts zeroJobCalls
  exact ⟨by decide +kernel, (haccounts.hasSeen_iff zeroJob.mirrored).mp (by decide +kernel), hjob,
    hkeeps zeroJobCalls 1 undefinedJob hjob⟩

end Rearrange

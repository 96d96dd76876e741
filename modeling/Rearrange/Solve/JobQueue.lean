import Rearrange.Solve.Fifo
import Rearrange.Solve.Job
import Std.Data.TreeSet.Lemmas

namespace Rearrange

/-- An admitted job and the index of the job it came from. -/
structure Admission where
  job : Job
  parent : Option Nat

/-- The jobs admitted so far. The `frontier` holds the indices of those that wait to be explored,
which are the last ones. -/
structure JobQueue where
  admissions : Array Admission := #[]
  frontier : Fifo Nat := {}
  seen : Std.TreeSet (List Nat) := ∅
  frontier_suffix : frontier.toList <:+ List.range admissions.size := by simp
  mem_seen : ∀ k, k ∈ seen ↔ ∃ a ∈ admissions, a.job.key = k := by simp

namespace JobQueue

def empty : JobQueue := {}

def admitted (q : JobQueue) : Nat := q.admissions.size

def pending (q : JobQueue) : Nat := q.frontier.length

def hasSeen (q : JobQueue) (j : Job) : Bool :=
  q.seen.contains j.key || q.seen.contains j.mirrored.key

def add (q : JobQueue) (j : Job) (parent : Option Nat) : JobQueue where
  admissions := q.admissions.push ⟨j, parent⟩
  frontier := q.frontier.pushBack q.admissions.size
  seen := q.seen.insert j.key
  frontier_suffix := by
    obtain ⟨taken, h⟩ := q.frontier_suffix
    rw [Array.size_push, List.range_succ, ← h, Fifo.toList_pushBack, List.append_assoc]
    exact List.suffix_append _ _
  mem_seen k := by
    simp only [Std.TreeSet.mem_insert, Std.LawfulEqCmp.compare_eq_iff_eq, q.mem_seen,
      Array.mem_push]
    grind

/-- Offers a job that came from the one at index `parent`, and tells whether it was admitted. -/
def push (q : JobQueue) (j : Job) (parent : Option Nat) : Bool × JobQueue :=
  if q.hasSeen j then (false, q) else (true, q.add j parent)

/-- Takes out the job that waits longest. Gives its index, the job, and the rest of the queue. -/
def pop (q : JobQueue) : Option (Nat × Job × JobQueue) :=
  match h : q.frontier.popFront with
  | none => none
  | some (i, frontier) =>
    have hsuffix : i :: frontier.toList <:+ List.range q.admissions.size :=
      Fifo.toList_of_popFront h ▸ q.frontier_suffix
    have hi : i < q.admissions.size := List.mem_range.mp (hsuffix.mem List.mem_cons_self)
    some (i, q.admissions[i].job,
      { q with frontier, frontier_suffix := (List.suffix_cons _ _).trans hsuffix })

def job? (q : JobQueue) (i : Nat) : Option Job := (q.admissions[i]?).map Admission.job

/-- The jobs from `i` back to one without a parent, in at most `n` steps. -/
def traceBack (q : JobQueue) : Nat → Nat → Option (List Job)
  | 0, _ => none
  | n + 1, i =>
    match q.admissions[i]? with
    | none => none
    | some a =>
      match a.parent with
      | none => some [a.job]
      | some p => (q.traceBack n p).map (a.job :: ·)

/-- The chain of jobs that leads to the one with the given index, if every job on it exists. A
chain visits no index twice. -/
def derivation? (q : JobQueue) (i : Nat) : Option (List Job) :=
  (q.traceBack q.admitted i).map List.reverse

end JobQueue

end Rearrange

import Rearrange.Proofs.ExprEquality
import Rearrange.Solve.JobQueue

namespace Rearrange

namespace JobQueue

theorem hasSeen_iff {q : JobQueue} {j : Job} :
    q.hasSeen j = true ↔
      ∃ (i : Nat) (a : Admission), q.admissions[i]? = some a ∧
        ((a.job == j) = true ∨ (a.job == j.mirrored) = true) := by
  have hkey (k : Job) : q.seen.contains k.key = true ↔
      ∃ (i : Nat) (a : Admission), q.admissions[i]? = some a ∧ (a.job == k) = true := by
    rw [Std.TreeSet.contains_iff_mem, q.mem_seen]
    simp only [Job.key_eq_iff, Array.mem_iff_getElem?]
    constructor
    · rintro ⟨a, ⟨i, hi⟩, ha⟩
      exact ⟨i, a, hi, ha⟩
    · rintro ⟨i, a, hi, ha⟩
      exact ⟨a, ⟨i, hi⟩, ha⟩
  rw [hasSeen, Bool.or_eq_true, hkey, hkey]
  constructor
  · rintro (⟨i, a, hi, ha⟩ | ⟨i, a, hi, ha⟩)
    · exact ⟨i, a, hi, Or.inl ha⟩
    · exact ⟨i, a, hi, Or.inr ha⟩
  · rintro ⟨i, a, hi, ha | ha⟩
    · exact Or.inl ⟨i, a, hi, ha⟩
    · exact Or.inr ⟨i, a, hi, ha⟩

theorem admitted_add (q : JobQueue) (j : Job) (parent : Option Nat) :
    (q.add j parent).admitted = q.admitted + 1 := Array.size_push ..

theorem frontier_add (q : JobQueue) (j : Job) (parent : Option Nat) :
    (q.add j parent).frontier.toList = q.frontier.toList ++ [q.admitted] :=
  Fifo.toList_pushBack ..

theorem length_frontier (q : JobQueue) : q.frontier.toList.length = q.pending :=
  q.frontier.length_toList

/-- The number of jobs that have been taken out. -/
def popped (q : JobQueue) : Nat := q.admitted - q.pending

theorem popped_add_pending (q : JobQueue) : q.popped + q.pending = q.admitted := by
  have hle := q.frontier_suffix.length_le
  rw [length_frontier, List.length_range] at hle
  exact Nat.sub_add_cancel hle

theorem popped_le (q : JobQueue) : q.popped ≤ q.admitted := Nat.sub_le _ _

theorem popped_add_job (q : JobQueue) (j : Job) (parent : Option Nat) :
    (q.add j parent).popped = q.popped := by
  have hpending : (q.add j parent).pending = q.pending + 1 := by
    rw [← length_frontier, frontier_add, List.length_append, length_frontier, List.length_singleton]
  rw [popped, admitted_add, hpending, Nat.add_sub_add_right, popped]

/-- The waiting jobs are those from the first that was not taken out to the last admitted. -/
theorem frontier_eq (q : JobQueue) : q.frontier.toList = List.range' q.popped q.pending := by
  have hdrop := List.suffix_iff_eq_drop.mp q.frontier_suffix
  rw [length_frontier, List.length_range] at hdrop
  change q.frontier.toList = (List.range q.admitted).drop q.popped at hdrop
  have hsum := q.popped_add_pending
  have hpending : q.admitted - q.popped = q.pending := by omega
  rw [hdrop, List.range_eq_range', List.drop_range', Nat.zero_add, Nat.mul_one, hpending]

theorem pop_eq_none_iff_frontier {q : JobQueue} : q.pop = none ↔ q.frontier.toList = [] := by
  rw [← Fifo.popFront_eq_none_iff]
  unfold pop
  split
  next h => simp [h]
  next h => simp [h]

theorem pop_eq_none_iff {q : JobQueue} : q.pop = none ↔ q.popped = q.admitted := by
  have hsum := q.popped_add_pending
  rw [pop_eq_none_iff_frontier, ← List.length_eq_zero_iff, length_frontier]
  omega

theorem frontier_of_pop {q rest : JobQueue} {i : Nat} {j : Job} (h : q.pop = some (i, j, rest)) :
    q.frontier.toList = i :: rest.frontier.toList ∧ q.job? i = some j ∧
      rest.admissions = q.admissions := by
  unfold pop at h
  split at h
  next => cases h
  next k frontier hfront =>
    cases h
    have hlist := Fifo.toList_of_popFront hfront
    refine ⟨hlist, ?_, rfl⟩
    rw [job?, Array.getElem?_eq_getElem, Option.map_some]

theorem pop_eq_some {q rest : JobQueue} {i : Nat} {j : Job} (h : q.pop = some (i, j, rest)) :
    i = q.popped ∧ (∃ a, q.admissions[i]? = some a ∧ a.job = j) ∧
      rest.admissions = q.admissions ∧ rest.popped = q.popped + 1 := by
  obtain ⟨hlist, hjob, hadm⟩ := frontier_of_pop h
  have hpending : q.pending = rest.pending + 1 := by
    have := congrArg List.length hlist
    rwa [length_frontier, List.length_cons, length_frontier] at this
  have hadmitted : rest.admitted = q.admitted := congrArg Array.size hadm
  have hsum := q.popped_add_pending
  have hrest := rest.popped_add_pending
  refine ⟨?_, Option.map_eq_some_iff.mp hjob, hadm, by omega⟩
  rw [q.frontier_eq, hpending, List.range'_succ] at hlist
  exact (List.cons.inj hlist).1.symm

theorem getElem?_add {q : JobQueue} {j : Job} {parent : Option Nat} {i : Nat} {a : Admission} :
    (q.add j parent).admissions[i]? = some a ↔
      q.admissions[i]? = some a ∨ i = q.admitted ∧ a = ⟨j, parent⟩ := by
  change (q.admissions.push ⟨j, parent⟩)[i]? = some a ↔ _
  rw [Array.getElem?_push]
  split
  next hi =>
    subst hi
    simp [admitted, eq_comm]
  next hi => simp [admitted, hi]

theorem lt_admitted {q : JobQueue} {i : Nat} {a : Admission} (h : q.admissions[i]? = some a) :
    i < q.admitted :=
  (Array.getElem?_eq_some_iff.mp h).1

/-- No two admitted jobs are equal or mirrors of each other. -/
def Distinct (q : JobQueue) : Prop :=
  ∀ (i k : Nat) (a b : Admission), i < k → q.admissions[i]? = some a → q.admissions[k]? = some b →
    (a.job == b.job) = false ∧ (a.job == b.job.mirrored) = false

theorem Distinct.add {q : JobQueue} {j : Job} {parent : Option Nat} (h : q.Distinct)
    (fresh : q.hasSeen j = false) : (q.add j parent).Distinct := by
  intro i k a b hik ha hb
  rcases getElem?_add.mp ha with ha | ⟨hi, -⟩
  · rcases getElem?_add.mp hb with hb | ⟨-, rfl⟩
    · exact h i k a b hik ha hb
    · -- Otherwise the new job would have counted as seen.
      constructor
      · refine Bool.eq_false_iff.mpr fun hab => Bool.eq_false_iff.mp fresh ?_
        exact hasSeen_iff.mpr ⟨i, a, ha, Or.inl hab⟩
      · refine Bool.eq_false_iff.mpr fun hab => Bool.eq_false_iff.mp fresh ?_
        exact hasSeen_iff.mpr ⟨i, a, ha, Or.inr hab⟩
  · have hk : k < (q.add j parent).admitted := lt_admitted hb
    simp only [JobQueue.add, admitted, Array.size_push] at hk hi
    omega

/-- `q.Line i js` says that `js` are the jobs along the parent links to the one at index `i`, the
job without a parent first. -/
inductive Line (q : JobQueue) : Nat → List Job → Prop
  | root {i : Nat} {j : Job} : q.admissions[i]? = some ⟨j, none⟩ → Line q i [j]
  | child {i p : Nat} {j : Job} {js : List Job} :
    q.admissions[i]? = some ⟨j, some p⟩ → Line q p js → Line q i (js ++ [j])

def ParentsBefore (q : JobQueue) : Prop :=
  ∀ (i : Nat) (j : Job) (p : Nat), q.admissions[i]? = some ⟨j, some p⟩ → p < i

theorem traceBack_eq_some {q : JobQueue} (before : q.ParentsBefore) :
    ∀ n i, i < n → i < q.admitted → ∃ js, q.traceBack n i = some js.reverse ∧ q.Line i js := by
  intro n
  induction n with
  | zero => intro i hi; omega
  | succ n ih =>
    intro i hi hadm
    obtain ⟨⟨j, parent⟩, ha⟩ : ∃ a, q.admissions[i]? = some a :=
      ⟨_, Array.getElem?_eq_getElem hadm⟩
    cases parent with
    | none => exact ⟨[j], by simp [traceBack, ha], .root ha⟩
    | some p =>
      have hp := before i j p ha
      obtain ⟨js, ht, hl⟩ := ih p (by omega) (by omega)
      exact ⟨js ++ [j], by simp [traceBack, ha, ht], .child ha hl⟩

theorem derivation?_eq_some {q : JobQueue} (before : q.ParentsBefore) {i : Nat}
    (h : i < q.admitted) : ∃ js, q.derivation? i = some js ∧ q.Line i js := by
  obtain ⟨js, ht, hl⟩ := traceBack_eq_some before q.admitted i h h
  exact ⟨js, by simp [derivation?, ht], hl⟩

theorem Line.ne_nil {q : JobQueue} {i : Nat} {js : List Job} (h : q.Line i js) : js ≠ [] := by
  cases h <;> simp

theorem Line.getLast? {q : JobQueue} {i : Nat} {js : List Job} {a : Admission} (h : q.Line i js)
    (ha : q.admissions[i]? = some a) : js.getLast? = some a.job := by
  cases h with
  | root hi => cases Option.some.inj (hi.symm.trans ha); rfl
  | child hi hl => cases Option.some.inj (hi.symm.trans ha); exact List.getLast?_concat

theorem Line.mem {q : JobQueue} {i : Nat} {js : List Job} (before : q.ParentsBefore)
    (h : q.Line i js) : ∀ j ∈ js, ∃ (k : Nat) (a : Admission),
      k ≤ i ∧ q.admissions[k]? = some a ∧ a.job = j := by
  induction h with
  | root hi =>
    intro j hj
    exact ⟨_, _, Nat.le_refl _, hi, (List.mem_singleton.mp hj).symm⟩
  | @child i p j js hi hl ih =>
    intro k hk
    rcases List.mem_append.mp hk with hk | hk
    · obtain ⟨l, a, hle, ha, hj⟩ := ih k hk
      have := before i j p hi
      exact ⟨l, a, by omega, ha, hj⟩
    · exact ⟨i, _, Nat.le_refl _, hi, (List.mem_singleton.mp hk).symm⟩

theorem Line.length_le {q : JobQueue} {i : Nat} {js : List Job} (before : q.ParentsBefore)
    (h : q.Line i js) : js.length ≤ i + 1 := by
  induction h with
  | root => simp
  | @child i p j js hi hl ih =>
    have := before i j p hi
    rw [List.length_append, List.length_singleton]
    omega

theorem Line.pairwise {q : JobQueue} {i : Nat} {js : List Job} (before : q.ParentsBefore)
    (distinct : q.Distinct) (h : q.Line i js) :
    js.Pairwise fun j k => (j == k) = false ∧ (j == k.mirrored) = false := by
  induction h with
  | root => exact List.pairwise_singleton _ _
  | @child i p j js hi hl ih =>
    refine List.pairwise_append.mpr ⟨ih, List.pairwise_singleton _ _, ?_⟩
    intro k hk l hl'
    obtain rfl := List.mem_singleton.mp hl'
    obtain ⟨m, a, hm, ha, rfl⟩ := hl.mem before k hk
    have := before i l p hi
    exact distinct m i a _ (by omega) ha hi

end JobQueue

end Rearrange

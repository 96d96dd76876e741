import Rearrange.Proofs.Paths

namespace Rearrange

namespace JobQueue

/-- `c` or its mirror was admitted before all successors of the job at index `i` had been offered. -/
def Offered (q : JobQueue) (i : Nat) (c : Job) : Prop :=
  ∃ (k : Nat) (b : Admission), q.admissions[k]? = some b ∧
    ((b.job == c) = true ∨ (b.job == c.mirrored) = true) ∧ ∀ p, b.parent = some p → p ≤ i

def Grows (q r : JobQueue) : Prop :=
  ∀ (i : Nat) (a : Admission), q.admissions[i]? = some a → r.admissions[i]? = some a

theorem Offered.grows {q r : JobQueue} {i : Nat} {c : Job} (h : q.Offered i c) (hg : q.Grows r) :
    r.Offered i c := by
  obtain ⟨k, b, hb, heq, hp⟩ := h
  exact ⟨k, b, hg k b hb, heq, hp⟩

end JobQueue

namespace Search

/-- The invariant of a search of which the first `n` jobs have been expanded. -/
structure Layered (target : String) (rules : RuleSet) (root : Job) (n : Nat) (s : Search) :
    Prop where
  first : s.queue.admissions[0]? = some ⟨root, none⟩
  child : ∀ (i : Nat) (a : Admission), 0 < i → s.queue.admissions[i]? = some a →
    ∃ (p : Nat) (b : Admission), a.parent = some p ∧ p < i ∧ p < s.queue.popped ∧
      s.queue.admissions[p]? = some b ∧ a.job ∈ b.job.successors target rules
  ordered : ∀ (i k p r : Nat) (a b : Admission), i ≤ k → s.queue.admissions[i]? = some a →
    s.queue.admissions[k]? = some b → a.parent = some p → b.parent = some r → p ≤ r
  distinct : s.queue.Distinct
  expanded : ∀ (i : Nat) (a : Admission), i < n → s.queue.admissions[i]? = some a →
    a.job.value? target = none ∧ ∀ c ∈ a.job.successors target rules, s.queue.Offered i c

section

variable {target : String} {rules : RuleSet} {root : Job} {n : Nat} {s : Search}

theorem Layered.parentsBefore (h : s.Layered target rules root n) : s.queue.ParentsBefore := by
  intro i j p hi
  rcases Nat.eq_zero_or_pos i with rfl | hpos
  · cases Option.some.inj (h.first.symm.trans hi)
  · obtain ⟨r, b, hp, hlt, -⟩ := h.child i _ hpos hi
    cases Option.some.inj hp
    exact hlt

theorem Layered.parent_lt_popped (h : s.Layered target rules root n) {i p : Nat} {a : Admission}
    (ha : s.queue.admissions[i]? = some a) (hp : a.parent = some p) : p < s.queue.popped := by
  rcases Nat.eq_zero_or_pos i with rfl | hpos
  · cases Option.some.inj (h.first.symm.trans ha)
    cases hp
  · obtain ⟨r, b, hr, -, hlt, -⟩ := h.child i a hpos ha
    cases Option.some.inj (hr.symm.trans hp)
    exact hlt

theorem start_queue (target : String) (rules : RuleSet) (lhs rhs : Expr) :
    (start target rules lhs rhs).queue =
      JobQueue.empty.add ((Job.mk lhs rhs).simplify rules) none := by
  have hs : JobQueue.empty.hasSeen ((Job.mk lhs rhs).simplify rules) = false := by
    rw [Bool.eq_false_iff, ne_eq, JobQueue.hasSeen_iff]
    rintro ⟨i, a, hi, -⟩
    exact absurd (JobQueue.lt_admitted hi) (Nat.not_lt_zero i)
  simp [start, JobQueue.push, hs]

theorem layered_start (target : String) (rules : RuleSet) (lhs rhs : Expr) :
    (start target rules lhs rhs).Layered target rules ((Job.mk lhs rhs).simplify rules) 0 := by
  have hadm (i : Nat) (a : Admission) :
      (start target rules lhs rhs).queue.admissions[i]? = some a ↔
        i = 0 ∧ a = ⟨(Job.mk lhs rhs).simplify rules, none⟩ := by
    rw [start_queue, JobQueue.getElem?_add]
    constructor
    · rintro (hi | hi)
      · exact absurd (JobQueue.lt_admitted hi) (Nat.not_lt_zero i)
      · exact hi
    · exact Or.inr
  refine ⟨(hadm _ _).mpr ⟨rfl, rfl⟩, ?_, ?_, ?_, ?_⟩
  · intro i a hpos ha
    have := ((hadm i a).mp ha).1
    omega
  · intro i k p r a b _ ha _ hp _
    obtain ⟨-, rfl⟩ := (hadm i a).mp ha
    cases hp
  · intro i k a b hik ha hb
    have := ((hadm i a).mp ha).1
    have := ((hadm k b).mp hb).1
    omega
  · intro i a hi
    omega

theorem offer_grows (parent : Nat) (s : Search) (c : Job) :
    s.queue.Grows (s.offer parent c).queue := by
  intro i a ha
  rw [offer_queue]
  split
  · exact ha
  · exact JobQueue.getElem?_add.mpr (Or.inl ha)

theorem Layered.offer {a : Admission} {c : Job} (h : s.Layered target rules root n)
    (hn : s.queue.popped = n + 1) (ha : s.queue.admissions[n]? = some a)
    (hc : c ∈ a.job.successors target rules) :
    (s.offer n c).Layered target rules root n := by
  have hgrows := offer_grows n s c
  have hpopped := offer_popped n s c
  have hexpanded : ∀ (i : Nat) (a : Admission), i < n →
      (s.offer n c).queue.admissions[i]? = some a → a.job.value? target = none ∧
        ∀ d ∈ a.job.successors target rules, (s.offer n c).queue.Offered i d := by
    intro i b hi hb
    have hlt : i < s.queue.admitted := by
      have := s.queue.popped_le
      omega
    have hold := hgrows i _ (Array.getElem?_eq_getElem hlt)
    cases Option.some.inj (hold.symm.trans hb)
    obtain ⟨hv, ho⟩ := h.expanded i _ hi (Array.getElem?_eq_getElem hlt)
    exact ⟨hv, fun d hd => (ho d hd).grows hgrows⟩
  cases hseen : s.queue.hasSeen c with
  | true =>
    have hq : (s.offer n c).queue = s.queue := by rw [offer_queue, if_pos hseen]
    refine ⟨?_, ?_, ?_, ?_, hexpanded⟩
    · rw [hq]; exact h.first
    · rw [hq]; exact h.child
    · rw [hq]; exact h.ordered
    · rw [hq]; exact h.distinct
  | false =>
    have hq : (s.offer n c).queue = s.queue.add c (some n) := by
      rw [offer_queue, hseen, if_neg Bool.false_ne_true]
    refine ⟨hgrows 0 _ h.first, ?_, ?_, ?_, hexpanded⟩
    · intro i b hpos hb
      rw [hq] at hb
      rcases JobQueue.getElem?_add.mp hb with hb | ⟨rfl, rfl⟩
      · obtain ⟨p, d, hp, hlt, hpop, hd, hs⟩ := h.child i b hpos hb
        exact ⟨p, d, hp, hlt, by omega, hgrows p d hd, hs⟩
      · have := JobQueue.lt_admitted ha
        exact ⟨n, a, rfl, this, by omega, hgrows n a ha, hc⟩
    · intro i k p r b d hik hb hd hp hr
      rw [hq] at hb hd
      rcases JobQueue.getElem?_add.mp hb with hb | ⟨rfl, rfl⟩
      · rcases JobQueue.getElem?_add.mp hd with hd | ⟨rfl, rfl⟩
        · exact h.ordered i k p r b d hik hb hd hp hr
        · -- The new job came from the last one taken out.
          cases hr
          have := h.parent_lt_popped hb hp
          omega
      · cases hp
        rcases JobQueue.getElem?_add.mp hd with hd | ⟨rfl, rfl⟩
        · have := JobQueue.lt_admitted hd
          omega
        · cases hr
          exact Nat.le_refl n
    · rw [hq]
      exact h.distinct.add hseen

theorem Layered.offered {c : Job} (h : s.Layered target rules root n)
    (hn : s.queue.popped = n + 1) : (s.offer n c).queue.Offered n c := by
  cases hseen : s.queue.hasSeen c with
  | true =>
    rw [offer_queue, if_pos hseen]
    obtain ⟨k, b, hb, heq⟩ := JobQueue.hasSeen_iff.mp hseen
    refine ⟨k, b, hb, heq, fun p hp => ?_⟩
    have := h.parent_lt_popped hb hp
    omega
  | false =>
    rw [offer_queue, hseen, if_neg Bool.false_ne_true]
    refine ⟨_, _, JobQueue.getElem?_add.mpr (Or.inr ⟨rfl, rfl⟩), Or.inl (Job.beq_refl c), ?_⟩
    intro p hp
    cases hp
    exact Nat.le_refl n

theorem Layered.foldl_offer {a : Admission} {cs : List Job}
    (h : s.Layered target rules root n) (hn : s.queue.popped = n + 1)
    (ha : s.queue.admissions[n]? = some a) (hcs : ∀ c ∈ cs, c ∈ a.job.successors target rules) :
    (cs.foldl (Search.offer n) s).Layered target rules root n ∧
      s.queue.Grows (cs.foldl (Search.offer n) s).queue ∧
        ∀ c ∈ cs, (cs.foldl (Search.offer n) s).queue.Offered n c := by
  induction cs generalizing s with
  | nil => exact ⟨h, fun _ _ hi => hi, by simp⟩
  | cons c cs ih =>
    have hgrows := offer_grows n s c
    obtain ⟨hl, hg, ho⟩ := ih (h.offer hn ha (hcs c (by simp))) ((offer_popped n s c).trans hn)
      (hgrows n a ha) fun d hd => hcs d (by simp [hd])
    refine ⟨hl, fun i b hb => hg i b (hgrows i b hb), fun d hd => ?_⟩
    rcases List.mem_cons.mp hd with rfl | hd
    · exact (h.offered hn).grows hg
    · exact ho d hd

theorem Layered.taking {index : Nat} {job : Job} {rest : JobQueue}
    (h : s.Layered target rules root n) (hpop : s.queue.pop = some (index, job, rest)) :
    (s.taking index job rest).Layered target rules root n := by
  obtain ⟨-, -, hadm, hpopped⟩ := JobQueue.pop_eq_some hpop
  refine ⟨?_, ?_, ?_, ?_, ?_⟩ <;>
    simp only [Search.taking, JobQueue.Distinct, JobQueue.Offered, hadm]
  · exact h.first
  · intro i b hpos hb
    obtain ⟨p, d, hp, hlt, hlt', hd⟩ := h.child i b hpos hb
    exact ⟨p, d, hp, hlt, by omega, hd⟩
  · exact h.ordered
  · exact h.distinct
  · exact h.expanded

theorem Layered.expands {t : Search} (h : s.Layered target rules root s.queue.popped)
    (he : s.Expands target rules t) : t.Layered target rules root t.queue.popped := by
  have hpopped := he.popped
  cases he with
  | @intro index job rest hpop hvalue =>
    have htaking := h.taking hpop
    obtain ⟨rfl, ⟨a, ha, rfl⟩, hadm, hrest⟩ := JobQueue.pop_eq_some hpop
    rw [← hadm] at ha
    obtain ⟨hl, hg, ho⟩ := htaking.foldl_offer hrest ha fun c hc => hc
    refine ⟨hl.first, hl.child, hl.ordered, hl.distinct, ?_⟩
    intro i b hi hb
    rw [hpopped] at hi
    rcases Nat.lt_or_eq_of_le (Nat.le_of_lt_succ hi) with hi | rfl
    · exact hl.expanded i b hi hb
    · cases Option.some.inj ((hg _ a ha).symm.trans hb)
      exact ⟨hvalue, ho⟩

theorem Layered.expandsIn {m : Nat} {t : Search} (h : s.Layered target rules root s.queue.popped)
    (he : ExpandsIn target rules m s t) : t.Layered target rules root t.queue.popped := by
  induction he with
  | refl => exact h
  | step hs _ ih => exact ih (h.expands hs)

theorem Layered.path {i : Nat} {js : List Job} {a : Admission}
    (h : s.Layered target rules root n) (hl : s.queue.Line i js)
    (ha : s.queue.admissions[i]? = some a) : Job.Path target rules root a.job js := by
  induction hl generalizing a with
  | @root i j hi =>
    cases Option.some.inj (hi.symm.trans ha)
    rcases Nat.eq_zero_or_pos i with rfl | hpos
    · cases Option.some.inj (h.first.symm.trans hi)
      exact .singleton root
    · obtain ⟨p, b, hp, -⟩ := h.child i _ hpos hi
      cases hp
  | @child i p j js hi hp ih =>
    cases Option.some.inj (hi.symm.trans ha)
    have hpos := h.parentsBefore i j p hi
    obtain ⟨r, b, hr, -, -, hb, hs⟩ := h.child i _ (by omega) hi
    cases Option.some.inj hr
    exact (ih hb).concat hs

theorem Layered.line_length_le {i k : Nat} {js ks : List Job}
    (h : s.Layered target rules root n) (hik : i ≤ k) (hi : s.queue.Line i js)
    (hk : s.queue.Line k ks) : js.length ≤ ks.length := by
  induction hi generalizing k ks with
  | root hi =>
    exact List.length_pos_iff.mpr hk.ne_nil
  | @child i p j js hi hp ih =>
    cases hk with
    | root hk =>
      have hpos := h.parentsBefore i j p hi
      obtain ⟨r, b, hr, -⟩ := h.child k _ (by omega) hk
      cases hr
    | @child _ r l ls hk hr =>
      have := ih (h.ordered i k p r _ _ hik hi hk rfl rfl) hr
      simpa using this

end

end Search

end Rearrange

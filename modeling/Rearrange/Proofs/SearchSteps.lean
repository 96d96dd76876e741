import Rearrange.Proofs.QueueLineage
import Rearrange.Solve

namespace Rearrange

/-- One side is the target, and the other side does not contain it. -/
def Job.Accepted (target : String) (j : Job) : Prop :=
  j.lhs = .var target ∧ j.rhs.mentions target = false ∨
    j.rhs = .var target ∧ j.lhs.mentions target = false

theorem Expr.isVar_iff {name : String} {e : Expr} : e.isVar name = true ↔ e = var name := by
  cases e <;> simp [isVar, asVar?]

theorem Solve.isolated?_eq_some {target : String} {side other e : Expr} :
    isolated? target side other = some e ↔
      side = .var target ∧ other.mentions target = false ∧ other = e := by
  simp [isolated?, Expr.isVar_iff, and_assoc]

theorem Job.value?_eq_or (target : String) (j : Job) :
    j.value? target = (Solve.isolated? target j.lhs j.rhs).or (Solve.isolated? target j.rhs j.lhs) :=
  Option.orElse_eq_or

theorem Job.value?_eq_some {target : String} {j : Job} {e : Expr} (h : j.value? target = some e) :
    e.mentions target = false ∧ (j = ⟨.var target, e⟩ ∨ j = ⟨e, .var target⟩) := by
  obtain ⟨l, r⟩ := j
  rw [value?_eq_or] at h
  rcases Option.or_eq_some_iff.mp h with h | ⟨-, h⟩
  · obtain ⟨rfl, hm, rfl⟩ := Solve.isolated?_eq_some.mp h
    exact ⟨hm, Or.inl rfl⟩
  · obtain ⟨rfl, hm, rfl⟩ := Solve.isolated?_eq_some.mp h
    exact ⟨hm, Or.inr rfl⟩

theorem Job.accepted_of_value? {target : String} {j : Job} {e : Expr}
    (h : j.value? target = some e) : j.Accepted target := by
  obtain ⟨hm, rfl | rfl⟩ := value?_eq_some h
  · exact Or.inl ⟨rfl, hm⟩
  · exact Or.inr ⟨rfl, hm⟩

theorem Job.not_accepted_of_value? {target : String} {j : Job} (h : j.value? target = none) :
    ¬ j.Accepted target := by
  rw [value?_eq_or] at h
  obtain ⟨hl, hr⟩ := Option.or_eq_none_iff.mp h
  rintro (⟨hv, hm⟩ | ⟨hv, hm⟩)
  · rw [Solve.isolated?_eq_some.mpr ⟨hv, hm, rfl⟩] at hl
    cases hl
  · rw [Solve.isolated?_eq_some.mpr ⟨hv, hm, rfl⟩] at hr
    cases hr

namespace Search

def taking (s : Search) (index : Nat) (job : Job) (rest : JobQueue) : Search :=
  ⟨rest, s.explored + 1, .exploring index job :: s.events⟩

/-- `s.Expands target rules t` says that one job is taken out of `s`, gives no value to the target,
and `t` is the search after its successors were offered. -/
inductive Expands (target : String) (rules : RuleSet) (s : Search) : Search → Prop
  | intro {index : Nat} {job : Job} {rest : JobQueue} :
    s.queue.pop = some (index, job, rest) → job.value? target = none →
      Expands target rules s
        ((job.successors target rules).foldl (offer index) (s.taking index job rest))

inductive ExpandsIn (target : String) (rules : RuleSet) : Nat → Search → Search → Prop
  | refl {s : Search} : ExpandsIn target rules 0 s s
  | step {n : Nat} {s t u : Search} :
    s.Expands target rules t → ExpandsIn target rules n t u → ExpandsIn target rules (n + 1) s u

section

variable {target : String} {rules : RuleSet} {s t : Search}

theorem run_of_pop_eq_none (h : s.queue.pop = none) (reject : Bool) (budget : Nat) :
    run target rules reject budget s = s.giveUp target := by
  cases budget with
  | zero => rfl
  | succ budget => rw [run, h]

theorem run_of_value? {index : Nat} {job : Job} {rest : JobQueue}
    {value : Expr}
    (hpop : s.queue.pop = some (index, job, rest)) (hvalue : job.value? target = some value)
    (reject : Bool) (budget : Nat) :
    run target rules reject (budget + 1) s =
      (s.taking index job rest).finish target reject index value := by
  rw [run, hpop]
  simp only [hvalue]
  rfl

theorem Expands.run_eq (h : s.Expands target rules t) (reject : Bool) (budget : Nat) :
    run target rules reject (budget + 1) s = run target rules reject budget t := by
  cases h with
  | intro hpop hvalue =>
    rw [run, hpop]
    simp only [hvalue]
    rfl

end

/-- A run expands jobs until the budget is spent, or no job is left, or a job gives a value to the
target. -/
theorem run_cases (target : String) (rules : RuleSet) (reject : Bool) (budget : Nat) (s : Search) :
    ∃ n t, ExpandsIn target rules n s t ∧
      (n ≤ budget ∧ (n = budget ∨ t.queue.pop = none) ∧
          run target rules reject budget s = t.giveUp target ∨
        ∃ index job rest value, n < budget ∧ t.queue.pop = some (index, job, rest) ∧
          job.value? target = some value ∧ run target rules reject budget s =
            (t.taking index job rest).finish target reject index value) := by
  induction budget generalizing s with
  | zero => exact ⟨0, s, .refl, Or.inl ⟨Nat.le_refl 0, Or.inl rfl, rfl⟩⟩
  | succ budget ih =>
    cases hpop : s.queue.pop with
    | none =>
      exact ⟨0, s, .refl,
        Or.inl ⟨Nat.zero_le _, Or.inr hpop, run_of_pop_eq_none hpop reject _⟩⟩
    | some p =>
      obtain ⟨index, job, rest⟩ := p
      cases hvalue : job.value? target with
      | some value =>
        exact ⟨0, s, .refl, Or.inr ⟨index, job, rest, value, by omega, hpop, hvalue,
          run_of_value? hpop hvalue reject budget⟩⟩
      | none =>
        have hexpands : s.Expands target rules
            ((job.successors target rules).foldl (offer index) (s.taking index job rest)) :=
          .intro hpop hvalue
        obtain ⟨n, t, hsteps, hend⟩ := ih
          ((job.successors target rules).foldl (offer index) (s.taking index job rest))
        refine ⟨n + 1, t, .step hexpands hsteps, ?_⟩
        rw [hexpands.run_eq]
        rcases hend with ⟨hn, hstop, hr⟩ | ⟨i, j, q, v, hn, hp, hv, hr⟩
        · exact Or.inl ⟨by omega, hstop.imp (by omega) id, hr⟩
        · exact Or.inr ⟨i, j, q, v, by omega, hp, hv, hr⟩

theorem offer_queue (parent : Nat) (s : Search) (j : Job) :
    (s.offer parent j).queue =
      if s.queue.hasSeen j then s.queue else s.queue.add j (some parent) := by
  unfold offer
  split
  next => rfl
  next h => simp [JobQueue.push, h]

theorem offer_explored (parent : Nat) (s : Search) (j : Job) :
    (s.offer parent j).explored = s.explored := by
  unfold offer
  split <;> rfl

theorem offer_popped (parent : Nat) (s : Search) (j : Job) :
    (s.offer parent j).queue.popped = s.queue.popped := by
  rw [offer_queue]
  split
  · rfl
  · exact s.queue.popped_add_job j parent

theorem foldl_offer_explored (parent : Nat) (js : List Job) (s : Search) :
    (js.foldl (offer parent) s).explored = s.explored := by
  induction js generalizing s with
  | nil => rfl
  | cons j js ih => rw [List.foldl_cons, ih, offer_explored]

theorem foldl_offer_popped (parent : Nat) (js : List Job) (s : Search) :
    (js.foldl (offer parent) s).queue.popped = s.queue.popped := by
  induction js generalizing s with
  | nil => rfl
  | cons j js ih => rw [List.foldl_cons, ih, offer_popped]

theorem Expands.explored {target : String} {rules : RuleSet} {s t : Search}
    (h : s.Expands target rules t) : t.explored = s.explored + 1 := by
  cases h with
  | intro hpop hvalue => rw [foldl_offer_explored]; rfl

theorem Expands.popped {target : String} {rules : RuleSet} {s t : Search}
    (h : s.Expands target rules t) : t.queue.popped = s.queue.popped + 1 := by
  cases h with
  | intro hpop hvalue =>
    rw [foldl_offer_popped]
    exact (JobQueue.pop_eq_some hpop).2.2.2

theorem ExpandsIn.explored {target : String} {rules : RuleSet} {n : Nat} {s t : Search}
    (h : ExpandsIn target rules n s t) : t.explored = s.explored + n := by
  induction h with
  | refl => rfl
  | step hs hn ih => rw [ih, hs.explored]; omega

theorem ExpandsIn.popped {target : String} {rules : RuleSet} {n : Nat} {s t : Search}
    (h : ExpandsIn target rules n s t) : t.queue.popped = s.queue.popped + n := by
  induction h with
  | refl => rfl
  | step hs hn ih => rw [ih, hs.popped]; omega

end Search

end Rearrange

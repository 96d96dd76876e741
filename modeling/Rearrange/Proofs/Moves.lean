import Rearrange.Proofs.FieldValue
import Rearrange.Solve

namespace Rearrange

/-- One way to undo an operation: the new equation, and what must not be zero. -/
structure Move where
  job : Job
  divisors : List Expr
deriving DecidableEq

/-- What is divided by or multiplied away when the outermost operation is undone, for each way to
undo it in the order of `Solve.rewrite`. -/
def Expr.divisors : Expr → List (List Expr)
  | bin .mul l r => [[r], [l]]
  | bin .div l r => [[r], [l, r]]
  | bin .add _ _ | bin .sub _ _ => [[], []]
  | neg _ | const _ | var _ => [[]]

def Solve.moves (target : String) (side other : Expr) : List Move :=
  List.zipWith Move.mk (rewrite target side other) side.divisors

namespace Job

def moves (target : String) (j : Job) : List Move :=
  Solve.moves target j.lhs j.rhs ++ Solve.moves target j.rhs j.lhs

def folds (rules : RuleSet) (j : Job) : List Fold := j.lhs.folds rules ++ j.rhs.folds rules

def successorFolds (target : String) (rules : RuleSet) (j : Job) : List Fold :=
  (Solve.rewrite target j.lhs j.rhs ++ Solve.rewrite target j.rhs j.lhs).flatMap (folds rules)

def Holds {K : Type*} [Field K] (v : Reading K) (ρ : String → K) (j : Job) : Prop :=
  j.lhs.value v ρ = j.rhs.value v ρ

end Job

theorem Solve.map_job_moves (target : String) (side other : Expr) :
    (moves target side other).map Move.job = rewrite target side other := by
  unfold moves rewrite
  split <;> try rfl
  split <;> rfl

theorem Job.map_job_moves (target : String) (j : Job) :
    (j.moves target).map Move.job =
      Solve.rewrite target j.lhs j.rhs ++ Solve.rewrite target j.rhs j.lhs := by
  rw [moves, List.map_append, Solve.map_job_moves, Solve.map_job_moves]

theorem Job.mem_successors_iff {target : String} {rules : RuleSet} {j k : Job} :
    k ∈ j.successors target rules ↔ ∃ m ∈ j.moves target, m.job.simplify rules = k := by
  rw [successors, ← map_job_moves, List.map_map, List.mem_map]
  rfl

section

variable {K : Type*} [Field K] {v : Reading K} {ρ : String → K}

theorem Solve.holds_of_mem_moves {target : String} {side other : Expr} {m : Move}
    (hm : m ∈ moves target side other) (nonzero : ∀ d ∈ m.divisors, d.value v ρ ≠ 0) :
    m.job.Holds v ρ ↔ side.value v ρ = other.value v ρ := by
  cases side with
  | const c =>
    cases List.mem_singleton.mp hm
    change v.value 0 = other.value v ρ - v.value c ↔ v.value c = other.value v ρ
    rw [v.zero, eq_comm, sub_eq_zero, eq_comm]
  | var n =>
    by_cases hn : n = target
    · simp [moves, rewrite, hn] at hm
    · rw [moves, rewrite, if_neg hn] at hm
      cases List.mem_singleton.mp hm
      change v.value 0 = other.value v ρ - ρ n ↔ ρ n = other.value v ρ
      rw [v.zero, eq_comm, sub_eq_zero, eq_comm]
  | neg e =>
    cases List.mem_singleton.mp hm
    change e.value v ρ = -other.value v ρ ↔ -e.value v ρ = other.value v ρ
    rw [neg_eq_iff_eq_neg]
  | bin op l r =>
    cases op with
    | add =>
      rcases List.mem_pair.mp hm with rfl | rfl
      · exact eq_sub_iff_add_eq
      · exact eq_sub_iff_add_eq'
    | sub =>
      rcases List.mem_pair.mp hm with rfl | rfl
      · exact sub_eq_iff_eq_add.symm
      · change -r.value v ρ = other.value v ρ - l.value v ρ ↔
          l.value v ρ - r.value v ρ = other.value v ρ
        rw [eq_sub_iff_add_eq, sub_eq_neg_add]
    | mul =>
      rcases List.mem_pair.mp hm with rfl | rfl
      · exact eq_div_iff (nonzero r (by simp))
      · change r.value v ρ = other.value v ρ / l.value v ρ ↔
          l.value v ρ * r.value v ρ = other.value v ρ
        rw [eq_div_iff (nonzero l (by simp)), mul_comm]
    | div =>
      rcases List.mem_pair.mp hm with rfl | rfl
      · exact (div_eq_iff (nonzero r (by simp))).symm
      · have hl := nonzero l (by simp)
        have hr := nonzero r (by simp)
        change v.value 1 / r.value v ρ = other.value v ρ / l.value v ρ ↔
          l.value v ρ / r.value v ρ = other.value v ρ
        rw [v.one, eq_div_iff hl, one_div_mul_eq_div]

/-- A move keeps the solutions if nothing that it divides by or multiplies away is zero. -/
theorem Job.holds_of_mem_moves {target : String} {j : Job} {m : Move} (hm : m ∈ j.moves target)
    (nonzero : ∀ d ∈ m.divisors, d.value v ρ ≠ 0) : m.job.Holds v ρ ↔ j.Holds v ρ := by
  rcases List.mem_append.mp hm with hm | hm
  · exact Solve.holds_of_mem_moves hm nonzero
  · exact (Solve.holds_of_mem_moves hm nonzero).trans eq_comm

theorem Job.holds_simplify {rules : RuleSet} {j : Job} (hfolds : ∀ f ∈ j.folds rules, f.Exact v) :
    (j.simplify rules).Holds v ρ ↔ j.Holds v ρ := by
  have hl := Expr.value_simplify (ρ := ρ) fun f hf => hfolds f (List.mem_append_left _ hf)
  have hr := Expr.value_simplify (ρ := ρ) fun f hf => hfolds f (List.mem_append_right _ hf)
  change (j.lhs.simplify rules).value v ρ = (j.rhs.simplify rules).value v ρ ↔ _
  rw [hl, hr]
  rfl

end

end Rearrange

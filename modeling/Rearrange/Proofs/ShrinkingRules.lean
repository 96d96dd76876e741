import Rearrange.Proofs.Folds
import Rearrange.Proofs.SimplifierRuns

namespace Rearrange

namespace Expr

/-- A measure that changes with a part of an expression as much as the part's own measure does. -/
structure Additive (μ : Expr → Nat) : Prop where
  neg (a b : Expr) : μ (neg b) + μ a = μ (neg a) + μ b
  bin (op : BinOp) (a b c d : Expr) : μ (bin op c d) + (μ a + μ b) = μ (bin op a b) + (μ c + μ d)

section

variable {rules : RuleSet} {μ : Expr → Nat} {trace : List Rewrite} {e r : Expr}

theorem Settles.measure_le
    (hrule : ∀ s e e', Step.first? rules.table e = some (s, e') → μ e' < μ e)
    (h : e.Settles rules trace r) : μ r + trace.length ≤ μ e := by
  induction h with
  | done => exact Nat.le_refl _
  | round hfirst _ ih =>
    have := hrule _ _ _ hfirst
    rw [List.length_cons]
    omega

theorem Simplifies.measure_le (hμ : Additive μ)
    (hrule : ∀ s e e', Step.first? rules.table e = some (s, e') → μ e' < μ e)
    (h : e.Simplifies rules trace r) : μ r + trace.length ≤ μ e := by
  induction h with
  | const hsettles | var hsettles => exact hsettles.measure_le hrule
  | @neg e e' r below here _ hsettles ih =>
    have hroot := hsettles.measure_le hrule
    have hpart := hμ.neg e e'
    rw [List.length_append]
    omega
  | @bin op a b a' b' r left right here _ _ hsettles ihl ihr =>
    have hroot := hsettles.measure_le hrule
    have hparts := hμ.bin op a b a' b'
    rw [List.length_append, List.length_append]
    omega

end

theorem additive_size : Additive size where
  neg a b := by simp only [size]; omega
  bin op a b c d := by simp only [size]; omega

theorem additive_sums : Additive sums where
  neg a b := by simp only [sums]; omega
  bin op a b c d := by cases op <;> simp only [sums] <;> omega

theorem Additive.add {μ ν : Expr → Nat} (hμ : Additive μ) (hν : Additive ν) :
    Additive fun e => μ e + ν e where
  neg a b := by
    have := hμ.neg a b
    have := hν.neg a b
    omega
  bin op a b c d := by
    have := hμ.bin op a b c d
    have := hν.bin op a b c d
    omega

end Expr

namespace Step

open Rearrange.Expr

theorem mem_of_first? {table : List Step} {e e' : Expr} {s : Step}
    (h : first? table e = some (s, e')) : s ∈ table := by
  obtain ⟨t, ht, happlied⟩ := List.exists_of_findSome?_eq_some h
  obtain ⟨x, -, hpair⟩ := Option.map_eq_some_iff.mp happlied
  cases hpair
  exact ht

end Step

namespace Expr

theorem size_simplify_le (rules : RuleSet) (e : Expr) : (e.simplify rules).size ≤ e.size := by
  have hcongruence : Congruence fun a b : Expr => b.size ≤ a.size := {
    refl := fun e => Nat.le_refl _
    trans := fun hab hbc => Nat.le_trans hbc hab
    neg := fun hab => Nat.add_le_add_right hab 1
    bin := fun op a b c d hab hcd => Nat.add_le_add_right (Nat.add_le_add hab hcd) 1 }
  exact hcongruence.simplify (P := fun _ => True) (fun s e e' hs _ => hs.size_le)
    fun _ _ => trivial

theorem Settles.length_le {rules : RuleSet} {trace : List Rewrite} {e r : Expr}
    (h : e.Settles rules trace r) : r.size + r.sums + trace.length ≤ e.size + e.sums :=
  h.measure_le fun _ _ _ hfirst => (Step.rewrites_of_first? hfirst).size_add_sums_lt

theorem Simplifies.length_le {rules : RuleSet} {trace : List Rewrite} {e r : Expr}
    (h : e.Simplifies rules trace r) : r.size + r.sums + trace.length ≤ e.size + e.sums :=
  h.measure_le (additive_size.add additive_sums) fun _ _ _ hfirst =>
    (Step.rewrites_of_first? hfirst).size_add_sums_lt

theorem Simplifies.size_add_length_le {trace : List Rewrite} {e r : Expr}
    (h : e.Simplifies .baseline trace r) : r.size + trace.length ≤ e.size := by
  refine h.measure_le additive_size fun s e e' hfirst => ?_
  have hs : s ∈ RuleSet.baseline.table := Step.mem_of_first? hfirst
  rcases (Step.rewrites_of_first? hfirst).size_lt with rfl | hlt
  · exact absurd hs (by decide)
  · exact hlt

end Expr

open Rearrange.Expr

/-- Simplifying ends, and no expression gets larger. Under the baseline rules it has a node less for
each step, and under the extended ones a node or a sum less. -/
theorem simplify_ends_smaller (rules : RuleSet) (e : Expr) :
    (∃ trace r, e.Settles rules trace r ∧
      r.size + r.sums + trace.length ≤ e.size + e.sums) ∧
    (∃ trace, e.Simplifies rules trace (e.simplify rules) ∧
      trace.map Rewrite.step = (e.simplifySteps rules).2 ∧
      (e.simplify rules).size + (e.simplify rules).sums + trace.length ≤ e.size + e.sums) ∧
    (e.simplify rules).size ≤ e.size ∧
    (e.simplifySteps .baseline).1.size + (e.simplifySteps .baseline).2.length ≤ e.size := by
  obtain ⟨rounds, hrounds, -⟩ := exists_settles rules e
  obtain ⟨trace, htrace, hsteps⟩ := exists_simplifies rules e
  obtain ⟨baseline, hbaseline, hlisted⟩ := exists_simplifies .baseline e
  refine ⟨⟨rounds, _, hrounds, hrounds.length_le⟩, ⟨trace, htrace, hsteps, htrace.length_le⟩,
    size_simplify_le rules e, ?_⟩
  rw [← hlisted, List.length_map]
  exact hbaseline.size_add_length_le

end Rearrange

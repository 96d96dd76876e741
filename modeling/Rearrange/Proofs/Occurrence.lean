import Rearrange.Proofs.Folds
import Rearrange.Proofs.Paths

namespace Rearrange

theorem Step.Rewrites.mentions {s : Step} {e e' : Expr} {name : String} (h : s.Rewrites e e')
    (hn : e'.mentions name = true) : e.mentions name = true := by
  cases h with
  | fold | negate | zeroMultiply | multiplyZero | divideZero | cancel =>
    exact absurd hn Bool.false_ne_true
  | doubleNegation => exact hn
  | zeroAdd | oneMultiply => exact Bool.or_eq_true_iff.mpr (Or.inr hn)
  | addZero | subtractZero | multiplyOne => exact Bool.or_eq_true_iff.mpr (Or.inl hn)
  | subtractFromZero => exact Bool.or_eq_true_iff.mpr (Or.inr hn)
  | combine => exact Bool.or_eq_true_iff.mpr (Or.inl hn)

theorem Expr.mentions_iff {name : String} {e : Expr} : e.mentions name = true ↔ name ∈ e.names := by
  induction e with
  | const c => exact iff_of_false Bool.false_ne_true (List.not_mem_nil)
  | var n => rw [mentions, beq_iff_eq, names, List.mem_singleton, eq_comm]
  | neg e ih => exact ih
  | bin op l r ihl ihr => rw [mentions, Bool.or_eq_true, ihl, ihr, names, List.mem_append]

theorem Expr.mentions_eq_false_iff {name : String} {e : Expr} :
    e.mentions name = false ↔ e.names.count name = 0 := by
  rw [List.count_eq_zero, ← mentions_iff, Bool.not_eq_true]

theorem Expr.congruence_mentions (name : String) :
    Congruence fun e e' => e'.mentions name = true → e.mentions name = true where
  refl _ := id
  trans hab hbc := hab ∘ hbc
  neg h := h
  bin _ _ _ _ _ hl hr h := Bool.or_eq_true_iff.mpr ((Bool.or_eq_true_iff.mp h).imp hl hr)

theorem Expr.mentions_of_simplify {rules : RuleSet} {e : Expr} {name : String}
    (h : (e.simplify rules).mentions name = true) : e.mentions name = true :=
  (congruence_mentions name).simplify (P := fun _ => True) (fun _ _ _ hs _ => hs.mentions)
    (fun _ _ => trivial) h

section

variable (name : String) (l r : Expr)

@[simp]
theorem Expr.mentions_neg (e : Expr) : (-e).mentions name = e.mentions name := rfl

@[simp]
theorem Expr.mentions_add : (l + r).mentions name = (l.mentions name || r.mentions name) := rfl

@[simp]
theorem Expr.mentions_sub : (l - r).mentions name = (l.mentions name || r.mentions name) := rfl

@[simp]
theorem Expr.mentions_mul : (l * r).mentions name = (l.mentions name || r.mentions name) := rfl

@[simp]
theorem Expr.mentions_div : (l / r).mentions name = (l.mentions name || r.mentions name) := rfl

end

namespace Job

def Mentions (name : String) (j : Job) : Prop :=
  j.lhs.mentions name = true ∨ j.rhs.mentions name = true

instance (name : String) (j : Job) : Decidable (j.Mentions name) :=
  inferInstanceAs (Decidable (_ ∨ _))

theorem mentions_mirrored {name : String} {j : Job} : j.mirrored.Mentions name ↔ j.Mentions name :=
  or_comm

theorem mentions_of_simplify {rules : RuleSet} {j : Job} {name : String}
    (h : (j.simplify rules).Mentions name) : j.Mentions name :=
  h.imp Expr.mentions_of_simplify Expr.mentions_of_simplify

theorem mentions_of_mem_rewrite {target name : String} {j k : Job}
    (hk : k ∈ Solve.rewrite target j.lhs j.rhs) (hn : k.Mentions name) : j.Mentions name := by
  obtain ⟨side, other⟩ := j
  cases side with
  | const c =>
    obtain rfl := List.mem_singleton.mp hk
    simpa [Mentions, Expr.mentions] using hn
  | var n =>
    simp only [Solve.rewrite] at hk
    split at hk
    next => simp at hk
    next =>
      obtain rfl := List.mem_singleton.mp hk
      have hn : other.mentions name = true ∨ (n == name) = true := by
        simpa [Mentions, Expr.mentions] using hn
      exact hn.symm
  | neg e =>
    obtain rfl := List.mem_singleton.mp hk
    exact hn
  | bin op l r =>
    -- Either way to undo an operation moves one operand and keeps the other.
    have hparts : (l.mentions name = true ∨ r.mentions name = true) ∨ other.mentions name = true := by
      cases op <;>
      · simp only [Solve.rewrite, List.mem_cons, List.not_mem_nil, or_false] at hk
        rcases hk with rfl | rfl <;>
        · simp [Mentions, Expr.mentions] at hn
          tauto
    exact hparts.imp_left Bool.or_eq_true_iff.mpr

theorem mentions_of_mem_successors {target name : String} {rules : RuleSet} {j k : Job}
    (hk : k ∈ j.successors target rules) (hn : k.Mentions name) : j.Mentions name := by
  obtain ⟨m, hm, rfl⟩ := List.mem_map.mp hk
  have hn := mentions_of_simplify hn
  rcases List.mem_append.mp hm with hm | hm
  · exact mentions_of_mem_rewrite hm hn
  · exact mentions_mirrored.mp (mentions_of_mem_rewrite (j := j.mirrored) hm hn)

theorem Path.mentions {target name : String} {rules : RuleSet} {js : List Job} {j k : Job}
    (h : Path target rules j k js) (hn : k.Mentions name) : j.Mentions name := by
  have hstep (a b : Job) (ha : a.Mentions name → j.Mentions name)
      (hb : b ∈ a.successors target rules) (hn : b.Mentions name) : j.Mentions name :=
    ha (mentions_of_mem_successors hb hn)
  exact h.induction (p := fun a => a.Mentions name → j.Mentions name) id hstep hn

end Job

end Rearrange

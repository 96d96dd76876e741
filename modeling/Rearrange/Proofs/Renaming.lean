import Mathlib.Data.Set.Function
import Mathlib.Tactic.SplitIfs
import Rearrange.Proofs.Occurrence
import Rearrange.Proofs.SearchSteps

namespace Rearrange

variable {σ : String → String} {S : Set String}

namespace Expr

def rename (σ : String → String) : Expr → Expr
  | const c => const c
  | var n => var (σ n)
  | neg e => neg (e.rename σ)
  | bin op l r => bin op (l.rename σ) (r.rename σ)

/-- Only variables in `S` occur. -/
def Over (S : Set String) (e : Expr) : Prop := ∀ n, e.mentions n = true → n ∈ S

theorem over_var {n : String} : (var n).Over S ↔ n ∈ S := by
  simp [Over, mentions]

theorem over_neg {e : Expr} : (neg e).Over S ↔ e.Over S := Iff.rfl

theorem over_bin {op : BinOp} {l r : Expr} : (bin op l r).Over S ↔ l.Over S ∧ r.Over S := by
  simp only [Over, mentions, Bool.or_eq_true, or_imp, forall_and]

theorem over_names (e : Expr) : e.Over {n | n ∈ e.names} := fun _ => mentions_iff.mp

theorem Over.mono {T : Set String} {e : Expr} (h : e.Over S) (hST : S ⊆ T) : e.Over T :=
  fun n hn => hST (h n hn)

theorem Over.simplify {e : Expr} (h : e.Over S) (rules : RuleSet) : (e.simplify rules).Over S :=
  fun n hn => h n (mentions_of_simplify hn)

theorem Over.of_first? {table : List Step} {s : Step} {e e' : Expr} (h : e.Over S)
    (hs : Step.first? table e = some (s, e')) : e'.Over S :=
  fun n hn => h n ((Step.rewrites_of_first? hs).mentions hn)

@[simp]
theorem isValue_rename (σ : String → String) (v : Float) (e : Expr) :
    (e.rename σ).isValue v = e.isValue v := by
  cases e <;> rfl

@[simp]
theorem isFinite_rename (σ : String → String) (e : Expr) :
    (e.rename σ).isFinite = e.isFinite := by
  induction e with
  | const c => rfl
  | var n => rfl
  | neg e ih => exact ih
  | bin op l r ihl ihr => rw [rename, isFinite, isFinite, ihl, ihr]

section

variable (hσ : Set.InjOn σ S)

include hσ

theorem beq_rename {a b : Expr} (ha : a.Over S) (hb : b.Over S) :
    (a.rename σ == b.rename σ) = (a == b) := by
  change equal (a.rename σ) (b.rename σ) = equal a b
  induction a generalizing b with
  | const c => cases b <;> rfl
  | var m =>
    cases b with
    | var n =>
      have hmn : σ m = σ n ↔ m = n := hσ.eq_iff (over_var.mp ha) (over_var.mp hb)
      rw [rename, rename, equal, equal, Bool.eq_iff_iff, beq_iff_eq, beq_iff_eq, hmn]
    | _ => rfl
  | neg e ih =>
    cases b with
    | neg f => exact ih ha hb
    | _ => rfl
  | bin o l r ihl ihr =>
    cases b with
    | bin p l' r' =>
      obtain ⟨hl, hr⟩ := over_bin.mp ha
      obtain ⟨hl', hr'⟩ := over_bin.mp hb
      rw [rename, rename, equal, equal, ihl hl hl', ihr hr hr']
    | _ => rfl

theorem mentions_rename {name : String} {e : Expr} (hn : name ∈ S) (he : e.Over S) :
    (e.rename σ).mentions (σ name) = e.mentions name := by
  induction e with
  | const c => rfl
  | var n =>
    rw [rename, mentions, mentions, Bool.eq_iff_iff, beq_iff_eq, beq_iff_eq,
      hσ.eq_iff (over_var.mp he) hn]
  | neg e ih => exact ih he
  | bin op l r ihl ihr =>
    obtain ⟨hl, hr⟩ := over_bin.mp he
    rw [rename, mentions, mentions, ihl hl, ihr hr]

theorem isVar_rename {name : String} {e : Expr} (hn : name ∈ S) (he : e.Over S) :
    (e.rename σ).isVar (σ name) = e.isVar name := by
  cases e with
  | var n =>
    have hvar : σ n = σ name ↔ n = name := hσ.eq_iff (over_var.mp he) hn
    rw [rename, Bool.eq_iff_iff, isVar_iff, isVar_iff, var.injEq, var.injEq, hvar]
  | _ => rfl

end

end Expr

open Rearrange.Expr

section

variable (hσ : Set.InjOn σ S)

include hσ

theorem Step.rewrite?_rename {e : Expr} (he : e.Over S) (s : Step) :
    s.rewrite? (e.rename σ) = (s.rewrite? e).map (Expr.rename σ) := by
  cases e with
  | const c => cases s <;> rfl
  | var n => cases s <;> rfl
  | neg e =>
    cases s with
    | negateConstant | doubleNegation => cases e <;> rfl
    | _ => rfl
  | bin op l r =>
    obtain ⟨hl, hr⟩ := over_bin.mp he
    have hlike := beq_rename hσ hl hr
    cases s with
    | foldConstants => cases l <;> cases r <;> rfl
    | negateConstant | doubleNegation => rfl
    | addZero =>
      cases op with
      | add =>
        simp only [rename, rewrite?, addZero?, isValue_rename]
        split_ifs <;> rfl
      | _ => rfl
    | subtractZero | subtractFromZero =>
      cases op with
      | sub =>
        simp only [rename, rewrite?, subtractZero?, subtractFromZero?, isValue_rename]
        split_ifs <;> rfl
      | _ => rfl
    | multiplyZero | multiplyOne =>
      cases op with
      | mul =>
        simp only [rename, rewrite?, multiplyZero?, multiplyOne?, isValue_rename]
        split_ifs <;> rfl
      | _ => rfl
    | divideZero =>
      cases op with
      | div =>
        simp only [rename, rewrite?, divideZero?, isValue_rename]
        split_ifs <;> rfl
      | _ => rfl
    | cancelLikeTerms =>
      cases op with
      | sub =>
        simp only [rename, rewrite?, cancelLikeTerms?, hlike]
        split_ifs <;> rfl
      | _ => rfl
    | combineLikeTerms =>
      cases op with
      | add =>
        simp only [rename, rewrite?, combineLikeTerms?, hlike]
        split_ifs <;> rfl
      | _ => rfl

theorem Step.first?_rename {e : Expr} (he : e.Over S) (table : List Step) :
    first? table (e.rename σ) = (first? table e).map fun p => (p.1, p.2.rename σ) := by
  induction table with
  | nil => rfl
  | cons s table ih =>
    rw [first?, first?, List.findSome?_cons, List.findSome?_cons, rewrite?_rename hσ he]
    cases s.rewrite? e with
    | none => exact ih
    | some e' => rfl

theorem Expr.settle_rename (rules : RuleSet) {e : Expr} (he : e.Over S) :
    settle rules (e.rename σ) = ((settle rules e).1.rename σ, (settle rules e).2) := by
  induction e using settle_induction rules with
  | settled e hs =>
    have hs' : (e.rename σ).Settled rules := by
      rw [Settled, Step.first?_rename hσ he, hs]
      rfl
    rw [settle_of_settled hs, settle_of_settled hs']
  | step s e e' hs ih =>
    have hs' : Step.first? rules.table (e.rename σ) = some (s, e'.rename σ) := by
      rw [Step.first?_rename hσ he, hs]
      rfl
    rw [settle_of_first? hs, settle_of_first? hs', ih (he.of_first? hs)]

theorem Expr.simplifySteps_rename (rules : RuleSet) {e : Expr} (he : e.Over S) :
    (e.rename σ).simplifySteps rules =
      ((e.simplifySteps rules).1.rename σ, (e.simplifySteps rules).2) := by
  induction e with
  | const c => exact settle_rename hσ rules he
  | var n => exact settle_rename hσ rules he
  | neg e ih =>
    have hroot : (neg (e.simplify rules)).Over S := Over.simplify (over_neg.mp he) rules
    have hsettle := settle_rename hσ rules hroot
    simp only [rename, simplify] at hsettle
    simp only [rename, simplifySteps, ih he, hsettle]
  | bin op l r ihl ihr =>
    obtain ⟨hl, hr⟩ := over_bin.mp he
    have hroot : (bin op (l.simplify rules) (r.simplify rules)).Over S :=
      over_bin.mpr ⟨hl.simplify rules, hr.simplify rules⟩
    have hsettle := settle_rename hσ rules hroot
    simp only [rename, simplify] at hsettle
    simp only [rename, simplifySteps, ihl hl, ihr hr, hsettle]

theorem Expr.simplify_rename (rules : RuleSet) {e : Expr} (he : e.Over S) :
    (e.rename σ).simplify rules = (e.simplify rules).rename σ := by
  rw [simplify, simplifySteps_rename hσ rules he, simplify]

end

namespace Job

def rename (σ : String → String) (j : Job) : Job := ⟨j.lhs.rename σ, j.rhs.rename σ⟩

def Over (S : Set String) (j : Job) : Prop := j.lhs.Over S ∧ j.rhs.Over S

theorem over_iff {j : Job} : j.Over S ↔ ∀ n, j.Mentions n → n ∈ S := by
  simp only [Over, Expr.Over, Mentions, or_imp, forall_and]

theorem Over.mirrored {j : Job} (h : j.Over S) : j.mirrored.Over S := ⟨h.2, h.1⟩

theorem Over.of_mem_rewrite {target : String} {j k : Job} (h : j.Over S)
    (hk : k ∈ Solve.rewrite target j.lhs j.rhs) : k.Over S :=
  over_iff.mpr fun n hn => over_iff.mp h n (mentions_of_mem_rewrite hk hn)

theorem Over.of_mem_successors {target : String} {rules : RuleSet} {j k : Job} (h : j.Over S)
    (hk : k ∈ j.successors target rules) : k.Over S :=
  over_iff.mpr fun n hn => over_iff.mp h n (mentions_of_mem_successors hk hn)

end Job

section

variable (hσ : Set.InjOn σ S)

include hσ

theorem Job.beq_rename {j k : Job} (hj : j.Over S) (hk : k.Over S) :
    (j.rename σ == k.rename σ) = (j == k) := by
  change ((_ == _) && (_ == _)) = ((_ == _) && (_ == _))
  rw [← Expr.beq_rename hσ hj.1 hk.1, ← Expr.beq_rename hσ hj.2 hk.2]
  rfl

theorem Solve.isolated?_rename {target : String} {side other : Expr} (ht : target ∈ S)
    (hs : side.Over S) (ho : other.Over S) :
    isolated? (σ target) (side.rename σ) (other.rename σ) =
      (isolated? target side other).map (Expr.rename σ) := by
  rw [isolated?, isolated?, isVar_rename hσ ht hs, mentions_rename hσ ht ho]
  split_ifs <;> rfl

theorem Job.value?_rename {target : String} {j : Job} (ht : target ∈ S) (hj : j.Over S) :
    (j.rename σ).value? (σ target) = (j.value? target).map (Expr.rename σ) := by
  rw [value?_eq_or, value?_eq_or, Option.map_or, ← Solve.isolated?_rename hσ ht hj.1 hj.2,
    ← Solve.isolated?_rename hσ ht hj.2 hj.1]
  rfl

theorem Solve.rewrite_rename {target : String} {side : Expr} (ht : target ∈ S)
    (hs : side.Over S) (other : Expr) :
    rewrite (σ target) (side.rename σ) (other.rename σ) =
      (rewrite target side other).map (Job.rename σ) := by
  cases side with
  | const c => rfl
  | var n =>
    have hn : σ n = σ target ↔ n = target := hσ.eq_iff (over_var.mp hs) ht
    simp only [Expr.rename, rewrite, hn]
    split_ifs <;> rfl
  | neg e => rfl
  | bin op l r => cases op <;> rfl

theorem Job.simplify_rename (rules : RuleSet) {j : Job} (hj : j.Over S) :
    (j.rename σ).simplify rules = (j.simplify rules).rename σ := by
  rw [simplify, rename, Expr.simplify_rename hσ rules hj.1, Expr.simplify_rename hσ rules hj.2]
  rfl

theorem Job.successors_rename {target : String} (rules : RuleSet) {j : Job} (ht : target ∈ S)
    (hj : j.Over S) :
    (j.rename σ).successors (σ target) rules =
      (j.successors target rules).map (Job.rename σ) := by
  have hmoves : ∀ k ∈ Solve.rewrite target j.lhs j.rhs ++ Solve.rewrite target j.rhs j.lhs,
      (k.rename σ).simplify rules = (k.simplify rules).rename σ := by
    intro k hk
    rcases List.mem_append.mp hk with hk | hk
    · exact simplify_rename hσ rules (hj.of_mem_rewrite hk)
    · exact simplify_rename hσ rules (hj.mirrored.of_mem_rewrite hk)
  rw [successors, successors, rename, Solve.rewrite_rename hσ ht hj.1,
    Solve.rewrite_rename hσ ht hj.2, ← List.map_append, List.map_map, List.map_map]
  exact List.map_congr_left hmoves

end

end Rearrange

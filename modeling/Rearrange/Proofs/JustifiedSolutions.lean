import Rearrange.Proofs.NormalForm
import Rearrange.Proofs.Occurrence
import Rearrange.Proofs.SearchOutcome

namespace Rearrange

/-- The solution gives `target` a value, and its derivation says why. -/
structure Solution.Justified (target : String) (options : Solve.Options) (equation : Job)
    (s : Solution) : Prop where
  isolates : s.value.mentions target = false
  closed : ∀ name, s.value.mentions name = true → equation.Mentions name
  simplified : s.value.simplify options.rules = s.value
  starts : s.derivation.head? = some (equation.simplify options.rules)
  ends : s.derivation.getLast? = some ⟨.var target, s.value⟩ ∨
    s.derivation.getLast? = some ⟨s.value, .var target⟩
  follows : s.derivation.IsChain fun j k => k ∈ j.successors target options.rules
  fresh : s.derivation.Pairwise fun j k => (j == k) = false ∧ (j == k.mirrored) = false
  length_le : s.derivation.length ≤ s.explored
  explored_le : s.explored ≤ options.budget

theorem Job.Path.normal {target : String} {rules : RuleSet} {js : List Job} {j k : Job}
    (h : Path target rules (j.simplify rules) k js) : k.lhs.Normal rules ∧ k.rhs.Normal rules := by
  have hsimplified (m : Job) :
      (m.simplify rules).lhs.Normal rules ∧ (m.simplify rules).rhs.Normal rules :=
    ⟨Expr.normal_simplify rules m.lhs, Expr.normal_simplify rules m.rhs⟩
  refine h.induction (p := fun k => k.lhs.Normal rules ∧ k.rhs.Normal rules) (hsimplified j) ?_
  intro a b _ hb
  obtain ⟨m, -, rfl⟩ := List.mem_map.mp hb
  exact hsimplified m

variable {target : String} {lhs rhs : Expr} {options : Solve.Options}

theorem Solution.mentions_target {s : Solution} (h : solve target lhs rhs options = .ok s) :
    (Job.mk lhs rhs).Mentions target := by
  obtain ⟨j, hpath, hvalue⟩ := solve_derivation h
  have hvar : (Expr.var target).mentions target = true := beq_self_eq_true target
  have hj : j.Mentions target := by
    obtain ⟨-, hjob | hjob⟩ := Job.value?_eq_some hvalue
    · rw [hjob]; exact Or.inl hvar
    · rw [hjob]; exact Or.inr hvar
  exact Job.mentions_of_simplify (hpath.mentions hj)

theorem Solution.length_le {s : Solution} (h : solve target lhs rhs options = .ok s) :
    s.derivation.length ≤ s.explored ∧ s.explored ≤ options.budget := by
  obtain ⟨n, search, a, hn, hl, -, -, hline, hexplored⟩ := solve_eq_ok h
  have := hline.length_le hl.parentsBefore
  omega

theorem Solution.pairwise {s : Solution} (h : solve target lhs rhs options = .ok s) :
    s.derivation.Pairwise fun j k => (j == k) = false ∧ (j == k.mirrored) = false := by
  obtain ⟨n, search, a, -, hl, -, -, hline, -⟩ := solve_eq_ok h
  exact hline.pairwise hl.parentsBefore hl.distinct

theorem Solution.justified {s : Solution} (h : solve target lhs rhs options = .ok s) :
    s.Justified target options ⟨lhs, rhs⟩ := by
  obtain ⟨j, hpath, hvalue⟩ := solve_derivation h
  have ⟨hhead, hlast, hchain⟩ := hpath
  obtain ⟨hfree, hjob⟩ := Job.value?_eq_some hvalue
  have hclosed : ∀ name, s.value.mentions name = true → (Job.mk lhs rhs).Mentions name := by
    intro name hname
    refine Job.mentions_of_simplify (hpath.mentions ?_)
    rcases hjob with hjob | hjob
    · rw [hjob]; exact Or.inr hname
    · rw [hjob]; exact Or.inl hname
  have hsimplified : s.value.simplify options.rules = s.value := by
    obtain ⟨hleft, hright⟩ := hpath.normal
    rcases hjob with hjob | hjob
    · rw [hjob] at hright; exact hright.simplify_eq
    · rw [hjob] at hleft; exact hleft.simplify_eq
  have hends : s.derivation.getLast? = some ⟨.var target, s.value⟩ ∨
      s.derivation.getLast? = some ⟨s.value, .var target⟩ := by
    rw [hlast]
    exact hjob.imp (congrArg some) (congrArg some)
  obtain ⟨hlength, hbudget⟩ := Solution.length_le h
  exact ⟨hfree, hclosed, hsimplified, hhead, hends, hchain, Solution.pairwise h, hlength, hbudget⟩

/-- Solutions are justified, and a variable that does not occur is never solved for. -/
theorem solve_justifies (target : String) (lhs rhs : Expr) (options : Solve.Options) :
    (∀ s, solve target lhs rhs options = .ok s → s.Justified target options ⟨lhs, rhs⟩) ∧
      (¬ (Job.mk lhs rhs).Mentions target → ∀ s, solve target lhs rhs options ≠ .ok s) :=
  ⟨fun _ => Solution.justified, fun absent _ h => absent (Solution.mentions_target h)⟩

/-- `x * 4 + 10 = y` -/
def linearEquation : Job := ⟨.var "x" * .const 4 + .const 10, .var "y"⟩

def linearSolution : Solution where
  value := (.var "y" - .const 10) / .const 4
  derivation := [linearEquation, ⟨.var "x" * .const 4, .var "y" - .const 10⟩,
    ⟨.var "x", (.var "y" - .const 10) / .const 4⟩]
  explored := 5

theorem solve_justifies_linear :
    solve "x" linearEquation.lhs linearEquation.rhs = .ok linearSolution ∧
      linearSolution.Justified "x" {} linearEquation ∧ ¬ linearEquation.Mentions "z" ∧
        ∀ s, solve "z" linearEquation.lhs linearEquation.rhs ≠ .ok s := by
  have hsolved : solve "x" linearEquation.lhs linearEquation.rhs = .ok linearSolution := by
    decide +kernel
  have habsent : ¬ linearEquation.Mentions "z" := by decide
  exact ⟨hsolved, (solve_justifies "x" linearEquation.lhs linearEquation.rhs {}).1 _ hsolved,
    habsent, (solve_justifies "z" linearEquation.lhs linearEquation.rhs {}).2 habsent⟩

end Rearrange

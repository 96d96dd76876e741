import Rearrange.Proofs.Renaming

namespace Rearrange

variable {σ : String → String} {S : Set String}

def Admission.rename (σ : String → String) (a : Admission) : Admission := ⟨a.job.rename σ, a.parent⟩

def Solution.rename (σ : String → String) (s : Solution) : Solution :=
  ⟨s.value.rename σ, s.derivation.map (Job.rename σ), s.explored⟩

def SolveError.rename (σ : String → String) : SolveError → SolveError
  | unsolvable target explored => unsolvable (σ target) explored
  | nonFinite target value => nonFinite (σ target) (value.rename σ)

def SearchEvent.rename (σ : String → String) : SearchEvent → SearchEvent
  | started target job => started (σ target) (job.rename σ)
  | exploring index job => exploring index (job.rename σ)
  | duplicate job => duplicate (job.rename σ)
  | isolated target explored value => isolated (σ target) explored (value.rename σ)
  | gaveUp target explored admitted pending => gaveUp (σ target) explored admitted pending

namespace JobQueue

/-- `q.Renamed σ S r` says that `r` holds the jobs of `q` with their variables renamed, and that
these variables are in `S`. -/
structure Renamed (σ : String → String) (S : Set String) (q r : JobQueue) : Prop where
  admissions : r.admissions = q.admissions.map (Admission.rename σ)
  frontier : r.frontier.toList = q.frontier.toList
  names : ∀ (i : Nat) (a : Admission), q.admissions[i]? = some a → a.job.Over S

namespace Renamed

variable {q r : JobQueue}

theorem empty (σ : String → String) (S : Set String) : JobQueue.empty.Renamed σ S .empty :=
  ⟨Array.map_empty.symm, rfl, fun i a ha => by cases ha⟩

theorem admitted (h : q.Renamed σ S r) : r.admitted = q.admitted := by
  rw [JobQueue.admitted, h.admissions, Array.size_map, JobQueue.admitted]

theorem pending (h : q.Renamed σ S r) : r.pending = q.pending := by
  have hlength := congrArg List.length h.frontier
  rwa [length_frontier, length_frontier] at hlength

theorem getElem? (h : q.Renamed σ S r) (i : Nat) :
    r.admissions[i]? = (q.admissions[i]?).map (Admission.rename σ) := by
  rw [h.admissions, Array.getElem?_map]

theorem add {j : Job} (h : q.Renamed σ S r) (hj : j.Over S) (parent : Option Nat) :
    (q.add j parent).Renamed σ S (r.add (j.rename σ) parent) where
  admissions := by
    change r.admissions.push _ = (q.admissions.push _).map _
    rw [h.admissions, Array.map_push]
    rfl
  frontier := by rw [frontier_add, frontier_add, h.frontier, h.admitted]
  names i a ha := by
    rcases getElem?_add.mp ha with ha | ⟨-, rfl⟩
    · exact h.names i a ha
    · exact hj

theorem hasSeen {j : Job} (h : q.Renamed σ S r) (hσ : Set.InjOn σ S) (hj : j.Over S) :
    r.hasSeen (j.rename σ) = q.hasSeen j := by
  rw [Bool.eq_iff_iff, hasSeen_iff, hasSeen_iff]
  constructor
  · rintro ⟨i, b, hb, hsame⟩
    rw [h.getElem?] at hb
    obtain ⟨a, ha, rfl⟩ := Option.map_eq_some_iff.mp hb
    have hnames := h.names i a ha
    exact ⟨i, a, ha, hsame.imp (Job.beq_rename hσ hnames hj).symm.trans
      (Job.beq_rename hσ hnames hj.mirrored).symm.trans⟩
  · rintro ⟨i, a, ha, hsame⟩
    have hnames := h.names i a ha
    refine ⟨i, a.rename σ, by rw [h.getElem?, ha]; rfl, ?_⟩
    exact hsame.imp (Job.beq_rename hσ hnames hj).trans (Job.beq_rename hσ hnames hj.mirrored).trans

theorem push {j : Job} (h : q.Renamed σ S r) (hσ : Set.InjOn σ S) (hj : j.Over S)
    (parent : Option Nat) :
    (q.push j parent).2.Renamed σ S (r.push (j.rename σ) parent).2 := by
  rw [JobQueue.push, JobQueue.push, h.hasSeen hσ hj]
  split_ifs
  · exact h
  · exact h.add hj parent

theorem pop_eq_none (h : q.Renamed σ S r) (hq : q.pop = none) : r.pop = none := by
  rw [pop_eq_none_iff_frontier] at hq ⊢
  rw [h.frontier, hq]

theorem pop_eq_some {rest : JobQueue} {i : Nat} {j : Job} (h : q.Renamed σ S r)
    (hq : q.pop = some (i, j, rest)) :
    j.Over S ∧ ∃ rest', r.pop = some (i, j.rename σ, rest') ∧ rest.Renamed σ S rest' := by
  obtain ⟨hfrontier, hjob, hadm⟩ := frontier_of_pop hq
  obtain ⟨a, ha, rfl⟩ := Option.map_eq_some_iff.mp hjob
  refine ⟨h.names i a ha, ?_⟩
  cases hr : r.pop with
  | none =>
    rw [pop_eq_none_iff_frontier, h.frontier, hfrontier] at hr
    cases hr
  | some p =>
    obtain ⟨k, j', rest'⟩ := p
    obtain ⟨hfrontier', hjob', hadm'⟩ := frontier_of_pop hr
    rw [h.frontier, hfrontier] at hfrontier'
    obtain ⟨rfl, hrest⟩ := List.cons.inj hfrontier'
    obtain ⟨b, hb, rfl⟩ := Option.map_eq_some_iff.mp hjob'
    rw [h.getElem?, ha] at hb
    cases hb
    refine ⟨rest', rfl, ?_, hrest.symm, ?_⟩
    · rw [hadm', hadm, h.admissions]
    · rw [hadm]
      exact h.names

theorem traceBack (h : q.Renamed σ S r) (n i : Nat) :
    r.traceBack n i = (q.traceBack n i).map (List.map (Job.rename σ)) := by
  induction n generalizing i with
  | zero => rfl
  | succ n ih =>
    rw [JobQueue.traceBack, JobQueue.traceBack, h.getElem?]
    cases q.admissions[i]? with
    | none => rfl
    | some a =>
      obtain ⟨j, parent⟩ := a
      cases parent with
      | none => rfl
      | some p =>
        simp only [Option.map_some, Admission.rename, ih, Option.map_map]
        rfl

theorem derivation? (h : q.Renamed σ S r) (i : Nat) :
    r.derivation? i = (q.derivation? i).map (List.map (Job.rename σ)) := by
  rw [JobQueue.derivation?, JobQueue.derivation?, h.traceBack, h.admitted, Option.map_map,
    Option.map_map]
  congr 1
  funext js
  exact List.map_reverse.symm

end Renamed

end JobQueue

namespace Search

def renameOutcome (σ : String → String) (r : Except SolveError Solution) :
    Except SolveError Solution := (r.map (Solution.rename σ)).mapError (SolveError.rename σ)

def renameEnd (σ : String → String) (r : Except SolveError Solution × List SearchEvent) :
    Except SolveError Solution × List SearchEvent :=
  (renameOutcome σ r.1, r.2.map (SearchEvent.rename σ))

structure Renamed (σ : String → String) (S : Set String) (s t : Search) : Prop where
  queue : s.queue.Renamed σ S t.queue
  explored : t.explored = s.explored
  events : t.events = s.events.map (SearchEvent.rename σ)

namespace Renamed

variable {target : String} {s t : Search}

theorem giveUp (h : s.Renamed σ S t) (target : String) :
    t.giveUp (σ target) = renameEnd σ (s.giveUp target) := by
  rw [Search.giveUp, Search.giveUp, h.explored, h.events, h.queue.admitted, h.queue.pending]
  rfl

theorem finish (h : s.Renamed σ S t) (target : String) (reject : Bool) (index : Nat)
    (value : Expr) :
    t.finish (σ target) reject index (value.rename σ) =
      renameEnd σ (s.finish target reject index value) := by
  have hderivation : (t.queue.derivation? index).getD [] =
      ((s.queue.derivation? index).getD []).map (Job.rename σ) := by
    rw [h.queue.derivation?]
    cases s.queue.derivation? index <;> rfl
  simp only [Search.finish, renameEnd, h.explored, h.events, hderivation, Expr.isFinite_rename,
    List.map_cons]
  congr 1
  split_ifs <;> rfl

theorem taking {rest rest' : JobQueue} (h : s.Renamed σ S t)
    (hrest : rest.Renamed σ S rest') (index : Nat) (job : Job) :
    (s.taking index job rest).Renamed σ S (t.taking index (job.rename σ) rest') where
  queue := hrest
  explored := congrArg (· + 1) h.explored
  events := congrArg (_ :: ·) h.events

theorem offer {j : Job} (h : s.Renamed σ S t) (hσ : Set.InjOn σ S) (hj : j.Over S)
    (parent : Nat) : (s.offer parent j).Renamed σ S (t.offer parent (j.rename σ)) := by
  rw [Search.offer, Search.offer, h.queue.hasSeen hσ hj]
  split_ifs
  · exact ⟨h.queue, h.explored, congrArg (_ :: ·) h.events⟩
  · exact ⟨h.queue.push hσ hj _, h.explored, h.events⟩

theorem foldl_offer (hσ : Set.InjOn σ S) (parent : Nat) (js : List Job)
    (hjs : ∀ j ∈ js, j.Over S) (h : s.Renamed σ S t) :
    (js.foldl (Search.offer parent) s).Renamed σ S
      ((js.map (Job.rename σ)).foldl (Search.offer parent) t) := by
  induction js generalizing s t with
  | nil => exact h
  | cons j js ih =>
    obtain ⟨hj, hjs⟩ := List.forall_mem_cons.mp hjs
    exact ih hjs (h.offer hσ hj parent)

theorem start (hσ : Set.InjOn σ S) {lhs rhs : Expr} (hl : lhs.Over S) (hr : rhs.Over S)
    (target : String) (rules : RuleSet) :
    (Search.start target rules lhs rhs).Renamed σ S
      (Search.start (σ target) rules (lhs.rename σ) (rhs.rename σ)) := by
  have hjob : ((Job.mk lhs rhs).simplify rules).Over S := ⟨hl.simplify rules, hr.simplify rules⟩
  have hrenamed : (Job.mk (lhs.rename σ) (rhs.rename σ)).simplify rules =
      ((Job.mk lhs rhs).simplify rules).rename σ :=
    Job.simplify_rename hσ rules (j := ⟨lhs, rhs⟩) ⟨hl, hr⟩
  simp only [Search.start, hrenamed]
  exact ⟨(JobQueue.Renamed.empty σ S).push hσ hjob none, rfl, rfl⟩

theorem run (hσ : Set.InjOn σ S) (ht : target ∈ S) (rules : RuleSet) (reject : Bool)
    (budget : Nat) (h : s.Renamed σ S t) :
    Search.run (σ target) rules reject budget t =
      renameEnd σ (Search.run target rules reject budget s) := by
  induction budget generalizing s t with
  | zero => exact h.giveUp target
  | succ budget ih =>
    cases hpop : s.queue.pop with
    | none =>
      rw [run_of_pop_eq_none hpop, run_of_pop_eq_none (h.queue.pop_eq_none hpop)]
      exact h.giveUp target
    | some p =>
      obtain ⟨index, job, rest⟩ := p
      obtain ⟨hjob, rest', hpop', hrest⟩ := h.queue.pop_eq_some hpop
      have htaking := h.taking hrest index job
      have hvalue' := Job.value?_rename hσ ht hjob
      cases hvalue : job.value? target with
      | some value =>
        rw [hvalue] at hvalue'
        rw [run_of_value? hpop hvalue, run_of_value? hpop' hvalue']
        exact htaking.finish target reject index value
      | none =>
        rw [hvalue] at hvalue'
        have hexpands : s.Expands target rules _ := .intro hpop hvalue
        have hexpands' : t.Expands (σ target) rules _ := .intro hpop' hvalue'
        rw [hexpands.run_eq, hexpands'.run_eq, Job.successors_rename hσ rules ht hjob]
        exact ih (foldl_offer hσ index _ (fun k hk => hjob.of_mem_successors hk) htaking)

end Renamed

theorem solveTraced_rename (hσ : Set.InjOn σ S) {target : String} {lhs rhs : Expr}
    (ht : target ∈ S) (hl : lhs.Over S) (hr : rhs.Over S) (options : Solve.Options) :
    solveTraced (σ target) (lhs.rename σ) (rhs.rename σ) options =
      renameEnd σ (solveTraced target lhs rhs options) := by
  have hrun := (Renamed.start hσ hl hr target options.rules).run hσ ht options.rules
    options.rejectNonFinite options.budget
  simp only [solveTraced, hrun, renameEnd, List.map_reverse]

end Search

open Rearrange.Expr

/-- A renaming that tells apart the variables of an equation and the target renames the outcome of
solving and what is reported on the way, and changes nothing else. Simplifying is renamed in the
same way, with the same steps. -/
theorem names_opaque (σ : String → String) :
    (∀ (target : String) (lhs rhs : Expr) (options : Solve.Options),
      Set.InjOn σ {n | n = target ∨ n ∈ lhs.names ∨ n ∈ rhs.names} →
        solve (σ target) (lhs.rename σ) (rhs.rename σ) options =
            Search.renameOutcome σ (solve target lhs rhs options) ∧
          (solveTraced (σ target) (lhs.rename σ) (rhs.rename σ) options).2 =
            (solveTraced target lhs rhs options).2.map (SearchEvent.rename σ)) ∧
      ∀ (rules : RuleSet) (e : Expr), Set.InjOn σ {n | n ∈ e.names} →
        (e.rename σ).simplify rules = (e.simplify rules).rename σ ∧
          ((e.rename σ).simplifySteps rules).2 = (e.simplifySteps rules).2 := by
  constructor
  · intro target lhs rhs options hσ
    have hl : lhs.Over {n | n = target ∨ n ∈ lhs.names ∨ n ∈ rhs.names} :=
      (over_names lhs).mono fun n hn => Or.inr (Or.inl hn)
    have hr : rhs.Over {n | n = target ∨ n ∈ lhs.names ∨ n ∈ rhs.names} :=
      (over_names rhs).mono fun n hn => Or.inr (Or.inr hn)
    have hends := Search.solveTraced_rename hσ (Or.inl rfl) hl hr options
    exact ⟨congrArg Prod.fst hends, congrArg Prod.snd hends⟩
  · intro rules e hσ
    have he := over_names e
    exact ⟨simplify_rename hσ rules he, by rw [simplifySteps_rename hσ rules he]⟩

/-- Exchanges `x` and `y`, and takes all other names for one. -/
def exchange (n : String) : String := if n = "x" then "y" else if n = "y" then "x" else "z"

/-- `y - x = 3` -/
def differenceEquation : Job := ⟨var "y" - var "x", const 3⟩

def differenceSolution : Solution where
  value := var "y" - const 3
  derivation := [differenceEquation, ⟨var "y", const 3 + var "x"⟩, ⟨var "x", var "y" - const 3⟩]
  explored := 6

/-- `x - (y - 0 - y + x)` -/
def vanishingDifference : Expr := var "x" - (var "y" - const 0 - var "y" + var "x")

theorem names_opaque_exchange :
    exchange "a" = exchange "b" ∧ Set.InjOn exchange {"x", "y"} ∧
      solve "y" (var "x" - var "y") (const 3) = .ok (differenceSolution.rename exchange) ∧
      (vanishingDifference.rename exchange).simplify .extended = const 0 ∧
      ((vanishingDifference.rename exchange).simplifySteps .extended).2 =
        [.subtractZero, .cancelLikeTerms, .addZero, .cancelLikeTerms] := by
  have hsolved : solve "x" differenceEquation.lhs differenceEquation.rhs =
      .ok differenceSolution := by
    decide +kernel
  have hsteps : vanishingDifference.simplifySteps .extended =
      (const 0, [.subtractZero, .cancelLikeTerms, .addZero, .cancelLikeTerms]) := by
    decide +kernel
  have hapart : Set.InjOn exchange {"x", "y"} := by
    rintro m (rfl | rfl) n (rfl | rfl) hmn
    · rfl
    · exact absurd hmn (by decide)
    · exact absurd hmn (by decide)
    · rfl
  have hequation : ∀ n, n = "x" ∨ n ∈ ["y", "x"] ∨ n ∈ [] → n = "x" ∨ n = "y" := by
    simp only [List.mem_cons, List.not_mem_nil, or_false]
    tauto
  have hvanishes : vanishingDifference.simplify .extended = const 0 := congrArg Prod.fst hsteps
  have hdifference : ∀ n ∈ vanishingDifference.names, n = "x" ∨ n = "y" := by decide
  obtain ⟨hsolve, hsimplify⟩ := names_opaque exchange
  obtain ⟨hend, -⟩ :=
    hsolve "x" differenceEquation.lhs differenceEquation.rhs {} (hapart.mono hequation)
  obtain ⟨hresult, hlisted⟩ := hsimplify .extended vanishingDifference (hapart.mono hdifference)
  rw [hsolved] at hend
  rw [hsteps] at hlisted
  rw [hvanishes] at hresult
  exact ⟨by decide, hapart, hend, hresult, hlisted⟩

end Rearrange

import Rearrange.Proofs.SearchOutcome

namespace Rearrange

namespace Job

/-- No other job in reach of `root` counts as the same as `c` or its mirror. -/
def Unmistaken (target : String) (rules : RuleSet) (c root : Job) : Prop :=
  ∀ b bs, Path target rules root b bs →
    ((b == c) = true → b = c) ∧ ((b == c.mirrored) = true → b = c.mirrored)

variable {target : String} {rules : RuleSet} {root k : Job}

theorem Path.unmistaken (hzero : ∀ k js, Path target rules root k js → -0 ∉ k.constants)
    {ks : List Job} (hp : Path target rules root k ks) :
    ∀ c ∈ ks, c.Unmistaken target rules root := by
  intro c hc b bs hb
  obtain ⟨i, hi⟩ := List.mem_iff_getElem?.mp hc
  obtain ⟨cs, hcs, -⟩ := exists_path_of_mem_generation (getElem?_mem_generation hp.1 hp.2.2 i c hi)
  have hbz := hzero b bs hb
  have hcz := hzero c cs hcs
  exact ⟨eq_of_beq hbz hcz, eq_of_beq hbz (mt mem_constants_mirrored.mp hcz)⟩

end Job

namespace Search

variable {target : String} {rules : RuleSet} {root : Job} {n : Nat} {s : Search}

theorem Layered.exists_line (h : s.Layered target rules root n) {i : Nat} {a : Admission}
    (ha : s.queue.admissions[i]? = some a) : ∃ js, s.queue.Line i js := by
  obtain ⟨js, -, hl⟩ := JobQueue.derivation?_eq_some h.parentsBefore (JobQueue.lt_admitted ha)
  exact ⟨js, hl⟩

theorem Layered.not_accepted (h : s.Layered target rules root n) {i : Nat} {a : Admission}
    (hi : i < n) (ha : s.queue.admissions[i]? = some a) : ¬ a.job.Accepted target :=
  Job.not_accepted_of_value? (h.expanded i a hi ha).1

theorem Layered.exists_line_of_mem_successors (h : s.Layered target rules root n) {i : Nat}
    {a : Admission} {c : Job} {js : List Job} (hi : i < n)
    (ha : s.queue.admissions[i]? = some a) (hl : s.queue.Line i js)
    (hc : c ∈ a.job.successors target rules) :
    ∃ (k : Nat) (b : Admission) (ks : List Job), s.queue.admissions[k]? = some b ∧
      ((b.job == c) = true ∨ (b.job == c.mirrored) = true) ∧ s.queue.Line k ks ∧
        ks.length ≤ js.length + 1 := by
  obtain ⟨k, b, hb, heq, hparent⟩ := (h.expanded i a hi ha).2 c hc
  obtain ⟨ks, hk⟩ := h.exists_line hb
  refine ⟨k, b, ks, hb, heq, hk, ?_⟩
  cases hk with
  | root hk => simp
  | @child _ p j ls hk hp =>
    cases Option.some.inj (hk.symm.trans hb)
    have hle := h.line_length_le (hparent p rfl) hp hl
    rw [List.length_append, List.length_singleton]
    omega

section

variable {k : Job} {ks : List Job} (hp : Job.Path target rules root k ks)
  (hks : ∀ c ∈ ks, c.Unmistaken target rules root)

include hp hks

/-- Every job on the path has been admitted, up to mirroring, no deeper than it is, or a job that is
less deep has not been expanded yet. -/
theorem Layered.covered (h : s.Layered target rules root n) (m : Nat) (c : Job)
    (hc : ks[m]? = some c) :
    ∃ (i : Nat) (a : Admission) (js : List Job), s.queue.admissions[i]? = some a ∧
      s.queue.Line i js ∧ ((a.job = c ∨ a.job = c.mirrored) ∧ js.length ≤ m + 1 ∨
        n ≤ i ∧ js.length ≤ m) := by
  induction m generalizing c with
  | zero =>
    rw [← List.head?_eq_getElem?, hp.1] at hc
    cases Option.some.inj hc
    exact ⟨0, _, _, h.first, .root h.first, Or.inl ⟨Or.inl rfl, Nat.le_refl 1⟩⟩
  | succ m ih =>
    obtain ⟨hm, rfl⟩ := List.getElem?_eq_some_iff.mp hc
    have hcd := hp.2.2.getElem m hm
    obtain ⟨i, a, js, ha, hl, hcase⟩ := ih ks[m] (List.getElem?_eq_getElem (by omega))
    rcases hcase with ⟨hjob, hlen⟩ | ⟨hi, hlen⟩
    · by_cases hi : i < n
      · -- What was admitted for the job before this one may be its mirror.
        have hca : ks[m + 1] ∈ a.job.successors target rules := by
          rcases hjob with hjob | hjob
          · rwa [hjob]
          · rw [hjob]
            exact Job.mem_successors_mirrored.mpr hcd
        obtain ⟨k, b, bs, hb, heq, hk, hle⟩ := h.exists_line_of_mem_successors hi ha hl hca
        obtain ⟨hequal, hmirror⟩ := hks _ (List.getElem_mem hm) _ _ (h.path hk hb)
        exact ⟨k, b, bs, hb, hk, Or.inl ⟨heq.imp hequal hmirror, by omega⟩⟩
      · exact ⟨i, a, js, ha, hl, Or.inr ⟨by omega, hlen⟩⟩
    · exact ⟨i, a, js, ha, hl, Or.inr ⟨hi, by omega⟩⟩

theorem Layered.exists_waiting (h : s.Layered target rules root n) (hk : k.Accepted target) :
    ∃ (i : Nat) (a : Admission) (js : List Job), n ≤ i ∧ s.queue.admissions[i]? = some a ∧
      s.queue.Line i js ∧ js.length ≤ ks.length := by
  have hpos := hp.length_pos
  have hlast := hp.2.1
  rw [List.getLast?_eq_getElem?] at hlast
  obtain ⟨i, a, js, ha, hl, ⟨hjob, hlen⟩ | ⟨hi, hlen⟩⟩ := h.covered hp hks (ks.length - 1) k hlast
  · refine ⟨i, a, js, Nat.le_of_not_lt fun hi => ?_, ha, hl, by omega⟩
    refine h.not_accepted hi ha ?_
    rcases hjob with hjob | hjob
    · rwa [hjob]
    · rw [hjob]
      exact Job.accepted_mirrored.mpr hk
  · exact ⟨i, a, js, hi, ha, hl, by omega⟩

end

end Search

theorem JobQueue.Distinct.nodup {q : JobQueue} (h : q.Distinct) :
    (q.admissions.toList.map Admission.job).Nodup := by
  refine List.Pairwise.map _ ?_ (List.pairwise_iff_getElem.mpr ?_)
    (R := fun a b => (a.job == b.job) = false)
  · intro a b hab heq
    rw [heq, Job.beq_refl] at hab
    cases hab
  · intro i k hi hk hik
    rw [Array.length_toList] at hi hk
    exact (h i k _ _ hik (Array.getElem?_eq_getElem hi) (Array.getElem?_eq_getElem hk)).1

theorem Search.Layered.index_lt {target : String} {rules : RuleSet} {root : Job} {n : Nat}
    {s : Search} (h : s.Layered target rules root n) {i l : Nat} {a : Admission} {js : List Job}
    (ha : s.queue.admissions[i]? = some a) (hl : s.queue.Line i js) (hlen : js.length ≤ l) :
    i < ((List.range l).flatMap (root.generation target rules)).length := by
  have hadm := JobQueue.lt_admitted ha
  have hnodup : ((s.queue.admissions.toList.map Admission.job).take (i + 1)).Nodup :=
    h.distinct.nodup.sublist (List.take_sublist _ _)
  have hsubset : (s.queue.admissions.toList.map Admission.job).take (i + 1) ⊆
      (List.range l).flatMap (root.generation target rules) := by
    intro j hj
    obtain ⟨k, hk⟩ := List.mem_iff_getElem?.mp hj
    obtain ⟨hki, hk⟩ : k < i + 1 ∧ (s.queue.admissions[k]?).map Admission.job = some j := by
      simpa [List.getElem?_take] using hk
    obtain ⟨b, hb, rfl⟩ := Option.map_eq_some_iff.mp hk
    obtain ⟨ks, hks⟩ := h.exists_line hb
    have hle := h.line_length_le (Nat.le_of_lt_succ hki) hks hl
    have hpath := h.path hks hb
    have hpos := hpath.length_pos
    exact List.mem_flatMap.mpr ⟨ks.length - 1, List.mem_range.mpr (by omega), hpath.mem_generation⟩
  have hle := hnodup.length_le_of_subset hsubset
  rw [List.length_take, List.length_map, Array.length_toList] at hle
  change i < s.queue.admissions.size at hadm
  omega

section

variable {target : String} {lhs rhs : Expr} {options : Solve.Options} {k : Job} {ks : List Job}
  (hp : Job.Path target options.rules ((Job.mk lhs rhs).simplify options.rules) k ks)
  (hk : k.Accepted target)

include hp hk

theorem explored_of_unmistaken {name : String} {explored : Nat}
    (h : solve target lhs rhs options = .error (.unsolvable name explored))
    (hks : ∀ c ∈ ks, c.Unmistaken target options.rules ((Job.mk lhs rhs).simplify options.rules)) :
    explored = options.budget ∧
      explored < ((List.range ks.length).flatMap (((Job.mk lhs rhs).simplify
        options.rules).generation target options.rules)).length := by
  obtain ⟨s, hl, hpopped, hstop⟩ := solve_eq_unsolvable h
  obtain ⟨i, b, js, hi, hb, hjs, hlen⟩ := hl.exists_waiting hp hks hk
  have hlt := JobQueue.lt_admitted hb
  have hindex := hl.index_lt hb hjs hlen
  refine ⟨hstop.resolve_right fun hpop => ?_, by omega⟩
  have := JobQueue.pop_eq_none_iff.mp hpop
  omega

/-- A path of jobs that cannot be mistaken for others leads every search with a large enough budget
to a solution. -/
theorem solve_of_unmistaken (accept : options.rejectNonFinite = false)
    (hks : ∀ c ∈ ks, c.Unmistaken target options.rules ((Job.mk lhs rhs).simplify options.rules))
    (hbudget : ((List.range ks.length).flatMap (((Job.mk lhs rhs).simplify
      options.rules).generation target options.rules)).length ≤ options.budget) :
    ∃ s, solve target lhs rhs options = .ok s := by
  cases hsolve : solve target lhs rhs options with
  | ok s => exact ⟨s, rfl⟩
  | error e =>
    obtain ⟨explored, rfl⟩ := solve_eq_error hsolve accept
    obtain ⟨heq, hlt⟩ := explored_of_unmistaken hp hk hsolve hks
    omega

end

section

variable {target : String} {lhs rhs : Expr} {options : Solve.Options}
  (hzero : ∀ k js, Job.Path target options.rules ((Job.mk lhs rhs).simplify options.rules) k js →
    -0 ∉ k.constants)

include hzero

theorem Solution.derivation_length_le {s : Solution} (h : solve target lhs rhs options = .ok s)
    {k : Job} {ks : List Job}
    (hp : Job.Path target options.rules ((Job.mk lhs rhs).simplify options.rules) k ks)
    (hk : k.Accepted target) : s.derivation.length ≤ ks.length := by
  obtain ⟨n, search, a, -, hl, ha, -, hline, -⟩ := solve_eq_ok h
  obtain ⟨i, b, js, hi, hb, hjs, hlen⟩ := hl.exists_waiting hp (hp.unmistaken hzero) hk
  have hle := hl.line_length_le hi hline hjs
  omega

theorem explored_of_unsolvable {name : String} {explored : Nat}
    (h : solve target lhs rhs options = .error (.unsolvable name explored))
    {k : Job} {ks : List Job}
    (hp : Job.Path target options.rules ((Job.mk lhs rhs).simplify options.rules) k ks)
    (hk : k.Accepted target) :
    explored = options.budget ∧
      explored < ((List.range ks.length).flatMap (((Job.mk lhs rhs).simplify
        options.rules).generation target options.rules)).length :=
  explored_of_unmistaken hp hk h (hp.unmistaken hzero)

end

/-- The search is complete, its derivations are as short as possible, and where it runs out of jobs
there was nothing to be found. -/
theorem solve_finds_shortest {target : String} {lhs rhs : Expr} {rules : RuleSet}
    (hzero : ∀ k js, Job.Path target rules ((Job.mk lhs rhs).simplify rules) k js →
      -0 ∉ k.constants) :
    ((∃ budget s, solve target lhs rhs ⟨budget, rules, false⟩ = .ok s) ↔
        ∃ k js, Job.Path target rules ((Job.mk lhs rhs).simplify rules) k js ∧
          k.Accepted target) ∧
      (∀ budget s, solve target lhs rhs ⟨budget, rules, false⟩ = .ok s →
        (∃ k, Job.Path target rules ((Job.mk lhs rhs).simplify rules) k s.derivation ∧
          k.Accepted target) ∧
        ∀ k js, Job.Path target rules ((Job.mk lhs rhs).simplify rules) k js →
          k.Accepted target → s.derivation.length ≤ js.length) ∧
      ∀ budget name explored,
        solve target lhs rhs ⟨budget, rules, false⟩ = .error (.unsolvable name explored) →
          explored < budget →
            ∀ k js, Job.Path target rules ((Job.mk lhs rhs).simplify rules) k js →
              ¬ k.Accepted target := by
  have hpath (budget : Nat) (s : Solution)
      (h : solve target lhs rhs ⟨budget, rules, false⟩ = .ok s) :
      ∃ k, Job.Path target rules ((Job.mk lhs rhs).simplify rules) k s.derivation ∧
        k.Accepted target := by
    obtain ⟨k, hp, hvalue⟩ := solve_derivation h
    exact ⟨k, hp, Job.accepted_of_value? hvalue⟩
  refine ⟨⟨?_, ?_⟩, ?_, ?_⟩
  · rintro ⟨budget, s, h⟩
    obtain ⟨k, hp, hk⟩ := hpath budget s h
    exact ⟨k, s.derivation, hp, hk⟩
  · rintro ⟨k, js, hp, hk⟩
    let budget := ((List.range js.length).flatMap (((Job.mk lhs rhs).simplify rules).generation
      target rules)).length
    cases hsolve : solve target lhs rhs ⟨budget, rules, false⟩ with
    | ok s => exact ⟨budget, s, hsolve⟩
    | error e =>
      obtain ⟨explored, rfl⟩ := solve_eq_error hsolve rfl
      obtain ⟨heq, hlt⟩ := explored_of_unsolvable hzero hsolve hp hk
      exact absurd heq (Nat.ne_of_lt hlt)
  · intro budget s h
    exact ⟨hpath budget s h, fun k js hp hk => Solution.derivation_length_le hzero h hp hk⟩
  · intro budget name explored h hlt k js hp hk
    have heq := (explored_of_unsolvable hzero h hp hk).1
    exact absurd heq (Nat.ne_of_lt hlt)

/-- `x + 1 = 2` -/
def sumEquation : Job := ⟨.var "x" + .const 1, .const 2⟩

def sumDerivation : List Job := [sumEquation, ⟨.var "x", .const 1⟩]

/-- The jobs that are at most six steps away from `x + 1 = 2`. -/
def sumJobs (target : String) : List Job :=
  (fun js => js.flatMap (Job.successors target .baseline) ∪ js)^[6] [sumEquation]

theorem solve_finds_shortest_sum :
    (∀ target ∈ ["x", "z"], ∀ k js,
        Job.Path target .baseline (sumEquation.simplify .baseline) k js → -0 ∉ k.constants) ∧
      (∃ budget s, solve "x" sumEquation.lhs sumEquation.rhs ⟨budget, .baseline, false⟩ = .ok s) ∧
      (∀ budget s, solve "x" sumEquation.lhs sumEquation.rhs ⟨budget, .baseline, false⟩ = .ok s →
        s.derivation.length ≤ 2) ∧
      solve "z" sumEquation.lhs sumEquation.rhs = .error (.unsolvable "z" 17) ∧
      ∀ k js, Job.Path "z" .baseline (sumEquation.simplify .baseline) k js → ¬ k.Accepted "z" := by
  -- No path leaves the jobs that are at most six steps away.
  have hclosed : ∀ target ∈ ["x", "z"], ∀ j ∈ sumJobs target, (∀ c ∈ j.constants, c ≠ -0) ∧
      ∀ k ∈ j.successors target .baseline, ∃ m ∈ sumJobs target, m = k := by
    decide +kernel
  have hroot : ∀ target ∈ ["x", "z"], ∃ j ∈ sumJobs target, j = sumEquation.simplify .baseline := by
    decide +kernel
  have hzero : ∀ target ∈ ["x", "z"], ∀ k js,
      Job.Path target .baseline (sumEquation.simplify .baseline) k js → -0 ∉ k.constants := by
    intro target ht k js hp
    have hk : k ∈ sumJobs target := by
      refine hp.induction (p := (· ∈ sumJobs target)) ?_ ?_
      · obtain ⟨j, hj, rfl⟩ := hroot target ht
        exact hj
      · intro a b ha hb
        obtain ⟨m, hm, rfl⟩ := (hclosed target ht a ha).2 b hb
        exact hm
    exact fun hmem => (hclosed target ht k hk).1 _ hmem rfl
  have hpath : Job.Path "x" .baseline (sumEquation.simplify .baseline) ⟨.var "x", .const 1⟩
      sumDerivation := by
    refine ⟨by decide +kernel, by decide +kernel, ?_⟩
    refine List.isChain_pair.mpr ?_
    have hstep : ∃ k ∈ sumEquation.successors "x" .baseline, k = ⟨.var "x", .const 1⟩ := by
      decide +kernel
    obtain ⟨k, hk, rfl⟩ := hstep
    exact hk
  have haccepted : (Job.mk (.var "x") (.const 1)).Accepted "x" := Or.inl ⟨rfl, rfl⟩
  have hfails : solve "z" sumEquation.lhs sumEquation.rhs = .error (.unsolvable "z" 17) := by
    decide +kernel
  have hx := solve_finds_shortest (hzero "x" (by simp))
  have hz := solve_finds_shortest (hzero "z" (by simp))
  exact ⟨hzero, hx.1.mpr ⟨_, _, hpath, haccepted⟩,
    fun budget s h => (hx.2.1 budget s h).2 _ _ hpath haccepted, hfails,
    hz.2.2 100 "z" 17 hfails (by decide)⟩

end Rearrange

import Rearrange.Proofs.NormalForm
import Rearrange.Proofs.Occurrence
import Rearrange.Proofs.ShortestPaths

namespace Rearrange

namespace Expr

theorem isValue_of_asConst? {e : Expr} (h : e.asConst? = none) (v : Float) :
    e.isValue v = false := by
  cases e with
  | const c => cases h
  | _ => rfl

theorem settled_bin {l r : Expr} (op : BinOp) (hl : l.asConst? = none) (hr : r.asConst? = none) :
    (bin op l r).Settled .baseline := by
  refine List.findSome?_eq_none_iff.mpr fun s hs => Option.map_eq_none_iff.mpr ?_
  refine Option.eq_none_iff_forall_ne_some.mpr fun e' h => ?_
  cases Step.rewrites_of_rewrite? h with
  | fold op a b => cases hl
  | zeroAdd hv | subtractFromZero hv | zeroMultiply hv | oneMultiply hv | divideZero hv =>
    rw [isValue_of_asConst? hl] at hv
    cases hv
  | addZero hv | subtractZero hv | multiplyZero hv | multiplyOne hv =>
    rw [isValue_of_asConst? hr] at hv
    cases hv
  | cancel | combine => exact absurd hs (by decide)

def opposite : Expr → Expr
  | neg e => e
  | e => neg e

theorem constants_opposite (e : Expr) : e.opposite.constants = e.constants := by
  cases e <;> rfl

theorem names_opposite (e : Expr) : e.opposite.names = e.names := by
  cases e <;> rfl

theorem size_opposite_le (e : Expr) : e.opposite.size ≤ e.size + 1 := by
  cases e with
  | neg e => simp only [opposite, size]; omega
  | _ => exact Nat.le_refl _

/-- A simplified expression that is more than a constant, with no constant in it but one. -/
structure Clean (e : Expr) : Prop where
  normal : e.Normal .baseline
  asConst? : e.asConst? = none
  ones : ∀ c ∈ e.constants, c = 1

theorem Clean.var (n : String) : (var n).Clean :=
  ⟨settled_var _ n, rfl, fun _ hc => nomatch hc⟩

theorem Clean.bin {l r : Expr} (op : BinOp) (hl : l.Clean) (hr : r.Clean) : (bin op l r).Clean := by
  refine ⟨⟨hl.normal, hr.normal, settled_bin op hl.asConst? hr.asConst?⟩, rfl, fun c hc => ?_⟩
  rcases List.mem_append.mp hc with hc | hc
  · exact hl.ones c hc
  · exact hr.ones c hc

theorem Clean.opposite {e : Expr} (h : e.Clean) : e.opposite.Clean := by
  cases e with
  | const c => cases h.asConst?
  | var n => exact ⟨⟨h.normal, rfl⟩, rfl, h.ones⟩
  | bin op l r => exact ⟨⟨h.normal, rfl⟩, rfl, h.ones⟩
  | neg e =>
    obtain ⟨⟨he, hsettled⟩, -, hones⟩ := h
    refine ⟨he, ?_, hones⟩
    cases e with
    | const c => cases hsettled
    | _ => rfl

theorem Clean.settle_neg {e : Expr} (h : e.Clean) : (settle .baseline (neg e)).1 = e.opposite := by
  cases e with
  | const c => cases h.asConst?
  | var n => exact congrArg Prod.fst (settle_of_settled h.opposite.normal.2)
  | bin op l r => exact congrArg Prod.fst (settle_of_settled h.opposite.normal.2)
  | neg e =>
    have hfirst : Step.first? RuleSet.baseline.table (neg (neg e)) = some (.doubleNegation, e) := rfl
    rw [settle_of_first? hfirst, settle_of_settled (normal_iff.mp h.normal.1).2]
    rfl

theorem Clean.simplify_neg {e : Expr} (h : e.Clean) : (-e).simplify .baseline = e.opposite := by
  change (neg e).simplify .baseline = _
  rw [Expr.simplify_neg, h.normal.simplify_eq, h.settle_neg]

theorem Clean.reciprocal {e : Expr} (h : e.Clean) : (const 1 / e).Clean := by
  refine ⟨⟨normal_const _ 1, h.normal, ?_⟩, rfl, fun c hc => ?_⟩
  · cases e with
    | const c => cases h.asConst?
    | _ => rfl
  · rcases List.mem_cons.mp hc with rfl | hc
    · rfl
    · exact h.ones c hc

theorem clean_simplify {e : Expr} (h : e.constants = []) :
    (e.simplify .baseline).Clean ∧ (e.simplify .baseline).constants = [] ∧
      (e.simplify .baseline).names = e.names := by
  induction e with
  | const c => cases h
  | var n =>
    rw [simplify_var]
    exact ⟨.var n, rfl, rfl⟩
  | neg e ih =>
    obtain ⟨hclean, hnone, hnames⟩ := ih h
    rw [simplify_neg, hclean.settle_neg, constants_opposite, names_opposite]
    exact ⟨hclean.opposite, hnone, hnames⟩
  | bin op l r ihl ihr =>
    obtain ⟨hl, hr⟩ := List.append_eq_nil_iff.mp h
    obtain ⟨hlclean, hlnone, hlnames⟩ := ihl hl
    obtain ⟨hrclean, hrnone, hrnames⟩ := ihr hr
    rw [simplify_bin, settle_of_settled (settled_bin op hlclean.asConst? hrclean.asConst?)]
    exact ⟨hlclean.bin op hrclean, List.append_eq_nil_iff.mpr ⟨hlnone, hrnone⟩,
      by rw [names, names, hlnames, hrnames]⟩

theorem Normal.clean {e : Expr} (h : e.Normal .baseline) (hnone : e.constants = []) : e.Clean := by
  have hclean := (clean_simplify hnone).1
  rwa [h.simplify_eq] at hclean

end Expr

def BinOp.inverse : BinOp → BinOp
  | add => sub
  | sub => add
  | mul => div
  | div => mul

namespace Job

open Rearrange.Expr

variable {target : String} {rules : RuleSet} {j k : Job}

theorem Path.cons {l : Job} {js : List Job} (h : Path target rules k l js)
    (hk : k ∈ j.successors target rules) : Path target rules j l (j :: js) := by
  obtain ⟨hhead, hlast, hchain⟩ := h
  refine ⟨rfl, ?_, ?_⟩
  · rw [List.getLast?_cons, hlast]
    rfl
  · refine List.isChain_cons.mpr ⟨fun b hb => ?_, hchain⟩
    cases Option.some.inj (hhead.symm.trans hb)
    exact hk

/-- From `j` a path of jobs with no constant but one leads to an accepted job. -/
def Leads (target : String) (j : Job) : Prop :=
  ∃ k js, Path target .baseline j k js ∧ k.Accepted target ∧ ∀ c ∈ js, ∀ d ∈ c.constants, d = 1

theorem Leads.of_accepted (h : j.Accepted target) (hones : ∀ c ∈ j.constants, c = 1) :
    j.Leads target :=
  ⟨j, [j], .singleton j, h, fun c hc => by rwa [List.mem_singleton.mp hc]⟩

theorem Leads.cons (h : k.Leads target) (hk : k ∈ j.successors target .baseline)
    (hones : ∀ c ∈ j.constants, c = 1) : j.Leads target := by
  obtain ⟨l, js, hpath, hl, hjs⟩ := h
  refine ⟨l, j :: js, hpath.cons hk, hl, fun c hc => ?_⟩
  rcases List.mem_cons.mp hc with rfl | hc
  · exact hones
  · exact hjs c hc

theorem Leads.mirrored (h : j.Leads target) : j.mirrored.Leads target := by
  obtain ⟨k, js, ⟨hhead, hlast, hchain⟩, hk, hjs⟩ := h
  obtain ⟨ks, rfl⟩ := List.head?_eq_some_iff.mp hhead
  have hones : ∀ c ∈ j.mirrored.constants, c = 1 := fun c hc =>
    hjs j (List.mem_cons_self ..) c (mem_constants_mirrored.mp hc)
  cases ks with
  | nil =>
    cases Option.some.inj hlast
    exact .of_accepted (accepted_mirrored.mpr hk) hones
  | cons m ks =>
    obtain ⟨hm, hchain⟩ := List.isChain_cons_cons.mp hchain
    have htail : m.Leads target := by
      refine ⟨k, m :: ks, ⟨rfl, ?_, hchain⟩, hk, fun c hc => hjs c (List.mem_cons_of_mem _ hc)⟩
      rwa [List.getLast?_cons_cons] at hlast
    exact htail.cons (mem_successors_mirrored.mpr hm) hones

theorem Leads.of_rewrite {s t a b a' b' : Expr} (hm : ⟨a, b⟩ ∈ Solve.rewrite target s t)
    (ha : a.simplify .baseline = a') (hb : b.simplify .baseline = b')
    (h : (Job.mk a' b').Leads target) (hs : ∀ c ∈ s.constants, c = 1)
    (ht : ∀ c ∈ t.constants, c = 1) : (Job.mk s t).Leads target := by
  subst ha hb
  refine h.cons (List.mem_map.mpr ⟨_, List.mem_append_left _ hm, rfl⟩) fun c hc => ?_
  rcases List.mem_append.mp hc with hc | hc
  · exact hs c hc
  · exact ht c hc

theorem mem_rewrite_left (target : String) (op : BinOp) (l r t : Expr) :
    ⟨l, .bin op.inverse t r⟩ ∈ Solve.rewrite target (.bin op l r) t := by
  cases op <;> exact List.mem_cons_self ..

theorem mem_rewrite_right {s t : Expr} {a b : Job} (h : Solve.rewrite target s t = [a, b]) :
    b ∈ Solve.rewrite target s t := by
  rw [h]
  exact List.mem_cons_of_mem _ (List.mem_singleton_self b)

theorem Leads.divisor {l r t : Expr} (hl : l.Clean) (hr : r.Clean) (ht : t.Clean)
    (h : (Job.mk r (.const 1 / (t / l))).Leads target) : (Job.mk (l / r) t).Leads target := by
  have hq : (t / l).Clean := ht.bin .div hl
  have hqr : (t / l * r).Clean := hq.bin .mul hr
  have hone : ∀ c ∈ (const 1).constants, c = 1 := fun c hc => List.mem_singleton.mp hc
  have hproduct : (Job.mk (t / l * r) (.const 1)).Leads target :=
    .of_rewrite (mem_rewrite_right rfl) hr.normal.simplify_eq hq.reciprocal.normal.simplify_eq h
      hqr.ones hone
  have hreciprocal : (Job.mk (.const 1 / r) (t / l)).Leads target :=
    .of_rewrite (List.mem_cons_self ..) (simplify_const ..) hqr.normal.simplify_eq
      hproduct.mirrored hr.reciprocal.ones hq.ones
  exact .of_rewrite (mem_rewrite_right rfl) hr.reciprocal.normal.simplify_eq hq.normal.simplify_eq
    hreciprocal (hl.bin .div hr).ones ht.ones

/-- The side with the target loses an operation with every step. -/
theorem leads_of_sole_occurrence {s t : Expr} (hs : s.Normal .baseline) (hnone : s.constants = [])
    (hsole : s.names.count target = 1) (ht : t.Clean) (hfree : t.mentions target = false) :
    (Job.mk s t).Leads target := by
  have hones : ∀ c ∈ s.constants, c = 1 := (hs.clean hnone).ones
  match s with
  | .const c => cases hnone
  | .var n =>
    have hn : n = target := by simpa [names, List.count_singleton] using hsole
    subst hn
    exact .of_accepted (Or.inl ⟨rfl, hfree⟩) ht.ones
  | .neg e =>
    refine .of_rewrite (List.mem_singleton_self _) hs.1.simplify_eq ht.simplify_neg ?_ hones ht.ones
    refine leads_of_sole_occurrence hs.1 hnone hsole ht.opposite ?_
    rwa [mentions_eq_false_iff, names_opposite, ← mentions_eq_false_iff]
  | .bin op l r =>
    obtain ⟨hlnone, hrnone⟩ := List.append_eq_nil_iff.mp hnone
    have hl := hs.1.clean hlnone
    have hr := hs.2.1.clean hrnone
    have hcount : l.names.count target + r.names.count target = 1 := by
      rw [← List.count_append]
      exact hsole
    have hlsize := one_le_size l
    have hrsize := one_le_size r
    have hmoved {u v : Expr} (o : BinOp) (hu : u.mentions target = false)
        (hv : v.names.count target = 0) : (Expr.bin o u v).mentions target = false := by
      rw [mentions, hu, mentions_eq_false_iff.mpr hv]
      rfl
    by_cases hleft : l.names.count target = 1
    · have htr := ht.bin op.inverse hr
      refine .of_rewrite (mem_rewrite_left target op l r t) hl.normal.simplify_eq
        htr.normal.simplify_eq ?_ hones ht.ones
      exact leads_of_sole_occurrence hl.normal hlnone hleft htr (hmoved _ hfree (by omega))
    · have hright : r.names.count target = 1 := by omega
      cases op with
      | add =>
        have htl := ht.bin .sub hl
        refine .of_rewrite (mem_rewrite_right rfl) hr.normal.simplify_eq htl.normal.simplify_eq ?_
          hones ht.ones
        exact leads_of_sole_occurrence hr.normal hrnone hright htl (hmoved _ hfree (by omega))
      | sub =>
        have htl := ht.bin .sub hl
        have hopposite := size_opposite_le r
        refine .of_rewrite (mem_rewrite_right rfl) hr.simplify_neg htl.normal.simplify_eq ?_
          hones ht.ones
        refine leads_of_sole_occurrence hr.opposite.normal ?_ ?_ htl (hmoved _ hfree (by omega))
        · rwa [constants_opposite]
        · rwa [names_opposite]
      | mul =>
        have htl := ht.bin .div hl
        refine .of_rewrite (mem_rewrite_right rfl) hr.normal.simplify_eq htl.normal.simplify_eq ?_
          hones ht.ones
        exact leads_of_sole_occurrence hr.normal hrnone hright htl (hmoved _ hfree (by omega))
      | div =>
        have htl := ht.bin .div hl
        have hquotient : (t / l).mentions target = false := hmoved _ hfree (by omega)
        refine .divisor hl hr ht ?_
        exact leads_of_sole_occurrence hr.normal hrnone hright htl.reciprocal hquotient
termination_by s.size
decreasing_by all_goals (simp only [Expr.size] at *; omega)

theorem unmistaken_of_ones {root : Job} (h : ∀ c ∈ j.constants, c = 1) :
    j.Unmistaken target rules root := by
  have hone : (1 : Float) ≠ 0 ∧ (1 : Float) ≠ -0 := by decide
  refine fun b bs _ => ⟨eq_of_beq_of_nonzero fun c hc => ?_, eq_of_beq_of_nonzero fun c hc => ?_⟩
  · rw [h c hc]
    exact hone
  · rw [h c (mem_constants_mirrored.mp hc)]
    exact hone

end Job

/-- An equation without constants that has the target at one place only is solved, if the search may
go on for long enough. -/
theorem solve_sole_occurrence {target : String} {lhs rhs : Expr} (hl : lhs.constants = [])
    (hr : rhs.constants = []) (hsole : (lhs.names ++ rhs.names).count target = 1) :
    ∃ n, ∀ budget, n ≤ budget → ∃ s, solve target lhs rhs ⟨budget, .baseline, false⟩ = .ok s := by
  obtain ⟨hlclean, hlnone, hlnames⟩ := Expr.clean_simplify hl
  obtain ⟨hrclean, hrnone, hrnames⟩ := Expr.clean_simplify hr
  have hleads : ((Job.mk lhs rhs).simplify .baseline).Leads target := by
    rw [List.count_append, ← hlnames, ← hrnames] at hsole
    rcases Nat.add_eq_one_iff.mp hsole with ⟨hzero, hone⟩ | ⟨hone, hzero⟩
    · exact (Job.leads_of_sole_occurrence hrclean.normal hrnone hone hlclean
        (Expr.mentions_eq_false_iff.mpr hzero)).mirrored
    · exact Job.leads_of_sole_occurrence hlclean.normal hlnone hone hrclean
        (Expr.mentions_eq_false_iff.mpr hzero)
  obtain ⟨k, js, hp, hk, hones⟩ := hleads
  let root := (Job.mk lhs rhs).simplify .baseline
  refine ⟨((List.range js.length).flatMap (root.generation target .baseline)).length,
    fun budget hbudget => solve_of_unmistaken hp hk rfl (fun c hc => ?_) hbudget⟩
  exact Job.unmistaken_of_ones (hones c hc)

/-- `-a = b / (c - d / x)` -/
def nestedQuotient : Job :=
  ⟨-.var "a", .var "b" / (.var "c" - .var "d" / .var "x")⟩

theorem solve_sole_occurrence_nestedQuotient :
    nestedQuotient.lhs.constants = [] ∧ nestedQuotient.rhs.constants = [] ∧
      (nestedQuotient.lhs.names ++ nestedQuotient.rhs.names).count "x" = 1 ∧
        ∃ n, ∀ budget, n ≤ budget →
          ∃ s, solve "x" nestedQuotient.lhs nestedQuotient.rhs ⟨budget, .baseline, false⟩ = .ok s :=
  ⟨rfl, rfl, by decide, solve_sole_occurrence rfl rfl (by decide)⟩

end Rearrange

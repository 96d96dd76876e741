import Rearrange.Proofs.QueueRuns
import Rearrange.Proofs.SearchLayers

namespace Rearrange

namespace QueueCall

def ParentBelow (n : Nat) : QueueCall → Prop
  | push _ (some p) => p < n
  | _ => True

instance (n : Nat) : DecidablePred (ParentBelow n)
  | push _ (some p) => inferInstanceAs (Decidable (p < n))
  | push _ none | pop | hasSeen _ => inferInstanceAs (Decidable True)

def parent? : QueueCall → Option (Option Nat)
  | push _ parent => some parent
  | _ => none

def admission? : QueueCall → QueueEvent → Option Admission
  | push j parent, .pushed _ true => some ⟨j, parent⟩
  | _, _ => none

def parents (calls : List QueueCall) : List (Option Nat) := calls.filterMap parent?

def accepted : List QueueCall → List QueueEvent → List Admission
  | c :: cs, e :: es => (c.admission? e).toList ++ accepted cs es
  | _, _ => []

def OneRoot (calls : List QueueCall) : Prop := ∀ parent ∈ (parents calls).tail, parent ≠ none

instance (calls : List QueueCall) : Decidable (OneRoot calls) :=
  inferInstanceAs (Decidable (∀ parent ∈ (parents calls).tail, parent ≠ none))

theorem parent_of_admission? {c : QueueCall} {e : QueueEvent} {a : Admission}
    (h : c.admission? e = some a) : c.parent? = some a.parent := by
  unfold admission? at h
  split at h
  next => cases h; rfl
  next => cases h

theorem ParentBelow.lt {c : QueueCall} {e : QueueEvent} {j : Job} {n p : Nat}
    (h : c.ParentBelow n) (ha : c.admission? e = some ⟨j, some p⟩) : p < n := by
  cases c with
  | push k parent =>
    cases Option.some.inj (parent_of_admission? ha)
    exact h
  | pop | hasSeen => cases ha

theorem sublist_parents (calls : List QueueCall) (answers : List QueueEvent) :
    ((accepted calls answers).map Admission.parent).Sublist (parents calls) := by
  induction calls generalizing answers with
  | nil => exact List.nil_sublist _
  | cons c cs ih =>
    cases answers with
    | nil => exact List.nil_sublist _
    | cons e es =>
      have hsplit : parents (c :: cs) = c.parent?.toList ++ parents cs := by
        rw [parents, List.filterMap_cons]
        cases c.parent? <;> rfl
      rw [accepted, List.map_append, hsplit]
      refine List.Sublist.append ?_ (ih es)
      cases h : c.admission? e with
      | none => exact List.nil_sublist _
      | some a => rw [parent_of_admission? h]; exact List.Sublist.refl _

end QueueCall

open QueueCall

namespace JobQueue

/-- Every parent that the calls name is below the index that the pushed job would get. -/
def Orderly (q : JobQueue) : List QueueCall → Prop
  | [] => True
  | c :: cs => c.ParentBelow q.admitted ∧ (q.call c).2.Orderly cs

instance decidableOrderly : (q : JobQueue) → (calls : List QueueCall) → Decidable (q.Orderly calls)
  | _, [] => inferInstanceAs (Decidable True)
  | q, c :: cs =>
    have := decidableOrderly (q.call c).2 cs
    inferInstanceAs (Decidable (c.ParentBelow q.admitted ∧ (q.call c).2.Orderly cs))

section

variable {q r s : JobQueue} {c : QueueCall} {calls : List QueueCall}

theorem admissions_call (q : JobQueue) (c : QueueCall) :
    (q.call c).2.admissions.toList =
      q.admissions.toList ++ (c.admission? (q.call c).1).toList := by
  cases c with
  | push j parent =>
    change (q.push j parent).2.admissions.toList =
      _ ++ ((QueueCall.push j parent).admission? (.pushed j (q.push j parent).1)).toList
    cases hseen : q.hasSeen j with
    | true =>
      rw [push_of_hasSeen hseen]
      exact (List.append_nil _).symm
    | false =>
      rw [push_of_fresh hseen]
      exact Array.toList_push
  | hasSeen j => exact (List.append_nil _).symm
  | pop =>
    unfold call
    cases hpop : q.pop with
    | none => exact (List.append_nil _).symm
    | some p =>
      obtain ⟨-, -, hadm, -⟩ := pop_eq_some hpop
      simp only [hadm]
      exact (List.append_nil _).symm

theorem admissions_run (q : JobQueue) (calls : List QueueCall) :
    (q.run calls).2.admissions.toList =
      q.admissions.toList ++ accepted calls (q.run calls).1 := by
  induction calls generalizing q with
  | nil => exact (List.append_nil _).symm
  | cons c cs ih =>
    have hrest : (q.run (c :: cs)).2.admissions.toList = _ := ih (q.call c).2
    rw [hrest, admissions_call, List.append_assoc]
    rfl

theorem getElem?_call {i : Nat} {a : Admission} :
    (q.call c).2.admissions[i]? = some a ↔
      q.admissions[i]? = some a ∨ i = q.admitted ∧ c.admission? (q.call c).1 = some a := by
  rw [← Array.getElem?_toList, admissions_call, List.getElem?_append, Array.getElem?_toList,
    Array.length_toList, admitted]
  split
  next hi => exact (or_iff_left fun h => absurd h.1 (Nat.ne_of_lt hi)).symm
  next hi =>
    have hnone : q.admissions[i]? = none := Array.getElem?_eq_none (Nat.le_of_not_lt hi)
    rw [hnone]
    cases c.admission? (q.call c).1 with
    | none => simp
    | some b => grind

theorem ParentsBefore.call (h : q.ParentsBefore) (hc : c.ParentBelow q.admitted) :
    (q.call c).2.ParentsBefore := by
  intro i j p hi
  obtain hi | ⟨rfl, ha⟩ := getElem?_call.mp hi
  · exact h i j p hi
  · exact hc.lt ha

theorem ParentsBefore.run (h : q.ParentsBefore) (hcalls : q.Orderly calls) :
    (q.run calls).2.ParentsBefore := by
  induction calls generalizing q with
  | nil => exact h
  | cons c cs ih => exact ih (h.call hcalls.1) hcalls.2

theorem parentsBefore_empty : empty.ParentsBefore :=
  fun _ _ _ ha => absurd (lt_admitted ha) (Nat.not_lt_zero _)

/-- The jobs `js` at the indices `is` lead along the parent links to the one at `i`. -/
structure Ancestry (q : JobQueue) (i : Nat) (is : List Nat) (js : List Job) : Prop where
  jobs : is.map q.job? = js.map some
  root : ∃ r j, is.head? = some r ∧ q.admissions[r]? = some ⟨j, none⟩
  links : is.IsChain fun p k => ∃ j, q.admissions[k]? = some ⟨j, some p⟩
  last : is.getLast? = some i
  ascends : is.Pairwise (· < ·)
  length_le : js.length ≤ i + 1
  fresh : js.Pairwise fun j k => (j == k) = false ∧ (j == k.mirrored) = false

theorem Line.exists_indices {i : Nat} {js : List Job} (h : q.Line i js) :
    ∃ is : List Nat, is.map q.job? = js.map some ∧
      (∃ r j, is.head? = some r ∧ q.admissions[r]? = some ⟨j, none⟩) ∧
        (is.IsChain fun p k => ∃ j, q.admissions[k]? = some ⟨j, some p⟩) ∧
          is.getLast? = some i := by
  induction h with
  | @root i j hi =>
    have hjob : q.job? i = some j := job?_eq_some.mpr ⟨_, hi, rfl⟩
    exact ⟨[i], congrArg ([·]) hjob, ⟨i, j, rfl, hi⟩, List.isChain_singleton i, rfl⟩
  | @child i p j js hi _ ih =>
    obtain ⟨is, hjobs, ⟨r, k, hhead, hr⟩, hlinks, hlast⟩ := ih
    have hjob : q.job? i = some j := job?_eq_some.mpr ⟨_, hi, rfl⟩
    refine ⟨is ++ [i], ?_, ⟨r, k, ?_, hr⟩, ?_, List.getLast?_concat⟩
    · rw [List.map_append, List.map_append, hjobs, List.map_singleton, hjob, List.map_singleton]
    · rw [List.head?_append, hhead]
      rfl
    · refine List.isChain_append.mpr ⟨hlinks, List.isChain_singleton i, ?_⟩
      intro a ha b hb
      cases hlast.symm.trans ha
      cases hb
      exact ⟨j, hi⟩

theorem Line.ancestry {i : Nat} {js : List Job} (h : q.Line i js) (before : q.ParentsBefore)
    (distinct : q.Distinct) : ∃ is, q.Ancestry i is js := by
  obtain ⟨is, hjobs, hroot, hlinks, hlast⟩ := h.exists_indices
  have hascends : is.IsChain (· < ·) := hlinks.imp fun p k ⟨j, hk⟩ => before k j p hk
  exact ⟨is, hjobs, hroot, hlinks, hlast, List.isChain_iff_pairwise.mp hascends,
    h.length_le before, h.pairwise before distinct⟩

theorem Line.unique {i : Nat} {js ks : List Job} (h : q.Line i js) (h' : q.Line i ks) :
    js = ks := by
  induction h generalizing ks with
  | root hi =>
    cases h' with
    | root hi' => cases Option.some.inj (hi.symm.trans hi'); rfl
    | child hi' => cases Option.some.inj (hi.symm.trans hi')
  | child hi _ ih =>
    cases h' with
    | root hi' => cases Option.some.inj (hi.symm.trans hi')
    | child hi' hl' =>
      cases Option.some.inj (hi.symm.trans hi')
      rw [ih hl']

theorem exists_ancestry (before : q.ParentsBefore) (distinct : q.Distinct) {i : Nat}
    (hi : i < q.admitted) :
    ∃ is js, q.derivation? i = some js ∧ (∀ n, i < n → q.traceBack n i = some js.reverse) ∧
      q.Ancestry i is js := by
  obtain ⟨js, hjs, hline⟩ := derivation?_eq_some before hi
  obtain ⟨is, hancestry⟩ := hline.ancestry before distinct
  refine ⟨is, js, hjs, fun n hn => ?_, hancestry⟩
  obtain ⟨ks, hks, hline'⟩ := traceBack_eq_some before n i hn hi
  rw [hks, hline.unique hline']

theorem index_of_root (hroot : OneRoot calls) {i : Nat} {j : Job}
    (h : (empty.run calls).2.admissions[i]? = some ⟨j, none⟩) : i = 0 := by
  rw [← Array.getElem?_toList, admissions_run] at h
  cases i with
  | zero => rfl
  | succ i =>
    have htail : none ∈ ((accepted calls (empty.run calls).1).map Admission.parent).tail := by
      rw [← List.map_tail]
      exact List.mem_map.mpr ⟨_, List.mem_of_getElem? (List.getElem?_tail ▸ h), rfl⟩
    exact absurd rfl (hroot none ((sublist_parents calls _).tail.subset htail))

theorem run_append (q : JobQueue) (calls more : List QueueCall) :
    (q.run (calls ++ more)).2 = ((q.run calls).2.run more).2 := by
  induction calls generalizing q with
  | nil => rfl
  | cons c cs ih => exact ih (q.call c).2

theorem Orderly.append {more : List QueueCall} (h : q.Orderly calls)
    (hmore : (q.run calls).2.Orderly more) : q.Orderly (calls ++ more) := by
  induction calls generalizing q with
  | nil => exact hmore
  | cons c cs ih => exact ⟨h.1, ih h.2 hmore⟩

/-- `r` comes from `q` by calls whose pushes all name a parent, which was admitted before. -/
def Continues (q r : JobQueue) : Prop :=
  ∃ calls, q.Orderly calls ∧ (∀ parent ∈ parents calls, parent ≠ none) ∧ (q.run calls).2 = r

theorem Continues.refl (q : JobQueue) : q.Continues q := ⟨[], trivial, nofun, rfl⟩

theorem Continues.trans (hqr : q.Continues r) (hrs : r.Continues s) : q.Continues s := by
  obtain ⟨calls, horderly, hparents, rfl⟩ := hqr
  obtain ⟨more, horderly', hparents', rfl⟩ := hrs
  refine ⟨calls ++ more, horderly.append horderly', fun parent hparent => ?_, q.run_append ..⟩
  rw [parents, List.filterMap_append] at hparent
  obtain hparent | hparent := List.mem_append.mp hparent
  · exact hparents parent hparent
  · exact hparents' parent hparent

theorem Continues.admitted_le (h : q.Continues r) : q.admitted ≤ r.admitted := by
  obtain ⟨calls, -, -, rfl⟩ := h
  have := congrArg List.length (q.admissions_run calls)
  rw [List.length_append, Array.length_toList, Array.length_toList] at this
  unfold admitted
  omega

theorem continues_push {p : Nat} (h : p < q.admitted) (j : Job) :
    q.Continues (q.push j (some p)).2 := by
  refine ⟨[.push j (some p)], ⟨h, trivial⟩, fun parent hparent => ?_, rfl⟩
  rw [List.mem_singleton.mp hparent]
  exact Option.some_ne_none p

theorem continues_pop {i : Nat} {j : Job} (h : q.pop = some (i, j, r)) : q.Continues r := by
  refine ⟨[.pop], ⟨trivial, trivial⟩, nofun, ?_⟩
  rw [run, run, call, h]

end

end JobQueue

namespace Search

variable {target : String} {rules : RuleSet} {s t : Search}

theorem continues_offer {index : Nat} (h : index < s.queue.admitted) (j : Job) :
    s.queue.Continues (s.offer index j).queue := by
  have hqueue : (s.offer index j).queue = (s.queue.push j (some index)).2 := by
    rw [offer_queue, JobQueue.push]
    split <;> rfl
  rw [hqueue]
  exact JobQueue.continues_push h j

theorem continues_foldl_offer {index : Nat} (h : index < s.queue.admitted) (js : List Job) :
    s.queue.Continues (js.foldl (offer index) s).queue := by
  induction js generalizing s with
  | nil => exact .refl _
  | cons j js ih =>
    have hoffer := continues_offer h j
    exact hoffer.trans (ih (Nat.lt_of_lt_of_le h hoffer.admitted_le))

theorem Expands.continues (h : s.Expands target rules t) : s.queue.Continues t.queue := by
  cases h with
  | @intro index job rest hpop _ =>
    have hrest := JobQueue.continues_pop hpop
    obtain ⟨-, ⟨a, ha, -⟩, -⟩ := JobQueue.pop_eq_some hpop
    have hindex : index < rest.admitted :=
      Nat.lt_of_lt_of_le (JobQueue.lt_admitted ha) hrest.admitted_le
    exact hrest.trans (continues_foldl_offer (s := s.taking index job rest) hindex _)

theorem ExpandsIn.continues {n : Nat} (h : ExpandsIn target rules n s t) :
    s.queue.Continues t.queue := by
  induction h with
  | refl => exact .refl _
  | step hs _ ih => exact hs.continues.trans ih

end Search

open Search

/-- Each admitted job can be traced back along the parent links, if pushes only name parents that
were admitted before. The way goes up in the order of admission, and no job on it comes back, not
even mirrored. The queue of a search is always of this kind. -/
theorem derivations_ascend :
    (∀ calls, JobQueue.empty.Orderly calls →
      (JobQueue.empty.run calls).2.admissions.toList =
          accepted calls (JobQueue.empty.run calls).1 ∧
        ∀ i, i < (JobQueue.empty.run calls).2.admitted → ∃ is js,
          (JobQueue.empty.run calls).2.derivation? i = some js ∧
            (∀ n, i < n → (JobQueue.empty.run calls).2.traceBack n i = some js.reverse) ∧
            (JobQueue.empty.run calls).2.Ancestry i is js ∧
            (OneRoot calls →
              is.head? = some 0 ∧ js.head? = (JobQueue.empty.run calls).2.job? 0)) ∧
      ∀ target lhs rhs rules n s, ExpandsIn target rules n (start target rules lhs rhs) s →
        ∃ calls, JobQueue.empty.Orderly calls ∧ OneRoot calls ∧
          (JobQueue.empty.run calls).2 = s.queue := by
  constructor
  · intro calls horderly
    have hadmissions := JobQueue.empty.admissions_run calls
    have hfollows := JobQueue.follows_empty.run calls
    refine ⟨hadmissions, fun i hi => ?_⟩
    obtain ⟨is, js, hjs, hsteps, hancestry⟩ :=
      JobQueue.exists_ancestry (JobQueue.parentsBefore_empty.run horderly) hfollows.distinct hi
    refine ⟨is, js, hjs, hsteps, hancestry, fun hroot => ?_⟩
    obtain ⟨r, j, hhead, hr⟩ := hancestry.root
    obtain rfl := JobQueue.index_of_root hroot hr
    refine ⟨hhead, ?_⟩
    have hfirst : (is.map (JobQueue.empty.run calls).2.job?).head? = (js.map some).head? :=
      congrArg List.head? hancestry.jobs
    rw [List.head?_map, List.head?_map, hhead] at hfirst
    cases h : js.head? with
    | none => rw [h] at hfirst; cases hfirst
    | some k => rw [h] at hfirst; exact (Option.some.inj hfirst).symm
  · intro target lhs rhs rules n s h
    obtain ⟨calls, horderly, hparents, hrun⟩ := h.continues
    exact ⟨.push ((Job.mk lhs rhs).simplify rules) none :: calls, ⟨trivial, horderly⟩, hparents,
      hrun⟩

/-- Two lines that part at `a = 1`; the mirror of this job is rejected. -/
def forkedCalls : List QueueCall :=
  [.push ⟨.var "a", .const 1⟩ none, .push ⟨.var "b", .const 2⟩ (some 0), .pop,
    .push ⟨.const 1, .var "a"⟩ (some 1), .push ⟨.var "c", .const 3⟩ (some 0),
    .push ⟨.var "d", .const 4⟩ (some 2)]

theorem derivations_ascend_forked :
    JobQueue.empty.Orderly forkedCalls ∧ OneRoot forkedCalls ∧
      (∃ is js, (JobQueue.empty.run forkedCalls).2.derivation? 3 = some js ∧
        js = [⟨.var "a", .const 1⟩, ⟨.var "c", .const 3⟩, ⟨.var "d", .const 4⟩] ∧
          (JobQueue.empty.run forkedCalls).2.Ancestry 3 is js ∧ is.head? = some 0) ∧
      ∃ (s : Search) (calls : List QueueCall),
        ExpandsIn "x" .baseline 2 (start "x" .baseline (.var "x" + .var "x") (.const 2)) s ∧
          JobQueue.empty.Orderly calls ∧ OneRoot calls ∧
            (JobQueue.empty.run calls).2 = s.queue := by
  have horderly : JobQueue.empty.Orderly forkedCalls := by decide +kernel
  have hroot : OneRoot forkedCalls := by decide
  refine ⟨horderly, hroot, ?_, ?_⟩
  · have hadmitted : 3 < (JobQueue.empty.run forkedCalls).2.admitted := by decide +kernel
    obtain ⟨is, js, hjs, -, hancestry, hfirst⟩ :=
      (derivations_ascend.1 forkedCalls horderly).2 3 hadmitted
    have hvalue : (JobQueue.empty.run forkedCalls).2.derivation? 3 =
        some [⟨.var "a", .const 1⟩, ⟨.var "c", .const 3⟩, ⟨.var "d", .const 4⟩] := by
      decide +kernel
    exact ⟨is, js, hjs, Option.some.inj (hjs.symm.trans hvalue), hancestry, (hfirst hroot).1⟩
  · have hfailed : (Search.run "x" .baseline false 2
        (start "x" .baseline (.var "x" + .var "x") (.const 2))).1 =
          .error (.unsolvable "x" 2) := by
      decide +kernel
    obtain ⟨n, s, hsteps, ⟨-, -, hrun⟩ | ⟨_, _, _, _, -, -, -, hrun⟩⟩ :=
      run_cases "x" .baseline false 2 (start "x" .baseline (.var "x" + .var "x") (.const 2))
    · have hexplored : s.explored = 2 := by
        rw [hrun] at hfailed
        exact (SolveError.unsolvable.inj (Except.error.inj hfailed)).2
      obtain rfl : n = 2 := by
        have hcount : s.explored = 0 + n := hsteps.explored
        omega
      obtain ⟨calls, hcalls⟩ := derivations_ascend.2 _ _ _ _ _ _ hsteps
      exact ⟨s, calls, hsteps, hcalls⟩
    · rw [hrun] at hfailed
      cases hfailed

end Rearrange

import Mathlib.Data.List.Chain
import Rearrange.Proofs.ExprEquality
import Rearrange.Proofs.SearchSteps

namespace Rearrange

namespace Job

/-- `js` leads from `j` to `k`, and each job on it is a successor of the one before. -/
def Path (target : String) (rules : RuleSet) (j k : Job) (js : List Job) : Prop :=
  js.head? = some j ∧ js.getLast? = some k ∧ js.IsChain fun a b => b ∈ a.successors target rules

/-- The ends of the paths with `n` steps, as often as there are such paths. -/
def generation (target : String) (rules : RuleSet) (j : Job) : Nat → List Job
  | 0 => [j]
  | n + 1 => (j.generation target rules n).flatMap (successors target rules)

variable {target : String} {rules : RuleSet} {j k : Job}

theorem Path.singleton (j : Job) : Path target rules j j [j] :=
  ⟨rfl, rfl, List.isChain_singleton j⟩

theorem Path.concat {l : Job} {js : List Job} (h : Path target rules j k js)
    (hl : l ∈ k.successors target rules) : Path target rules j l (js ++ [l]) := by
  obtain ⟨hhead, hlast, hchain⟩ := h
  refine ⟨by rw [List.head?_append, hhead]; rfl, List.getLast?_concat, ?_⟩
  refine List.isChain_append.mpr ⟨hchain, List.isChain_singleton l, ?_⟩
  intro a ha b hb
  cases Option.some.inj (hlast.symm.trans ha)
  cases Option.some.inj hb
  exact hl

theorem Path.length_pos {js : List Job} (h : Path target rules j k js) : 0 < js.length :=
  List.length_pos_of_mem (List.mem_of_getLast? h.2.1)

theorem Path.induction {js : List Job} {p : Job → Prop} (h : Path target rules j k js) (hj : p j)
    (hstep : ∀ a b, p a → b ∈ a.successors target rules → p b) : p k := by
  obtain ⟨hhead, hlast, hchain⟩ := h
  refine hchain.induction p js (fun a b hb ha => hstep a b ha hb) ?_ k (List.mem_of_getLast? hlast)
  intro hne
  rwa [(List.head_eq_iff_head?_eq_some hne).mpr hhead]

theorem mem_successors_mirrored :
    k ∈ j.mirrored.successors target rules ↔ k ∈ j.successors target rules := by
  simp only [successors, mirrored, List.map_append, List.mem_append]
  exact or_comm

theorem accepted_mirrored : j.mirrored.Accepted target ↔ j.Accepted target :=
  or_comm

theorem getElem?_mem_generation {js : List Job} (hj : js.head? = some j)
    (h : js.IsChain fun a b => b ∈ a.successors target rules) (i : Nat) (k : Job)
    (hk : js[i]? = some k) : k ∈ j.generation target rules i := by
  induction i generalizing k with
  | zero =>
    rw [← List.head?_eq_getElem?, hj] at hk
    exact List.mem_singleton.mpr (Option.some.inj hk).symm
  | succ i ih =>
    obtain ⟨hi, rfl⟩ := List.getElem?_eq_some_iff.mp hk
    have hprev := ih js[i] (List.getElem?_eq_getElem (by omega))
    exact List.mem_flatMap.mpr ⟨js[i], hprev, h.getElem i hi⟩

theorem Path.mem_generation {js : List Job} (h : Path target rules j k js) :
    k ∈ j.generation target rules (js.length - 1) := by
  obtain ⟨hj, hk, hchain⟩ := h
  rw [List.getLast?_eq_getElem?] at hk
  exact getElem?_mem_generation hj hchain _ _ hk

theorem exists_path_of_mem_generation {n : Nat} (h : k ∈ j.generation target rules n) :
    ∃ js, Path target rules j k js ∧ js.length = n + 1 := by
  induction n generalizing k with
  | zero =>
    obtain rfl := List.mem_singleton.mp h
    exact ⟨[k], .singleton k, rfl⟩
  | succ n ih =>
    obtain ⟨l, hl, hk⟩ := List.mem_flatMap.mp h
    obtain ⟨js, hjs, hlen⟩ := ih hl
    exact ⟨js ++ [k], hjs.concat hk, by simp [hlen]⟩

end Job

end Rearrange

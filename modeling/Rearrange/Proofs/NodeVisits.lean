import Mathlib.Data.List.Basic
import Rearrange.Expr.Walk

namespace Rearrange

namespace Expr

/-- The part of an expression that turns, the first one first, lead to. -/
def at? : Expr → List Turn → Option Expr
  | e, [] => some e
  | neg e, .operand :: turns => e.at? turns
  | bin _ l _, .lhs :: turns => l.at? turns
  | bin _ _ r, .rhs :: turns => r.at? turns
  | _, _ :: _ => none

/-- The places of an expression that stands at `path`, from left to right and those below a node
before the node itself. -/
def places : Expr → List Turn → List Place
  | const c, path => [⟨path, const c⟩]
  | var n, path => [⟨path, var n⟩]
  | neg e, path => e.places (.operand :: path) ++ [⟨path, neg e⟩]
  | bin op l r, path => l.places (.lhs :: path) ++ r.places (.rhs :: path) ++ [⟨path, bin op l r⟩]

section

variable {e : Expr} {path : List Turn} {p q : Place}

theorem map_expr_places (e : Expr) (path : List Turn) :
    (e.places path).map Place.expr = e.postOrder := by
  induction e generalizing path with
  | const c | var n => rfl
  | neg e ih => rw [places, List.map_append, ih]; rfl
  | bin op l r ihl ihr => rw [places, List.map_append, List.map_append, ihl, ihr]; rfl

theorem length_postOrder (e : Expr) : e.postOrder.length = e.size := by
  induction e with
  | const c | var n => rfl
  | neg e ih => rw [postOrder, List.length_append, ih]; rfl
  | bin op l r ihl ihr => rw [postOrder, List.length_append, List.length_append, ihl, ihr]; rfl

theorem at?_nil (e : Expr) : e.at? [] = some e := by
  cases e <;> rfl

theorem mem_places_iff :
    p ∈ e.places path ↔ ∃ turns, p.path = turns.reverse ++ path ∧ e.at? turns = some p.expr := by
  obtain ⟨at_, part⟩ := p
  induction e generalizing path with
  | const c | var n =>
    rw [places, List.mem_singleton]
    constructor
    · intro hp
      cases hp
      exact ⟨[], rfl, at?_nil _⟩
    · rintro ⟨_ | ⟨t, turns⟩, hpath, hpart⟩
      · cases hpath
        cases hpart
        rfl
      · cases t <;> cases hpart
  | neg e ih =>
    rw [places, List.mem_append, List.mem_singleton, ih]
    constructor
    · rintro (⟨turns, hpath, hpart⟩ | hp)
      · exact ⟨.operand :: turns, by simpa using hpath, hpart⟩
      · cases hp
        exact ⟨[], rfl, at?_nil _⟩
    · rintro ⟨_ | ⟨t, turns⟩, hpath, hpart⟩
      · cases hpath
        cases hpart
        exact Or.inr rfl
      · cases t with
        | operand => exact Or.inl ⟨turns, by simpa using hpath, hpart⟩
        | lhs | rhs => cases hpart
  | bin op l r ihl ihr =>
    rw [places, List.mem_append, List.mem_append, List.mem_singleton, ihl, ihr]
    constructor
    · rintro ((⟨turns, hpath, hpart⟩ | ⟨turns, hpath, hpart⟩) | hp)
      · exact ⟨.lhs :: turns, by simpa using hpath, hpart⟩
      · exact ⟨.rhs :: turns, by simpa using hpath, hpart⟩
      · cases hp
        exact ⟨[], rfl, at?_nil _⟩
    · rintro ⟨_ | ⟨t, turns⟩, hpath, hpart⟩
      · cases hpath
        cases hpart
        exact Or.inr rfl
      · cases t with
        | operand => cases hpart
        | lhs => exact Or.inl (Or.inl ⟨turns, by simpa using hpath, hpart⟩)
        | rhs => exact Or.inl (Or.inr ⟨turns, by simpa using hpath, hpart⟩)

theorem suffix_of_mem_places (h : p ∈ e.places path) : path <:+ p.path := by
  obtain ⟨turns, hpath, -⟩ := mem_places_iff.mp h
  rw [hpath]
  exact List.suffix_append _ _

theorem not_suffix_of_turn {t u : Turn} (htu : t ≠ u) {a b : List Turn} (ha : t :: path <:+ a)
    (hb : u :: path <:+ b) : ¬ a <:+ b := by
  intro hab
  have hsuffix : t :: path <:+ u :: path :=
    List.suffix_of_suffix_length_le (ha.trans hab) hb (Nat.le_refl _)
  exact htu (List.cons.inj (hsuffix.eq_of_length rfl)).1

theorem not_suffix_of_below {t : Turn} {a : List Turn} (ha : t :: path <:+ a) : ¬ a <:+ path := by
  intro hab
  have hlength := (ha.trans hab).length_le
  rw [List.length_cons] at hlength
  omega

theorem pairwise_places (e : Expr) (path : List Turn) :
    (e.places path).Pairwise fun p q => ¬ p.path <:+ q.path := by
  have last {t : Turn} {e part : Expr} {path : List Turn} :
      ∀ p ∈ e.places (t :: path), ∀ q ∈ [Place.mk path part], ¬ p.path <:+ q.path := by
    intro p hp q hq
    rw [List.mem_singleton.mp hq]
    exact not_suffix_of_below (suffix_of_mem_places hp)
  induction e generalizing path with
  | const c | var n => exact List.pairwise_singleton _ _
  | neg e ih => exact List.pairwise_append.mpr ⟨ih _, List.pairwise_singleton _ _, last⟩
  | bin op l r ihl ihr =>
    refine List.pairwise_append.mpr ⟨List.pairwise_append.mpr ⟨ihl _, ihr _, ?_⟩,
      List.pairwise_singleton _ _, ?_⟩
    · intro p hp q hq
      exact not_suffix_of_turn (by decide) (suffix_of_mem_places hp) (suffix_of_mem_places hq)
    · intro p hp
      rcases List.mem_append.mp hp with hp | hp
      · exact last p hp
      · exact last p hp

end

namespace Walk

def given? (w : Walk) : Option Place :=
  w.next.bind fun (part, w') => w'.last.map fun path => ⟨path, part⟩

def rest (w : Walk) : Walk := (w.next.map Prod.snd).getD w

def after : Nat → Walk → Walk
  | 0, w => w
  | n + 1, w => w.rest.after n

/-- `w.Yields ps w'` says that calls give the places `ps`, one after the other, and lead from `w` to
`w'`. -/
inductive Yields : Walk → List Place → Walk → Prop
  | nil (w : Walk) : Yields w [] w
  | cons {w w' : Walk} {below : List Place} {p : Place} {ps : List Place} :
    w.next = some (p.expr, ⟨below, some p.path⟩) → Yields ⟨below, some p.path⟩ ps w' →
      Yields w (p :: ps) w'

variable {w w' w'' : Walk} {ps qs below : List Place} {path : List Turn}
  {last : Option (List Turn)}

theorem Yields.append (h : w.Yields ps w') (h' : w'.Yields qs w'') : w.Yields (ps ++ qs) w'' := by
  induction h with
  | nil => exact h'
  | cons hnext _ ih => exact .cons hnext (ih h')

theorem Yields.of_next_eq (h : w'.Yields ps w'') (hps : ps ≠ []) (hnext : w.next = w'.next) :
    w.Yields ps w'' := by
  cases h with
  | nil => exact absurd rfl hps
  | cons hnext' h => exact .cons (hnext.trans hnext') h

theorem next_neg {e : Expr} (h : last ≠ some (.operand :: path)) :
    next ⟨⟨path, neg e⟩ :: below, last⟩ =
      next ⟨⟨.operand :: path, e⟩ :: ⟨path, neg e⟩ :: below, last⟩ := by
  simp only [next, descend, if_neg h]

theorem next_bin {op : BinOp} {l r : Expr} (h : last ≠ some (.rhs :: path)) :
    next ⟨⟨path, bin op l r⟩ :: below, last⟩ =
      next ⟨⟨.lhs :: path, l⟩ :: ⟨.rhs :: path, r⟩ :: ⟨path, bin op l r⟩ :: below, last⟩ := by
  simp only [next, descend, if_neg h]

theorem yields_neg (e : Expr) (path : List Turn) (below : List Place) :
    Yields ⟨⟨path, neg e⟩ :: below, some (.operand :: path)⟩ [⟨path, neg e⟩]
      ⟨below, some path⟩ := by
  refine .cons ?_ (.nil _)
  simp only [next, descend, ↓reduceIte]

theorem yields_bin (op : BinOp) (l r : Expr) (path : List Turn) (below : List Place) :
    Yields ⟨⟨path, bin op l r⟩ :: below, some (.rhs :: path)⟩ [⟨path, bin op l r⟩]
      ⟨below, some path⟩ := by
  refine .cons ?_ (.nil _)
  simp only [next, descend, ↓reduceIte]

theorem not_inside (hlast : ∀ q ∈ last, path <:+ q → q = path) (t : Turn) :
    ∀ q ∈ last, ¬ t :: path <:+ q := by
  intro q hq hsuffix
  have heq := hlast q hq ((List.suffix_cons t path).trans hsuffix)
  exact not_suffix_of_below hsuffix (heq ▸ List.suffix_refl _)

/-- An expression on top of the stack is visited before anything else on it. All that is needed is
that the last node visited is not inside the expression. -/
theorem yields_places (e : Expr) (hlast : ∀ q ∈ last, path <:+ q → q = path) :
    Yields ⟨⟨path, e⟩ :: below, last⟩ (e.places path) ⟨below, some path⟩ := by
  induction e generalizing path below last with
  | const c | var n => exact .cons rfl (.nil _)
  | neg e ih =>
    have hinside := not_inside hlast .operand
    have hoperand : Yields ⟨⟨.operand :: path, e⟩ :: ⟨path, neg e⟩ :: below, last⟩
        (e.places (.operand :: path)) ⟨⟨path, neg e⟩ :: below, some (.operand :: path)⟩ :=
      ih fun q hq hsuffix => absurd hsuffix (hinside q hq)
    refine (hoperand.append (yields_neg e path below)).of_next_eq (by simp) (next_neg ?_)
    rintro rfl
    exact hinside _ rfl (List.suffix_refl _)
  | bin op l r ihl ihr =>
    have hinside := not_inside hlast .lhs
    have hinside' := not_inside hlast .rhs
    have hleft : Yields
        ⟨⟨.lhs :: path, l⟩ :: ⟨.rhs :: path, r⟩ :: ⟨path, bin op l r⟩ :: below, last⟩
        (l.places (.lhs :: path))
        ⟨⟨.rhs :: path, r⟩ :: ⟨path, bin op l r⟩ :: below, some (.lhs :: path)⟩ :=
      ihl fun q hq hsuffix => absurd hsuffix (hinside q hq)
    have hright : Yields
        ⟨⟨.rhs :: path, r⟩ :: ⟨path, bin op l r⟩ :: below, some (.lhs :: path)⟩
        (r.places (.rhs :: path)) ⟨⟨path, bin op l r⟩ :: below, some (.rhs :: path)⟩ :=
      ihr fun q hq hsuffix => by
        cases hq
        exact absurd (hsuffix.eq_of_length rfl) (by simp)
    refine ((hleft.append hright).append (yields_bin op l r path below)).of_next_eq (by simp)
      (next_bin ?_)
    rintro rfl
    exact hinside' _ rfl (List.suffix_refl _)

theorem yields_start (e : Expr) : (start e).Yields (e.places []) ⟨[], some []⟩ :=
  yields_places e nofun

theorem after_of_next_eq_none (h : w.next = none) (n : Nat) : w.after n = w := by
  have hrest : w.rest = w := by rw [rest, h]; rfl
  induction n with
  | zero => rfl
  | succ n ih => rw [after, hrest, ih]

theorem Yields.given? (h : w.Yields ps w') (hend : w'.next = none) (n : Nat) :
    (w.after n).given? = ps[n]? := by
  induction h generalizing n with
  | nil w => rw [after_of_next_eq_none hend, Walk.given?, hend]; rfl
  | @cons w w' below p ps hnext _ ih =>
    cases n with
    | zero => rw [after, Walk.given?, hnext]; rfl
    | succ n =>
      have hrest : w.rest = ⟨below, some p.path⟩ := by rw [rest, hnext]; rfl
      rw [after, hrest, ih hend, List.getElem?_cons_succ]

theorem Yields.visits (h : w.Yields ps w') (hend : w'.next = none) (n : Nat) :
    Walk.visits n w = (ps.map Place.expr).take n := by
  induction h generalizing n with
  | nil w => cases n <;> simp [Walk.visits, hend]
  | cons hnext _ ih => cases n <;> simp [Walk.visits, hnext, ih hend]

end Walk

theorem any_isVar_postOrder (name : String) (e : Expr) :
    e.postOrder.any (isVar name) = e.mentions name := by
  induction e with
  | const c => rfl
  | var n => simp [postOrder, isVar, asVar?, mentions]
  | neg e ih => simp [postOrder, isVar, asVar?, mentions, ih]
  | bin op l r ihl ihr => simp [postOrder, isVar, asVar?, mentions, ihl, ihr]

theorem all_isFinite_postOrder (e : Expr) :
    (e.postOrder.all fun part => part.asConst?.all Float.isFinite) = e.isFinite := by
  induction e with
  | const c => simp [postOrder, asConst?, isFinite]
  | var n => rfl
  | neg e ih => rw [postOrder, List.all_append, ih]; exact Bool.and_true _
  | bin op l r ihl ihr =>
    rw [postOrder, List.all_append, List.all_append, ihl, ihr]
    exact Bool.and_true _

theorem filterMap_asVar?_postOrder (e : Expr) : e.postOrder.filterMap asVar? = e.names := by
  induction e with
  | const c | var n => rfl
  | neg e ih => rw [postOrder, List.filterMap_append, ih]; exact List.append_nil _
  | bin op l r ihl ihr =>
    rw [postOrder, List.filterMap_append, List.filterMap_append, ihl, ihr]
    exact List.append_nil _

end Expr

open Rearrange.Expr

/-- Call after call, a walk gives the places of an expression in post-order, and then nothing for
ever. The places are those of all its nodes, none comes after one above it, and the last is the
root. So to ask all visited nodes is to ask all nodes. -/
theorem walk_visits_nodes (e : Expr) :
    (∀ n, ((Walk.start e).after n).given? = (e.places [])[n]?) ∧
    (∀ n, Walk.visits n (.start e) = e.postOrder.take n) ∧
    (e.places []).map Place.expr = e.postOrder ∧ e.walk = e.postOrder ∧
    (∀ p, p ∈ e.places [] ↔ e.at? p.path.reverse = some p.expr) ∧
    ((e.places []).Pairwise fun p q => ¬ p.path <:+ q.path) ∧
    (e.places []).getLast? = some ⟨[], e⟩ ∧
    (∀ name, e.walk.any (isVar name) = e.mentions name) ∧
    (e.walk.all fun part => part.asConst?.all Float.isFinite) = e.isFinite ∧
    distinctNames (e.walk.filterMap asVar?) = e.vars := by
  have hyields := Walk.yields_start e
  have hvisits (n : Nat) : Walk.visits n (.start e) = e.postOrder.take n := by
    rw [hyields.visits rfl, map_expr_places]
  have hwalk : e.walk = e.postOrder := by
    rw [walk, hvisits, ← length_postOrder, List.take_length]
  refine ⟨hyields.given? rfl, hvisits, map_expr_places e [], hwalk, fun p => ?_,
    pairwise_places e [], ?_, ?_, ?_, ?_⟩
  · rw [mem_places_iff]
    constructor
    · rintro ⟨turns, hpath, hpart⟩
      rwa [hpath, List.append_nil, List.reverse_reverse]
    · intro hpart
      exact ⟨p.path.reverse, by rw [List.reverse_reverse, List.append_nil], hpart⟩
  · cases e <;> simp [places]
  · rw [hwalk]
    exact fun name => any_isVar_postOrder name e
  · rw [hwalk, all_isFinite_postOrder]
  · rw [hwalk, filterMap_asVar?_postOrder, vars]

/-- Equal operands are visited one after the other. -/
example : (var "a" * var "a" + var "a" * var "a").walk =
    [var "a", var "a", var "a" * var "a", var "a", var "a", var "a" * var "a",
      var "a" * var "a" + var "a" * var "a"] := rfl

end Rearrange

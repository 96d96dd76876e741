import Rearrange.Simplify.Step

namespace Rearrange

namespace Expr

def sums : Expr → Nat
  | const _ | var _ => 0
  | neg e => e.sums
  | bin .add l r => l.sums + r.sums + 1
  | bin _ l r => l.sums + r.sums

theorem one_le_size (e : Expr) : 1 ≤ e.size := by
  cases e <;> simp [size]

end Expr

namespace Step

open Rearrange.Expr

variable {s : Step} {e e' : Expr}

/-- `s.Rewrites e e'` lists the ways in which a rule can turn `e` into `e'`. -/
inductive Rewrites : Step → Expr → Expr → Prop
  | fold (op : BinOp) (a b : Float) :
    Rewrites .foldConstants (.bin op (.const a) (.const b)) (.const (op.eval a b))
  | negate (a : Float) : Rewrites .negateConstant (.neg (.const a)) (.const (-a))
  | doubleNegation (e : Expr) : Rewrites .doubleNegation (.neg (.neg e)) e
  | zeroAdd {l r : Expr} : l.isValue 0 = true → Rewrites .addZero (.bin .add l r) r
  | addZero {l r : Expr} : r.isValue 0 = true → Rewrites .addZero (.bin .add l r) l
  | subtractZero {l r : Expr} : r.isValue 0 = true → Rewrites .subtractZero (.bin .sub l r) l
  | subtractFromZero {l r : Expr} :
    l.isValue 0 = true → Rewrites .subtractFromZero (.bin .sub l r) (.neg r)
  | zeroMultiply {l r : Expr} :
    l.isValue 0 = true → Rewrites .multiplyZero (.bin .mul l r) (.const 0)
  | multiplyZero {l r : Expr} :
    r.isValue 0 = true → Rewrites .multiplyZero (.bin .mul l r) (.const 0)
  | oneMultiply {l r : Expr} : l.isValue 1 = true → Rewrites .multiplyOne (.bin .mul l r) r
  | multiplyOne {l r : Expr} : r.isValue 1 = true → Rewrites .multiplyOne (.bin .mul l r) l
  | divideZero {l r : Expr} :
    l.isValue 0 = true → Rewrites .divideZero (.bin .div l r) (.const 0)
  | cancel {l r : Expr} :
    (l == r) = true → Rewrites .cancelLikeTerms (.bin .sub l r) (.const 0)
  | combine {l r : Expr} :
    (l == r) = true → Rewrites .combineLikeTerms (.bin .add l r) (.bin .mul (.const 2) l)

theorem rewrites_of_rewrite? (h : s.rewrite? e = some e') : s.Rewrites e e' := by
  cases s with
  | foldConstants =>
    simp only [rewrite?, foldConstants?] at h
    split at h <;> cases h
    exact .fold ..
  | negateConstant =>
    simp only [rewrite?, negateConstant?] at h
    split at h <;> cases h
    exact .negate _
  | doubleNegation =>
    simp only [rewrite?, doubleNegation?] at h
    split at h <;> cases h
    exact .doubleNegation _
  | addZero =>
    simp only [rewrite?, addZero?] at h
    split at h
    next l r =>
      split at h
      next hl => cases h; exact .zeroAdd hl
      next => split at h <;> cases h; exact .addZero ‹_›
    next => cases h
  | subtractZero =>
    simp only [rewrite?, subtractZero?] at h
    split at h
    next => split at h <;> cases h; exact .subtractZero ‹_›
    next => cases h
  | subtractFromZero =>
    simp only [rewrite?, subtractFromZero?] at h
    split at h
    next => split at h <;> cases h; exact .subtractFromZero ‹_›
    next => cases h
  | multiplyZero =>
    simp only [rewrite?, multiplyZero?] at h
    split at h
    next l r =>
      split at h
      next hz =>
        cases h
        rcases Bool.or_eq_true_iff.mp hz with hl | hr
        · exact .zeroMultiply hl
        · exact .multiplyZero hr
      next => cases h
    next => cases h
  | multiplyOne =>
    simp only [rewrite?, multiplyOne?] at h
    split at h
    next l r =>
      split at h
      next hl => cases h; exact .oneMultiply hl
      next => split at h <;> cases h; exact .multiplyOne ‹_›
    next => cases h
  | divideZero =>
    simp only [rewrite?, divideZero?] at h
    split at h
    next => split at h <;> cases h; exact .divideZero ‹_›
    next => cases h
  | cancelLikeTerms =>
    simp only [rewrite?, cancelLikeTerms?] at h
    split at h
    next => split at h <;> cases h; exact .cancel ‹_›
    next => cases h
  | combineLikeTerms =>
    simp only [rewrite?, combineLikeTerms?] at h
    split at h
    next => split at h <;> cases h; exact .combine ‹_›
    next => cases h

theorem rewrite?_of_first? {table : List Step} (h : first? table e = some (s, e')) :
    s.rewrite? e = some e' := by
  obtain ⟨t, _, ht⟩ := List.exists_of_findSome?_eq_some h
  obtain ⟨x, hx, hp⟩ := Option.map_eq_some_iff.mp ht
  cases hp
  exact hx

theorem rewrites_of_first? {table : List Step} (h : first? table e = some (s, e')) :
    s.Rewrites e e' :=
  rewrites_of_rewrite? (rewrite?_of_first? h)

/-- Every rule removes a node, but for the one that makes a product of a sum. -/
theorem Rewrites.size_lt (h : s.Rewrites e e') : s = .combineLikeTerms ∨ e'.size < e.size := by
  cases h with
  | combine => exact Or.inl rfl
  | fold | negate | doubleNegation => right; simp only [size]; omega
  | @zeroAdd l | @oneMultiply l | @subtractFromZero l | @zeroMultiply l | @multiplyZero l
  | @divideZero l | @cancel l =>
    have := one_le_size l
    right
    simp only [size]
    omega
  | @addZero _ r | @subtractZero _ r | @multiplyOne _ r =>
    have := one_le_size r
    right
    simp only [size]
    omega

theorem Rewrites.size_le (h : s.Rewrites e e') : e'.size ≤ e.size := by
  rcases h.size_lt with rfl | hlt
  · cases h with
    | @combine l r =>
      have := one_le_size r
      simp only [size]
      omega
  · exact Nat.le_of_lt hlt

theorem Rewrites.sums_le (h : s.Rewrites e e') : e'.sums ≤ e.sums := by
  cases h with
  | fold | zeroMultiply | multiplyZero | divideZero | cancel => exact Nat.zero_le _
  | negate | doubleNegation => exact Nat.le_refl _
  | zeroAdd | addZero | subtractZero | subtractFromZero | oneMultiply | multiplyOne | combine =>
    simp only [sums]
    omega

/-- No rule makes a sum, and the one that need not remove a node removes a sum. -/
theorem Rewrites.size_add_sums_lt (h : s.Rewrites e e') :
    e'.size + e'.sums < e.size + e.sums := by
  rcases h.size_lt with rfl | hlt
  · cases h with
    | @combine l r =>
      have := one_le_size r
      simp only [size, sums]
      omega
  · have := h.sums_le
    omega

end Step

end Rearrange

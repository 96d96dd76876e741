import Rearrange.Proofs.ConstantParts
import Rearrange.Proofs.ExprEquality
import Rearrange.Proofs.NodeVisits
import Rearrange.Proofs.SignBit

namespace Rearrange

open Float.Model (UnpackedFloat)

open Float.Model.UnpackedFloat

namespace BinOp

def unpacked : BinOp → UnpackedFloat → UnpackedFloat → UnpackedFloat
  | add => UnpackedFloat.add .binary64
  | sub => UnpackedFloat.sub .binary64
  | mul => UnpackedFloat.mul .binary64
  | div => UnpackedFloat.div .binary64

theorem eval_eq (op : BinOp) (a b : Float) :
    op.eval a b =
      .ofModel (Float.Model.pack (op.unpacked (Number.parts a) (Number.parts b))) := by
  cases op <;> rfl

end BinOp

namespace Number

variable {a b c d : Float} {u v w : UnpackedFloat} {op : BinOp}

def Alike (u v : UnpackedFloat) : Prop := u = v ∨ ∃ s t, u = .zero s ∧ v = .zero t

theorem alike_left (op : BinOp) (s t : Sign) (v : UnpackedFloat) :
    Alike (op.unpacked (.zero s) v) (op.unpacked (.zero t) v) := by
  cases v with
  | notANumber => cases op <;> exact Or.inl rfl
  | infinity =>
    cases op with
    | add | sub | mul => exact Or.inl rfl
    | div => exact Or.inr ⟨_, _, rfl, rfl⟩
  | zero r =>
    cases op with
    | add | sub => cases s <;> cases t <;> cases r <;> exact Or.inr ⟨_, _, rfl, rfl⟩
    | mul => exact Or.inr ⟨_, _, rfl, rfl⟩
    | div => exact Or.inl rfl
  | finite =>
    cases op with
    | add | sub => exact Or.inl rfl
    | mul | div => exact Or.inr ⟨_, _, rfl, rfl⟩

/-- Only dividing a nonzero number by a zero shows the sign of this zero. -/
theorem alike_right (u : UnpackedFloat) (s t : Sign)
    (h : op = .div → u = .notANumber ∨ ∃ r, u = .zero r) :
    Alike (op.unpacked u (.zero s)) (op.unpacked u (.zero t)) := by
  cases op with
  | add | sub =>
    cases u with
    | zero r => cases r <;> cases s <;> cases t <;> exact Or.inr ⟨_, _, rfl, rfl⟩
    | notANumber | infinity | finite => exact Or.inl rfl
  | mul =>
    cases u with
    | notANumber | infinity => exact Or.inl rfl
    | zero | finite => exact Or.inr ⟨_, _, rfl, rfl⟩
  | div =>
    obtain rfl | ⟨r, rfl⟩ := h rfl
    · exact Or.inl rfl
    · exact Or.inl rfl

theorem same_of_alike (h : Alike u v) :
    same (.ofModel (Float.Model.pack u)) (.ofModel (Float.Model.pack v)) = true := by
  obtain rfl | ⟨s, t, rfl, rfl⟩ := h
  · exact same_refl _
  · cases s <;> cases t <;> decide +kernel

theorem parts_zero : parts 0 = .zero .positive := rfl

theorem parts_neg_zero : parts (-0) = .zero .negative := rfl

theorem parts_cases_of_same (h : same a b = true) :
    a = b ∨ ∃ s t, parts a = .zero s ∧ parts b = .zero t := by
  obtain rfl | ⟨rfl, rfl⟩ | ⟨rfl, rfl⟩ := same_iff.mp h
  · exact Or.inl rfl
  · exact Or.inr ⟨_, _, parts_zero, parts_neg_zero⟩
  · exact Or.inr ⟨_, _, parts_neg_zero, parts_zero⟩

/-- A nonzero number to be divided by the two zeros. -/
structure Opposite (a c d : Float) : Prop where
  isNumber : a.isNaN = false
  nonzero : (a == 0) = false
  same : same c d = true
  ne : c ≠ d

theorem parts_of_isNaN (h : a.isNaN = true) : parts a = .notANumber := by
  change (parts a).isNaN = true at h
  cases ha : parts a with
  | notANumber => rfl
  | infinity | zero | finite =>
    rw [ha] at h
    cases h

theorem exists_parts_of_zero (h : (a == 0) = true) : ∃ s, parts a = .zero s := by
  rcases beq_zero_iff.mp h with rfl | rfl
  · exact ⟨_, parts_zero⟩
  · exact ⟨_, parts_neg_zero⟩

theorem same_eval (hab : same a b = true) (hcd : same c d = true)
    (h : op = .div → ¬ Opposite a c d) : same (op.eval a c) (op.eval b d) = true := by
  have hright : same (op.eval a c) (op.eval a d) = true := by
    by_cases hne : c = d
    · rw [hne]
      exact same_refl _
    obtain ⟨s, t, hs, ht⟩ := (parts_cases_of_same hcd).resolve_left hne
    rw [BinOp.eval_eq, BinOp.eval_eq, hs, ht]
    refine same_of_alike (alike_right _ s t fun hdiv => ?_)
    by_cases hnan : a.isNaN = true
    · exact Or.inl (parts_of_isNaN hnan)
    · by_cases hzero : (a == 0) = true
      · exact Or.inr (exists_parts_of_zero hzero)
      · exact absurd ⟨Bool.eq_false_iff.mpr hnan, Bool.eq_false_iff.mpr hzero, hcd, hne⟩ (h hdiv)
  have hleft : same (op.eval a d) (op.eval b d) = true := by
    obtain rfl | ⟨s, t, hs, ht⟩ := parts_cases_of_same hab
    · exact same_refl _
    rw [BinOp.eval_eq, BinOp.eval_eq, hs, ht]
    exact same_of_alike (alike_left op s t _)
  exact same_trans hright hleft

theorem exists_div_zero (hnan : a.isNaN = false) (hzero : (a == 0) = false) :
    ∃ r : Sign, ∀ s, UnpackedFloat.div .binary64 (parts a) (.zero s) = .infinity (r / s) := by
  cases ha : parts a with
  | notANumber =>
    change (parts a).isNaN = false at hnan
    rw [ha] at hnan
    cases hnan
  | zero s =>
    have ha0 : a = 0 ∨ a = -0 := by
      cases s
      · exact Or.inr (parts_injective (ha.trans parts_neg_zero.symm))
      · exact Or.inl (parts_injective (ha.trans parts_zero.symm))
    exact absurd (beq_zero_iff.mpr ha0) (Bool.eq_false_iff.mp hzero)
  | infinity r => exact ⟨r, fun _ => rfl⟩
  | finite r => exact ⟨r, fun _ => rfl⟩

theorem Opposite.eq_of_same (h : Opposite a c d) (hab : Number.same a b = true) : a = b := by
  obtain hab | ⟨rfl, -⟩ | ⟨rfl, -⟩ := same_iff.mp hab
  · exact hab
  · exact absurd (beq_zero_iff.mpr (Or.inl rfl)) (Bool.eq_false_iff.mp h.nonzero)
  · exact absurd (beq_zero_iff.mpr (Or.inr rfl)) (Bool.eq_false_iff.mp h.nonzero)

theorem Opposite.not_same (h : Opposite a c d) :
    Number.same (BinOp.div.eval a c) (BinOp.div.eval a d) = false := by
  obtain ⟨r, hr⟩ := exists_div_zero h.isNumber h.nonzero
  have hquotient (x : Float) {s : Sign} (hx : parts x = .zero s) :
      BinOp.div.eval a x = .ofModel (Float.Model.pack (.infinity (r / s))) := by
    rw [BinOp.eval_eq, hx]
    exact congrArg (fun u => Float.ofModel (Float.Model.pack u)) (hr s)
  obtain hcd | ⟨rfl, rfl⟩ | ⟨rfl, rfl⟩ := same_iff.mp h.same
  · exact absurd hcd h.ne
  · rw [hquotient 0 parts_zero, hquotient (-0) parts_neg_zero]
    cases r <;> decide +kernel
  · rw [hquotient 0 parts_zero, hquotient (-0) parts_neg_zero]
    cases r <;> decide +kernel

theorem same_neg (h : same a b = true) : same (-a) (-b) = true := by
  obtain rfl | ⟨rfl, rfl⟩ | ⟨rfl, rfl⟩ := same_iff.mp h
  · exact same_refl _
  · decide +kernel
  · decide +kernel

theorem beq_congr (h : same a b = true) {n : Float} (hn : n = 0 ∨ n = 1) : (a == n) = (b == n) := by
  obtain rfl | ⟨rfl, rfl⟩ | ⟨rfl, rfl⟩ := same_iff.mp h
  · rfl
  · rcases hn with rfl | rfl <;> decide +kernel
  · rcases hn with rfl | rfl <;> decide +kernel

end Number

namespace Expr

variable {rules : RuleSet} {a b l l' r r' : Expr}

def OppositeQuotients (a b : Expr) : Prop :=
  ∃ c z w, a = bin .div (const c) (const z) ∧ b = bin .div (const c) (const w) ∧
    Number.Opposite c z w

/-- Quotients of which simplifying makes opposite infinities. -/
def Opposed (rules : RuleSet) (a b : Expr) : Prop :=
  ∃ l r l' r', a = bin .div l r ∧ b = bin .div l' r' ∧
    OppositeQuotients (bin .div (l.simplify rules) (r.simplify rules))
      (bin .div (l'.simplify rules) (r'.simplify rules))

abbrev Agree : Option Expr → Option Expr → Prop := Option.Rel fun x y => (x == y) = true

theorem rel_none {α : Type} {r : α → α → Prop} {y : Option α} (h : Option.Rel r none y) :
    y = none := by
  cases h
  rfl

theorem rel_some {α : Type} {r : α → α → Prop} {x : α} {y : Option α}
    (h : Option.Rel r (some x) y) : ∃ z, y = some z ∧ r x z := by
  cases h with
  | some hxz => exact ⟨_, rfl, hxz⟩

theorem agree_ite {x y : Expr} (h : (x == y) = true) {u v : Option Expr} (huv : Agree u v)
    (t : Bool) : Agree (if t then some x else u) (if t then some y else v) := by
  cases t with
  | true => exact .some h
  | false => exact huv

theorem isValue_congr (h : (a == b) = true) {n : Float} (hn : n = 0 ∨ n = 1) :
    a.isValue n = b.isValue n := by
  cases a with
  | const c =>
    cases b with
    | const d => exact Number.beq_congr h hn
    | _ => cases h
  | var | neg | bin =>
    cases b with
    | const d => cases h
    | _ => rfl

theorem equal_neg (h : (a == b) = true) : (neg a == neg b) = true := h

theorem rewrite?_congr_neg (s : Step) (h : (a == b) = true) :
    Agree (s.rewrite? (neg a)) (s.rewrite? (neg b)) := by
  cases a with
  | const c =>
    cases b with
    | const d =>
      cases s with
      | negateConstant => exact .some (Number.same_neg h)
      | _ => exact .none
    | _ => cases h
  | neg e =>
    cases b with
    | neg f =>
      cases s with
      | doubleNegation => exact .some h
      | _ => exact .none
    | _ => cases h
  | var | bin =>
    cases b with
    | const | neg => cases h
    | var | bin => cases s <;> exact .none

theorem foldConstants?_congr (op : BinOp) (hl : (l == l') = true) (hr : (r == r') = true)
    (h : ¬ OppositeQuotients (bin op l r) (bin op l' r')) :
    Agree (Step.foldConstants? (bin op l r)) (Step.foldConstants? (bin op l' r')) := by
  cases l with
  | const a =>
    cases l' with
    | const b =>
      cases r with
      | const c =>
        cases r' with
        | const d =>
          refine .some (Number.same_eval hl hr fun hdiv hopposite => h ?_)
          subst hdiv
          obtain rfl := hopposite.eq_of_same hl
          exact ⟨a, c, d, rfl, rfl, hopposite⟩
        | _ => cases hr
      | var | neg | bin =>
        cases r' with
        | const => cases hr
        | var | neg | bin => exact .none
    | _ => cases hl
  | var | neg | bin =>
    cases l' with
    | const => cases hl
    | var | neg | bin => exact .none

theorem rewrite?_congr_bin (s : Step) (op : BinOp) (hl : (l == l') = true) (hr : (r == r') = true)
    (h : ¬ OppositeQuotients (bin op l r) (bin op l' r')) :
    Agree (s.rewrite? (bin op l r)) (s.rewrite? (bin op l' r')) := by
  have hzero {a b : Expr} (h : (a == b) = true) : a.isValue 0 = b.isValue 0 :=
    isValue_congr h (Or.inl rfl)
  have hone {a b : Expr} (h : (a == b) = true) : a.isValue 1 = b.isValue 1 :=
    isValue_congr h (Or.inr rfl)
  cases s with
  | foldConstants => exact foldConstants?_congr op hl hr h
  | negateConstant | doubleNegation => exact .none
  | addZero =>
    cases op with
    | add =>
      simp only [Step.rewrite?, Step.addZero?, hzero hl, hzero hr]
      exact agree_ite hr (agree_ite hl .none _) _
    | sub | mul | div => exact .none
  | subtractZero =>
    cases op with
    | sub =>
      simp only [Step.rewrite?, Step.subtractZero?, hzero hr]
      exact agree_ite hl .none _
    | add | mul | div => exact .none
  | subtractFromZero =>
    cases op with
    | sub =>
      simp only [Step.rewrite?, Step.subtractFromZero?, hzero hl]
      exact agree_ite (equal_neg hr) .none _
    | add | mul | div => exact .none
  | multiplyZero =>
    cases op with
    | mul =>
      simp only [Step.rewrite?, Step.multiplyZero?, hzero hl, hzero hr]
      exact agree_ite (equal_refl _) .none _
    | add | sub | div => exact .none
  | multiplyOne =>
    cases op with
    | mul =>
      simp only [Step.rewrite?, Step.multiplyOne?, hone hl, hone hr]
      exact agree_ite hr (agree_ite hl .none _) _
    | add | sub | div => exact .none
  | divideZero =>
    cases op with
    | div =>
      simp only [Step.rewrite?, Step.divideZero?, hzero hl]
      exact agree_ite (equal_refl _) .none _
    | add | sub | mul => exact .none
  | cancelLikeTerms =>
    cases op with
    | sub =>
      simp only [Step.rewrite?, Step.cancelLikeTerms?, beq_congr hl hr]
      exact agree_ite (equal_refl _) .none _
    | add | mul | div => exact .none
  | combineLikeTerms =>
    cases op with
    | add =>
      simp only [Step.rewrite?, Step.combineLikeTerms?, beq_congr hl hr]
      exact agree_ite (equal_bin_iff.mpr ⟨rfl, equal_refl _, hl⟩) .none _
    | sub | mul | div => exact .none

theorem rewrite?_congr (s : Step) (h : (a == b) = true) (hopposite : ¬ OppositeQuotients a b) :
    Agree (s.rewrite? a) (s.rewrite? b) := by
  cases a with
  | const c =>
    cases b with
    | const d => cases s <;> exact .none
    | _ => cases h
  | var n =>
    cases b with
    | var m => cases s <;> exact .none
    | _ => cases h
  | neg e =>
    cases b with
    | neg f => exact rewrite?_congr_neg s h
    | _ => cases h
  | bin op l r =>
    cases b with
    | bin op' l' r' =>
      obtain ⟨rfl, hl, hr⟩ := equal_bin_iff.mp h
      exact rewrite?_congr_bin s op hl hr hopposite
    | _ => cases h

theorem first?_congr (table : List Step) (h : (a == b) = true)
    (hopposite : ¬ OppositeQuotients a b) :
    Option.Rel (fun x y => x.1 = y.1 ∧ (x.2 == y.2) = true) (Step.first? table a)
      (Step.first? table b) := by
  induction table with
  | nil => exact .none
  | cons s table ih =>
    rw [Step.first?, Step.first?, List.findSome?_cons, List.findSome?_cons]
    have hrule := rewrite?_congr s h hopposite
    cases ha : s.rewrite? a with
    | none =>
      rw [ha] at hrule
      rw [rel_none hrule]
      exact ih
    | some a' =>
      rw [ha] at hrule
      obtain ⟨b', hb, hequal⟩ := rel_some hrule
      rw [hb]
      exact .some ⟨rfl, hequal⟩

theorem Normal.ne_bin_const (h : a.Normal rules) (op : BinOp) (c d : Float) :
    a ≠ bin op (const c) (const d) := by
  rintro rfl
  cases (first?_bin_const rules op c d).symm.trans h.2.2

theorem NormalBelow.ne_div_const {s : Step} (h : a.NormalBelow rules) (hs : s.Rewrites a b)
    (c d : Float) : b ≠ bin .div (const c) (const d) := by
  cases hs with
  | fold | negate | subtractFromZero | zeroMultiply | multiplyZero | divideZero | cancel |
      combine => nofun
  | doubleNegation => exact Normal.ne_bin_const (a := b) h.1 .div c d
  | zeroAdd | oneMultiply => exact h.2.ne_bin_const .div c d
  | addZero | subtractZero | multiplyOne => exact h.1.ne_bin_const .div c d

/-- Only the first rule of a run can do a division of constants, since operands are simplified
before. -/
theorem settle_congr (h : (a == b) = true) (hbelow : a.NormalBelow rules)
    (hopposite : ¬ OppositeQuotients a b) :
    ((settle rules a).1 == (settle rules b).1) = true := by
  induction a using settle_induction rules generalizing b with
  | settled a ha =>
    have hfirst := first?_congr rules.table h hopposite
    rw [ha] at hfirst
    rw [settle_of_settled ha, settle_of_settled (rel_none hfirst)]
    exact h
  | step s a a' ha ih =>
    have hfirst := first?_congr rules.table h hopposite
    rw [ha] at hfirst
    obtain ⟨⟨t, b'⟩, hb, rfl, hequal⟩ := rel_some hfirst
    have hrewrites := Step.rewrites_of_first? ha
    rw [settle_of_first? ha, settle_of_first? hb]
    refine ih hequal (hbelow.rewrites hrewrites) ?_
    rintro ⟨c, z, w, rfl, -⟩
    exact hbelow.ne_div_const hrewrites c z rfl

theorem simplify_congr_of_not_opposed (h : (a == b) = true)
    (hopposed : ∀ turns p q, a.at? turns = some p → b.at? turns = some q → ¬ Opposed rules p q) :
    (a.simplify rules == b.simplify rules) = true := by
  induction a generalizing b with
  | const c =>
    cases b with
    | const d =>
      rw [simplify_const, simplify_const]
      exact h
    | _ => cases h
  | var n =>
    cases b with
    | var m =>
      rw [simplify_var, simplify_var]
      exact h
    | _ => cases h
  | neg e ih =>
    cases b with
    | neg f =>
      have he := ih h fun turns => hopposed (.operand :: turns)
      rw [simplify_neg, simplify_neg]
      exact settle_congr he (normal_simplify rules e) fun ⟨_, _, _, hc, _⟩ => nomatch hc
    | _ => cases h
  | bin op l r ihl ihr =>
    cases b with
    | bin op' l' r' =>
      obtain ⟨rfl, hl, hr⟩ := equal_bin_iff.mp h
      have hl := ihl hl fun turns => hopposed (.lhs :: turns)
      have hr := ihr hr fun turns => hopposed (.rhs :: turns)
      have hbelow : (bin op (l.simplify rules) (r.simplify rules)).NormalBelow rules :=
        ⟨normal_simplify rules l, normal_simplify rules r⟩
      rw [simplify_bin, simplify_bin]
      refine settle_congr (equal_bin_iff.mpr ⟨rfl, hl, hr⟩) hbelow ?_
      -- the division that the rules would not treat alike is one of the two expressions
      rintro ⟨c, z, w, hc, hw, hopposite⟩
      obtain ⟨rfl, hlc, hrz⟩ := Expr.bin.inj hc
      obtain ⟨-, hlc', hrw⟩ := Expr.bin.inj hw
      refine hopposed [] _ _ (at?_nil _) (at?_nil _) ⟨l, r, l', r', rfl, rfl, c, z, w, ?_, ?_,
        hopposite⟩
      · rw [hlc, hrz]
      · rw [hlc', hrw]
    | _ => cases h

theorem Opposed.simplify_ne (h : Opposed rules a b) :
    (a.simplify rules == b.simplify rules) = false := by
  obtain ⟨l, r, l', r', rfl, rfl, c, z, w, hz, hw, hopposite⟩ := h
  rw [simplify_bin, simplify_bin, hz, hw, settle_of_first? (first?_bin_const rules .div c z),
    settle_of_first? (first?_bin_const rules .div c w), settle_of_settled (settled_const rules _),
    settle_of_settled (settled_const rules _)]
  exact hopposite.not_same

end Expr

open Rearrange.Expr

/-- Equal expressions can become different by simplifying: `1 / 0` and `1 / -0`. -/
theorem simplify_distinguishes_zeros :
    (const 1 / const 0 == const 1 / const (-0)) = true ∧
      ∀ rules, ((const 1 / const 0).simplify rules == (const 1 / const (-0)).simplify rules) =
        false := by
  refine ⟨by decide +kernel, fun rules => ?_⟩
  cases rules <;> decide +kernel

/-- Equal expressions are simplified to equal expressions, unless somewhere in them a nonzero number
comes to be divided by the two zeros. The quotients then become different. -/
theorem simplify_congr (rules : RuleSet) {a b : Expr} (h : (a == b) = true) :
    ((∀ turns p q, a.at? turns = some p → b.at? turns = some q → ¬ Opposed rules p q) →
      (a.simplify rules == b.simplify rules) = true) ∧
      ∀ p q, Opposed rules p q → (p.simplify rules == q.simplify rules) = false :=
  ⟨simplify_congr_of_not_opposed h, fun _ _ => Opposed.simplify_ne⟩

theorem simplify_congr_zeros :
    (const 0 / const 0 == const 0 / const (-0)) = true ∧
      ((const 0 / const 0).simplify .extended == (const 0 / const (-0)).simplify .extended) = true ∧
      Opposed .extended (const 1 / const 0) (const 1 / const (-0)) ∧
      ((const 1 / const 0).simplify .extended == (const 1 / const (-0)).simplify .extended) =
        false := by
  have hequal : (const 0 / const 0 == const 0 / const (-0)) = true := by decide +kernel
  have hnone : ∀ turns p q, (const 0 / const 0).at? turns = some p →
      (const 0 / const (-0)).at? turns = some q → ¬ Opposed .extended p q := by
    rintro turns p q hp - ⟨l, r, l', r', rfl, -, c, z, w, hz, -, hopposite⟩
    cases turns with
    | nil =>
      cases hp
      rw [simplify_const] at hz
      cases hz
      exact absurd hopposite.nonzero (by decide +kernel)
    | cons t turns =>
      cases t with
      | operand => cases hp
      | lhs | rhs =>
        cases turns with
        | nil => cases hp
        | cons u turns => cases u <;> cases hp
  have hopposed : Opposed .extended (const 1 / const 0) (const 1 / const (-0)) :=
    ⟨const 1, const 0, const 1, const (-0), rfl, rfl, 1, 0, -0, by simp only [simplify_const],
      by simp only [simplify_const], by decide +kernel, by decide +kernel, by decide +kernel,
      by decide +kernel⟩
  obtain ⟨hsimplified, hdiffer⟩ := simplify_congr .extended hequal
  exact ⟨hequal, hsimplified hnone, hopposed, hdiffer _ _ hopposed⟩

end Rearrange

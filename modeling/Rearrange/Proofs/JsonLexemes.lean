import Rearrange.Json.Form
import Rearrange.Proofs.ShortestDecimal

namespace Rearrange

namespace Json

theorem hex4?_control : ∀ n < 0x20,
    hex4? '0' '0' (Nat.digitChar (n / 16)) (Nat.digitChar (n % 16)) = some n := by
  decide

theorem escapeChar_cases (c : Char) :
    (∃ e, escapeChar c = ['\\', e] ∧ e ≠ 'u' ∧ shortEscape? e = some c) ∨
    (∃ a b, escapeChar c = ['\\', 'u', '0', '0', a, b] ∧ hex4? '0' '0' a b = some c.toNat ∧
      c.toNat < 0x20) ∨
    escapeChar c = [c] ∧ c ≠ '"' ∧ c ≠ '\\' ∧ 0x20 ≤ c.toNat := by
  unfold escapeChar
  split
  iterate 7 next => exact Or.inl ⟨_, rfl, by decide, rfl⟩
  next hquote hslash _ _ _ _ _ =>
    split
    next hc => exact Or.inr (Or.inl ⟨_, _, rfl, hex4?_control _ hc, hc⟩)
    next hc => exact Or.inr (Or.inr ⟨rfl, hquote, hslash, Nat.not_lt.mp hc⟩)

theorem stringBody_escapeChar (c : Char) (r : List Char) :
    stringBody (escapeChar c ++ r) = (stringBody r).map fun (l, r) => (escapeChar c ++ l, r) := by
  rcases escapeChar_cases c with
    ⟨e, hc, he, hshort⟩ | ⟨a, b, hc, hhex, -⟩ | ⟨hc, hquote, hslash, hge⟩
  · rw [hc]
    simp [stringBody, he, hshort]
  · rw [hc]
    simp [stringBody, hhex]
  · rw [hc]
    have hlt : ¬ c.toNat < 0x20 := Nat.not_lt.mpr hge
    simp [stringBody, hslash, hlt]

theorem stringBody_escape (cs r : List Char) :
    stringBody (escape cs ++ '"' :: r) = some (escape cs, r) := by
  induction cs with
  | nil => rfl
  | cons c cs ih =>
    change stringBody ((escapeChar c ++ escape cs) ++ '"' :: r) =
      some (escapeChar c ++ escape cs, r)
    rw [List.append_assoc, stringBody_escapeChar, ih]
    rfl

theorem unescape_escapeChar (c : Char) (r : List Char) :
    unescape (escapeChar c ++ r) = (unescape r).map (c :: ·) := by
  rcases escapeChar_cases c with ⟨e, hc, he, hshort⟩ | ⟨a, b, hc, hhex, hlt⟩ | ⟨hc, -, hslash, -⟩
  · rw [hc]
    simp [unescape, he, hshort]
  · have hlow : isLowSurrogate c.toNat = false := by
      simp only [isLowSurrogate, Bool.and_eq_false_iff, decide_eq_false_iff_not]
      omega
    have hhigh : isHighSurrogate c.toNat = false := by
      simp only [isHighSurrogate, Bool.and_eq_false_iff, decide_eq_false_iff_not]
      omega
    rw [hc]
    simp [unescape, hhex, hlow, hhigh]
  · rw [hc]
    simp [unescape, hslash]

theorem unescape_escape (cs : List Char) : unescape (escape cs) = some cs := by
  induction cs with
  | nil => rfl
  | cons c cs ih =>
    change unescape (escapeChar c ++ escape cs) = some (c :: cs)
    rw [unescape_escapeChar, ih]
    rfl

theorem text?_ofText (s : String) : (ofText s).text? = some s := by
  rw [ofText, text?, unescape_escape, Option.map_some, String.ofList_toList]

/-- Digits in front of the point: a zero stands alone. -/
structure IsWhole (ds : List Char) : Prop where
  ne_nil : ds ≠ []
  isDigit : ∀ d ∈ ds, d.isDigit = true
  eq_zero : ds.head? = some '0' → ds = ['0']

/-- A point with digits behind it, or nothing. -/
inductive IsFraction : List Char → Prop
  | none : IsFraction []
  | point {ds : List Char} : ds ≠ [] → (∀ d ∈ ds, d.isDigit = true) → IsFraction ('.' :: ds)

/-- A mark with a sign and digits, or nothing. -/
inductive IsExponent : List Char → Prop
  | none : IsExponent []
  | mark {s : Char} {ds : List Char} : s = '+' ∨ s = '-' → ds ≠ [] →
    (∀ d ∈ ds, d.isDigit = true) → IsExponent ('e' :: s :: ds)

inductive IsUnsigned : List Char → Prop
  | parts {cs : List Char} (whole fraction exponent : List Char) :
    cs = whole ++ fraction ++ exponent → IsWhole whole → IsFraction fraction →
      IsExponent exponent → IsUnsigned cs

/-- What follows a number cannot be taken for a part of it. -/
def Ends (r : List Char) : Prop :=
  ∀ c ∈ r.head?, c.isDigit = false ∧ c ≠ '.' ∧ c ≠ 'e' ∧ c ≠ 'E'

section

variable {ds r : List Char}

theorem digits1_append (hne : ds ≠ []) (hds : ∀ d ∈ ds, d.isDigit = true)
    (hr : ∀ c ∈ r.head?, c.isDigit = false) : digits1 (ds ++ r) = some (ds, r) := by
  obtain ⟨htake, hdrop⟩ := Lexer.takeWhile_append_boundary hds hr
  simp only [digits1, htake, hdrop, List.isEmpty_iff, hne, if_false]

theorem IsWhole.append (h : IsWhole ds) (hr : ∀ c ∈ r.head?, c.isDigit = false) :
    wholeDigits (ds ++ r) = some (ds, r) := by
  by_cases hzero : ds.head? = some '0'
  · rw [h.eq_zero hzero]
    rfl
  · have hcut := digits1_append h.ne_nil h.isDigit hr
    unfold wholeDigits
    split
    next r' hcs =>
      cases ds with
      | nil => exact absurd rfl h.ne_nil
      | cons d ds => cases hcs; exact absurd rfl hzero
    next => exact hcut

theorem IsFraction.append (h : IsFraction ds)
    (hr : ∀ c ∈ r.head?, c.isDigit = false ∧ c ≠ '.') :
    fractionPart (ds ++ r) = some (ds, r) := by
  cases h with
  | none =>
    unfold fractionPart
    rw [List.nil_append]
    split
    next r' => exact absurd rfl (hr '.' rfl).2
    next => rfl
  | point hne hds =>
    have hcut := digits1_append hne hds fun c hc => (hr c hc).1
    simp [fractionPart, hcut]

theorem IsExponent.append (h : IsExponent ds) (hr : Ends r) :
    exponentPart (ds ++ r) = some (ds, r) := by
  cases h with
  | none =>
    rw [List.nil_append]
    cases r with
    | nil => rfl
    | cons c r =>
      obtain ⟨-, -, he, hE⟩ := hr c rfl
      simp [exponentPart, he, hE]
  | mark hs hne hds =>
    have hcut := digits1_append hne hds fun c hc => (hr c hc).1
    rcases hs with rfl | rfl <;> simp [exponentPart, hcut]

theorem IsFraction.head (h : IsFraction ds) (hr : ∀ c ∈ r.head?, c.isDigit = false) :
    ∀ c ∈ (ds ++ r).head?, c.isDigit = false := by
  cases h with
  | none => exact hr
  | point hne hds => rintro c ⟨⟩; rfl

theorem IsExponent.head (h : IsExponent ds) (hr : Ends r) :
    ∀ c ∈ (ds ++ r).head?, c.isDigit = false ∧ c ≠ '.' := by
  cases h with
  | none => exact fun c hc => ⟨(hr c hc).1, (hr c hc).2.1⟩
  | mark => rintro c ⟨⟩; decide

theorem IsUnsigned.append (h : IsUnsigned ds) (hr : Ends r) :
    unsigned (ds ++ r) = some (ds, r) := by
  obtain ⟨whole, fraction, exponent, rfl, hwhole, hfraction, hexponent⟩ := h
  have hbehind := hexponent.head hr
  have hcut := hwhole.append (hfraction.head fun c hc => (hbehind c hc).1)
  rw [List.append_assoc, List.append_assoc]
  simp [unsigned, hcut, hfraction.append hbehind, hexponent.append hr]

theorem IsUnsigned.exists_cons (h : IsUnsigned ds) :
    ∃ d rest, ds = d :: rest ∧ d.isDigit = true := by
  obtain ⟨whole, fraction, exponent, rfl, hwhole, -, -⟩ := h
  cases whole with
  | nil => exact absurd rfl hwhole.ne_nil
  | cons d rest =>
    exact ⟨d, rest ++ fraction ++ exponent, rfl, hwhole.isDigit d (List.mem_cons_self ..)⟩

theorem IsUnsigned.numberLexeme (h : IsUnsigned ds) (hr : Ends r) :
    numberLexeme (ds ++ r) = some (ds, r) := by
  have hcut := h.append hr
  obtain ⟨d, rest, rfl, hd⟩ := h.exists_cons
  unfold Json.numberLexeme
  split
  next r' hcs => cases hcs; cases hd
  next => exact hcut

theorem IsUnsigned.numberLexeme_neg (h : IsUnsigned ds) (hr : Ends r) :
    Json.numberLexeme ('-' :: ds ++ r) = some ('-' :: ds, r) := by
  change (unsigned (ds ++ r)).map _ = _
  rw [h.append hr]
  rfl

end

end Json

namespace Decimal

open Json (IsWhole IsFraction IsExponent IsUnsigned)

theorem head?_toDigits {n : Nat} (h : 0 < n) : (Nat.toDigits 10 n).head? ≠ some '0' := by
  induction n using Nat.strong_induction_on with
  | h n ih =>
    rw [Nat.toDigits_eq_if (by decide)]
    split
    next hlt =>
      have hdigit : ∀ d < 10, 0 < d → Nat.digitChar d ≠ '0' := by decide
      simpa using hdigit n hlt h
    next hge =>
      have hquotient : 0 < n / 10 := Nat.div_pos (Nat.not_lt.mp hge) (by decide)
      rw [List.head?_append_of_ne_nil _ Nat.toDigits_ne_nil]
      exact ih (n / 10) (Nat.div_lt_self h (by decide)) hquotient

theorem isWhole_digits (n : Nat) : IsWhole (Nat.toDigits 10 n) where
  ne_nil := Nat.toDigits_ne_nil
  isDigit _ := isDigit_of_mem_digits
  eq_zero h := by
    rcases Nat.eq_zero_or_pos n with rfl | hn
    · rfl
    · exact absurd h (head?_toDigits hn)

theorem isWhole_digits_append_zeros {n k : Nat} (h : n = 0 → k = 0) :
    IsWhole (Nat.toDigits 10 n ++ List.replicate k '0') := by
  rcases Nat.eq_zero_or_pos n with rfl | hn
  · rw [h rfl, List.replicate_zero, List.append_nil]
    exact isWhole_digits 0
  · refine ⟨List.append_ne_nil_of_left_ne_nil Nat.toDigits_ne_nil _, fun d hd => ?_,
      fun hhead => ?_⟩
    · rcases List.mem_append.mp hd with hd | hd
      · exact isDigit_of_mem_digits hd
      · exact isDigit_of_mem_zeros hd
    · rw [List.head?_append_of_ne_nil _ Nat.toDigits_ne_nil] at hhead
      exact absurd hhead (head?_toDigits hn)

theorem isExponent_exponentText (e : Int) : IsExponent (exponentText e) := by
  refine .mark ?_ Nat.toDigits_ne_nil fun d => isDigit_of_mem_digits
  split
  · exact Or.inr rfl
  · exact Or.inl rfl

theorem isUnsigned_scientific (d : Decimal) : IsUnsigned d.scientific := by
  have hwhole := isWhole_digits d.digits
  have hexponent := isExponent_exponentText (d.pointPlace - 1)
  unfold scientific
  simp only
  generalize Nat.toDigits 10 d.digits = ds at hwhole
  cases ds with
  | nil => exact absurd rfl hwhole.ne_nil
  | cons c cs =>
    have hfirst : IsWhole [c] := by
      refine ⟨List.cons_ne_nil c [], ?_, fun h => congrArg ([·]) (Option.some.inj h)⟩
      intro d hd
      rw [List.mem_singleton.mp hd]
      exact hwhole.isDigit c List.mem_cons_self
    cases cs with
    | nil => exact .parts [c] [] _ rfl hfirst .none hexponent
    | cons c' cs =>
      exact .parts [c] ('.' :: c' :: cs) _ rfl hfirst
        (.point (List.cons_ne_nil _ _) fun d hd => hwhole.isDigit d (List.mem_cons_of_mem _ hd))
        hexponent

theorem isUnsigned_positional_append {d : Decimal} {n : Nat} (h : d.exponent = .ofNat n)
    (hzero : d.digits = 0 → n = 0) : IsUnsigned (d.positional ++ ['.', '0']) := by
  have htext : d.positional = Nat.toDigits 10 d.digits ++ List.replicate n '0' := by
    unfold positional
    rw [h]
  rw [htext]
  exact .parts _ _ [] (List.append_nil _).symm (isWhole_digits_append_zeros hzero)
    (.point (List.cons_ne_nil _ _) fun d hd => isDigit_of_mem_zeros (n := 1) hd) .none

theorem isUnsigned_positional {d : Decimal} {n : Nat} (h : d.exponent = .negSucc n) :
    IsUnsigned d.positional := by
  have hdigits := isWhole_digits d.digits
  unfold positional
  rw [h]
  simp only
  generalize Nat.toDigits 10 d.digits = ds at hdigits
  split
  next hlt =>
    have hwhole : IsWhole (ds.take (ds.length - (n + 1))) := by
      refine ⟨?_, fun d hd => hdigits.isDigit d (List.mem_of_mem_take hd), fun hhead => ?_⟩
      · rw [ne_eq, List.take_eq_nil_iff, not_or]
        exact ⟨by omega, hdigits.ne_nil⟩
      · -- A zero in front is the only digit, but there are at least two.
        rw [List.head?_take, if_neg (by omega)] at hhead
        rw [hdigits.eq_zero hhead, List.length_singleton] at hlt
        omega
    refine .parts _ _ [] (List.append_nil _).symm hwhole (.point ?_ fun d hd =>
      hdigits.isDigit d (List.mem_of_mem_drop hd)) .none
    rw [ne_eq, List.drop_eq_nil_iff]
    omega
  next =>
    refine .parts ['0'] _ [] (List.append_nil _).symm (isWhole_digits 0)
      (.point (List.append_ne_nil_of_right_ne_nil _ hdigits.ne_nil) fun d hd => ?_) .none
    rcases List.mem_append.mp hd with hd | hd
    · exact isDigit_of_mem_zeros hd
    · exact hdigits.isDigit d hd

/-- The text of a decimal is a number, unless zeros would have to follow a zero. -/
theorem isUnsigned_marked {d : Decimal} (h : d.digits = 0 → d.exponent ≤ 0) :
    IsUnsigned d.marked := by
  unfold marked
  split
  next =>
    cases he : d.exponent with
    | ofNat n =>
      rw [if_pos (show 0 ≤ Int.ofNat n from Int.natCast_nonneg n)]
      refine isUnsigned_positional_append he fun hzero => ?_
      have hle := h hzero
      rw [he, Int.ofNat_eq_natCast] at hle
      omega
    | negSucc n =>
      rw [if_neg (by omega)]
      exact isUnsigned_positional he
  next => exact isUnsigned_scientific d

end Decimal

theorem Binary64.exponent_shortest_le {x : Float} (h : x.isFinite = true) (tie : Tie)
    (hdigits : ((ofFloat x).shortest tie).digits = 0) :
    ((ofFloat x).shortest tie).exponent ≤ 0 := by
  rcases Number.isFinite_iff.mp h with ⟨s, hx⟩ | ⟨s, m, e, hm, hx⟩
  · have hmantissa : (ofFloat x).mantissa = 0 := by rw [ofFloat_of_zero hx]
    rw [shortest, if_pos hmantissa]
  · have hle := Rounding.RoundsTo.le (Rounding.canonical_of_parts hx) (roundsTo_shortest hx tie)
    rw [Decimal.value, hdigits, Nat.cast_zero, zero_mul] at hle
    exact absurd hle (not_le.mpr (by positivity))

namespace Json

def IsNumber (cs : List Char) : Prop := IsUnsigned cs ∨ ∃ ds, cs = '-' :: ds ∧ IsUnsigned ds

theorem IsNumber.append {cs r : List Char} (h : IsNumber cs) (hr : Ends r) :
    numberLexeme (cs ++ r) = some (cs, r) := by
  rcases h with h | ⟨ds, rfl, h⟩
  · exact h.numberLexeme hr
  · exact h.numberLexeme_neg hr

theorem IsNumber.exists_cons {cs : List Char} (h : IsNumber cs) :
    ∃ c rest, cs = c :: rest ∧ (c.isDigit = true ∨ c = '-') := by
  rcases h with h | ⟨ds, rfl, -⟩
  · obtain ⟨d, rest, rfl, hd⟩ := h.exists_cons
    exact ⟨d, rest, rfl, Or.inl hd⟩
  · exact ⟨'-', ds, rfl, Or.inr rfl⟩

theorem isNumber_digits (n : Nat) : IsNumber (Nat.toDigits 10 n) :=
  Or.inl (.parts _ [] [] (by simp) (Decimal.isWhole_digits n) .none .none)

theorem exists_ofFloat {x : Float} (h : x.isFinite = true) :
    ∃ l, ofFloat x = .number l ∧ IsNumber l := by
  have hmagnitude : IsUnsigned ((Binary64.ofFloat x).shortest .even).marked :=
    Decimal.isUnsigned_marked (Binary64.exponent_shortest_le h .even)
  refine ⟨_, if_pos h, ?_⟩
  split
  · exact Or.inr ⟨_, rfl, hmagnitude⟩
  · exact Or.inl hmagnitude

theorem nat?_ofNat {n : Nat} (h : n < UInt64.size) : (ofNat n).nat? = some n := by
  have hdigits : (Nat.toDigits 10 n).all Char.isDigit = true :=
    List.all_eq_true.mpr fun d => Decimal.isDigit_of_mem_digits
  simp only [ofNat, nat?, Decimal.digitsValue_toDigits, hdigits, h, decide_true, Bool.and_self,
    if_true]

end Json

end Rearrange

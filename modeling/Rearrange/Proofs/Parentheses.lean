import Rearrange.Proofs.StatementForms
import Rearrange.Proofs.TextRegions

namespace Rearrange

def TokenKind.weight : TokenKind → Int
  | openParen => 1
  | closeParen => -1
  | _ => 0

/-- How many more parentheses are opened than closed. -/
def height (ts : List Token) : Int := (ts.map fun t => t.kind.weight).sum

def Balanced (ts : List Token) : Prop := height ts = 0 ∧ ∀ us vs, ts = us ++ vs → 0 ≤ height us

/-- A parenthesis that is opened in front of the tokens has no partner among them. -/
def NeverClosed (ts : List Token) : Prop :=
  ∀ us c vs, ts = us ++ c :: vs → c.kind = .closeParen → ¬ Balanced us

/-- A parenthesis that is closed behind the tokens has no partner among them. -/
def NeverOpened (ts : List Token) : Prop :=
  ∀ us o vs, ts = us ++ o :: vs → o.kind = .openParen → ¬ Balanced vs

def LoneParen (ts : List Token) (opening : Bool) (s : Span) : Prop :=
  ∃ front w rest, ts = front ++ w :: rest ∧ w.span = s ∧
    if opening then w.kind = .openParen ∧ NeverClosed rest
    else w.kind = .closeParen ∧ NeverOpened front

section

variable {ts us : List Token} {t o c : Token}

theorem height_nil : height [] = 0 := rfl

theorem height_cons (t : Token) (ts : List Token) :
    height (t :: ts) = t.kind.weight + height ts := by
  rw [height, List.map_cons, List.sum_cons, height]

theorem height_append (ts us : List Token) : height (ts ++ us) = height ts + height us := by
  rw [height, List.map_append, List.sum_append, height, height]

theorem height_words (ts : List Token) : height (words ts) = height ts := by
  induction ts with
  | nil => rfl
  | cons t ts ih =>
    cases ht : t.isWhitespace with
    | true =>
      have hweight : t.kind.weight = 0 := by
        rw [Token.isWhitespace] at ht
        cases hk : t.kind <;> rw [hk] at ht <;> first | rfl | cases ht
      rw [words_cons_of_whitespace ht, height_cons, hweight, Int.zero_add, ih]
    | false => rw [words_cons ht, height_cons, height_cons, ih]

theorem balanced_nil : Balanced [] := by
  refine ⟨rfl, fun us vs h => ?_⟩
  rw [(List.append_eq_nil_iff.mp h.symm).1]
  exact Int.le_refl 0

theorem Balanced.append (hts : Balanced ts) (hus : Balanced us) : Balanced (ts ++ us) := by
  refine ⟨by rw [height_append, hts.1, hus.1]; rfl, fun as bs h => ?_⟩
  obtain ⟨cs, rfl, hcs⟩ | ⟨cs, hcs, -⟩ := List.append_eq_append_iff.mp h
  · rw [height_append, hts.1, Int.zero_add]
    exact hus.2 cs bs hcs
  · exact hts.2 as cs hcs

theorem Balanced.of_append (h : Balanced (ts ++ us)) (hts : Balanced ts) : Balanced us := by
  obtain ⟨hzero, hfront⟩ := h
  rw [height_append, hts.1, Int.zero_add] at hzero
  refine ⟨hzero, fun as bs has => ?_⟩
  have hle := hfront (ts ++ as) bs (by rw [has, List.append_assoc])
  rwa [height_append, hts.1, Int.zero_add] at hle

theorem balanced_singleton (h : t.kind.weight = 0) : Balanced [t] := by
  have hzero : height [t] = 0 := by rw [height_cons, h, height_nil]; rfl
  refine ⟨hzero, fun us vs hts => ?_⟩
  cases us with
  | nil => exact Int.le_refl 0
  | cons u us =>
    obtain ⟨rfl, hus⟩ := List.cons.inj hts
    rw [(List.append_eq_nil_iff.mp hus.symm).1, hzero]

theorem Balanced.paren (ho : o.kind = .openParen) (hts : Balanced ts) (hc : c.kind = .closeParen) :
    Balanced (o :: ts ++ [c]) := by
  have hweights : o.kind.weight = 1 ∧ c.kind.weight = -1 := by
    rw [ho, hc]
    exact ⟨rfl, rfl⟩
  obtain ⟨hopen, hclose⟩ := hweights
  refine ⟨?_, fun us vs h => ?_⟩
  · rw [height_append, height_cons, height_cons, hts.1, height_nil]
    omega
  cases us with
  | nil => exact Int.le_refl 0
  | cons u us =>
    obtain ⟨rfl, hrest⟩ := List.cons.inj h
    rw [height_cons, hopen]
    obtain ⟨as, rfl, has⟩ | ⟨as, has, -⟩ := List.append_eq_append_iff.mp hrest
    · -- what lies behind the inner tokens is nothing or the closing parenthesis
      rw [height_append, hts.1]
      cases as with
      | nil => rw [height_nil]; omega
      | cons a as =>
        obtain ⟨rfl, hnil⟩ := List.cons.inj has
        rw [(List.append_eq_nil_iff.mp hnil.symm).1, height_cons, height_nil]
        omega
    · have := hts.2 us as has
      omega

theorem balanced_of_words (h : Balanced (words ts)) : Balanced ts := by
  refine ⟨(height_words ts).symm.trans h.1, fun us vs hts => ?_⟩
  rw [← height_words]
  exact h.2 (words us) (words vs) (by rw [hts, words_append])

theorem Balanced.kind_ne_openParen (h : Balanced (ts ++ [t])) : t.kind ≠ .openParen := by
  intro ht
  obtain ⟨hzero, hfront⟩ := h
  have hle := hfront ts [t] rfl
  rw [height_append, height_cons, height_nil, ht] at hzero
  change height ts + (1 + 0) = 0 at hzero
  omega

theorem Phrase.Spells.balanced {e : Phrase} (h : e.Spells ts) : Balanced ts := by
  induction h with
  | @number w v s hk _ =>
    refine balanced_singleton ?_
    rcases hk with hk | hk <;> rw [hk] <;> rfl
  | @name w s hk =>
    refine balanced_singleton ?_
    rw [hk]
    rfl
  | paren ho _ hc ih => exact ih.paren ho hc
  | @unary m op e ts s u hk _ ih => exact (balanced_singleton (t := m) (by rw [hk]; rfl)).append ih
  | @binary t op l r ls rs s u hk _ _ ihl ihr =>
    have hop : Balanced [t] := balanced_singleton (by rw [hk]; cases op <;> rfl)
    exact ihl.append (hop.append ihr)

theorem neverClosed_append (hts : Balanced ts) : NeverClosed (ts ++ us) ↔ NeverClosed us := by
  constructor
  · rintro h as c bs rfl hc has
    exact h (ts ++ as) c bs (List.append_assoc ..).symm hc (hts.append has)
  · intro h as c bs heq hc has
    obtain ⟨cs, rfl, hcs⟩ | ⟨cs, rfl, hcs⟩ := List.append_eq_append_iff.mp heq
    · exact h cs c bs hcs hc (has.of_append hts)
    · cases cs with
      | nil => exact h [] c bs hcs.symm hc balanced_nil
      | cons d cs =>
        -- balanced tokens do not go on with a closing parenthesis
        obtain ⟨rfl, -⟩ := List.cons.inj hcs
        have hle := hts.2 (as ++ [c]) cs (by simp)
        rw [height_append, has.1, height_cons, height_nil, hc] at hle
        cases hle

theorem Balanced.neverOpened (h : Balanced ts) : NeverOpened ts := by
  rintro us o vs rfl ho hvs
  obtain ⟨hzero, hfront⟩ := h
  have hle := hfront us (o :: vs) rfl
  rw [height_append, height_cons, hvs.1, ho] at hzero
  change height us + (1 + 0) = 0 at hzero
  omega

theorem not_neverOpened (ho : o.kind = .openParen) : ¬ NeverOpened (ts ++ [o]) :=
  fun h => h ts o [] rfl ho balanced_nil

end

theorem split_unique {source : String} {front front' rest rest' : List Token} {w w' : Token}
    (h : tokenize source = front ++ w :: rest) (h' : tokenize source = front' ++ w' :: rest')
    (hspan : w.span = w'.span) : front = front' ∧ w = w' ∧ rest = rest' := by
  have hapart {as bs cs : List Token} {t u : Token}
      (hts : tokenize source = as ++ t :: (bs ++ u :: cs)) : t.span ≠ u.span := by
    intro heq
    have hpairwise := (Lexer.scans_tokensFrom 0 source.toList).pairwise
    change (tokenize source).Pairwise _ at hpairwise
    rw [hts] at hpairwise
    have hle := (List.pairwise_cons.mp (List.pairwise_append.mp hpairwise).2.1).1 u (by simp)
    have hlt := (tiles_tokenize source).nonempty t (by rw [hts]; simp)
    rw [heq] at hle hlt
    omega
  obtain ⟨as, rfl, has⟩ | ⟨as, rfl, has⟩ := List.append_eq_append_iff.mp (h.symm.trans h')
  · cases as with
    | nil =>
      obtain ⟨rfl, rfl⟩ := List.cons.inj has
      exact ⟨(List.append_nil _).symm, rfl, rfl⟩
    | cons a as =>
      obtain ⟨rfl, rfl⟩ := List.cons.inj has
      exact absurd hspan (hapart h)
  · cases as with
    | nil =>
      obtain ⟨rfl, rfl⟩ := List.cons.inj has
      exact ⟨List.append_nil _, rfl, rfl⟩
    | cons a as =>
      obtain ⟨rfl, rfl⟩ := List.cons.inj has
      exact absurd hspan.symm (hapart h')

theorem loneParen_iff {source : String} {front rest : List Token} {w : Token} {opening : Bool}
    (h : tokenize source = front ++ w :: rest) :
    LoneParen (tokenize source) opening w.span ↔
      if opening then w.kind = .openParen ∧ NeverClosed rest
      else w.kind = .closeParen ∧ NeverOpened front := by
  constructor
  · rintro ⟨front', w', rest', h', hspan, hlone⟩
    obtain ⟨rfl, rfl, rfl⟩ := split_unique h h' hspan.symm
    exact hlone
  · exact fun hlone => ⟨front, w, rest, h, rfl, hlone⟩

end Rearrange

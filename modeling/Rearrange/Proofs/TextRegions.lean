import Rearrange.Proofs.ScannedTokens

namespace Rearrange

open String (utf8Len)

namespace Span

def slice (source : String) (a : Span) : String :=
  String.Pos.Raw.extract source ⟨a.start⟩ ⟨a.stop⟩

/-- A region of a text that begins and ends between two characters. -/
structure Within (source : String) (a : Span) : Prop where
  ordered : a.start ≤ a.stop
  inside : a.stop ≤ source.utf8ByteSize
  start_isValid : String.Pos.Raw.IsValid source ⟨a.start⟩
  stop_isValid : String.Pos.Raw.IsValid source ⟨a.stop⟩

variable {source : String} {l m r : List Char}

theorem isValid_of_toList (h : source.toList = l ++ r) :
    String.Pos.Raw.IsValid source ⟨utf8Len l⟩ := by
  refine String.Pos.Raw.isValid_iff_exists_append.mpr ⟨.ofList l, .ofList r, ?_, ?_⟩
  · rw [← String.ofList_append, ← h, String.ofList_toList]
  · ext
    rw [String.byteIdx_rawEndPos, String.utf8ByteSize_ofList]

theorem within_of_toList (h : source.toList = l ++ m ++ r) :
    Within source ⟨utf8Len l, utf8Len l + utf8Len m⟩ where
  ordered := Nat.le_add_right _ _
  inside := by
    rw [← String.ofList_toList (s := source), h, String.utf8ByteSize_ofList, String.utf8Len_append,
      String.utf8Len_append]
    exact Nat.le_add_right _ _
  start_isValid := isValid_of_toList (h.trans (List.append_assoc ..))
  stop_isValid := by
    rw [← String.utf8Len_append]
    exact isValid_of_toList h

theorem slice_of_toList (h : source.toList = l ++ m ++ r) :
    slice source ⟨utf8Len l, utf8Len l + utf8Len m⟩ = String.ofList m := by
  rw [slice, ← String.ofList_toList (s := source), h]
  exact String.extract_of_valid l m r

theorem within_zero (source : String) : Within source (.point 0) :=
  within_of_toList (l := []) (m := []) rfl

variable {a b : Span}

theorem Within.point_stop (h : Within source a) : Within source (.point a.stop) :=
  ⟨Nat.le_refl _, h.inside, h.stop_isValid, h.stop_isValid⟩

theorem Within.join (ha : Within source a) (hb : Within source b) (h : a.start ≤ b.stop) :
    Within source (a.join b) :=
  ⟨h, hb.inside, ha.start_isValid, hb.stop_isValid⟩

end Span

open Lexer

structure Tiles (source : String) (ts : List Token) : Prop where
  first : ∀ t ∈ ts.head?, t.span.start = 0
  adjacent : ts.IsChain fun t u => u.span.start = t.span.stop
  last : ∀ t ∈ ts.getLast?, t.span.stop = source.utf8ByteSize
  nonempty : ∀ t ∈ ts, t.span.start < t.span.stop
  within : ∀ t ∈ ts, t.span.Within source
  lexeme : ∀ t ∈ ts, t.lexeme = t.span.slice source
  join : String.join (ts.map Token.lexeme) = source

def Token.shift (n : Nat) (t : Token) : Token := { t with span := t.span.shift n }

namespace Lexer

variable {o : Nat} {cs : List Char} {ts : List Token} {t : Token}

theorem Scans.head_start (h : Scans o cs ts) : ∀ t ∈ ts.head?, t.span.start = o := by
  cases h with
  | done => exact nofun
  | token => rintro t ⟨⟩; rfl

theorem Scans.adjacent (h : Scans o cs ts) :
    ts.IsChain fun t u => u.span.start = t.span.stop := by
  induction h with
  | done => exact .nil
  | @token o kind text rest ts _ h ih =>
    cases ts with
    | nil => exact .singleton _
    | cons u us => exact .cons_cons (h.head_start u rfl) ih

theorem Scans.exists_text (h : Scans o cs ts) (ht : t ∈ ts) :
    ∃ l m r, cs = l ++ m ++ r ∧ Longest t.kind m r ∧ t.lexeme = String.ofList m ∧
      t.span = ⟨o + utf8Len l, o + utf8Len l + utf8Len m⟩ := by
  obtain ⟨as, bs, rfl⟩ := List.mem_iff_append.mp ht
  obtain ⟨l, _, rfl, -, h⟩ := h.of_append
  cases h with
  | @token _ kind m r _ hlongest _ =>
    refine ⟨l, m, r, (List.append_assoc ..).symm, hlongest, rfl, ?_⟩
    simp only [String.utf8ByteSize_ofList]

theorem Scans.last_stop (h : Scans o cs ts) :
    ∀ t ∈ ts.getLast?, t.span.stop = o + utf8Len cs := by
  intro t ht
  obtain ⟨as, rfl⟩ := List.getLast?_eq_some_iff.mp ht
  obtain ⟨l, _, rfl, -, h⟩ := h.of_append
  cases h with
  | token hlongest h =>
    cases h
    simp only [String.utf8ByteSize_ofList, List.append_nil, String.utf8Len_append, Nat.add_assoc]

theorem Scans.pairwise (h : Scans o cs ts) :
    ts.Pairwise fun t u => t.span.stop ≤ u.span.start := by
  induction h with
  | done => exact .nil
  | token _ h ih =>
    refine List.pairwise_cons.mpr ⟨fun u hu => ?_, ih⟩
    obtain ⟨l, m, r, -, -, -, hspan⟩ := h.exists_text hu
    rw [hspan]
    exact Nat.le_add_right _ _

theorem Scans.join (h : Scans o cs ts) :
    String.join (ts.map Token.lexeme) = String.ofList cs := by
  induction h with
  | done => rfl
  | token _ _ ih => rw [List.map_cons, String.join_cons, ih, ← String.ofList_append]

theorem Scans.shift (h : Scans o cs ts) (n : Nat) :
    Scans (o + n) cs (ts.map (Token.shift n)) := by
  induction h with
  | done => exact .done
  | @token o kind text rest ts hlongest _ ih =>
    rw [Nat.add_right_comm] at ih
    have h := Scans.token hlongest ih
    rwa [Nat.add_right_comm o n] at h

theorem tokensFrom_eq_map_shift (n : Nat) (cs : List Char) :
    tokensFrom n cs = (tokensFrom 0 cs).map (Token.shift n) := by
  have hshift := (scans_tokensFrom 0 cs).shift n
  rw [Nat.zero_add] at hshift
  exact hshift.eq_tokensFrom

end Lexer

theorem tiles_tokenize (source : String) : Tiles source (tokenize source) := by
  have h : Scans 0 source.toList (tokenize source) := scans_tokensFrom 0 source.toList
  have htext {t : Token} (ht : t ∈ tokenize source) : ∃ l m r,
      source.toList = l ++ m ++ r ∧ m ≠ [] ∧ t.lexeme = String.ofList m ∧
        t.span = ⟨utf8Len l, utf8Len l + utf8Len m⟩ := by
    obtain ⟨l, m, r, hlmr, hlongest, hlexeme, hspan⟩ := h.exists_text ht
    exact ⟨l, m, r, hlmr, hlongest.ne_nil, hlexeme, by rw [hspan, Nat.zero_add]⟩
  refine ⟨h.head_start, h.adjacent, ?_, ?_, ?_, ?_, ?_⟩
  · intro t ht
    rw [h.last_stop t ht, Nat.zero_add, ← String.utf8ByteSize_ofList, String.ofList_toList]
  · intro t ht
    obtain ⟨l, m, r, -, hne, -, hspan⟩ := htext ht
    rw [hspan]
    exact Nat.lt_add_of_pos_right (Nat.pos_of_ne_zero (mt String.utf8Len_eq_zero.mp hne))
  · intro t ht
    obtain ⟨l, m, r, hlmr, -, -, hspan⟩ := htext ht
    rw [hspan]
    exact Span.within_of_toList hlmr
  · intro t ht
    obtain ⟨l, m, r, hlmr, -, hlexeme, hspan⟩ := htext ht
    rw [hspan, Span.slice_of_toList hlmr, hlexeme]
  · rw [h.join, String.ofList_toList]

end Rearrange

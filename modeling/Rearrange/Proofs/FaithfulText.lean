import Rearrange.Proofs.AcceptedSentences
import Rearrange.Proofs.ExprEquality
import Rearrange.Proofs.PrintedWords
import Rearrange.Proofs.ShortestDecimal

namespace Rearrange

open Lexer

namespace Expr

/-- How an expression is written, up to regions: operations and the operands of negations stand in
parentheses. -/
def phrase : Expr → Phrase
  | const c =>
    if Number.isNegative c then .unary .neg (.point 0) (.number (-c) (.point 0)) (.point 0)
    else .number c (.point 0)
  | var n => .name n (.point 0)
  | neg e => .unary .neg (.point 0) (.paren e.phrase (.point 0)) (.point 0)
  | bin op l r => .paren (.binary op (.point 0) l.phrase r.phrase (.point 0)) (.point 0)

/-- Each negative constant as the negation of its opposite. -/
def unsigned : Expr → Expr
  | const c => if Number.isNegative c then -const (-c) else const c
  | var n => var n
  | neg e => -e.unsigned
  | bin op l r => bin op l.unsigned r.unsigned

theorem isBinary_phrase (e : Expr) : e.phrase.isBinary = false := by
  cases e with
  | const c =>
    rw [phrase]
    split <;> rfl
  | _ => rfl

theorem wellShaped_phrase (e : Expr) : e.phrase.WellShaped := by
  induction e with
  | const c =>
    rw [phrase]
    split
    · exact ⟨trivial, rfl⟩
    · trivial
  | var n => trivial
  | neg e ih => exact ⟨ih, rfl⟩
  | bin op l r ihl ihr =>
    have hl := Phrase.isSum_of_isBinary l.isBinary_phrase
    have hr := Phrase.isSum_of_isBinary r.isBinary_phrase
    exact (Phrase.wellShaped_binary (s := .point 0) (u := .point 0)).mpr
      ⟨ihl, ihr, fun _ => hr, fun _ => ⟨r.isBinary_phrase, hl⟩⟩

theorem toExpr_phrase (e : Expr) : e.phrase.toExpr = e.unsigned := by
  induction e with
  | const c =>
    rw [phrase, unsigned]
    split <;> rfl
  | var n => rfl
  | neg e ih => exact congrArg neg ih
  | bin op l r ihl ihr => exact congrArg₂ (bin op) ihl ihr

theorem unsigned_eq {e : Expr} (h : ∀ c ∈ e.constants, Number.isNegative c = false) :
    e.unsigned = e := by
  induction e with
  | const c => simp [unsigned, h c (List.mem_singleton.mpr rfl)]
  | var n => rfl
  | neg e ih => exact congrArg neg (ih h)
  | bin op l r ihl ihr =>
    rw [unsigned, ihl fun c hc => h c (List.mem_append_left _ hc),
      ihr fun c hc => h c (List.mem_append_right _ hc)]

end Expr

theorem Phrase.toExpr_unplaced (t : Phrase) : t.unplaced.toExpr = t.toExpr := by
  induction t with
  | number v s | name n s => rfl
  | paren e s ih => exact ih
  | unary op s e u ih => cases op; exact congrArg Expr.neg ih
  | binary op s l r u ihl ihr => exact congrArg₂ (Expr.bin op) ihl ihr

/-- Wherever the text is cut, the words of its head spell `t`. -/
def Phrase.Heads (t : Phrase) (text rest : List Char) : Prop :=
  ∀ o, ∃ ts o', words (tokensFrom o (text ++ rest)) = ts ++ words (tokensFrom o' rest) ∧
    t.Spells ts

section

variable {rest : List Char}

theorem breaks_cons {c : Char} (h : isNameRest c = false ∧ c ≠ '.') (cs : List Char) :
    Breaks (c :: cs) := by
  intro d hd
  cases hd
  exact h

theorem Phrase.Heads.name {n : String} (hn : isName n = true) (h : Breaks rest) :
    (Phrase.name n (.point 0)).Heads n.toList rest := by
  intro o
  obtain ⟨t, o', hwords, hk, hlexeme⟩ := words_of_cutsOff (cutsOff_name hn h) rfl o
  rw [String.ofList_toList] at hlexeme
  subst hlexeme
  exact ⟨[t], o', hwords, .name hk⟩

theorem Phrase.Heads.number {v : Float} {text : List Char} (ht : Decimal.Written text)
    (hv : Number.read (String.ofList text) = some v) (h : Breaks rest) :
    (Phrase.number v (.point 0)).Heads text rest := by
  intro o
  have hcuts : ∃ t o', words (tokensFrom o (text ++ rest)) = t :: words (tokensFrom o' rest) ∧
      (t.kind = .int ∨ t.kind = .float) ∧ t.lexeme = String.ofList text := by
    rcases cutsOff_written ht h with hcut | hcut
    · obtain ⟨t, o', hwords, hk, hlexeme⟩ := words_of_cutsOff hcut rfl o
      exact ⟨t, o', hwords, Or.inl hk, hlexeme⟩
    · obtain ⟨t, o', hwords, hk, hlexeme⟩ := words_of_cutsOff hcut rfl o
      exact ⟨t, o', hwords, Or.inr hk, hlexeme⟩
  obtain ⟨t, o', hwords, hk, hlexeme⟩ := hcuts
  exact ⟨[t], o', hwords, .number hk (by rw [hlexeme, hv])⟩

theorem Phrase.Heads.neg {t : Phrase} {text : List Char} (h : t.Heads text rest) :
    (Phrase.unary .neg (.point 0) t (.point 0)).Heads ('-' :: text) rest := by
  intro o
  obtain ⟨w, o₁, hw, hk⟩ := words_single (c := '-') (by decide) o (text ++ rest)
  obtain ⟨ts, o₂, hts, hspells⟩ := h o₁
  exact ⟨w :: ts, o₂, by rw [List.cons_append, hw, hts, List.cons_append], .unary hk hspells⟩

theorem Phrase.Heads.paren {t : Phrase} {text : List Char} (h : t.Heads text (')' :: rest)) :
    (Phrase.paren t (.point 0)).Heads ('(' :: text ++ [')']) rest := by
  intro o
  obtain ⟨w, o₁, hw, hk⟩ := words_single (c := '(') (by decide) o (text ++ ')' :: rest)
  obtain ⟨ts, o₂, hts, hspells⟩ := h o₁
  obtain ⟨c, o₃, hc, hck⟩ := words_single (c := ')') (by decide) o₂ rest
  refine ⟨w :: ts ++ [c], o₃, ?_, .paren hk hspells hck⟩
  have htext : '(' :: text ++ [')'] ++ rest = '(' :: (text ++ ')' :: rest) := by simp
  rw [htext, hw, hts, hc]
  simp

theorem Phrase.Heads.binary {op : BinOp} {l r : Phrase} {left right : List Char}
    (hl : l.Heads left (' ' :: op.symbol.toList ++ ' ' :: (right ++ rest)))
    (hr : r.Heads right rest) :
    (Phrase.binary op (.point 0) l r (.point 0)).Heads
      (left ++ ' ' :: op.symbol.toList ++ ' ' :: right) rest := by
  intro o
  have hop : ∃ c, op.symbol.toList = [c] ∧ single c = op.kind := by
    cases op <;> exact ⟨_, rfl, rfl⟩
  obtain ⟨c, hc, hkind⟩ := hop
  rw [hc] at hl ⊢
  obtain ⟨ls, o₁, hls, hlspells⟩ := hl o
  obtain ⟨w, o₂, hw, hk⟩ := words_single (c := c) (by rw [hkind]; cases op <;> decide) (o₁ + 1)
    (' ' :: (right ++ rest))
  obtain ⟨rs, o₃, hrs, hrspells⟩ := hr (o₂ + 1)
  refine ⟨ls ++ w :: rs, o₃, ?_, .binary (by rw [hk, hkind]) hlspells hrspells⟩
  have htext : left ++ ' ' :: [c] ++ ' ' :: right ++ rest =
      left ++ (' ' :: [c] ++ ' ' :: (right ++ rest)) := by simp
  rw [htext, hls, List.cons_append, words_blank]
  change ls ++ words (tokensFrom (o₁ + 1) (c :: ' ' :: (right ++ rest))) = _
  rw [hw, words_blank, hrs]
  simp

theorem Expr.heads_phrase {e : Expr} (hnames : ∀ n ∈ e.names, isName n = true)
    (hfinite : e.isFinite = true) (h : Breaks rest) : e.phrase.Heads e.render.toList rest := by
  induction e generalizing rest with
  | const c =>
    have hc : c.isFinite = true := hfinite
    have hback := Number.read_magnitude hc
    have hwritten : Decimal.Written (Number.magnitude c) := Decimal.written_positional _
    have htext := Number.text_of_isFinite hc
    rw [phrase, render, htext, String.toList_ofList]
    split
    next hneg =>
      rw [if_pos hneg] at hback
      exact (Phrase.Heads.number hwritten hback h).neg
    next hneg =>
      rw [if_neg hneg] at hback
      exact Phrase.Heads.number hwritten hback h
  | var n => exact Phrase.Heads.name (hnames n (List.mem_singleton.mpr rfl)) h
  | neg e ih =>
    have htext : (render (neg e)).toList = '-' :: ('(' :: e.render.toList ++ [')']) := by
      simp [render, String.toList_append]
    rw [htext]
    exact (ih hnames hfinite (breaks_cons (by decide) rest)).paren.neg
  | bin op l r ihl ihr =>
    obtain ⟨hfl, hfr⟩ := Bool.and_eq_true_iff.mp hfinite
    have htext : (render (bin op l r)).toList =
        '(' :: (l.render.toList ++ ' ' :: op.symbol.toList ++ ' ' :: r.render.toList) ++ [')'] := by
      simp [render, String.toList_append]
    rw [htext]
    refine (Phrase.Heads.binary ?_ ?_).paren
    · exact ihl (fun n hn => hnames n (List.mem_append_left _ hn)) hfl (breaks_cons (by decide) _)
    · exact ihr (fun n hn => hnames n (List.mem_append_right _ hn)) hfr (breaks_cons (by decide) _)

theorem Expr.spells_render {e : Expr} (hnames : ∀ n ∈ e.names, isName n = true)
    (hfinite : e.isFinite = true) (o : Nat) :
    e.phrase.Spells (words (tokensFrom o e.render.toList)) := by
  have hnil : Breaks [] := fun c hc => nomatch hc
  obtain ⟨ts, o', hwords, hspells⟩ := Expr.heads_phrase hnames hfinite hnil o
  have hempty : words (tokensFrom o' []) = [] := by rw [tokensFrom]; rfl
  rw [List.append_nil, hempty, List.append_nil] at hwords
  rwa [hwords]

theorem Expr.read_render {e : Expr} (hnames : ∀ n ∈ e.names, isName n = true)
    (hfinite : e.isFinite = true) :
    ∃ t q, Parse.full Parse.expr (.ofSource e.render) = .ok t q ∧ t.toExpr = e.unsigned := by
  obtain ⟨t, q, hfull, hsame⟩ := Parse.full_expr_iff (p := .ofSource e.render).mpr
    ⟨e.wellShaped_phrase, e.spells_render hnames hfinite 0⟩
  refine ⟨t, q, hfull, ?_⟩
  rw [← t.toExpr_unplaced, hsame, e.phrase.toExpr_unplaced, e.toExpr_phrase]

end

/-- The text of an expression of finite constants is read as the same expression, apart from the
signs of its constants. -/
theorem render_reads_back {e : Expr} (hnames : ∀ n ∈ e.names, isName n = true)
    (hfinite : e.isFinite = true) :
    (∃ t q, Parse.full Parse.expr (.ofSource e.render) = .ok t q ∧ t.toExpr = e.unsigned) ∧
      ((∀ c ∈ e.constants, Number.isNegative c = false) → e.unsigned = e) :=
  ⟨Expr.read_render hnames hfinite, Expr.unsigned_eq⟩

/-- `-0.5 * x_1 - 3` -/
def halvedDifference : Expr := .const (-0.5) * .var "x_1" - .const 3

theorem render_reads_back_halvedDifference :
    halvedDifference.render = "((-0.5 * x_1) - 3)" ∧
      (∃ t q, Parse.full Parse.expr (.ofSource "((-0.5 * x_1) - 3)") = .ok t q ∧
        t.toExpr = -Expr.const 0.5 * .var "x_1" - .const 3) := by
  have hrender : halvedDifference.render = "((-0.5 * x_1) - 3)" := by decide +kernel
  have hunsigned : halvedDifference.unsigned = -Expr.const 0.5 * .var "x_1" - .const 3 := by
    decide +kernel
  refine ⟨hrender, ?_⟩
  rw [← hrender, ← hunsigned]
  exact (render_reads_back (by decide) (by decide +kernel)).1

end Rearrange

import Rearrange.Parser.Grammar

namespace Rearrange

def BinOp.kind : BinOp → TokenKind
  | add => .add
  | sub => .sub
  | mul => .mul
  | div => .div

theorem TokenKind.binOp?_eq_some {k : TokenKind} {op : BinOp} :
    k.binOp? = some op ↔ k = op.kind := by
  cases k <;> cases op <;> simp [binOp?, BinOp.kind]

theorem TokenKind.unaryOp?_eq_some {k : TokenKind} {op : UnaryOp} :
    k.unaryOp? = some op ↔ k = .sub := by
  cases k <;> cases op <;> simp [unaryOp?]

theorem BinOp.yieldsTo_iff {o op : BinOp} :
    o.yieldsTo op = true ↔ o.isSum = true ∧ op.isSum = false := by
  cases o <;> cases op <;> decide

namespace Phrase

def isBinary : Phrase → Bool
  | binary .. => true
  | _ => false

def isSum : Phrase → Bool
  | binary op .. => op.isSum
  | _ => false

/-- The words from which a tree is read, from left to right. -/
inductive Spells : Phrase → List Token → Prop
  | number {t : Token} {v : Float} {s : Span} :
    t.kind = .int ∨ t.kind = .float → Number.read t.lexeme = some v → Spells (number v s) [t]
  | name {t : Token} {s : Span} : t.kind = .name → Spells (name t.lexeme s) [t]
  | paren {o c : Token} {e : Phrase} {ts : List Token} {s : Span} :
    o.kind = .openParen → Spells e ts → c.kind = .closeParen → Spells (paren e s) (o :: ts ++ [c])
  | unary {t : Token} {op : UnaryOp} {e : Phrase} {ts : List Token} {s u : Span} :
    t.kind = .sub → Spells e ts → Spells (unary op s e u) (t :: ts)
  | binary {t : Token} {op : BinOp} {l r : Phrase} {ls rs : List Token} {s u : Span} :
    t.kind = op.kind → Spells l ls → Spells r rs → Spells (binary op s l r u) (ls ++ t :: rs)

/-- Every operator has the operands that precedence and association to the left give it. -/
def WellShaped : Phrase → Prop
  | number .. | name .. => True
  | paren e _ => e.WellShaped
  | unary _ _ e _ => e.WellShaped ∧ e.isBinary = false
  | binary op _ l r _ => l.WellShaped ∧ r.WellShaped ∧
    match op with
    | .add | .sub => r.isSum = false
    | .mul | .div => r.isBinary = false ∧ l.isSum = false

def unplaced : Phrase → Phrase
  | number v _ => number v (.point 0)
  | name n _ => name n (.point 0)
  | paren e _ => paren e.unplaced (.point 0)
  | unary op _ e _ => unary op (.point 0) e.unplaced (.point 0)
  | binary op _ l r _ => binary op (.point 0) l.unplaced r.unplaced (.point 0)

theorem wellShaped_binary {op : BinOp} {l r : Phrase} {s u : Span} :
    (binary op s l r u).WellShaped ↔ l.WellShaped ∧ r.WellShaped ∧
      (op.isSum = true → r.isSum = false) ∧
        (op.isSum = false → r.isBinary = false ∧ l.isSum = false) := by
  cases op <;> simp [WellShaped, BinOp.isSum]

theorem isSum_of_isBinary {t : Phrase} (h : t.isBinary = false) : t.isSum = false := by
  cases t with
  | binary => cases h
  | _ => rfl

section

variable (t : Phrase)

theorem isBinary_unplaced : t.unplaced.isBinary = t.isBinary := by
  cases t <;> rfl

theorem isSum_unplaced : t.unplaced.isSum = t.isSum := by
  cases t <;> rfl

theorem wellShaped_unplaced : t.unplaced.WellShaped ↔ t.WellShaped := by
  induction t with
  | number | name => rfl
  | paren e s ih => exact ih
  | unary op s e u ih =>
    rw [unplaced, WellShaped, WellShaped, ih, isBinary_unplaced]
  | binary op s l r u ihl ihr =>
    rw [unplaced, wellShaped_binary, wellShaped_binary, ihl, ihr, isBinary_unplaced, isSum_unplaced,
      isSum_unplaced]

theorem spells_unplaced {ts : List Token} : t.unplaced.Spells ts ↔ t.Spells ts := by
  constructor
  · intro h
    induction t generalizing ts with
    | number v s => cases h with | number hk hv => exact .number hk hv
    | name n s => cases h with | name hk => exact .name hk
    | paren e s ih => cases h with | paren ho he hc => exact .paren ho (ih he) hc
    | unary op s e u ih => cases h with | unary hk he => exact .unary hk (ih he)
    | binary op s l r u ihl ihr => cases h with | binary hk hl hr => exact .binary hk (ihl hl) (ihr hr)
  · intro h
    induction h with
    | number hk hv => exact .number hk hv
    | name hk => exact .name hk
    | paren ho _ hc ih => exact .paren ho ih hc
    | unary hk _ ih => exact .unary hk ih
    | binary hk _ _ ihl ihr => exact .binary hk ihl ihr

theorem span_unplaced : t.unplaced.span = .point 0 := by
  cases t <;> rfl

end

theorem Spells.exists_cons {t : Phrase} {ts : List Token} (h : t.Spells ts) :
    ∃ u us, ts = u :: us ∧ u.kind ≠ .closeParen := by
  induction h with
  | @number t v s hk hv =>
    refine ⟨t, [], rfl, fun hc => ?_⟩
    rw [hc] at hk
    rcases hk with hk | hk <;> cases hk
  | @name t s hk => exact ⟨t, [], rfl, by rw [hk]; decide⟩
  | @paren o c e ts s ho he hc ih => exact ⟨o, ts ++ [c], rfl, by rw [ho]; decide⟩
  | @unary t op e ts s u hk he ih => exact ⟨t, ts, rfl, by rw [hk]; decide⟩
  | @binary t op l r ls rs s u hk hl hr ihl ihr =>
    obtain ⟨v, vs, rfl, hv⟩ := ihl
    exact ⟨v, vs ++ t :: rs, rfl, hv⟩

section

variable {op : BinOp} {s : Span} {l r : Phrase}

theorem attach_eq_join (h : op.isSum = false → l.isSum = false) :
    l.attach op s r = join op s l r := by
  cases l with
  | binary o os a b u =>
    have hyields : ¬ o.yieldsTo op = true := by
      rw [BinOp.yieldsTo_iff]
      rintro ⟨ho, hop⟩
      exact absurd ((h hop).symm.trans ho) Bool.false_ne_true
    rw [attach, if_neg hyields]
  | _ => rfl

theorem attach_binary {o : BinOp} {os u : Span} {a b : Phrase} (ho : o.isSum = true)
    (hop : op.isSum = false) :
    (binary o os a b u).attach op s r = join o os a (b.attach op s r) := by
  rw [attach, if_pos (BinOp.yieldsTo_iff.mpr ⟨ho, hop⟩)]

theorem WellShaped.attach (hl : l.WellShaped) (hr : r.WellShaped) (hb : r.isBinary = false) :
    (l.attach op s r).WellShaped := by
  have hjoin (l : Phrase) (hl : l.WellShaped) (h : op.isSum = false → l.isSum = false) :
      (join op s l r).WellShaped :=
    wellShaped_binary.mpr ⟨hl, hr, fun _ => isSum_of_isBinary hb, fun hop => ⟨hb, h hop⟩⟩
  by_cases h : l.isSum = true ∧ op.isSum = false
  · obtain ⟨hsum, hop⟩ := h
    cases l with
    | binary o os a b u =>
      -- The operator goes into the right operand of the sum, which is not a sum itself.
      obtain ⟨ha, hbw, hbs, -⟩ := wellShaped_binary.mp hl
      have hsum : o.isSum = true := hsum
      rw [attach_binary hsum hop, attach_eq_join fun _ => hbs hsum, join, wellShaped_binary]
      refine ⟨ha, hjoin b hbw fun _ => hbs hsum, fun _ => hop, fun h => ?_⟩
      exact absurd (h.symm.trans hsum) Bool.false_ne_true
    | _ => cases hsum
  · have hloose : op.isSum = false → l.isSum = false := fun hop =>
      Bool.eq_false_iff.mpr fun hsum => h ⟨hsum, hop⟩
    rw [attach_eq_join hloose]
    exact hjoin l hl hloose

theorem unplaced_join : (join op s l r).unplaced = join op (.point 0) l.unplaced r.unplaced := by
  rw [join, join, span_unplaced, span_unplaced]
  rfl

theorem unplaced_attach :
    (l.attach op s r).unplaced = l.unplaced.attach op (.point 0) r.unplaced := by
  induction l with
  | binary o os a b u iha ihb =>
    rw [attach, unplaced, attach]
    split
    · rw [unplaced_join, ihb]
    · rw [unplaced_join]
      rfl
  | _ => exact unplaced_join

end

end Phrase

end Rearrange

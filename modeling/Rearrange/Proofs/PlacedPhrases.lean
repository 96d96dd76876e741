import Rearrange.Proofs.Sentences

namespace Rearrange

namespace Phrase

/-- The words of a tree, each region in the tree being the one from its first word to its last. -/
inductive Covers : Phrase → List Token → Prop
  | number {t : Token} {v : Float} :
    t.kind = .int ∨ t.kind = .float → Number.read t.lexeme = some v →
      Covers (number v t.span) [t]
  | name {t : Token} : t.kind = .name → Covers (name t.lexeme t.span) [t]
  | paren {o c : Token} {e : Phrase} {ts : List Token} :
    o.kind = .openParen → Covers e ts → c.kind = .closeParen →
      Covers (paren e (o.span.join c.span)) (o :: ts ++ [c])
  | unary {t : Token} {op : UnaryOp} {e : Phrase} {ts : List Token} :
    t.kind = .sub → Covers e ts → Covers (unary op t.span e (t.span.join e.span)) (t :: ts)
  | binary {t : Token} {op : BinOp} {l r : Phrase} {ls rs : List Token} :
    t.kind = op.kind → Covers l ls → Covers r rs →
      Covers (binary op t.span l r (l.span.join r.span)) (ls ++ t :: rs)

def parts : Phrase → List Phrase
  | number v s => [number v s]
  | name n s => [name n s]
  | paren e s => paren e s :: e.parts
  | unary op s e u => unary op s e u :: e.parts
  | binary op s l r u => binary op s l r u :: (l.parts ++ r.parts)

variable {t u : Phrase} {ts us : List Token}

theorem Covers.spells (h : t.Covers ts) : t.Spells ts := by
  induction h with
  | number hk hv => exact .number hk hv
  | name hk => exact .name hk
  | paren ho _ hc ih => exact .paren ho ih hc
  | unary hk _ ih => exact .unary hk ih
  | binary hk _ _ ihl ihr => exact .binary hk ihl ihr

theorem Covers.exists_cons (h : t.Covers ts) :
    ∃ w ws, ts = w :: ws ∧ t.span.start = w.span.start := by
  induction h with
  | number | name | paren | unary => exact ⟨_, _, rfl, rfl⟩
  | binary _ _ _ ihl _ =>
    obtain ⟨w, ws, rfl, hspan⟩ := ihl
    exact ⟨w, _, rfl, hspan⟩

theorem Covers.exists_concat (h : t.Covers ts) :
    ∃ ws w, ts = ws ++ [w] ∧ t.span.stop = w.span.stop := by
  induction h with
  | number | name => exact ⟨[], _, rfl, rfl⟩
  | @paren o c e ts => exact ⟨o :: ts, c, rfl, rfl⟩
  | @unary w op e ts _ _ ih =>
    obtain ⟨ws, v, rfl, hspan⟩ := ih
    exact ⟨w :: ws, v, rfl, hspan⟩
  | @binary w op l r ls rs _ _ _ _ ihr =>
    obtain ⟨ws, v, rfl, hspan⟩ := ihr
    exact ⟨ls ++ w :: ws, v, by simp, hspan⟩

theorem Covers.attach {w : Token} {op : BinOp} {l r : Phrase} {ls rs : List Token}
    (hw : w.kind = op.kind) (hl : l.Covers ls) (hr : r.Covers rs) :
    (l.attach op w.span r).Covers (ls ++ w :: rs) := by
  induction hl with
  | @binary v o a b as bs hv ha hb iha ihb =>
    rw [Phrase.attach]
    split
    · rw [List.append_assoc, List.cons_append]
      exact .binary hv ha ihb
    · exact .binary hw (.binary hv ha hb) hr
  | number hk hv => exact .binary hw (.number hk hv) hr
  | name hk => exact .binary hw (.name hk) hr
  | paren ho he hc => exact .binary hw (.paren ho he hc) hr
  | unary hk he => exact .binary hw (.unary hk he) hr

theorem Covers.of_mem_parts (h : t.Covers ts) (hu : u ∈ t.parts) :
    ∃ as us bs, ts = as ++ us ++ bs ∧ u.Covers us := by
  induction h with
  | number hk hv =>
    obtain rfl := List.mem_singleton.mp hu
    exact ⟨[], _, [], rfl, .number hk hv⟩
  | name hk =>
    obtain rfl := List.mem_singleton.mp hu
    exact ⟨[], _, [], rfl, .name hk⟩
  | @paren o c e ts ho he hc ih =>
    rcases List.mem_cons.mp hu with rfl | hu
    · exact ⟨[], _, [], (List.append_nil _).symm, .paren ho he hc⟩
    · obtain ⟨as, us, bs, rfl, hcovers⟩ := ih hu
      exact ⟨o :: as, us, bs ++ [c], by simp, hcovers⟩
  | @unary w op e ts hw he ih =>
    rcases List.mem_cons.mp hu with rfl | hu
    · exact ⟨[], _, [], (List.append_nil _).symm, .unary hw he⟩
    · obtain ⟨as, us, bs, rfl, hcovers⟩ := ih hu
      exact ⟨w :: as, us, bs, rfl, hcovers⟩
  | @binary w op l r ls rs hw hl hr ihl ihr =>
    rcases List.mem_cons.mp hu with rfl | hu
    · exact ⟨[], _, [], (List.append_nil _).symm, .binary hw hl hr⟩
    rcases List.mem_append.mp hu with hu | hu
    · obtain ⟨as, us, bs, rfl, hcovers⟩ := ihl hu
      exact ⟨as, us, bs ++ w :: rs, by simp, hcovers⟩
    · obtain ⟨as, us, bs, rfl, hcovers⟩ := ihr hu
      exact ⟨ls ++ w :: as, us, bs, by simp, hcovers⟩

theorem WellShaped.of_mem_parts (h : t.WellShaped) (hu : u ∈ t.parts) : u.WellShaped := by
  induction t with
  | number | name =>
    obtain rfl := List.mem_singleton.mp hu
    exact h
  | paren e s ih =>
    rcases List.mem_cons.mp hu with rfl | hu
    · exact h
    · exact ih h hu
  | unary op s e v ih =>
    rcases List.mem_cons.mp hu with rfl | hu
    · exact h
    · exact ih h.1 hu
  | binary op s l r v ihl ihr =>
    rcases List.mem_cons.mp hu with rfl | hu
    · exact h
    obtain ⟨hl, hr, -⟩ := wellShaped_binary.mp h
    rcases List.mem_append.mp hu with hu | hu
    · exact ihl hl hu
    · exact ihr hr hu

/-- A tree covers only one beginning of a list of words, and its form and the words determine it. -/
theorem Covers.unique_append (h : t.Covers ts) (h' : u.Covers us) (hsame : t.unplaced = u.unplaced)
    {xs ys : List Token} (heq : ts ++ xs = us ++ ys) : t = u ∧ ts = us := by
  -- The rests differ with the case: behind a left operand they begin with the operator.
  induction h generalizing u us xs ys with
  | @number w v hk hv =>
    cases h' with
    | @number w' v' hk' hv' =>
      obtain ⟨rfl, -⟩ := List.cons.inj heq
      obtain rfl : v = v' := (Phrase.number.inj hsame).1
      exact ⟨rfl, rfl⟩
    | name | paren | unary | binary => cases hsame
  | @name w hk =>
    cases h' with
    | name =>
      obtain ⟨rfl, -⟩ := List.cons.inj heq
      exact ⟨rfl, rfl⟩
    | number | paren | unary | binary => cases hsame
  | @paren o c e ts ho he hc ih =>
    cases h' with
    | @paren o' c' e' ts' ho' he' hc' =>
      simp only [List.cons_append, List.append_assoc, List.nil_append] at heq
      obtain ⟨rfl, htail⟩ := List.cons.inj heq
      obtain ⟨rfl, rfl⟩ := ih he' (Phrase.paren.inj hsame).1 htail
      obtain ⟨rfl, -⟩ := List.cons.inj (List.append_cancel_left htail)
      exact ⟨rfl, rfl⟩
    | number | name | unary | binary => cases hsame
  | @unary w op e ts hw he ih =>
    cases h' with
    | @unary w' op' e' ts' hw' he' =>
      obtain ⟨rfl, htail⟩ := List.cons.inj heq
      obtain ⟨rfl, -, hesame, -⟩ := Phrase.unary.inj hsame
      obtain ⟨rfl, rfl⟩ := ih he' hesame htail
      exact ⟨rfl, rfl⟩
    | number | name | paren | binary => cases hsame
  | @binary w op l r ls rs hw hl hr ihl ihr =>
    cases h' with
    | @binary w' op' l' r' ls' rs' hw' hl' hr' =>
      simp only [List.cons_append, List.append_assoc] at heq
      obtain ⟨rfl, -, hlsame, hrsame, -⟩ := Phrase.binary.inj hsame
      obtain ⟨rfl, rfl⟩ := ihl hl' hlsame heq
      obtain ⟨rfl, htail⟩ := List.cons.inj (List.append_cancel_left heq)
      obtain ⟨rfl, rfl⟩ := ihr hr' hrsame htail
      exact ⟨rfl, rfl⟩
    | number | name | paren | unary => cases hsame

theorem Covers.unique (h : t.Covers ts) (h' : u.Covers ts) (hsame : t.unplaced = u.unplaced) :
    t = u :=
  (h.unique_append h' hsame (rfl : ts ++ [] = ts ++ [])).1

end Phrase

end Rearrange

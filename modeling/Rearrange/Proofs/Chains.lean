import Rearrange.Proofs.Sentences

namespace Rearrange

/-- An operator at its place, and the operand behind it. -/
structure Link where
  op : BinOp
  opSpan : Span
  operand : Phrase

namespace Phrase

def attachAll (t : Phrase) (xs : List Link) : Phrase :=
  xs.foldl (fun l x => l.attach x.op x.opSpan x.operand) t

/-- The leftmost operand that is not an operator between two others. -/
def first : Phrase → Phrase
  | binary _ _ l _ _ => l.first
  | t => t

def links : Phrase → List (BinOp × Phrase)
  | binary op _ l r _ => l.links ++ (op, r.first) :: r.links
  | _ => []

def grow (t : Phrase) (links : List (BinOp × Phrase)) : Phrase :=
  links.foldl (fun l x => l.attach x.1 (.point 0) x.2) t

inductive SpellsLinks : List (BinOp × Phrase) → List Token → Prop
  | nil : SpellsLinks [] []
  | cons {t : Token} {op : BinOp} {e : Phrase} {xs : List (BinOp × Phrase)} {es ts : List Token} :
    t.kind = op.kind → e.Spells es → SpellsLinks xs ts → SpellsLinks ((op, e) :: xs) (t :: es ++ ts)

theorem SpellsLinks.append {xs ys : List (BinOp × Phrase)} {ts us : List Token}
    (hx : SpellsLinks xs ts) (hy : SpellsLinks ys us) : SpellsLinks (xs ++ ys) (ts ++ us) := by
  induction hx with
  | nil => exact hy
  | cons hk he _ ih =>
    rw [List.append_assoc]
    exact .cons hk he ih

theorem Spells.exists_links {t : Phrase} {ts : List Token} (h : t.Spells ts) :
    ∃ es xs, ts = es ++ xs ∧ t.first.Spells es ∧ SpellsLinks t.links xs := by
  induction h with
  | @binary t op l r ls rs s u hk hl hr ihl ihr =>
    obtain ⟨es, xs, rfl, hfirst, hlinks⟩ := ihl
    obtain ⟨fs, ys, rfl, hfirst', hlinks'⟩ := ihr
    exact ⟨es, xs ++ (t :: fs ++ ys), by simp, hfirst, hlinks.append (.cons hk hfirst' hlinks')⟩
  | number hk hv => exact ⟨_, [], by simp, .number hk hv, .nil⟩
  | name hk => exact ⟨_, [], by simp, .name hk, .nil⟩
  | paren ho he hc => exact ⟨_, [], by simp, .paren ho he hc, .nil⟩
  | unary hk he => exact ⟨_, [], by simp, .unary hk he, .nil⟩

theorem first_of_not_isBinary {t : Phrase} (h : t.isBinary = false) : t.first = t := by
  cases t with
  | binary => cases h
  | _ => rfl

theorem links_of_not_isBinary {t : Phrase} (h : t.isBinary = false) : t.links = [] := by
  cases t with
  | binary => cases h
  | _ => rfl

theorem WellShaped.first {t : Phrase} (h : t.WellShaped) :
    t.first.WellShaped ∧ t.first.isBinary = false := by
  induction t with
  | binary op s l r u ihl _ => exact ihl (wellShaped_binary.mp h).1
  | _ => exact ⟨h, rfl⟩

theorem WellShaped.of_mem_links {t : Phrase} (h : t.WellShaped) :
    ∀ x ∈ t.links, x.2.WellShaped ∧ x.2.isBinary = false := by
  induction t with
  | binary op s l r u ihl ihr =>
    obtain ⟨hl, hr, -⟩ := wellShaped_binary.mp h
    intro x hx
    rcases List.mem_append.mp hx with hx | hx
    · exact ihl hl x hx
    · rcases List.mem_cons.mp hx with rfl | hx
      · exact hr.first
      · exact ihr hr x hx
  | _ => intro x hx; cases hx

theorem WellShaped.isSum_of_mem_links {t : Phrase} (h : t.WellShaped) (hs : t.isSum = false) :
    ∀ x ∈ t.links, x.1.isSum = false := by
  induction t with
  | binary op s l r u ihl _ =>
    obtain ⟨hl, -, -, hproduct⟩ := wellShaped_binary.mp h
    obtain ⟨hb, hls⟩ := hproduct hs
    intro x hx
    rw [links, links_of_not_isBinary hb] at hx
    rcases List.mem_append.mp hx with hx | hx
    · exact ihl hl hls x hx
    · obtain rfl := List.mem_singleton.mp hx
      exact hs
  | _ => intro x hx; cases hx

theorem unplaced_grow {t u : Phrase} (h : t.unplaced = u.unplaced)
    (xs : List (BinOp × Phrase)) : (t.grow xs).unplaced = (u.grow xs).unplaced := by
  induction xs generalizing t u with
  | nil => exact h
  | cons x xs ih => exact ih (by rw [unplaced_attach, unplaced_attach, h])

theorem attachAll_join {op : BinOp} {s : Span} {l r : Phrase} (hop : op.isSum = true)
    {xs : List Link} (hxs : ∀ x ∈ xs, x.op.isSum = false) :
    (join op s l r).attachAll xs = join op s l (r.attachAll xs) := by
  induction xs generalizing r with
  | nil => rfl
  | cons x xs ih =>
    have hx : x.op.isSum = false := hxs x (List.mem_cons_self ..)
    change ((join op s l r).attach x.op x.opSpan x.operand).attachAll xs = _
    rw [join, attach_binary hop hx, ih fun y hy => hxs y (List.mem_cons_of_mem _ hy)]
    rfl

theorem grow_eq_attachAll (t : Phrase) (xs : List (BinOp × Phrase)) :
    t.grow xs = t.attachAll (xs.map fun x => ⟨x.1, .point 0, x.2⟩) := by
  rw [grow, attachAll, List.foldl_map]

theorem grow_join {op : BinOp} {s : Span} {l r : Phrase} (hop : op.isSum = true)
    {xs : List (BinOp × Phrase)} (hxs : ∀ x ∈ xs, x.1.isSum = false) :
    (join op s l r).grow xs = join op s l (r.grow xs) := by
  rw [grow_eq_attachAll, grow_eq_attachAll]
  refine attachAll_join hop fun x hx => ?_
  obtain ⟨y, hy, rfl⟩ := List.mem_map.mp hx
  exact hxs y hy

theorem unplaced_grow_links {t : Phrase} (h : t.WellShaped) :
    (t.first.grow t.links).unplaced = t.unplaced := by
  induction t with
  | binary op s l r u ihl ihr =>
    obtain ⟨hl, hr, hsum, hproduct⟩ := wellShaped_binary.mp h
    have hleft : (l.first.grow (l.links ++ (op, r.first) :: r.links)).unplaced =
        ((l.attach op (.point 0) r.first).grow r.links).unplaced := by
      rw [grow, List.foldl_append, List.foldl_cons]
      refine unplaced_grow ?_ _
      rw [unplaced_attach, unplaced_attach]
      exact congrArg (fun l => l.attach op (.point 0) r.first.unplaced) (ihl hl)
    rw [first, links, hleft, attach_eq_join fun hop => (hproduct hop).2, unplaced]
    cases hop : op.isSum with
    | true =>
      rw [grow_join hop (hr.isSum_of_mem_links (hsum hop)), unplaced_join, ihr hr, join,
        span_unplaced, span_unplaced]
      rfl
    | false =>
      have hb := (hproduct hop).1
      rw [links_of_not_isBinary hb, first_of_not_isBinary hb]
      change (join op (.point 0) l r).unplaced = _
      rw [unplaced_join, join, span_unplaced, span_unplaced]
      rfl
  | _ => rfl

end Phrase

end Rearrange

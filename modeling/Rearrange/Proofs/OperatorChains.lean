import Rearrange.Proofs.CallOrder
import Rearrange.Proofs.FailedExpressions

namespace Rearrange

/-- A `+` or `-` and the product behind it. -/
structure Term where
  link : Link
  factors : List Link

def Term.links (m : Term) : List Link := m.link :: m.factors

/-- The factors in front of the first `+` or `-`, and the terms from there on. -/
def Link.terms : List Link → List Link × List Term
  | [] => ([], [])
  | x :: xs =>
    if x.op.isSum then ([], ⟨x, (terms xs).1⟩ :: (terms xs).2)
    else (x :: (terms xs).1, (terms xs).2)

namespace Phrase

/-- The links behind `t`, each operator having all that stands before it for its left operand. -/
def product (t : Phrase) (xs : List Link) : Phrase :=
  xs.foldl (fun l x => .join x.op x.opSpan l x.operand) t

/-- The terms behind `t`, each `+` and `-` having all that stands before it for its left operand. -/
def sum (t : Phrase) (ms : List Term) : Phrase :=
  ms.foldl (fun l m => .join m.link.op m.link.opSpan l (m.link.operand.product m.factors)) t

def grouped (t : Phrase) (xs : List Link) : Phrase :=
  (t.product (Link.terms xs).1).sum (Link.terms xs).2

end Phrase

theorem Link.terms_split (xs : List Link) :
    xs = (terms xs).1 ++ (terms xs).2.flatMap Term.links ∧
      (∀ x ∈ (terms xs).1, x.op.isSum = false) ∧
        ∀ m ∈ (terms xs).2, m.link.op.isSum = true ∧ ∀ x ∈ m.factors, x.op.isSum = false := by
  induction xs with
  | nil => exact ⟨rfl, nofun, nofun⟩
  | cons x xs ih =>
    obtain ⟨hsplit, hfactors, hterms⟩ := ih
    rw [terms]
    split
    next hop =>
      refine ⟨?_, nofun, fun m hm => ?_⟩
      · exact congrArg (x :: ·) hsplit
      · obtain rfl | hm := List.mem_cons.mp hm
        · exact ⟨hop, hfactors⟩
        · exact hterms m hm
    next hop =>
      refine ⟨congrArg (x :: ·) hsplit, fun y hy => ?_, hterms⟩
      obtain rfl | hy := List.mem_cons.mp hy
      · exact Bool.eq_false_iff.mpr hop
      · exact hfactors y hy

namespace Phrase

variable {t : Phrase} {xs : List Link}

theorem attachAll_append (t : Phrase) (xs ys : List Link) :
    t.attachAll (xs ++ ys) = (t.attachAll xs).attachAll ys :=
  List.foldl_append

theorem attachAll_eq_product (ht : t.isSum = false) (hxs : ∀ x ∈ xs, x.op.isSum = false) :
    t.attachAll xs = t.product xs := by
  induction xs generalizing t with
  | nil => rfl
  | cons x xs ih =>
    have hx : x.op.isSum = false := hxs x (List.mem_cons_self ..)
    have hattach : t.attach x.op x.opSpan x.operand = .join x.op x.opSpan t x.operand :=
      attach_eq_join fun _ => ht
    change (t.attach x.op x.opSpan x.operand).attachAll xs = _
    rw [hattach]
    exact ih hx fun y hy => hxs y (List.mem_cons_of_mem _ hy)

theorem attachAll_links {m : Term} (t : Phrase) (hop : m.link.op.isSum = true)
    (hoperand : m.link.operand.isSum = false) (hfactors : ∀ x ∈ m.factors, x.op.isSum = false) :
    t.attachAll m.links =
      .join m.link.op m.link.opSpan t (m.link.operand.product m.factors) := by
  have hattach : t.attach m.link.op m.link.opSpan m.link.operand =
      .join m.link.op m.link.opSpan t m.link.operand :=
    attach_eq_join fun hproduct => absurd (hproduct.symm.trans hop) Bool.false_ne_true
  change (t.attach m.link.op m.link.opSpan m.link.operand).attachAll m.factors = _
  rw [hattach, attachAll_join hop hfactors, attachAll_eq_product hoperand hfactors]

theorem attachAll_terms {ms : List Term} (t : Phrase)
    (hms : ∀ m ∈ ms, m.link.op.isSum = true ∧ m.link.operand.isSum = false ∧
      ∀ x ∈ m.factors, x.op.isSum = false) :
    t.attachAll (ms.flatMap Term.links) = t.sum ms := by
  induction ms generalizing t with
  | nil => rfl
  | cons m ms ih =>
    obtain ⟨hop, hoperand, hfactors⟩ := hms m (List.mem_cons_self ..)
    rw [List.flatMap_cons, attachAll_append, attachAll_links t hop hoperand hfactors]
    exact ih _ fun n hn => hms n (List.mem_cons_of_mem _ hn)

theorem attachAll_eq_grouped (ht : t.isSum = false) (hxs : ∀ x ∈ xs, x.operand.isSum = false) :
    t.attachAll xs = t.grouped xs := by
  obtain ⟨hsplit, hfactors, hterms⟩ := Link.terms_split xs
  have hoperand : ∀ m ∈ (Link.terms xs).2, m.link.operand.isSum = false := by
    intro m hm
    refine hxs m.link ?_
    rw [hsplit]
    exact List.mem_append_right _ (List.mem_flatMap.mpr ⟨m, hm, List.mem_cons_self ..⟩)
  calc t.attachAll xs
      = (t.attachAll (Link.terms xs).1).attachAll ((Link.terms xs).2.flatMap Term.links) := by
        rw [← attachAll_append, ← hsplit]
    _ = (t.product (Link.terms xs).1).attachAll ((Link.terms xs).2.flatMap Term.links) := by
        rw [attachAll_eq_product ht hfactors]
    _ = (t.product (Link.terms xs).1).sum (Link.terms xs).2 :=
        attachAll_terms _ fun m hm => ⟨(hterms m hm).1, hoperand m hm, (hterms m hm).2⟩

end Phrase

namespace Parse

/-- Operators that bind at least as tightly as `prec`, each with an operand behind it, are read one
after the other between `p` and `q`. -/
inductive Alternates (prec : Prec) : Parser → List Link → Parser → Prop
  | nil {p : Parser} : Alternates prec p [] p
  | cons {p q r s : Parser} {op : BinOp} {opSpan : Span} {e : Phrase} {xs : List Link} :
    binOp p = .ok (op, opSpan) q → prec ≤ op.prec → operand q = .ok e r → Alternates prec r xs s →
      Alternates prec p (⟨op, opSpan, e⟩ :: xs) s

variable {prec : Prec} {p q r : Parser} {xs ys : List Link}

theorem Alternates.isSum_operand (h : Alternates prec p xs q) :
    ∀ x ∈ xs, x.operand.isSum = false := by
  induction h with
  | nil => exact nofun
  | cons _ _ he _ ih =>
    intro x hx
    obtain rfl | hx := List.mem_cons.mp hx
    · exact not_isSum_of_operand he
    · exact ih x hx

theorem Alternates.chain_eq (h : Alternates prec p xs q) (lhs : Phrase) :
    chain prec lhs p = chain prec (lhs.attachAll xs) q := by
  induction h generalizing lhs with
  | nil => rfl
  | cons hop hprec he _ ih =>
    rw [chain_of_operator (operator_iff.mpr ⟨hop, hprec⟩), bind_of_ok he]
    exact ih _

theorem Alternates.isPrefix (h : Alternates prec p xs q) (hlast : NoOperator prec q)
    (h' : Alternates prec p ys r) : ys <+: xs := by
  induction h' generalizing xs with
  | nil => exact List.nil_prefix
  | cons hop hprec he _ ih =>
    cases h with
    | nil => exact absurd (operator_iff.mpr ⟨hop, hprec⟩) (hlast _ _)
    | cons hop' _ he' hxs =>
      cases hop.symm.trans hop'
      cases he.symm.trans he'
      exact List.cons_prefix_cons.mpr ⟨rfl, ih hxs⟩

theorem exists_alternates (prec : Prec) (p : Parser) :
    ∃ xs q, Alternates prec p xs q ∧ (NoOperator prec q ∨ ∃ x r e, binOp q = .ok x r ∧
      prec ≤ x.1.prec ∧ operand.Fails r e) := by
  induction hn : p.words.length using Nat.strongRecOn generalizing p with
  | ind n ih =>
    cases hop : operator prec p with
    | error e q => exact ⟨[], p, .nil, Or.inl (noOperator_of_error hop)⟩
    | ok x q =>
      obtain ⟨hbin, hprec⟩ := operator_iff.mp hop
      cases he : operand q with
      | error e r => exact ⟨[], p, .nil, Or.inr ⟨x, q, e, hbin, hprec, r, he⟩⟩
      | ok e r =>
        -- fewer words are left behind an operator and its operand
        have hlt := Nat.lt_trans (passes_operand q e r he) (passes_operator prec p x q hop)
        obtain ⟨xs, s, hxs, hend⟩ := ih _ (hn ▸ hlt) r rfl
        exact ⟨⟨x.1, x.2, e⟩ :: xs, s, .cons hbin hprec he hxs, hend⟩

theorem previous_of_operand {e : Phrase} (h : operand p = .ok e q) :
    ∃ w, q.previous? = some w ∧ w.isWhitespace = false ∧ w.span.stop = e.span.stop := by
  obtain ⟨-, -, ts, hts, hcovers⟩ := (places_of_depth p.depth).1 p q e h
  obtain ⟨ws, w, rfl, hstop⟩ := hcovers.exists_concat
  have htaken : p.words = ws ++ w :: q.words := by
    rw [hts, List.append_assoc]
    rfl
  obtain ⟨hprevious, hword⟩ := (moves_operand.ok h).previous htaken
  exact ⟨w, hprevious, hword, hstop.symm⟩

theorem Alternates.previous (h : Alternates prec p xs q) {x : Link} (hx : xs.getLast? = some x) :
    ∃ w, q.previous? = some w ∧ w.isWhitespace = false ∧ w.span.stop = x.operand.span.stop := by
  induction h with
  | nil => cases hx
  | @cons p q r s op opSpan e xs _ _ he hxs ih =>
    cases xs with
    | nil =>
      cases hxs
      cases hx
      exact previous_of_operand he
    | cons y ys => exact ih (by rwa [List.getLast?_cons_cons] at hx)

end Parse

open Parse

/-- A left operand is extended by the longest alternation of operators that bind at least as tightly
as `prec` and operands, unless an operand fails behind its operator. The parser then stands right
behind the last operand, and products are grouped before sums, both from the left. -/
theorem chain_groups (prec : Prec) (lhs : Phrase) (p : Parser) (hlhs : lhs.isBinary = false) :
    ((∃ xs q, chain prec lhs p = .ok (lhs.grouped xs) q ∧ Alternates prec p xs q ∧
          (∀ ys r, Alternates prec p ys r → ys <+: xs) ∧
          (∀ x r, binOp q = .ok x r → ¬ prec ≤ x.1.prec) ∧ p.Reached q ∧
          ∀ x, xs.getLast? = some x → ∃ w, q.previous? = some w ∧ w.isWhitespace = false ∧
            w.span.stop = x.operand.span.stop) ∨
        ∃ e, (chain prec lhs).Fails p e ∧ ∃ xs q x r, Alternates prec p xs q ∧
          binOp q = .ok x r ∧ prec ≤ x.1.prec ∧ operand.Fails r e) ∧
      ∀ n, 7 * (p.after.length + 1) ≤ n →
        ∃ es, (Routine.chain prec lhs).trace n p = some (chain prec lhs p, es) := by
  have hsum : lhs.isSum = false := Phrase.isSum_of_isBinary hlhs
  constructor
  · obtain ⟨xs, q, hxs, hlast | ⟨x, r, e, hbin, hprec, he⟩⟩ := exists_alternates prec p
    · have hchain : chain prec lhs p = .ok (lhs.grouped xs) q := by
        rw [hxs.chain_eq, chain_of_noOperator hlast,
          Phrase.attachAll_eq_grouped hsum hxs.isSum_operand]
      have hnone : ∀ x r, binOp q = .ok x r → ¬ prec ≤ x.1.prec := fun x r hbin hprec =>
        hlast x r (operator_iff.mpr ⟨hbin, hprec⟩)
      exact Or.inl ⟨xs, q, hchain, hxs, fun ys r => hxs.isPrefix hlast, hnone,
        (moves_chain prec lhs).ok hchain, fun x => hxs.previous⟩
    · have hfails : (chain prec lhs).Fails p e := by
        have hrest : (chain prec (lhs.attachAll xs)).Fails q e :=
          chain_fails_attach_iff.mpr ⟨x.1, x.2, r, operator_iff.mpr ⟨hbin, hprec⟩, Or.inl he⟩
        unfold Fails
        rw [hxs.chain_eq]
        exact hrest
      exact Or.inr ⟨e, hfails, xs, q, x, r, hxs, hbin, hprec, he⟩
  · intro n hn
    have hread : (Routine.chain prec lhs).read p = chain prec lhs p :=
      extend_eq_chain (whole_of_not_isSum hsum p)
    rw [← hread]
    refine Routine.exists_trace n _ p ?_
    rw [Routine.rank]
    omega

/-- `a + b * c - d` -/
def mixedChain : Phrase :=
  .binary .sub ⟨5, 6⟩
    (.binary .add ⟨1, 2⟩ (.name "a" ⟨0, 1⟩)
      (.binary .mul ⟨3, 4⟩ (.name "b" ⟨2, 3⟩) (.name "c" ⟨4, 5⟩) ⟨2, 5⟩) ⟨0, 5⟩)
    (.name "d" ⟨6, 7⟩) ⟨0, 7⟩

/-- Behind `a`, the chain goes on to the `d` and leaves the blank that follows it. -/
theorem chain_groups_mixed :
    (Phrase.name "a" ⟨0, 1⟩).isBinary = false ∧
      ∃ xs q, chain .term (.name "a" ⟨0, 1⟩) ((Parser.ofSource "a+b*c-d = e").seek 1) =
          .ok mixedChain q ∧ q.cursor = 7 ∧
        Alternates .term ((Parser.ofSource "a+b*c-d = e").seek 1) xs q ∧
        mixedChain = (Phrase.name "a" ⟨0, 1⟩).grouped xs ∧
        (∀ ys r, Alternates .term ((Parser.ofSource "a+b*c-d = e").seek 1) ys r → ys <+: xs) ∧
        ∃ es, (Routine.chain .term (.name "a" ⟨0, 1⟩)).trace 77
          ((Parser.ofSource "a+b*c-d = e").seek 1) = some (.ok mixedChain q, es) := by
  have hread : (match chain .term (.name "a" ⟨0, 1⟩) ((Parser.ofSource "a+b*c-d = e").seek 1) with
      | .ok t q => some (t, q.cursor)
      | .error _ _ => none) = some (mixedChain, 7) := by
    decide +kernel
  have hlength : 7 * (((Parser.ofSource "a+b*c-d = e").seek 1).after.length + 1) ≤ 77 := by
    decide +kernel
  obtain ⟨⟨xs, q, hchain, hxs, hlongest, -⟩ | ⟨e, ⟨r, hfails⟩, -⟩, htrace⟩ :=
    chain_groups .term (.name "a" ⟨0, 1⟩) ((Parser.ofSource "a+b*c-d = e").seek 1) rfl
  · obtain ⟨es, hes⟩ := htrace 77 hlength
    rw [hchain] at hread hes
    obtain ⟨htree, hcursor⟩ := Prod.mk.inj (Option.some.inj hread)
    rw [htree] at hchain hes
    exact ⟨rfl, xs, q, hchain, hcursor, hxs, htree.symm, hlongest, es, hes⟩
  · rw [hfails] at hread
    cases hread

end Rearrange

import Rearrange.Proofs.ExprEquality
import Rearrange.Proofs.JsonText

namespace Rearrange

namespace Json

mutual

/-- How many arrays and objects stand inside each other. -/
def nesting : Json → Nat
  | array vs => nestingElements vs + 1
  | object ms => nestingMembers ms + 1
  | _ => 0

def nestingElements : List Json → Nat
  | [] => 0
  | v :: vs => max v.nesting (nestingElements vs)

def nestingMembers : List (List Char × Json) → Nat
  | [] => 0
  | (_, v) :: ms => max v.nesting (nestingMembers ms)

end

section

variable {α β : Type}

/-- What is written for `a` has a text, and it is read as `a` if and only if it may be nested as
deep as it is. -/
structure Faithful (toJson : α → Json) (ofJson? : Nat → Json → Option α) (a : α) : Prop where
  wellFormed : (toJson a).WellFormed
  read (depth : Nat) :
    ofJson? depth (toJson a) = if (toJson a).nesting ≤ depth then some a else none

theorem bind_if (p : Prop) [Decidable p] (a : α) (f : α → Option β) :
    (if p then some a else none).bind f = if p then f a else none := by
  split <;> rfl

end

theorem wellFormed_ofText (s : String) : (ofText s).WellFormed := .string s.toList

theorem wellFormed_tagged (tag : String) {v : Json} (h : v.WellFormed) :
    (tagged tag v).WellFormed := by
  refine .object (fun m hm => ?_) fun m hm => ?_
  · rw [List.mem_singleton.mp hm]
    exact ⟨_, rfl⟩
  · rw [List.mem_singleton.mp hm]
    exact h

theorem wellFormed_record {fields : List (String × Json)} (h : ∀ f ∈ fields, f.2.WellFormed) :
    (record fields).WellFormed := by
  refine .object (fun m hm => ?_) fun m hm => ?_
  · obtain ⟨f, -, rfl⟩ := List.mem_map.mp hm
    exact ⟨_, rfl⟩
  · obtain ⟨f, hf, rfl⟩ := List.mem_map.mp hm
    exact h f hf

theorem nesting_ofText (s : String) : (ofText s).nesting = 0 := rfl

theorem nesting_ofNat (n : Nat) : (ofNat n).nesting = 0 := rfl

theorem nesting_tagged (tag : String) (v : Json) : (tagged tag v).nesting = v.nesting + 1 := by
  simp [tagged, nesting, nestingMembers]

theorem nesting_record_le {fields : List (String × Json)} {depth : Nat} :
    (record fields).nesting ≤ depth + 1 ↔ ∀ f ∈ fields, f.2.nesting ≤ depth := by
  rw [record, nesting, Nat.add_le_add_iff_right]
  induction fields with
  | nil => simp [nestingMembers]
  | cons f fields ih =>
    simp only [List.map_cons, nestingMembers, max_le_iff, ih, List.forall_mem_cons]

theorem tagged?_tagged (tag : String) (v : Json) : (tagged tag v).tagged? = some (tag, v) := by
  rw [tagged, tagged?, unescape_escape, Option.map_some, String.ofList_toList]

theorem namedMembers?_record (fields : List (String × Json)) :
    namedMembers? (fields.map fun (k, v) => (escape k.toList, v)) = some fields := by
  induction fields with
  | nil => rfl
  | cons f fields ih =>
    rw [List.map_cons, namedMembers?, unescape_escape, ih]
    simp [String.ofList_toList]

theorem field?_of_mem {fields : List (String × Json)} (hnames : (fields.map Prod.fst).Nodup)
    {f : String × Json} (hf : f ∈ fields) : field? fields f.1 = some f.2 := by
  have hone : fields.filter (·.1 == f.1) = [f] := by
    induction fields with
    | nil => cases hf
    | cons g fields ih =>
      obtain ⟨hg, hnames⟩ := List.nodup_cons.mp hnames
      rcases List.mem_cons.mp hf with rfl | hf
      · have hrest : fields.filter (·.1 == f.1) = [] := by
          refine List.filter_eq_nil_iff.mpr fun h hh heq => hg ?_
          exact List.mem_map.mpr ⟨h, hh, by simpa using heq⟩
        rw [List.filter_cons_of_pos (by simp), hrest]
      · have hne : g.1 ≠ f.1 := fun heq => hg (List.mem_map.mpr ⟨f, hf, heq.symm⟩)
        rw [List.filter_cons_of_neg (by simpa using hne), ih hnames hf]
  rw [field?, hone]

theorem fields?_record {fields : List (String × Json)} (hnames : (fields.map Prod.fst).Nodup) :
    (record fields).fields? (fields.map Prod.fst) = some (fields.map Prod.snd) := by
  have hfields (part : List (String × Json)) (hpart : part ⊆ fields) :
      (part.map Prod.fst).mapM (field? fields) = some (part.map Prod.snd) := by
    induction part with
    | nil => rfl
    | cons f part ih =>
      have hf := field?_of_mem hnames (hpart List.mem_cons_self)
      have hrest := ih fun g hg => hpart (List.mem_cons_of_mem f hg)
      simp [List.mapM_cons, hf, hrest]
  rw [record, fields?, namedMembers?_record]
  exact hfields fields (List.Subset.refl _)

theorem exactFields?_record {fields : List (String × Json)}
    (hnames : (fields.map Prod.fst).Nodup) :
    (record fields).exactFields? (fields.map Prod.fst) = some (fields.map Prod.snd) := by
  rw [← fields?_record hnames]
  simp [record, exactFields?]

section

variable {α : Type} {toJson : α → Json} {ofJson? : Nat → Json → Option α} {a : α}

theorem faithful_label {label : α → String} {all : List α}
    (h : (all.find? fun b => label b == label a) = some a) :
    Faithful (fun b => ofText (label b))
      (fun depth v => (v.tag? depth).bind fun tag => all.find? fun b => label b == tag) a where
  wellFormed := wellFormed_ofText _
  read depth := by
    have htag : (ofText (label a)).tag? depth = some (label a) := text?_ofText (label a)
    rw [htag, Option.bind_some, h, nesting_ofText, if_pos (Nat.zero_le depth)]

theorem Faithful.of_tagged {tag : String} {v : Json} (hjson : toJson a = tagged tag v)
    (hv : v.WellFormed) (hzero : ofJson? 0 (toJson a) = none)
    (hsucc : ∀ depth, ofJson? (depth + 1) (toJson a) = if v.nesting ≤ depth then some a else none) :
    Faithful toJson ofJson? a where
  wellFormed := hjson ▸ wellFormed_tagged tag hv
  read depth := by
    cases depth with
    | zero => rw [hzero, hjson, nesting_tagged, if_neg (Nat.not_succ_le_zero _)]
    | succ depth =>
      rw [hsucc, hjson, nesting_tagged]
      simp only [Nat.add_le_add_iff_right]

theorem Faithful.of_record {fields : List (String × Json)} (hjson : toJson a = record fields)
    (hfields : ∀ f ∈ fields, f.2.WellFormed) (hzero : ofJson? 0 (toJson a) = none)
    (hsucc : ∀ depth, ofJson? (depth + 1) (toJson a) =
      if ∀ f ∈ fields, f.2.nesting ≤ depth then some a else none) :
    Faithful toJson ofJson? a where
  wellFormed := hjson ▸ wellFormed_record hfields
  read depth := by
    cases depth with
    | zero => rw [hzero, hjson, record, nesting, if_neg (Nat.not_succ_le_zero _)]
    | succ depth =>
      rw [hsucc, hjson]
      simp only [nesting_record_le]

end

def Kept (c : Float) : Prop := c.isFinite = true ∧ (ofFloat c).float? = some c

theorem wellFormed_ofFloat {c : Float} (h : Kept c) : (ofFloat c).WellFormed := by
  obtain ⟨l, hl, hnumber⟩ := exists_ofFloat h.1
  rw [hl]
  exact .number hnumber

theorem nesting_ofFloat {c : Float} (h : Kept c) : (ofFloat c).nesting = 0 := by
  obtain ⟨l, hl, -⟩ := exists_ofFloat h.1
  rw [hl]
  rfl

end Json

open Json

theorem BinOp.faithful (op : BinOp) : Faithful toJson ofJson? op :=
  faithful_label (by cases op <;> rfl)

theorem UnaryOp.faithful (op : UnaryOp) : Faithful toJson ofJson? op :=
  faithful_label (by cases op; rfl)

theorem Step.faithful (s : Step) : Faithful toJson ofJson? s :=
  faithful_label (by cases s <;> rfl)

theorem RuleSet.faithful (r : RuleSet) : Faithful toJson ofJson? r :=
  faithful_label (by cases r <;> rfl)

theorem Expr.faithful {e : Expr} (h : ∀ c ∈ e.constants, Kept c) : Faithful toJson ofJson? e := by
  induction e with
  | const c =>
    have hc := h c (List.mem_singleton_self c)
    refine .of_tagged rfl (wellFormed_ofFloat hc) rfl fun depth => ?_
    simp [ofJson?, toJson, tagged?_tagged, hc.2, nesting_ofFloat hc]
  | var n =>
    refine .of_tagged rfl (wellFormed_ofText n) rfl fun depth => ?_
    simp [ofJson?, toJson, tagged?_tagged, text?_ofText, nesting_ofText]
  | neg e ih =>
    have he := ih h
    refine .of_tagged rfl he.wellFormed rfl fun depth => ?_
    simp [ofJson?, toJson, tagged?_tagged, he.read]
  | bin op l r ihl ihr =>
    have hop := op.faithful
    have hl := ihl fun c hc => h c (List.mem_append_left _ hc)
    have hr := ihr fun c hc => h c (List.mem_append_right _ hc)
    have hparts : (Json.array [op.toJson, l.toJson, r.toJson]).WellFormed := .array fun v hv => by
      simp only [List.mem_cons, List.not_mem_nil, or_false] at hv
      rcases hv with rfl | rfl | rfl
      · exact hop.wellFormed
      · exact hl.wellFormed
      · exact hr.wellFormed
    refine .of_tagged rfl hparts rfl fun depth => ?_
    -- The operands stand in an array, which opens a level of its own.
    cases depth with
    | zero => simp [ofJson?, toJson, tagged?_tagged, nesting]
    | succ depth =>
      simp [ofJson?, toJson, tagged?_tagged, hop.read, hl.read, hr.read, bind_if, ← ite_and,
        nesting, nestingElements]

def Span.Stored (s : Span) : Prop := s.start < UInt64.size ∧ s.stop < UInt64.size

instance (s : Span) : Decidable s.Stored := inferInstanceAs (Decidable (_ ∧ _))

theorem Span.faithful {s : Span} (h : s.Stored) : Faithful toJson ofJson? s := by
  have hfields : s.toJson.exactFields? ["start", "end"] = some [.ofNat s.start, .ofNat s.stop] :=
    exactFields?_record (by simp)
  refine .of_record rfl ?_ rfl fun depth => ?_
  · simp only [List.forall_mem_cons]
    exact ⟨.number (isNumber_digits _), .number (isNumber_digits _), nofun⟩
  · simp [ofJson?, hfields, nat?_ofNat h.1, nat?_ofNat h.2, nesting_ofNat]

theorem Job.faithful {j : Job} (h : ∀ c ∈ j.constants, Kept c) : Faithful toJson ofJson? j := by
  have hl := j.lhs.faithful fun c hc => h c (List.mem_append_left _ hc)
  have hr := j.rhs.faithful fun c hc => h c (List.mem_append_right _ hc)
  have hfields : j.toJson.fields? ["lhs", "rhs"] = some [j.lhs.toJson, j.rhs.toJson] :=
    fields?_record (by simp)
  refine .of_record rfl ?_ rfl fun depth => ?_
  · simp only [List.forall_mem_cons]
    exact ⟨hl.wellFormed, hr.wellFormed, nofun⟩
  · simp [ofJson?, hfields, hl.read, hr.read, bind_if, ← ite_and]

namespace Phrase

def numbers : Phrase → List Float
  | number v _ => [v]
  | name _ _ => []
  | paren e _ => e.numbers
  | unary _ _ e _ => e.numbers
  | binary _ _ l r _ => l.numbers ++ r.numbers

def spans : Phrase → List Span
  | number _ s | name _ s => [s]
  | paren e s => s :: e.spans
  | unary _ os e s => s :: os :: e.spans
  | binary _ os l r s => s :: os :: (l.spans ++ r.spans)

section

variable {s : Span}

theorem faithful_op {α : Type} {toJson : α → Json} {ofJson? : Nat → Json → Option α} {op : α}
    (hop : Faithful toJson ofJson? op) (hs : s.Stored) :
    Faithful (fun p : α × Span => opToJson (toJson p.1) p.2) (opOfJson? ofJson?) (op, s) := by
  have hspan := s.faithful hs
  have hfields : (opToJson (toJson op) s).fields? ["kind", "span"] = some [toJson op, s.toJson] :=
    fields?_record (by simp)
  refine .of_record rfl ?_ rfl fun depth => ?_
  · simp only [List.forall_mem_cons]
    exact ⟨hop.wellFormed, hspan.wellFormed, nofun⟩
  · simp [opOfJson?, hfields, hop.read, hspan.read, bind_if, ← ite_and]

theorem faithful_name (n : String) (hs : s.Stored) :
    Faithful (fun p : String × Span => nameToJson p.1 p.2) nameOfJson? (n, s) := by
  have hspan := s.faithful hs
  have hfields : (nameToJson n s).fields? ["name", "span"] = some [.ofText n, s.toJson] :=
    fields?_record (by simp)
  refine .of_record rfl ?_ rfl fun depth => ?_
  · simp only [List.forall_mem_cons]
    exact ⟨wellFormed_ofText n, hspan.wellFormed, nofun⟩
  · simp [nameOfJson?, hfields, text?_ofText, hspan.read, bind_if, nesting_ofText]

theorem faithful_of_fields {p : Phrase} {tag : String} {fields : List (String × Json)}
    (hjson : p.toJson = tagged tag (record fields)) (hfields : ∀ f ∈ fields, f.2.WellFormed)
    (hread : ∀ depth, ofJson? (depth + 2) p.toJson =
      if ∀ f ∈ fields, f.2.nesting ≤ depth then some p else none) :
    Faithful toJson ofJson? p := by
  refine .of_tagged hjson (wellFormed_record hfields) rfl fun depth => ?_
  cases depth with
  | zero => rfl
  | succ depth => simp only [hread, nesting_record_le]

end

theorem faithful {p : Phrase} (hn : ∀ c ∈ p.numbers, Kept c) (hs : ∀ s ∈ p.spans, s.Stored) :
    Faithful toJson ofJson? p := by
  induction p with
  | number v s =>
    have hv := hn v (List.mem_singleton_self v)
    have hspan := s.faithful (hs s (List.mem_singleton_self s))
    have hfields : (record [("value", .ofFloat v), ("span", s.toJson)]).fields? ["value", "span"] =
        some [.ofFloat v, s.toJson] := fields?_record (by simp)
    refine .of_tagged rfl (wellFormed_tagged _ (wellFormed_record ?_)) rfl fun depth => ?_
    · simp only [List.forall_mem_cons]
      exact ⟨wellFormed_ofFloat hv, hspan.wellFormed, nofun⟩
    · match depth with
      | 0 | 1 => rfl
      | depth + 2 =>
        simp [ofJson?, toJson, tagged?_tagged, literalOfJson?, hfields, hv.2, hspan.read, bind_if,
          nesting_tagged, nesting_record_le, nesting_ofFloat hv]
  | name n s =>
    have hname := faithful_name n (hs s (List.mem_singleton_self s))
    refine .of_tagged rfl (wellFormed_tagged _ hname.wellFormed) rfl fun depth => ?_
    cases depth with
    | zero => rfl
    | succ depth =>
      have hread := hname.read depth
      simp [ofJson?, toJson, tagged?_tagged, literalOfJson?, hread, nesting_tagged]
  | paren e s ih =>
    have he := ih hn fun t ht => hs t (List.mem_cons_of_mem s ht)
    have hspan := s.faithful (hs s List.mem_cons_self)
    have hfields : (record [("expr", e.toJson), ("span", s.toJson)]).fields? ["expr", "span"] =
        some [e.toJson, s.toJson] := fields?_record (by simp)
    refine faithful_of_fields rfl ?_ fun depth => ?_
    · simp only [List.forall_mem_cons]
      exact ⟨he.wellFormed, hspan.wellFormed, nofun⟩
    · simp [ofJson?, toJson, tagged?_tagged, hfields, he.read, hspan.read, bind_if, ← ite_and]
  | unary op os e s ih =>
    have he := ih hn fun t ht => hs t (List.mem_cons_of_mem s (List.mem_cons_of_mem os ht))
    have hop := faithful_op op.faithful (hs os (List.mem_cons_of_mem s List.mem_cons_self))
    have hspan := s.faithful (hs s List.mem_cons_self)
    have hfields : (record [("operand", e.toJson), ("op", opToJson op.toJson os),
        ("span", s.toJson)]).fields? ["operand", "op", "span"] =
          some [e.toJson, opToJson op.toJson os, s.toJson] := fields?_record (by simp)
    refine faithful_of_fields rfl ?_ fun depth => ?_
    · simp only [List.forall_mem_cons]
      exact ⟨he.wellFormed, hop.wellFormed, hspan.wellFormed, nofun⟩
    · -- The operator is read first, though it is written behind the operand.
      have hread := hop.read depth
      simp [ofJson?, toJson, tagged?_tagged, hfields, hread, he.read, hspan.read, bind_if,
        ← ite_and, and_left_comm]
  | binary op os l r s ihl ihr =>
    have hl := ihl (fun c hc => hn c (List.mem_append_left _ hc)) fun t ht =>
      hs t (List.mem_cons_of_mem s (List.mem_cons_of_mem os (List.mem_append_left _ ht)))
    have hr := ihr (fun c hc => hn c (List.mem_append_right _ hc)) fun t ht =>
      hs t (List.mem_cons_of_mem s (List.mem_cons_of_mem os (List.mem_append_right _ ht)))
    have hop := faithful_op op.faithful (hs os (List.mem_cons_of_mem s List.mem_cons_self))
    have hspan := s.faithful (hs s List.mem_cons_self)
    have hfields : (record [("lhs", l.toJson), ("op", opToJson op.toJson os), ("rhs", r.toJson),
        ("span", s.toJson)]).fields? ["lhs", "op", "rhs", "span"] =
          some [l.toJson, opToJson op.toJson os, r.toJson, s.toJson] := fields?_record (by simp)
    refine faithful_of_fields rfl ?_ fun depth => ?_
    · simp only [List.forall_mem_cons]
      exact ⟨hl.wellFormed, hop.wellFormed, hr.wellFormed, hspan.wellFormed, nofun⟩
    · have hread := hop.read depth
      simp [ofJson?, toJson, tagged?_tagged, hfields, hread, hl.read, hr.read, hspan.read, bind_if,
        ← ite_and, and_left_comm]

end Phrase

namespace Equation

def numbers (e : Equation) : List Float := e.lhs.numbers ++ e.rhs.numbers

def spans (e : Equation) : List Span := e.span :: (e.lhs.spans ++ e.rhs.spans)

theorem faithful {e : Equation} (hn : ∀ c ∈ e.numbers, Kept c) (hs : ∀ s ∈ e.spans, s.Stored) :
    Faithful toJson ofJson? e := by
  have hl := e.lhs.faithful (fun c hc => hn c (List.mem_append_left _ hc)) fun s h =>
    hs s (List.mem_cons_of_mem _ (List.mem_append_left _ h))
  have hr := e.rhs.faithful (fun c hc => hn c (List.mem_append_right _ hc)) fun s h =>
    hs s (List.mem_cons_of_mem _ (List.mem_append_right _ h))
  have hspan := e.span.faithful (hs e.span List.mem_cons_self)
  have hfields : e.toJson.fields? ["lhs", "rhs", "span"] =
      some [e.lhs.toJson, e.rhs.toJson, e.span.toJson] := fields?_record (by simp)
  refine .of_record rfl ?_ rfl fun depth => ?_
  · simp only [List.forall_mem_cons]
    exact ⟨hl.wellFormed, hr.wellFormed, hspan.wellFormed, nofun⟩
  · simp [ofJson?, hfields, hl.read, hr.read, hspan.read, bind_if, ← ite_and]

end Equation

namespace Request

def spans (r : Request) : List Span := r.span :: r.targetSpan :: r.equation.spans

theorem faithful {r : Request} (hn : ∀ c ∈ r.equation.numbers, Kept c)
    (hs : ∀ s ∈ r.spans, s.Stored) : Faithful toJson ofJson? r := by
  have htarget := Phrase.faithful_name r.target
    (hs r.targetSpan (List.mem_cons_of_mem _ List.mem_cons_self))
  have he := r.equation.faithful hn fun s h =>
    hs s (List.mem_cons_of_mem _ (List.mem_cons_of_mem _ h))
  have hspan := r.span.faithful (hs r.span List.mem_cons_self)
  have hfields : r.toJson.fields? ["target", "equation", "span"] =
      some [Phrase.nameToJson r.target r.targetSpan, r.equation.toJson, r.span.toJson] :=
    fields?_record (by simp)
  refine .of_record rfl ?_ rfl fun depth => ?_
  · simp only [List.forall_mem_cons]
    exact ⟨htarget.wellFormed, he.wellFormed, hspan.wellFormed, nofun⟩
  · have hread := htarget.read depth
    simp [ofJson?, hfields, hread, he.read, hspan.read, bind_if, ← ite_and]

end Request

namespace Statement

def numbers : Statement → List Float
  | request r => r.equation.numbers
  | equation e => e.numbers
  | phrase p => p.numbers

def spans : Statement → List Span
  | request r => r.spans
  | equation e => e.spans
  | phrase p => p.spans

theorem faithful {s : Statement} (hn : ∀ c ∈ s.numbers, Kept c) (hs : ∀ t ∈ s.spans, t.Stored) :
    Faithful toJson ofJson? s := by
  cases s with
  | request r =>
    have hr := r.faithful hn hs
    refine .of_tagged rfl hr.wellFormed rfl fun depth => ?_
    simp [ofJson?, toJson, tagged?_tagged, hr.read]
  | equation e =>
    have he := e.faithful hn hs
    refine .of_tagged rfl he.wellFormed rfl fun depth => ?_
    simp [ofJson?, toJson, tagged?_tagged, he.read]
  | phrase p =>
    have hp := p.faithful hn hs
    refine .of_tagged rfl hp.wellFormed rfl fun depth => ?_
    simp [ofJson?, toJson, tagged?_tagged, hp.read]

end Statement

namespace Json

section

variable {α : Type} {toJson : α → Json} {ofJson? : Nat → Json → Option α} {a : α}

theorem Faithful.parse?_print (h : Faithful toJson ofJson? a) :
    parse? ofJson? (print toJson a) =
      if (toJson a).nesting ≤ maxDepth then some a else none := by
  rw [parse?, print, String.toList_ofList, read_write h.wellFormed, Option.bind_some, h.read]

end

theorem kept_of_text {c : Float} (hc : c.isFinite = true)
    (h : parse? (fun _ => float?) (print ofFloat c) = some c) : Kept c := by
  obtain ⟨l, hl, hnumber⟩ := exists_ofFloat hc
  have hread : read (ofFloat c).write = some (ofFloat c) := by
    rw [hl]
    exact read_write (.number hnumber)
  rw [parse?, print, String.toList_ofList, hread] at h
  exact ⟨hc, h⟩

end Json

inductive Form where
  | statement
  | phrase
  | expr
  | job
  | step
  | ruleSet
  | binOp
  | unaryOp

namespace Form

def Value : Form → Type
  | statement => Statement
  | phrase => Phrase
  | expr => Expr
  | job => Job
  | step => Step
  | ruleSet => RuleSet
  | binOp => BinOp
  | unaryOp => UnaryOp

def toJson : (f : Form) → f.Value → Json
  | statement => Statement.toJson
  | phrase => Phrase.toJson
  | expr => Expr.toJson
  | job => Job.toJson
  | step => Step.toJson
  | ruleSet => RuleSet.toJson
  | binOp => BinOp.toJson
  | unaryOp => UnaryOp.toJson

def ofJson? : (f : Form) → Nat → Json → Option f.Value
  | statement => Statement.ofJson?
  | phrase => Phrase.ofJson?
  | expr => Expr.ofJson?
  | job => Job.ofJson?
  | step => Step.ofJson?
  | ruleSet => RuleSet.ofJson?
  | binOp => BinOp.ofJson?
  | unaryOp => UnaryOp.ofJson?

def numbers : (f : Form) → f.Value → List Float
  | statement => Statement.numbers
  | phrase => Phrase.numbers
  | expr => Expr.constants
  | job => Job.constants
  | step | ruleSet | binOp | unaryOp => fun _ => []

def spans : (f : Form) → f.Value → List Span
  | statement => Statement.spans
  | phrase => Phrase.spans
  | expr | job | step | ruleSet | binOp | unaryOp => fun _ => []

theorem faithful {f : Form} {a : f.Value} (hn : ∀ c ∈ f.numbers a, Kept c)
    (hs : ∀ s ∈ f.spans a, s.Stored) : Faithful f.toJson f.ofJson? a := by
  cases f with
  | statement => exact Statement.faithful hn hs
  | phrase => exact Phrase.faithful hn hs
  | expr => exact Expr.faithful hn
  | job => exact Job.faithful hn
  | step => exact Step.faithful a
  | ruleSet => exact RuleSet.faithful a
  | binOp => exact BinOp.faithful a
  | unaryOp => exact UnaryOp.faithful a

end Form

/-- The text of a value whose numbers are finite and are kept by their own texts is read as the
value, and writing what was read gives the text again, unless arrays and objects stand deeper
inside each other than may be read; then nothing is read. -/
theorem json_reads_back (f : Form) (a : f.Value) (hfinite : ∀ c ∈ f.numbers a, c.isFinite = true)
    (htext : ∀ c ∈ f.numbers a, parse? (fun _ => Json.float?) (print Json.ofFloat c) = some c)
    (hspans : ∀ s ∈ f.spans a, s.Stored) :
    ((f.toJson a).nesting ≤ maxDepth →
      parse? f.ofJson? (print f.toJson a) = some a ∧
        (parse? f.ofJson? (print f.toJson a)).map (print f.toJson) = some (print f.toJson a)) ∧
    (maxDepth < (f.toJson a).nesting → parse? f.ofJson? (print f.toJson a) = none) := by
  have hkept : ∀ c ∈ f.numbers a, Kept c := fun c hc => kept_of_text (hfinite c hc) (htext c hc)
  have hparse := (f.faithful hkept hspans).parse?_print
  constructor
  · intro hle
    have hsame : parse? f.ofJson? (print f.toJson a) = some a := by rw [hparse, if_pos hle]
    refine ⟨hsame, ?_⟩
    rw [hsame, Option.map_some]
  · intro hlt
    rw [hparse, if_neg (Nat.not_le.mpr hlt)]

def escapedRequest : Statement :=
  .request ⟨"\"\\\nλ", ⟨6, 11⟩,
    ⟨.unary .neg ⟨15, 16⟩ (.paren (.number 2.5 ⟨17, 20⟩) ⟨16, 21⟩) ⟨15, 21⟩,
      .binary .div ⟨29, 30⟩ (.name "\"\\\nλ" ⟨24, 29⟩) (.number 0.1 ⟨30, 33⟩) ⟨24, 33⟩,
      ⟨15, 33⟩⟩, ⟨0, 33⟩⟩

theorem json_reads_back_escapedRequest :
    parse? Statement.ofJson? (print Statement.toJson escapedRequest) = some escapedRequest ∧
      (parse? Statement.ofJson? (print Statement.toJson escapedRequest)).map
          (print Statement.toJson) = some (print Statement.toJson escapedRequest) :=
  (json_reads_back .statement escapedRequest (by decide +kernel) (by decide +kernel)
    (by decide +kernel)).1 (by decide +kernel)

theorem nesting_negations (n : Nat) (name : String) :
    (Expr.neg^[n] (.var name)).toJson.nesting = n + 1 := by
  induction n with
  | zero => rfl
  | succ n ih => rw [Function.iterate_succ_apply', Expr.toJson, nesting_tagged, ih]

theorem constants_negations (n : Nat) (name : String) :
    (Expr.neg^[n] (.var name)).constants = [] := by
  induction n with
  | zero => rfl
  | succ n ih => rw [Function.iterate_succ_apply', Expr.constants, ih]

/-- Negations that are nested too deep are written, but not read. -/
theorem deep_negation_lost :
    (Expr.neg^[127] (.var "x")).constants = [] ∧
      parse? Expr.ofJson? (print Expr.toJson (Expr.neg^[127] (.var "x"))) = none := by
  have hnone := constants_negations 127 "x"
  have hfaithful : Faithful Expr.toJson Expr.ofJson? (Expr.neg^[127] (.var "x")) :=
    Expr.faithful (by rw [hnone]; exact nofun)
  refine ⟨hnone, ?_⟩
  rw [hfaithful.parse?_print, nesting_negations, if_neg (by decide)]

end Rearrange

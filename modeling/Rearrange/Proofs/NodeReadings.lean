import Rearrange.Parser.Node
import Rearrange.Proofs.AcceptedSentences
import Rearrange.Proofs.FailedReads
import Rearrange.Proofs.ReadingDepth

namespace Rearrange

def NodeKind.admits : NodeKind → Phrase → Bool
  | expr, _ => true
  | binary, .binary .. => true
  | unary, .unary .. => true
  | primary, .number .. | primary, .name .. | primary, .paren .. => true
  | paren, .paren .. => true
  | literal, .number .. | literal, .name .. => true
  | number, .number .. => true
  | name, .name .. => true
  | _, _ => false

def NodeKind.ofExpressions : List NodeKind :=
  [binary, unary, primary, paren, literal, number, name]

namespace Parse

variable {r : Parse Phrase} {admits : Phrase → Bool} {p q : Parser} {t : Phrase}
  {ts us : List Token}

/-- Reading gives the well-shaped trees of some kind, from their words and with the regions of
these, and no others. -/
structure Exact (r : Parse Phrase) (admits : Phrase → Bool) : Prop where
  sound : ∀ {p q t}, r p = .ok t q → admits t = true ∧ t.WellShaped ∧ Places p q t
  complete : ∀ {p t ts us}, admits t = true → t.WellShaped → t.Covers ts → p.words = ts ++ us →
    Ends us → r.Gives p t us

theorem Exact.full_iff (h : Exact r admits) :
    (∃ q, full r p = .ok t q) ↔ admits t = true ∧ t.WellShaped ∧ t.Covers p.words := by
  rw [Parse.full_iff]
  constructor
  · rintro ⟨q, hr, hq⟩
    obtain ⟨hadmits, hshape, ts, hts, hcovers⟩ := h.sound hr
    rw [hq, List.append_nil] at hts
    exact ⟨hadmits, hshape, hts ▸ hcovers⟩
  · rintro ⟨hadmits, hshape, hcovers⟩
    exact h.complete hadmits hshape hcovers (List.append_nil _).symm fun w ws h => nomatch h

theorem Reads.gives (h : r.Reads t ts us) (hplaces : ∀ {p q u}, r p = .ok u q → Places p q u)
    (hcovers : t.Covers ts) (hp : p.words = ts ++ us) : r.Gives p t us := by
  obtain ⟨u, ⟨q, hr, hq⟩, hsame⟩ := h p hp
  obtain ⟨vs, hvs, hucovers⟩ := hplaces hr
  have heq : vs ++ us = ts ++ us := by rw [← hp, hvs, hq]
  obtain ⟨rfl, -⟩ := hucovers.unique_append hcovers hsame heq
  exact ⟨q, hr, hq⟩

theorem exact_operand : Exact operand fun t => !t.isBinary where
  sound {p q t} h := by
    obtain ⟨hshape, hb, hplaces⟩ := (places_of_depth p.depth).1 p q t h
    exact ⟨by rw [hb]; rfl, hshape, hplaces⟩
  complete {p t ts us} hb hshape hcovers hp _ := by
    have hreads : operand.Reads t ts us :=
      reads_operand hshape (Bool.not_eq_true' _ ▸ hb) hcovers.spells
    exact hreads.gives (fun {p q u} h => ((places_of_depth p.depth).1 p q u h).2.2) hcovers hp

theorem exact_expr : Exact expr (NodeKind.admits .expr) where
  sound h := ⟨rfl, places_of_expr h⟩
  complete _ hshape hcovers hp hends :=
    (reads_expr hshape hcovers.spells hends).gives (fun h => (places_of_expr h).2) hcovers hp

theorem exact_number : Exact number (NodeKind.admits .number) where
  sound {p q t} h := by
    obtain ⟨w, hw, hshape, -, hcovers⟩ := number_eq_ok h
    refine ⟨?_, hshape, [w], hw, hcovers⟩
    obtain ⟨w', p', -, h⟩ := bind_eq_ok.mp h
    cases hv : Number.read w'.lexeme <;> rw [hv] at h <;> cases h
    rfl
  complete {p t ts us} hadmits _ hcovers hp _ := by
    cases hcovers with
    | number hk hv => exact number_of_words hp hk hv
    | _ => cases hadmits

theorem exact_name : Exact name (NodeKind.admits .name) where
  sound {p q t} h := by
    obtain ⟨w, hw, hshape, -, hcovers⟩ := name_eq_ok h
    refine ⟨?_, hshape, [w], hw, hcovers⟩
    obtain ⟨w', p', -, h⟩ := bind_eq_ok.mp h
    cases h
    rfl
  complete {p t ts us} hadmits _ hcovers hp _ := by
    cases hcovers with
    | name hk => exact name_of_words hp hk
    | _ => cases hadmits

theorem exact_literal : Exact literal (NodeKind.admits .literal) where
  sound {p q t} h := by
    rcases orElse_eq_ok h with h | h
    · obtain ⟨hadmits, hsound⟩ := exact_number.sound h
      cases t with
      | number => exact ⟨rfl, hsound⟩
      | _ => cases hadmits
    · obtain ⟨hadmits, hsound⟩ := exact_name.sound (attempt_eq_ok.mp h)
      cases t with
      | name => exact ⟨rfl, hsound⟩
      | _ => cases hadmits
  complete {p t ts us} hadmits _ hcovers hp _ := by
    cases hcovers with
    | number hk hv => exact literal_of_number hp hk hv
    | name hk => exact literal_of_name hp hk
    | _ => cases hadmits

theorem exact_paren : Exact paren (NodeKind.admits .paren) where
  sound {p q t} h := by
    obtain ⟨o, e, c, p₁, p₂, ho, hok, he, hc, hck, rfl⟩ := parenWith_eq_ok h
    obtain ⟨hshape, ts, hts, hcovers⟩ := places_of_expr he
    refine ⟨rfl, hshape, o :: ts ++ [c], ?_, .paren hok hcovers hck⟩
    rw [ho, hts, hc]
    simp
  complete {p t ts us} hadmits hshape hcovers hp hends := by
    cases hcovers with
    | @paren o c e es ho he hc =>
      have hp : p.words = o :: (es ++ c :: us) := by simpa using hp
      have hends' : Ends (c :: us) := by
        intro w ws h
        cases h
        rw [hc]
        rfl
      obtain ⟨p₁, hopen, hp₁⟩ := (token_of_words hp ho).attempt
      obtain ⟨p₂, hexpr, hp₂⟩ := (exact_expr.complete (t := e) rfl hshape he hp₁ hends').attempt
      obtain ⟨p₃, hclose, hp₃⟩ := (token_of_words hp₂ hc).attempt
      refine ⟨p₃, ?_, hp₃⟩
      rw [paren, parenWith, bind_of_ok hopen, bind_of_ok hexpr,
        bind_of_ok (mapError_eq_ok.mpr hclose)]
      rfl
    | _ => cases hadmits

theorem exact_primary : Exact primary (NodeKind.admits .primary) where
  sound {p q t} h := by
    rcases orElse_eq_ok h with h | h
    · obtain ⟨hadmits, hsound⟩ := exact_literal.sound h
      cases t with
      | number | name => exact ⟨rfl, hsound⟩
      | _ => cases hadmits
    · obtain ⟨hadmits, hsound⟩ := exact_paren.sound (attempt_eq_ok.mp h)
      cases t with
      | paren => exact ⟨rfl, hsound⟩
      | _ => cases hadmits
  complete {p t ts us} hadmits hshape hcovers hp hends := by
    cases t with
    | number | name => exact (exact_literal.complete rfl hshape hcovers hp hends).orElse _
    | paren e s =>
      have hliteral : literal.Refuses p := by
        cases hcovers with
        | @paren o c _ es ho =>
          have hp : p.words = o :: (es ++ c :: us) := by simpa using hp
          exact (number_refuses hp (by rw [ho]; decide) (by rw [ho]; decide)).orElse_refuses
            (name_refuses hp (by rw [ho]; decide)).attempt
      obtain ⟨q, hparen, hq⟩ := (exact_paren.complete rfl hshape hcovers hp hends).attempt
      exact ⟨q, (hliteral.orElse _).trans hparen, hq⟩
    | _ => cases hadmits

theorem exact_unary : Exact unary (NodeKind.admits .unary) where
  sound {p q t} h := by
    obtain ⟨w, op, e, p₁, hw, hk, he, rfl⟩ := unaryWith_eq_ok h
    obtain ⟨hb, hshape, ts, hts, hcovers⟩ := exact_operand.sound he
    have hb : e.isBinary = false := Bool.not_eq_true' _ ▸ hb
    exact ⟨rfl, ⟨hshape, hb⟩, w :: ts, by rw [hw, hts]; rfl, .unary hk hcovers⟩
  complete {p t ts us} hadmits hshape hcovers hp hends := by
    cases hcovers with
    | @unary w op e es hk he =>
      have hb : (!e.isBinary) = true := by rw [hshape.2]; rfl
      obtain ⟨p₁, hop, hp₁⟩ := (unaryOp_of_words hp hk op).attempt
      obtain ⟨p₂, hoperand, hp₂⟩ := exact_operand.complete hb hshape.1 he hp₁ hends
      refine ⟨p₂, ?_, hp₂⟩
      rw [unary, unaryWith, bind_of_ok hop]
      exact bind_of_ok hoperand
    | _ => cases hadmits

/-- An operand and the chain behind it are an expression, since no operand begins with a closing
parenthesis. -/
theorem climb_eq_ok : climb .any p = .ok t q ↔ expr p = .ok t q := by
  rw [expr_eq_exprWith, climb, bind_eq_ok]
  constructor
  · rintro ⟨lhs, p₁, hlhs, hchain⟩
    obtain ⟨-, -, ts, hts, hcovers⟩ := exact_operand.sound hlhs
    obtain ⟨w, ws, rfl, hw⟩ := hcovers.spells.exists_cons
    rw [exprWith, ahead_eq_none (token_refuses hts hw)]
    exact bind_eq_ok.mpr ⟨lhs, p₁, attempt_eq_ok.mpr hlhs, hchain⟩
  · exact exprWith_eq_ok

theorem binary_eq_ok : binary p = .ok t q ↔ expr p = .ok t q ∧ t.isBinary = true := by
  rw [binary, bind_eq_ok]
  constructor
  · rintro ⟨u, p₁, hu, h⟩
    split at h
    next =>
      cases h
      exact ⟨climb_eq_ok.mp hu, rfl⟩
    next => cases h
  · rintro ⟨ht, hb⟩
    refine ⟨t, q, climb_eq_ok.mpr ht, ?_⟩
    cases t with
    | binary => rfl
    | _ => cases hb

theorem exact_binary : Exact binary (NodeKind.admits .binary) where
  sound {p q t} h := by
    obtain ⟨hexpr, hb⟩ := binary_eq_ok.mp h
    refine ⟨?_, places_of_expr hexpr⟩
    cases t with
    | binary => rfl
    | _ => cases hb
  complete {p t ts us} hadmits hshape hcovers hp hends := by
    obtain ⟨q, hexpr, hq⟩ := exact_expr.complete rfl hshape hcovers hp hends
    refine ⟨q, binary_eq_ok.mpr ⟨hexpr, ?_⟩, hq⟩
    cases t with
    | binary => rfl
    | _ => cases hadmits

theorem exists_exact {kind : NodeKind} (h : kind ∈ NodeKind.ofExpressions) :
    ∃ r, kind.parse = .phrase <$> r ∧ Exact r kind.admits := by
  cases kind with
  | binary => exact ⟨binary, rfl, exact_binary⟩
  | unary => exact ⟨unary, rfl, exact_unary⟩
  | primary => exact ⟨primary, rfl, exact_primary⟩
  | paren => exact ⟨paren, rfl, exact_paren⟩
  | literal => exact ⟨literal, rfl, exact_literal⟩
  | number => exact ⟨number, rfl, exact_number⟩
  | name => exact ⟨name, rfl, exact_name⟩
  | _ => exact absurd h (by decide)

theorem full_map_eq_ok {α β : Type} {r : Parse α} {f : α → β} {b : β} :
    (∃ q, full (f <$> r) p = .ok b q) ↔ ∃ a, f a = b ∧ ∃ q, full r p = .ok a q := by
  simp only [full_iff, Gives, map_eq_ok]
  constructor
  · rintro ⟨q, ⟨a, hr, rfl⟩, hq⟩
    exact ⟨a, rfl, q, hr, hq⟩
  · rintro ⟨a, rfl, q, hr, hq⟩
    exact ⟨q, ⟨a, hr, rfl⟩, hq⟩

theorem full_parse_iff {kind : NodeKind} (h : kind ∈ NodeKind.ofExpressions) {n : Node} :
    (∃ q, full kind.parse p = .ok n q) ↔
      ∃ t, n = .phrase t ∧ kind.admits t = true ∧ ∃ q, full expr p = .ok t q := by
  obtain ⟨r, hparse, hexact⟩ := exists_exact h
  rw [hparse, full_map_eq_ok]
  refine exists_congr fun t => and_congr eq_comm ?_
  rw [hexact.full_iff, exact_expr.full_iff]
  exact and_congr_right fun _ => (and_iff_right rfl).symm

end Parse

/-- A text is read as a node of some kind of expressions if and only if it is read as an expression
of this kind, and then the two trees are the same, regions included. An expression of another kind
is refused. -/
theorem node_kinds_agree (source : String) (kind : NodeKind) (h : kind ∈ NodeKind.ofExpressions) :
    (∀ n, (∃ q, Parse.full kind.parse (.ofSource source) = .ok n q) ↔
        ∃ t, n = .phrase t ∧ kind.admits t = true ∧
          ∃ q, Parse.full Parse.expr (.ofSource source) = .ok t q) ∧
      ∀ t q, Parse.full Parse.expr (.ofSource source) = .ok t q → kind.admits t = false →
        ∃ e q', Parse.full kind.parse (.ofSource source) = .error e q' := by
  refine ⟨fun n => Parse.full_parse_iff h, fun t q ht hother => ?_⟩
  cases hfull : Parse.full kind.parse (.ofSource source) with
  | error e q' => exact ⟨e, q', rfl⟩
  | ok n q' =>
    obtain ⟨u, -, hu, q'', hexpr⟩ := (Parse.full_parse_iff h).mp ⟨q', hfull⟩
    cases ht.symm.trans hexpr
    exact absurd (hother.symm.trans hu) Bool.false_ne_true

/-- `- ( x )` -/
def negatedParen : Phrase :=
  .unary .neg ⟨0, 1⟩ (.paren (.name "x" ⟨4, 5⟩) ⟨2, 7⟩) ⟨0, 7⟩

theorem node_kinds_agree_negatedParen :
    NodeKind.unary ∈ NodeKind.ofExpressions ∧ NodeKind.paren ∈ NodeKind.ofExpressions ∧
      (∃ q, Parse.full Parse.expr (.ofSource "- ( x )") = .ok negatedParen q) ∧
      (∃ q, Parse.full (NodeKind.parse .unary) (.ofSource "- ( x )") =
        .ok (.phrase negatedParen) q) ∧
      ∃ e q, Parse.full (NodeKind.parse .paren) (.ofSource "- ( x )") = .error e q := by
  have hunary : NodeKind.unary ∈ NodeKind.ofExpressions := by decide
  have hparen : NodeKind.paren ∈ NodeKind.ofExpressions := by decide
  have hahead : Parse.ahead (Parse.full Parse.expr) (.ofSource "- ( x )") = some negatedParen := by
    decide +kernel
  obtain ⟨q, hread⟩ := Parse.ahead_eq_some.mp hahead
  obtain ⟨hsame, -⟩ := node_kinds_agree "- ( x )" .unary hunary
  obtain ⟨-, hrefused⟩ := node_kinds_agree "- ( x )" .paren hparen
  exact ⟨hunary, hparen, ⟨q, hread⟩, (hsame _).mpr ⟨negatedParen, rfl, rfl, q, hread⟩,
    hrefused _ q hread rfl⟩

end Rearrange

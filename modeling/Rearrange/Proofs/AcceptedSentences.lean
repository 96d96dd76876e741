import Rearrange.Proofs.GrammarComplete
import Rearrange.Proofs.NumberLexemes

namespace Rearrange

namespace Parse

theorem full_expr_covers {p q : Parser} {t : Phrase} (h : full expr p = .ok t q) :
    t.WellShaped ∧ t.Covers p.words := by
  obtain ⟨p', hexpr, hnil⟩ := full_eq_ok h
  obtain ⟨hshape, ts, hts, hcovers⟩ := places_of_expr hexpr
  rw [hnil, List.append_nil] at hts
  rw [hts]
  exact ⟨hshape, hcovers⟩

theorem full_expr_iff {p : Parser} {t : Phrase} :
    (∃ u q, full expr p = .ok u q ∧ u.unplaced = t.unplaced) ↔ t.WellShaped ∧ t.Spells p.words := by
  constructor
  · rintro ⟨u, q, h, hsame⟩
    obtain ⟨hshape, hcovers⟩ := full_expr_covers h
    rw [← Phrase.wellShaped_unplaced, ← Phrase.spells_unplaced, ← hsame,
      Phrase.wellShaped_unplaced, Phrase.spells_unplaced]
    exact ⟨hshape, hcovers.spells⟩
  · rintro ⟨hshape, hspells⟩
    obtain ⟨u, hgives, hu⟩ := expr_of_words hshape hspells rfl
    obtain ⟨q, hfull, -⟩ := hgives.full
    exact ⟨u, q, hfull, hu⟩

theorem unplaced_eq_of_spells {p : Parser} {t u : Phrase} (ht : t.WellShaped) (hu : u.WellShaped)
    (htp : t.Spells p.words) (hup : u.Spells p.words) : t.unplaced = u.unplaced := by
  obtain ⟨a, q, ha, hat⟩ := full_expr_iff.mpr ⟨ht, htp⟩
  obtain ⟨b, r, hb, hbu⟩ := full_expr_iff.mpr ⟨hu, hup⟩
  cases ha.symm.trans hb
  exact hat.symm.trans hbu

end Parse

/-- A text is read as an expression if and only if its words spell a well-shaped tree. There is
only one such tree, and its numbers can be read. -/
theorem full_expr_accepts (source : String) :
    (∀ t : Phrase,
        (∃ u q, Parse.full Parse.expr (.ofSource source) = .ok u q ∧ u.unplaced = t.unplaced) ↔
          t.WellShaped ∧ t.Spells (words (tokenize source))) ∧
      (∀ t u : Phrase, t.WellShaped → u.WellShaped → t.Spells (words (tokenize source)) →
        u.Spells (words (tokenize source)) → t.unplaced = u.unplaced) ∧
      ∀ w ∈ tokenize source, w.kind = .int ∨ w.kind = .float →
        ∃ v, Number.read w.lexeme = some v :=
  ⟨fun _ => Parse.full_expr_iff (p := .ofSource source),
    fun _ _ ht hu => Parse.unplaced_eq_of_spells (p := .ofSource source) ht hu,
    fun _ => Number.exists_read⟩

/-- `-a * 2 - b` -/
def negatedProduct : Phrase :=
  .binary .sub (.point 0)
    (.binary .mul (.point 0) (.unary .neg (.point 0) (.name "a" (.point 0)) (.point 0))
      (.number 2 (.point 0)) (.point 0))
    (.name "b" (.point 0)) (.point 0)

theorem full_expr_accepts_negatedProduct :
    (∃ u q, Parse.full Parse.expr (.ofSource "-a * 2 - b") = .ok u q ∧
        u.unplaced = negatedProduct.unplaced) ∧
      (∀ u : Phrase, u.WellShaped → u.Spells (words (tokenize "-a * 2 - b")) →
        negatedProduct.unplaced = u.unplaced) ∧
      ∃ v, Number.read "2" = some v := by
  have hwords : words (tokenize "-a * 2 - b") = [⟨.sub, ⟨0, 1⟩, "-"⟩, ⟨.name, ⟨1, 2⟩, "a"⟩,
      ⟨.mul, ⟨3, 4⟩, "*"⟩, ⟨.int, ⟨5, 6⟩, "2"⟩, ⟨.sub, ⟨7, 8⟩, "-"⟩, ⟨.name, ⟨9, 10⟩, "b"⟩] := by
    decide +kernel
  have hshape : negatedProduct.WellShaped := by
    simp [negatedProduct, Phrase.WellShaped, Phrase.isBinary, Phrase.isSum]
  have hspells : negatedProduct.Spells (words (tokenize "-a * 2 - b")) := by
    have htwo : Number.read "2" = some 2 := by decide +kernel
    have hname (t : Token) (hk : t.kind = .name) : (Phrase.name t.lexeme (.point 0)).Spells [t] :=
      .name hk
    rw [hwords]
    exact .binary rfl (.binary rfl (.unary rfl (hname ⟨.name, ⟨1, 2⟩, "a"⟩ rfl))
      (.number (Or.inl rfl) htwo)) (hname ⟨.name, ⟨9, 10⟩, "b"⟩ rfl)
  obtain ⟨haccepts, hunique, hread⟩ := full_expr_accepts "-a * 2 - b"
  refine ⟨(haccepts negatedProduct).mpr ⟨hshape, hspells⟩,
    fun u hu hus => hunique negatedProduct u hshape hu hspells hus, ?_⟩
  have htwo : ⟨.int, ⟨5, 6⟩, "2"⟩ ∈ words (tokenize "-a * 2 - b") := by
    rw [hwords]
    simp
  exact hread _ (List.mem_filter.mp htwo).1 (Or.inl rfl)

end Rearrange

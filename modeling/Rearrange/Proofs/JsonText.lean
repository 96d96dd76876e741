import Rearrange.Proofs.JsonLexemes

namespace Rearrange

namespace Json

/-- Every string in a tree is escaped, and every number has the form of one. -/
inductive WellFormed : Json → Prop
  | null : WellFormed null
  | bool (b : Bool) : WellFormed (bool b)
  | number {l : List Char} : IsNumber l → WellFormed (number l)
  | string (cs : List Char) : WellFormed (string (escape cs))
  | array {vs : List Json} : (∀ v ∈ vs, WellFormed v) → WellFormed (array vs)
  | object {ms : List (List Char × Json)} : (∀ m ∈ ms, ∃ cs, m.1 = escape cs) →
    (∀ m ∈ ms, WellFormed m.2) → WellFormed (object ms)

/-- The text of a tree is read as the tree, whatever follows it. A bound on the calls that is as
large as the text is long suffices. -/
def Reads (v : Json) : Prop :=
  ∀ n r, v.write.length ≤ n → Ends r → value n (v.write ++ r) = some (v, r)

theorem skipBlanks_cons {c : Char} (h : isBlank c = false) (r : List Char) :
    skipBlanks (c :: r) = c :: r := by
  simp [skipBlanks, h]

theorem ends_cons {c : Char} (h : c.isDigit = false ∧ c ≠ '.' ∧ c ≠ 'e' ∧ c ≠ 'E')
    (r : List Char) : Ends (c :: r) := by
  rintro c ⟨⟩
  exact h

theorem ends_writeElements (vs : List Json) (r : List Char) : Ends (writeElements vs ++ r) := by
  cases vs <;> exact ends_cons (by decide) _

theorem ends_writeMembers (ms : List (List Char × Json)) (r : List Char) :
    Ends (writeMembers ms ++ r) := by
  cases ms <;> exact ends_cons (by decide) _

theorem isBlank_of_isDigit {c : Char} (h : c.isDigit = true) : isBlank c = false := by
  by_contra hblank
  simp only [isBlank, Bool.not_eq_false, Bool.or_eq_true, beq_iff_eq] at hblank
  rcases hblank with ((rfl | rfl) | rfl) | rfl <;> cases h

theorem WellFormed.exists_cons {v : Json} (h : v.WellFormed) :
    ∃ c cs, v.write = c :: cs ∧ isBlank c = false ∧ c ≠ ']' := by
  cases h with
  | null => exact ⟨_, _, rfl, by decide, by decide⟩
  | bool b => cases b <;> exact ⟨_, _, rfl, by decide, by decide⟩
  | number hl =>
    obtain ⟨c, cs, rfl, hc | rfl⟩ := hl.exists_cons
    · refine ⟨c, cs, rfl, ?_, ?_⟩
      · exact isBlank_of_isDigit hc
      · rintro rfl
        cases hc
    · exact ⟨'-', cs, rfl, by decide, by decide⟩
  | string => exact ⟨_, _, rfl, by decide, by decide⟩
  | @array vs => cases vs <;> exact ⟨_, _, rfl, by decide, by decide⟩
  | @object ms => cases ms <;> exact ⟨_, _, rfl, by decide, by decide⟩

theorem reads_of_succ {v : Json} (hpos : 0 < v.write.length)
    (h : ∀ n r, v.write.length ≤ n + 1 → Ends r → value (n + 1) (v.write ++ r) = some (v, r)) :
    v.Reads := by
  intro n r hn hr
  cases n with
  | zero => omega
  | succ n => exact h n r hn hr

theorem reads_number {l : List Char} (h : IsNumber l) : Reads (number l) := by
  obtain ⟨c, cs, rfl, hc⟩ := h.exists_cons
  refine reads_of_succ (Nat.succ_pos _) fun n r _ hr => ?_
  have hcut : numberLexeme (c :: (cs ++ r)) = some (c :: cs, r) := h.append hr
  have hblank : isBlank c = false := by
    rcases hc with hc | rfl
    · exact isBlank_of_isDigit hc
    · rfl
  -- No other value begins with a digit or a minus.
  have hstart : ∀ d ∈ ['n', 't', 'f', '"', '[', '\x7b'], ¬ (d.isDigit = true ∨ d = '-') := by simp
  change value (n + 1) (c :: (cs ++ r)) = _
  rw [value, skipBlanks_cons hblank]
  split
  iterate 6 next heq => exact absurd ((List.cons.inj heq).1 ▸ hc) (hstart _ (by simp))
  next => rw [hcut]; rfl

theorem reads_string (cs : List Char) : Reads (string (escape cs)) := by
  refine reads_of_succ (by simp [write]) fun n r _ _ => ?_
  have hbody := stringBody_escape cs r
  simp [write, value, skipBlanks, isBlank, hbody]

theorem elements_write {v : Json} {vs : List Json} (hreads : ∀ w ∈ v :: vs, w.Reads) {n : Nat}
    {r : List Char} (hn : (v.write ++ writeElements vs).length ≤ n) :
    elements n (v.write ++ (writeElements vs ++ r)) = some (v :: vs, r) := by
  rw [List.length_append] at hn
  have hv := hreads v List.mem_cons_self
  induction vs generalizing v n with
  | nil =>
    cases n with
    | zero => simp [writeElements] at hn
    | succ n =>
      rw [writeElements, List.length_singleton] at hn
      have hhead := hv n (writeElements [] ++ r) (by omega) (ends_writeElements [] r)
      rw [elements, hhead]
      rfl
  | cons w vs ih =>
    cases n with
    | zero => simp [writeElements] at hn
    | succ n =>
      rw [writeElements, List.length_append, List.length_cons] at hn
      have hhead := hv n (writeElements (w :: vs) ++ r) (by omega) (ends_writeElements _ r)
      have htail := ih (fun w hw => hreads w (List.mem_cons_of_mem _ hw)) (n := n) (by omega)
        (hreads w (List.mem_cons_of_mem _ List.mem_cons_self))
      rw [elements, hhead]
      change ((elements n (w.write ++ writeElements vs ++ r)).map _) = _
      rw [List.append_assoc, htail]
      rfl

section

variable {n : Nat} {cs r r' : List Char} {v : Json}

theorem members_last (hv : value n r = some (v, '\x7d' :: r')) :
    members (n + 1) ('"' :: (escape cs ++ '"' :: ':' :: r)) = some ([(escape cs, v)], r') := by
  have hname := stringBody_escape cs (':' :: r)
  simp [members, skipBlanks, isBlank, hname, hv]

theorem members_more (hv : value n r = some (v, ',' :: r')) :
    members (n + 1) ('"' :: (escape cs ++ '"' :: ':' :: r)) =
      (members n r').map fun (ms, r) => ((escape cs, v) :: ms, r) := by
  have hname := stringBody_escape cs (':' :: r)
  simp [members, skipBlanks, isBlank, hname, hv]

end

theorem members_write {cs : List Char} {v : Json} {ms : List (List Char × Json)}
    (hkeys : ∀ m ∈ ms, ∃ cs, m.1 = escape cs) (hreads : ∀ m ∈ (escape cs, v) :: ms, m.2.Reads)
    {n : Nat} {r : List Char} (hn : (v.write ++ writeMembers ms).length < n) :
    members n ('"' :: (escape cs ++ '"' :: ':' :: (v.write ++ (writeMembers ms ++ r)))) =
      some ((escape cs, v) :: ms, r) := by
  rw [List.length_append] at hn
  have hv : v.Reads := hreads (escape cs, v) List.mem_cons_self
  induction ms generalizing cs v n with
  | nil =>
    cases n with
    | zero => exact absurd hn (Nat.not_lt_zero _)
    | succ n =>
      exact members_last (hv n (writeMembers [] ++ r) (by omega) (ends_writeMembers [] r))
  | cons m ms ih =>
    obtain ⟨k, w⟩ := m
    obtain ⟨ds, rfl⟩ : ∃ ds, k = escape ds := hkeys (k, w) List.mem_cons_self
    cases n with
    | zero => exact absurd hn (Nat.not_lt_zero _)
    | succ n =>
      simp only [writeMembers, List.length_append, List.length_cons] at hn
      have hhead := hv n (writeMembers ((escape ds, w) :: ms) ++ r) (by omega)
        (ends_writeMembers _ r)
      have htail := ih (fun m hm => hkeys m (List.mem_cons_of_mem _ hm))
        (fun m hm => hreads m (List.mem_cons_of_mem _ hm)) (n := n) (by omega)
        (hreads (escape ds, w) (List.mem_cons_of_mem _ List.mem_cons_self))
      have htext : writeMembers ((escape ds, w) :: ms) ++ r =
          ',' :: '"' :: (escape ds ++ '"' :: ':' :: (w.write ++ (writeMembers ms ++ r))) := by
        simp [writeMembers]
      rw [htext] at hhead ⊢
      rw [members_more hhead, htail]
      rfl

theorem WellFormed.reads {v : Json} (h : v.WellFormed) : v.Reads := by
  induction h with
  | null =>
    exact reads_of_succ (by decide) fun n r _ _ => by simp [write, value, skipBlanks, isBlank]
  | bool b =>
    cases b <;>
      exact reads_of_succ (by decide) fun n r _ _ => by simp [write, value, skipBlanks, isBlank]
  | number hl => exact reads_number hl
  | string cs => exact reads_string cs
  | @array vs hvs ih =>
    cases vs with
    | nil =>
      exact reads_of_succ (by decide) fun n r _ _ => by simp [write, value, skipBlanks, isBlank]
    | cons v vs =>
      refine reads_of_succ (Nat.succ_pos _) fun n r hn _ => ?_
      obtain ⟨c, cs, hhead, hblank, hclose⟩ := (hvs v List.mem_cons_self).exists_cons
      have helements := elements_write (r := r) ih (Nat.le_of_succ_le_succ hn)
      have htext : (Json.array (v :: vs)).write ++ r =
          '[' :: (v.write ++ (writeElements vs ++ r)) := by
        simp [write]
      rw [hhead, List.cons_append] at helements
      rw [htext, hhead, List.cons_append, value, skipBlanks_cons (by decide)]
      simp only [skipBlanks_cons hblank]
      split
      next heq => exact absurd (List.cons.inj heq).1 hclose
      next => rw [helements]; rfl
  | @object ms hkeys hms ih =>
    cases ms with
    | nil =>
      exact reads_of_succ (by decide) fun n r _ _ => by simp [write, value, skipBlanks, isBlank]
    | cons m ms =>
      obtain ⟨k, v⟩ := m
      obtain ⟨cs, rfl⟩ : ∃ cs, k = escape cs := hkeys (k, v) List.mem_cons_self
      refine reads_of_succ (Nat.succ_pos _) fun n r hn _ => ?_
      have hlength : (v.write ++ writeMembers ms).length < n := by
        simp only [write, List.length_append, List.length_cons] at hn ⊢
        omega
      have hmembers := members_write (r := r) (fun m hm => hkeys m (List.mem_cons_of_mem _ hm)) ih
        hlength
      have htext : (Json.object ((escape cs, v) :: ms)).write ++ r = '\x7b' :: '"' ::
          (escape cs ++ '"' :: ':' :: (v.write ++ (writeMembers ms ++ r))) := by
        simp [write]
      rw [htext, value, skipBlanks_cons (by decide)]
      simp only [skipBlanks_cons (show isBlank '"' = false by decide)]
      change (members n _).map _ = _
      rw [hmembers]
      rfl

theorem read_write {v : Json} (h : v.WellFormed) : read v.write = some v := by
  have hread := h.reads (2 * v.write.length + 2) [] (by omega) nofun
  rw [List.append_nil] at hread
  rw [read, hread]
  rfl

end Json

end Rearrange

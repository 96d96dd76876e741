import Mathlib
import Rearrange.Expr.Set
import Rearrange.Proofs.NumberLexemes
import Rearrange.Proofs.QueueRuns

namespace Rearrange

/-- A value that is fed to a hasher: which constructor comes, the bits of a constant, or a name. -/
inductive HashWrite where
  | variant (index : Nat)
  | bits (b : UInt64)
  | text (s : String)
deriving DecidableEq

def lowFirst : (k : Nat) → Nat → List UInt8
  | 0, _ => []
  | k + 1, n => .ofNat n :: lowFirst k (n / 256)

/-- What a hasher makes of a value: words of eight bytes, or the encoding of a text and a byte that
no encoding contains. -/
def HashWrite.bytes : HashWrite → List UInt8
  | variant i => lowFirst 8 i
  | bits b => lowFirst 8 b.toNat
  | text s => s.toList.flatMap String.utf8EncodeChar ++ [255]

namespace Expr

def hashed : Expr → List HashWrite
  | const c => [.variant 0, .bits (Number.canonicalBits c)]
  | var n => [.variant 1, .text n]
  | neg e => .variant 2 :: e.hashed
  | bin op l r => .variant 3 :: .variant op.ctorIdx :: (l.hashed ++ r.hashed)

def hashedBytes (e : Expr) : List UInt8 := e.hashed.flatMap HashWrite.bytes

end Expr

namespace Job

def hashed (j : Job) : List HashWrite := j.lhs.hashed ++ j.rhs.hashed

def hashedBytes (j : Job) : List UInt8 := j.hashed.flatMap HashWrite.bytes

end Job

theorem lowFirst_append_inj {k m n : Nat} {xs ys : List UInt8} (hm : m < 256 ^ k)
    (hn : n < 256 ^ k) (h : lowFirst k m ++ xs = lowFirst k n ++ ys) : m = n ∧ xs = ys := by
  induction k generalizing m n with
  | zero => exact ⟨by omega, h⟩
  | succ k ih =>
    obtain ⟨hbyte, hrest⟩ := List.cons.inj h
    have hlow : m % 256 = n % 256 := by
      have := congrArg UInt8.toNat hbyte
      rwa [UInt8.toNat_ofNat', UInt8.toNat_ofNat'] at this
    obtain ⟨hhigh, hxs⟩ := ih (by omega) (by omega) hrest
    exact ⟨by omega, hxs⟩

theorem ne_of_mem_utf8EncodeChar {c : Char} {b : UInt8} (h : b ∈ String.utf8EncodeChar c) :
    b ≠ 255 := by
  have hbytes : ∀ b ∈ String.utf8EncodeChar c, b.toNat ≠ 255 := by
    unfold String.utf8EncodeChar
    simp only
    split_ifs <;>
      (simp only [List.mem_cons, List.not_mem_nil, or_false, forall_eq_or_imp, forall_eq,
        UInt8.toNat_ofNat']; omega)
  rintro rfl
  exact hbytes 255 h rfl

theorem flatMap_utf8EncodeChar_inj {s t : String}
    (h : s.toList.flatMap String.utf8EncodeChar = t.toList.flatMap String.utf8EncodeChar) :
    s = t := by
  have hencode : s.toList.utf8Encode = t.toList.utf8Encode := congrArg List.toByteArray h
  rw [← String.toByteArray_ofList, ← String.toByteArray_ofList, String.toByteArray_inj,
    String.ofList_toList, String.ofList_toList] at hencode
  exact hencode

theorem text_append_inj {s t : String} {xs ys : List UInt8}
    (h : (HashWrite.text s).bytes ++ xs = (HashWrite.text t).bytes ++ ys) : s = t ∧ xs = ys := by
  have hcut (u : String) (us : List UInt8) :
      ((HashWrite.text u).bytes ++ us).takeWhile (· != 255) =
          u.toList.flatMap String.utf8EncodeChar ∧
        ((HashWrite.text u).bytes ++ us).dropWhile (· != 255) = 255 :: us := by
    rw [HashWrite.bytes, List.append_assoc, List.singleton_append]
    refine Lexer.takeWhile_append_boundary (fun b hb => ?_) fun b hb => ?_
    · obtain ⟨c, -, hc⟩ := List.mem_flatMap.mp hb
      exact bne_iff_ne.mpr (ne_of_mem_utf8EncodeChar hc)
    · cases hb
      rfl
  obtain ⟨htake, hdrop⟩ := hcut s xs
  rw [h] at htake hdrop
  refine ⟨flatMap_utf8EncodeChar_inj (htake.symm.trans (hcut t ys).1), ?_⟩
  exact (List.cons.inj (hdrop.symm.trans (hcut t ys).2)).2

def hashCode : ExprCode HashWrite where
  variant i := [.variant i]
  bits b := [.bits b]
  text s := [.text s]
  variant_free h := (List.cons.inj h).imp_left fun hi => Fin.ext (HashWrite.variant.inj hi)
  bits_free h := (List.cons.inj h).imp_left HashWrite.bits.inj
  text_free h := (List.cons.inj h).imp_left HashWrite.text.inj

def hashByteCode : ExprCode UInt8 where
  variant i := (HashWrite.variant i).bytes
  bits b := (HashWrite.bits b).bytes
  text s := (HashWrite.text s).bytes
  variant_free {i j _ _} h :=
    (lowFirst_append_inj (by omega) (by omega) h).imp_left Fin.ext
  bits_free h :=
    (lowFirst_append_inj (UInt64.toNat_lt _) (UInt64.toNat_lt _) h).imp_left UInt64.toNat_inj.mp
  text_free := text_append_inj

namespace Expr

theorem hashed_eq_encode (e : Expr) : e.hashed = e.encode hashCode := by
  induction e with
  | const | var => rfl
  | neg e ih => rw [hashed, ih]; rfl
  | bin op l r ihl ihr => rw [hashed, ihl, ihr]; rfl

theorem hashedBytes_eq_encode (e : Expr) : e.hashedBytes = e.encode hashByteCode := by
  unfold hashedBytes
  induction e with
  | const | var => simp [hashed, encode, hashByteCode]
  | neg e ih => simp [hashed, encode, hashByteCode, ih]
  | bin op l r ihl ihr => simp [hashed, encode, hashByteCode, BinOp.variant, ihl, ihr]

theorem hashed_eq_iff {a b : Expr} : a.hashed = b.hashed ↔ (a == b) = true := by
  rw [hashed_eq_encode, hashed_eq_encode, encode_eq_iff]

theorem hashedBytes_eq_iff {a b : Expr} : a.hashedBytes = b.hashedBytes ↔ (a == b) = true := by
  rw [hashedBytes_eq_encode, hashedBytes_eq_encode, encode_eq_iff]

instance : EquivBEq Expr where
  rfl := equal_refl _
  symm := equal_symm
  trans := equal_trans

end Expr

namespace Job

theorem hashedBytes_eq_append (j : Job) :
    j.hashedBytes = j.lhs.hashedBytes ++ j.rhs.hashedBytes :=
  List.flatMap_append

theorem hashed_eq_iff {j k : Job} : j.hashed = k.hashed ↔ (j == k) = true := by
  simp only [beq_iff, hashed, Expr.hashed_eq_encode, Expr.encode_append_eq_iff]

theorem hashedBytes_eq_iff {j k : Job} : j.hashedBytes = k.hashedBytes ↔ (j == k) = true := by
  simp only [beq_iff, hashedBytes_eq_append, Expr.hashedBytes_eq_encode,
    Expr.encode_append_eq_iff]

instance : EquivBEq Job where
  rfl := beq_refl _
  symm := beq_symm
  trans hjk hkl := key_eq_iff.mp ((key_eq_iff.mpr hjk).trans (key_eq_iff.mpr hkl))

end Job

section

variable {α : Type} [BEq α]

/-- The table that a hasher makes of some values. Each value is fed to it, and what comes out tells
where the value is put. -/
def hashTable (feed : α → List HashWrite) (hash : List HashWrite → UInt64) (as : List α) :
    @Std.HashSet α _ ⟨fun a => hash (feed a)⟩ :=
  letI : Hashable α := ⟨fun a => hash (feed a)⟩
  Std.HashSet.ofList as

/-- Whatever the hasher does, each value is found through every equal one, and no two members are
equal. -/
def HoldsOnce (feed : α → List HashWrite) : Prop :=
  ∀ (hash : List HashWrite → UInt64) (as : List α),
    (∀ a, (hashTable feed hash as).contains a = as.any (· == a)) ∧
      (hashTable feed hash as).toList.Pairwise fun a b => (a == b) = false

theorem holdsOnce [EquivBEq α] {feed : α → List HashWrite}
    (h : ∀ a b, (a == b) = true → feed a = feed b) : HoldsOnce feed := by
  intro hash as
  let _ : Hashable α := ⟨fun a => hash (feed a)⟩
  have : LawfulHashable α := ⟨fun a b hab => congrArg hash (h a b hab)⟩
  refine ⟨fun a => ?_, Std.HashSet.distinct_toList⟩
  rw [hashTable, Std.HashSet.contains_ofList, List.contains_eq_any_beq]
  simp only [BEq.comm]

end

namespace ExprSet

theorem contains_insert (s : ExprSet) (e m : Expr) :
    (s.insert e).2.contains m = (e == m || s.contains m) := by
  have hkey : (compare e.key m.key == .eq) = (e == m) := by
    rw [Bool.eq_iff_iff, beq_iff_eq, Std.LawfulEqCmp.compare_eq_iff_eq, Expr.key_eq_iff]
  rw [insert, contains, Std.TreeSet.contains_insert, hkey]
  rfl

theorem insertAll_concat (es : List Expr) (e : Expr) :
    insertAll (es ++ [e]) =
      (((insertAll es).1.insert e).2, (insertAll es).2 ++ [!(insertAll es).1.contains e]) := by
  rw [insertAll, List.foldl_append]
  rfl

theorem contains_insertAll (es : List Expr) (e : Expr) :
    (insertAll es).1.contains e = es.any (· == e) := by
  induction es using List.reverseRecOn with
  | nil => rfl
  | append_singleton es m ih =>
    rw [insertAll_concat, contains_insert, ih, List.any_append, Bool.or_comm]
    simp

theorem insertAll_fresh (es : List Expr) :
    (insertAll es).2 = es.mapIdx fun i e => !(es.take i).any (· == e) := by
  induction es using List.reverseRecOn with
  | nil => rfl
  | append_singleton es m ih =>
    rw [insertAll_concat, List.mapIdx_concat, contains_insertAll, ih, List.take_left' rfl]
    refine congrArg (· ++ _) (List.mapIdx_eq_mapIdx_iff.mpr fun i hi => ?_)
    rw [List.take_append_of_le_length (Nat.le_of_lt hi)]

theorem size_insertAll (es : List Expr) : (insertAll es).1.size = (insertAll es).2.count true := by
  induction es using List.reverseRecOn with
  | nil => rfl
  | append_singleton es m ih =>
    have hsize : ((insertAll es).1.insert m).2.size =
        if (insertAll es).1.contains m then (insertAll es).1.size else (insertAll es).1.size + 1 :=
      Std.TreeSet.size_insert
    rw [insertAll_concat, List.count_append, ← ih, hsize]
    cases (insertAll es).1.contains m <;> rfl

end ExprSet

theorem JobQueue.contains_seen (q : JobQueue) (j : Job) :
    q.seen.contains j.key = q.jobs.any (· == j) := by
  rw [Bool.eq_iff_iff, Std.TreeSet.contains_iff_mem, q.mem_seen, List.any_eq_true]
  simp only [Job.key_eq_iff, jobs, List.mem_map, Array.mem_toList_iff]
  constructor
  · rintro ⟨a, ha, hj⟩
    exact ⟨a.job, ⟨a, ha, rfl⟩, hj⟩
  · rintro ⟨k, ⟨a, ha, rfl⟩, hj⟩
    exact ⟨a, ha, hj⟩

theorem JobQueue.Distinct.pairwise {q : JobQueue} (h : q.Distinct) :
    q.jobs.Pairwise fun j k => (j == k) = false := by
  rw [List.pairwise_iff_getElem]
  intro i k hi hk hlt
  have hjob {n : Nat} (hn : n < q.jobs.length) : q.job? n = some q.jobs[n] := by
    rw [job?_eq, List.getElem?_eq_getElem hn]
  exact (h.job? (Nat.ne_of_lt hlt) (hjob hi) (hjob hk)).1

/-- Equality of expressions is an equivalence, and equal expressions are those that feed the same
values to a hasher, and the same bytes. So no set holds two of them or misses one. -/
theorem hashed_iff_equal :
    (Equivalence fun a b : Expr => (a == b) = true) ∧
      (∀ a b : Expr, (a.hashed = b.hashed ↔ (a == b) = true) ∧
        (a.hashedBytes = b.hashedBytes ↔ (a == b) = true)) ∧
      (∀ j k : Job, (j.hashed = k.hashed ↔ (j == k) = true) ∧
        (j.hashedBytes = k.hashedBytes ↔ (j == k) = true)) ∧
      HoldsOnce Expr.hashed ∧ HoldsOnce Job.hashed ∧
      (∀ es : List Expr, (∀ e, (ExprSet.insertAll es).1.contains e = es.any (· == e)) ∧
        (ExprSet.insertAll es).2 = (es.mapIdx fun i e => !(es.take i).any (· == e)) ∧
        (ExprSet.insertAll es).1.size = (ExprSet.insertAll es).2.count true) ∧
      ∀ calls, (∀ j, (JobQueue.empty.run calls).2.seen.contains j.key =
          (JobQueue.empty.run calls).2.jobs.any (· == j)) ∧
        (JobQueue.empty.run calls).2.jobs.Pairwise fun j k => (j == k) = false := by
  refine ⟨⟨Expr.equal_refl, Expr.equal_symm, Expr.equal_trans⟩,
    fun _ _ => ⟨Expr.hashed_eq_iff, Expr.hashedBytes_eq_iff⟩,
    fun _ _ => ⟨Job.hashed_eq_iff, Job.hashedBytes_eq_iff⟩,
    holdsOnce fun _ _ => Expr.hashed_eq_iff.mpr, holdsOnce fun _ _ => Job.hashed_eq_iff.mpr,
    fun es => ⟨ExprSet.contains_insertAll es, ExprSet.insertAll_fresh es,
      ExprSet.size_insertAll es⟩, fun calls => ?_⟩
  exact ⟨JobQueue.contains_seen _, (JobQueue.follows_empty.run calls).distinct.pairwise⟩

end Rearrange

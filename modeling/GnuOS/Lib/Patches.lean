import GnuOS.Lib.Memory
import Mathlib.Data.List.Pairwise

/-!
# Patches of a memory

Words of eight bytes that are stored one after another.  If no two of them overlap, every word is
found in the memory in the end, nothing else has changed, and the order of the stores does not
matter.
-/

namespace GnuOS.Lib.Memory

/-- The byte at `a` belongs to the word at `target`. -/
def InWord (target a : BitVec 64) : Prop := (a - target).toNat < 8

instance (target a : BitVec 64) : Decidable (InWord target a) := Nat.decLt _ _

/-- The words have no byte in common. -/
def WordsApart (t t' : BitVec 64) : Prop := ∀ a, InWord t a → ¬ InWord t' a

theorem WordsApart.symm {t t' : BitVec 64} (h : WordsApart t t') : WordsApart t' t :=
  fun a ha ha' => h a ha' ha

instance : Std.Symm fun w w' : BitVec 64 × BitVec 64 => WordsApart w.1 w'.1 :=
  ⟨fun _ _ h => h.symm⟩

/-- Store the words, given with their addresses, in the order of the list. -/
def patch (mem : Memory) (words : List (BitVec 64 × BitVec 64)) : Memory :=
  words.foldl (fun mem w => mem.store w.1 8 w.2.toNat) mem

/-- Byte `i` of a word. -/
def byteOf (v : BitVec 64) (i : ℕ) : BitVec 8 := BitVec.ofNat 8 (v.toNat / 256 ^ i)

/-- The memory that holds the words from the address `base` on and is zero elsewhere. -/
def ofWords (base : BitVec 64) (words : List (BitVec 64)) : Memory := fun a =>
  byteOf (words.getD ((a - base).toNat / 8) 0#64) ((a - base).toNat % 8)

/-- Store the words from the address `base` on. -/
def storeWords (mem : Memory) (base : BitVec 64) (words : List (BitVec 64)) : Memory := fun a =>
  if (a - base).toNat < 8 * words.length then ofWords base words a else mem a

section

variable {mem : Memory} {t t' a : BitVec 64} {words words' : List (BitVec 64 × BitVec 64)}

theorem store_word (mem : Memory) (t v a : BitVec 64) :
    mem.store t 8 v.toNat a = if InWord t a then byteOf v (a - t).toNat else mem a := by
  have hat : t + BitVec.ofNat 64 (a - t).toNat = a := by
    rw [BitVec.ofNat_toNat, BitVec.setWidth_eq, BitVec.add_comm, BitVec.sub_add_cancel]
  have ht : t + BitVec.ofNat 64 0 = t := by simp
  have happly :
      mem.store (t + BitVec.ofNat 64 0) 8 v.toNat (t + BitVec.ofNat 64 (a - t).toNat) = _ :=
    store_apply (by decide) (a - t).isLt
  rw [hat, ht] at happly
  rw [happly]
  by_cases hin : InWord t a
  · have hlt : (a - t).toNat < 8 := hin
    rw [if_pos (by omega), if_pos hin]
    rfl
  · have hge : ¬ (a - t).toNat < 8 := hin
    rw [if_neg (by omega), if_neg hin]

/-- Words that are apart can be stored in either order. -/
theorem store_word_comm (h : WordsApart t t') (mem : Memory) (v v' : BitVec 64) :
    (mem.store t 8 v.toNat).store t' 8 v'.toNat =
      (mem.store t' 8 v'.toNat).store t 8 v.toNat := by
  funext a
  rw [store_word, store_word, store_word, store_word]
  by_cases ht : InWord t a
  · have ht' : ¬ InWord t' a := h a ht
    simp only [ht, ht', if_true, if_false]
  · simp only [ht, if_false]

/-- The other bytes stay. -/
theorem patch_other (h : ∀ w ∈ words, ¬ InWord w.1 a) : mem.patch words a = mem a := by
  induction words generalizing mem with
  | nil => rfl
  | cons w words ih =>
    rw [List.forall_mem_cons] at h
    show (mem.store w.1 8 w.2.toNat).patch words a = mem a
    rw [ih h.2, store_word, if_neg h.1]

/-- Each word is found in the end. -/
theorem patch_word (hapart : words.Pairwise fun w w' => WordsApart w.1 w'.1)
    {w : BitVec 64 × BitVec 64} (hw : w ∈ words) (ha : InWord w.1 a) :
    mem.patch words a = byteOf w.2 (a - w.1).toNat := by
  induction words generalizing mem with
  | nil => exact absurd hw List.not_mem_nil
  | cons w' words ih =>
    rw [List.pairwise_cons] at hapart
    show (mem.store w'.1 8 w'.2.toNat).patch words a = _
    rcases List.mem_cons.mp hw with rfl | hw
    · -- the later words do not touch this one
      have hother : ∀ w' ∈ words, ¬ InWord w'.1 a := fun w' hw' => hapart.1 w' hw' a ha
      rw [patch_other hother, store_word, if_pos ha]
    · exact ih hapart.2 hw

theorem toNat_offset (t : BitVec 64) {i : ℕ} (hi : i < 2 ^ 64) :
    (t + BitVec.ofNat 64 i - t).toNat = i := by
  rw [BitVec.add_comm, BitVec.add_sub_cancel, BitVec.toNat_ofNat, Nat.mod_eq_of_lt hi]

theorem inWord_offset (t : BitVec 64) {i : ℕ} (hi : i < 8) :
    InWord t (t + BitVec.ofNat 64 i) := by
  rw [InWord, toNat_offset t (by omega)]
  exact hi

/-- A word is loaded by its bytes. -/
theorem load_of_bytes {v : BitVec 64} (h : ∀ i < 8, mem (t + BitVec.ofNat 64 i) = byteOf v i) :
    mem.load t 8 = v.toNat := by
  have hzero : t + BitVec.ofNat 64 0 = t := by simp
  have hbytes : ∀ i, i < 8 → mem (t + BitVec.ofNat 64 (0 + i)) =
      mem.store t 8 v.toNat (t + BitVec.ofNat 64 (0 + i)) := by
    intro i hi
    rw [Nat.zero_add, h i hi, store_word, if_pos (inWord_offset t hi), toNat_offset t (by omega)]
  have hload : mem.load (t + BitVec.ofNat 64 0) 8 = _ := load_congr hbytes
  have hsame : (mem.store (t + BitVec.ofNat 64 0) 8 v.toNat).load (t + BitVec.ofNat 64 0) 8 =
      v.toNat % 256 ^ 8 := load_store_same (by decide)
  rw [hzero] at hload hsame
  rw [hload, hsame]
  exact Nat.mod_eq_of_lt v.isLt

/-- So a stored word is loaded. -/
theorem load_patch (mem : Memory) (hapart : words.Pairwise fun w w' => WordsApart w.1 w'.1)
    {w : BitVec 64 × BitVec 64} (hw : w ∈ words) : (mem.patch words).load w.1 8 = w.2.toNat := by
  apply load_of_bytes
  intro i hi
  rw [patch_word hapart hw (inWord_offset w.1 hi), toNat_offset w.1 (by omega)]

theorem load_storeWords (mem : Memory) (base : BitVec 64) {words : List (BitVec 64)}
    (hlength : 8 * words.length ≤ 2 ^ 64) {i : ℕ} {w : BitVec 64} (hw : words[i]? = some w) :
    (mem.storeWords base words).load (base + BitVec.ofNat 64 (8 * i)) 8 = w.toNat := by
  have hi : i < words.length := (List.getElem?_eq_some_iff.mp hw).1
  apply load_of_bytes
  intro j hj
  have hoffset : (base + BitVec.ofNat 64 (8 * i) + BitVec.ofNat 64 j - base).toNat =
      8 * i + j := by
    rw [addr_add]
    exact toNat_offset base (by omega)
  rw [storeWords, ofWords, hoffset, if_pos (by omega), show (8 * i + j) / 8 = i by omega,
    show (8 * i + j) % 8 = j by omega, List.getD_eq_getElem?_getD, hw, Option.getD_some]

/-- A patched byte depends on the same byte of the memory only. -/
theorem patch_congr {mem' : Memory} (words : List (BitVec 64 × BitVec 64)) (h : mem' a = mem a) :
    mem'.patch words a = mem.patch words a := by
  induction words generalizing mem mem' with
  | nil => exact h
  | cons w words ih =>
    have hstore : mem'.store w.1 8 w.2.toNat a = mem.store w.1 8 w.2.toNat a := by
      rw [store_word, store_word, h]
    exact ih hstore

/-- To store the words again changes nothing. -/
theorem patch_patch (mem : Memory) (hapart : words.Pairwise fun w w' => WordsApart w.1 w'.1) :
    (mem.patch words).patch words = mem.patch words := by
  funext a
  by_cases hin : ∃ w ∈ words, InWord w.1 a
  · obtain ⟨w, hw, ha⟩ := hin
    rw [patch_word hapart hw ha, patch_word hapart hw ha]
  · exact patch_other fun w hw ha => hin ⟨w, hw, ha⟩

/-- The order does not matter. -/
theorem patch_perm (hapart : words.Pairwise fun w w' => WordsApart w.1 w'.1)
    (hperm : words.Perm words') : mem.patch words = mem.patch words' := by
  apply hperm.foldl_eq'
  intro w hw w' hw' mem
  by_cases heq : w = w'
  · rw [heq]
  · exact store_word_comm (hapart.forall hw hw' heq) mem w.2 w'.2

end

end GnuOS.Lib.Memory

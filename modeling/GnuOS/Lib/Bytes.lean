import GnuOS.Lib.Memory

/-!
# Lists of bytes in memory

A list of bytes, the little-endian numbers in it, and what it means that it stands in memory at an
address.  A word of the memory inside of the list is the number at that position.
-/

namespace GnuOS.Lib

open List

/-- The number with these bytes, least significant first. -/
def littleEndian : List (BitVec 8) → ℕ
  | [] => 0
  | c :: bytes => c.toNat + 256 * littleEndian bytes

/-- The number in the `n` bytes from position `k` on. -/
def fieldOf (bytes : List (BitVec 8)) (k n : ℕ) : ℕ := littleEndian ((bytes.drop k).take n)

theorem drop_eq_cons {bytes : List (BitVec 8)} {k : ℕ} (hk : k < bytes.length) :
    ∃ c, bytes.drop k = c :: bytes.drop (k + 1) ∧ fieldOf bytes k 1 = c.toNat := by
  have hdrop := drop_eq_getElem_cons hk
  refine ⟨bytes[k], hdrop, ?_⟩
  rw [fieldOf, hdrop, take_succ_cons, take_zero]
  rfl

theorem littleEndian_lt (bytes : List (BitVec 8)) : littleEndian bytes < 256 ^ bytes.length := by
  induction bytes with
  | nil => exact Nat.one_pos
  | cons c bytes ih =>
    have hc := c.isLt
    rw [littleEndian, length_cons, Nat.pow_succ]
    omega

theorem fieldOf_lt (bytes : List (BitVec 8)) (k n : ℕ) : fieldOf bytes k n < 256 ^ n :=
  Nat.lt_of_lt_of_le (littleEndian_lt _)
    (Nat.pow_le_pow_right (by decide) (length_take_le n _))

namespace Memory

variable {mem : Memory} {a : BitVec 64} {bytes : List (BitVec 8)} {c : BitVec 8} {k n : ℕ}

/-- The bytes are in memory from `a` on. -/
def BytesAt (mem : Memory) (a : BitVec 64) (bytes : List (BitVec 8)) : Prop :=
  ∀ i c, bytes[i]? = some c → mem (a + BitVec.ofNat 64 i) = c

theorem bytesAt_iff : mem.BytesAt a bytes ↔
    ∀ i < bytes.length, some (mem (a + BitVec.ofNat 64 i)) = bytes[i]? := by
  constructor
  · intro h i hi
    rw [getElem?_eq_getElem hi, h i _ (getElem?_eq_getElem hi)]
  · intro h i c hc
    have hi : i < bytes.length := (List.getElem?_eq_some_iff.mp hc).1
    exact Option.some_inj.mp ((h i hi).trans hc)

instance : Decidable (mem.BytesAt a bytes) := decidable_of_iff _ bytesAt_iff.symm

theorem BytesAt.head (h : mem.BytesAt a (c :: bytes)) : mem a = c := by
  have hfirst := h 0 c rfl
  rwa [BitVec.add_zero] at hfirst

theorem BytesAt.tail (h : mem.BytesAt a (c :: bytes)) : mem.BytesAt (a + 1#64) bytes := by
  intro i d hd
  rw [show a + 1#64 + BitVec.ofNat 64 i = a + BitVec.ofNat 64 (1 + i) from addr_add a 1 i,
    Nat.add_comm]
  exact h (i + 1) d hd

theorem BytesAt.drop (h : mem.BytesAt a bytes) (k : ℕ) :
    mem.BytesAt (a + BitVec.ofNat 64 k) (bytes.drop k) := by
  intro i d hd
  rw [addr_add]
  exact h (k + i) d (by rwa [getElem?_drop] at hd)

theorem BytesAt.load_take (h : mem.BytesAt a bytes) (hn : n ≤ bytes.length) :
    mem.load a n = littleEndian (bytes.take n) := by
  induction n generalizing a bytes with
  | zero => rfl
  | succ n ih =>
    cases bytes with
    | nil => exact absurd hn (Nat.not_succ_le_zero n)
    | cons c bytes =>
      rw [load, h.head, ih h.tail (Nat.le_of_succ_le_succ hn), take_succ_cons, littleEndian]

/-- A word inside of the list. -/
theorem BytesAt.load (h : mem.BytesAt a bytes) (hk : k + n ≤ bytes.length) :
    mem.load (a + BitVec.ofNat 64 k) n = fieldOf bytes k n :=
  (h.drop k).load_take (by rw [length_drop]; omega)

end Memory

end GnuOS.Lib

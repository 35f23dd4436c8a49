import GnuOS.Lib.Patches
import Mathlib.Tactic.Ring

/-!
# Words on a stack

A stack of 64-bit words that grows down from an address `top`.  Word `k` is the one that is pushed
when `k` words are on the stack.  The words do not overlap, so that storing one of them leaves the
others as they are.
-/

namespace GnuOS.Lib.Memory

open BitVec

/-- The stack pointer when `k` words are on the stack. -/
def stackPtr (top : BitVec 64) (k : ℕ) : BitVec 64 := top - BitVec.ofNat 64 (8 * k)

/-- Word `k` of the stack. -/
def stackWord (mem : Memory) (top : BitVec 64) (k : ℕ) : BitVec 64 :=
  BitVec.ofNat 64 (mem.load (stackPtr top (k + 1)) 8)

/-- Push the words, the first of them as word `k`. -/
def pushWords (mem : Memory) (top : BitVec 64) : ℕ → List (BitVec 64) → Memory
  | _, [] => mem
  | k, v :: vs => pushWords (mem.store (stackPtr top (k + 1)) 8 v.toNat) top (k + 1) vs

section
variable {mem : Memory} {top : BitVec 64} {j k : ℕ}

theorem stackPtr_zero (top : BitVec 64) : stackPtr top 0 = top := BitVec.sub_zero top

theorem stackPtr_sub (top : BitVec 64) (k n : ℕ) :
    stackPtr top k - BitVec.ofNat 64 (8 * n) = stackPtr top (k + n) := by
  rw [stackPtr, stackPtr, Nat.mul_add, ofNat_add, BitVec.sub_sub]

theorem stackPtr_add (top : BitVec 64) (k n : ℕ) :
    stackPtr top (k + n) + BitVec.ofNat 64 (8 * n) = stackPtr top k := by
  rw [← stackPtr_sub, BitVec.sub_add_cancel]

theorem stackPtr_stackPtr (top : BitVec 64) (n k : ℕ) :
    stackPtr (stackPtr top n) k = stackPtr top (n + k) :=
  stackPtr_sub top n k

/-- A stack whose top is the pointer of another one. -/
theorem pushWords_stackPtr (mem : Memory) (top : BitVec 64) (n k : ℕ) (vs : List (BitVec 64)) :
    pushWords mem (stackPtr top n) k vs = pushWords mem top (n + k) vs := by
  induction vs generalizing mem k with
  | nil => rfl
  | cons v vs ih =>
    rw [pushWords, pushWords, ih, stackPtr_stackPtr]
    rfl

theorem stackPtr_sub_stackPtr (hk : 8 * k < 2 ^ 64) (hjk : j ≤ k) :
    (stackPtr top j - stackPtr top k).toNat = 8 * (k - j) := by
  have hle : k = j + (k - j) := by omega
  have hadd := stackPtr_add top j (k - j)
  rw [← hle] at hadd
  rw [← hadd, add_comm, add_sub_cancel, toNat_ofNat]
  exact Nat.mod_eq_of_lt (by omega)

/-- Words at a distance of at least 8 bytes in both directions are apart. -/
theorem wordsApart_of_distance {t t' : BitVec 64} (h : 8 ≤ (t - t').toNat)
    (h' : (t - t').toNat ≤ 2 ^ 64 - 8) : WordsApart t t' := by
  intro a ha ha'
  have hsum : a - t' = (a - t) + (t - t') := by ring
  unfold InWord at ha ha'
  rw [hsum, toNat_add] at ha'
  omega

theorem stackWords_apart (hk : 8 * k + 8 < 2 ^ 64) (hjk : j < k) :
    WordsApart (stackPtr top (j + 1)) (stackPtr top (k + 1)) := by
  have hdist : (stackPtr top (j + 1) - stackPtr top (k + 1)).toNat = 8 * (k + 1 - (j + 1)) :=
    stackPtr_sub_stackPtr (by omega) (by omega)
  apply wordsApart_of_distance
  · omega
  · omega

theorem stackWord_store_self (mem : Memory) (top v : BitVec 64) (k : ℕ) :
    stackWord (mem.store (stackPtr top (k + 1)) 8 v.toNat) top k = v := by
  have hzero : stackPtr top (k + 1) + BitVec.ofNat 64 0 = stackPtr top (k + 1) := by simp
  have hload : (mem.store (stackPtr top (k + 1) + BitVec.ofNat 64 0) 8 v.toNat).load
      (stackPtr top (k + 1) + BitVec.ofNat 64 0) 8 = v.toNat % 256 ^ 8 :=
    load_store_same (by decide)
  rw [hzero] at hload
  rw [stackWord, hload]
  apply eq_of_toNat_eq
  rw [toNat_ofNat, Nat.mod_mod_of_dvd _ (by decide)]
  exact Nat.mod_eq_of_lt v.isLt

theorem stackWord_store_of_ne (v : BitVec 64) (hj : 8 * j + 8 < 2 ^ 64) (hk : 8 * k + 8 < 2 ^ 64)
    (hne : j ≠ k) :
    stackWord (mem.store (stackPtr top (k + 1)) 8 v.toNat) top j = stackWord mem top j := by
  have hapart : WordsApart (stackPtr top (j + 1)) (stackPtr top (k + 1)) := by
    rcases Nat.lt_or_gt_of_ne hne with hlt | hlt
    · exact stackWords_apart hk hlt
    · exact (stackWords_apart hj hlt).symm
  have hbytes : ∀ i, i < 8 →
      mem.store (stackPtr top (k + 1)) 8 v.toNat (stackPtr top (j + 1) + BitVec.ofNat 64 (0 + i)) =
        mem (stackPtr top (j + 1) + BitVec.ofNat 64 (0 + i)) := by
    intro i hi
    rw [store_word, if_neg]
    rw [Nat.zero_add]
    exact hapart _ (inWord_offset _ hi)
  have hzero : stackPtr top (j + 1) + BitVec.ofNat 64 0 = stackPtr top (j + 1) := by simp
  have hload := load_congr hbytes
  rw [hzero] at hload
  rw [stackWord, stackWord, hload]

/-- Pushing does not change the words that are on the stack already. -/
theorem stackWord_pushWords_of_lt {vs : List (BitVec 64)} (hlen : 8 * (k + vs.length) < 2 ^ 64)
    (hj : j < k) : stackWord (pushWords mem top k vs) top j = stackWord mem top j := by
  induction vs generalizing mem k with
  | nil => rfl
  | cons v vs ih =>
    rw [List.length_cons] at hlen
    rw [pushWords, ih (by omega) (by omega),
      stackWord_store_of_ne v (by omega) (by omega) (by omega)]

/-- The words that were pushed are on the stack. -/
theorem stackWord_pushWords {vs : List (BitVec 64)} (hlen : 8 * (k + vs.length) < 2 ^ 64) {i : ℕ}
    {v : BitVec 64} (hi : vs[i]? = some v) :
    stackWord (pushWords mem top k vs) top (k + i) = v := by
  induction vs generalizing mem k i with
  | nil => exact absurd hi (by simp)
  | cons u vs ih =>
    rw [List.length_cons] at hlen
    cases i with
    | zero =>
      rw [List.getElem?_cons_zero, Option.some.injEq] at hi
      rw [pushWords, stackWord_pushWords_of_lt (by omega) (by omega)]
      exact (stackWord_store_self mem top u k).trans hi
    | succ i =>
      rw [List.getElem?_cons_succ] at hi
      rw [pushWords, show k + (i + 1) = k + 1 + i by omega]
      exact ih (by omega) hi

end

end GnuOS.Lib.Memory

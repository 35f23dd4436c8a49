import Mathlib.Data.BitVec
import Mathlib.Tactic.Ring

/-!
# Masks of machine words

Clearing the low bits of a word rounds it down to a multiple of a power of two.  The second half
is the algebra of words put together from disjoint fields: what a mask reads back from them.
-/

namespace GnuOS.Lib

open BitVec

variable {w : ℕ}

/-! ## Numbers as words -/

section

variable {n m : ℕ} (hn : n < 2 ^ w)

include hn

theorem ofNat_eq_iff (hm : m < 2 ^ w) : BitVec.ofNat w n = BitVec.ofNat w m ↔ n = m := by
  rw [← toNat_inj, toNat_ofNat, toNat_ofNat, Nat.mod_eq_of_lt hn,
    Nat.mod_eq_of_lt hm]

theorem ofNat_lt_iff (hm : m < 2 ^ w) : BitVec.ofNat w n < BitVec.ofNat w m ↔ n < m := by
  rw [lt_def, toNat_ofNat, toNat_ofNat, Nat.mod_eq_of_lt hn,
    Nat.mod_eq_of_lt hm]

theorem setWidth_ofNat {v : ℕ} : (BitVec.ofNat w n).setWidth v = BitVec.ofNat v n := by
  rw [← toNat_inj, toNat_setWidth, toNat_ofNat, toNat_ofNat,
    Nat.mod_eq_of_lt hn]

end

/-! ## Masks -/

/-- Bit `i` of the mask `2 ^ n - 1` is set below `n`. -/
theorem getLsbD_two_pow_sub_one (n i : ℕ) :
    (BitVec.ofNat w (2 ^ n - 1)).getLsbD i = (decide (i < w) && decide (i < n)) := by
  rw [getLsbD_ofNat, Nat.testBit_two_pow_sub_one]

/-- Clearing the low `n` bits is shifting them out and back. -/
theorem and_not_mask_eq_shift (x : BitVec w) (n : ℕ) :
    x &&& ~~~(BitVec.ofNat w (2 ^ n - 1)) = (x >>> n) <<< n := by
  apply eq_of_getLsbD_eq
  intro i hi
  rw [getLsbD_and, getLsbD_not, getLsbD_two_pow_sub_one, getLsbD_shiftLeft,
    getLsbD_ushiftRight]
  by_cases hin : i < n
  · simp [hi, hin]
  · have hni : n + (i - n) = i := by omega
    simp [hi, hin, hni]

/-- Clearing the low `n` bits rounds down to a multiple of `2 ^ n`. -/
theorem toNat_and_not_mask (x : BitVec w) (n : ℕ) :
    (x &&& ~~~(BitVec.ofNat w (2 ^ n - 1))).toNat = x.toNat / 2 ^ n * 2 ^ n := by
  rw [and_not_mask_eq_shift, toNat_shiftLeft, toNat_ushiftRight,
    Nat.shiftRight_eq_div_pow, Nat.shiftLeft_eq]
  apply Nat.mod_eq_of_lt
  exact lt_of_le_of_lt (Nat.div_mul_le_self _ _) x.isLt

/-- Adding the mask first rounds up, if the sum does not wrap. -/
theorem toNat_round_up (x : BitVec w) {n : ℕ} (hn : n ≤ w) :
    ((x + BitVec.ofNat w (2 ^ n - 1)) &&& ~~~(BitVec.ofNat w (2 ^ n - 1))).toNat =
      (x.toNat + (2 ^ n - 1)) % 2 ^ w / 2 ^ n * 2 ^ n := by
  have hlt : 2 ^ n - 1 < 2 ^ w := by
    have hpow : 2 ^ n ≤ 2 ^ w := Nat.pow_le_pow_right (by omega) hn
    have hpos : 0 < 2 ^ n := Nat.two_pow_pos n
    omega
  rw [toNat_and_not_mask, toNat_add, toNat_ofNat, Nat.mod_eq_of_lt hlt]

/-! ## Fields -/

/-- A mask of one bit reads back nothing or the bit. -/
theorem and_twoPow_cases (x : BitVec w) (i : ℕ) :
    x &&& twoPow w i = 0#w ∨ x &&& twoPow w i = twoPow w i := by
  rw [and_twoPow]
  cases x.getLsbD i
  · exact .inl rfl
  · exact .inr rfl

/-- A mask disjoint from the field `m` reads only the rest of the word. -/
theorem field_and_of_disjoint {x m g b : BitVec w} (h : m &&& b = 0#w) :
    ((x &&& m) ||| g) &&& b = g &&& b := by
  rw [and_or_distrib_right, BitVec.and_assoc, h, and_zero, zero_or]

/-- The mask of a field reads the field back when the rest of the word is disjoint from it. -/
theorem field_and_self {x m g : BitVec w} (h : g &&& m = 0#w) :
    ((x &&& m) ||| g) &&& m = x &&& m := by
  rw [and_or_distrib_right, BitVec.and_assoc, BitVec.and_self, h, or_zero]

/-- Masking with the low `n` bits takes the remainder modulo `2 ^ n`. -/
theorem toNat_and_mask (x : BitVec w) {n : ℕ} (hn : n ≤ w) :
    (x &&& BitVec.ofNat w (2 ^ n - 1)).toNat = x.toNat % 2 ^ n := by
  have hlt : 2 ^ n - 1 < 2 ^ w := by
    have hpow : 2 ^ n ≤ 2 ^ w := Nat.pow_le_pow_right (by omega) hn
    have hpos : 0 < 2 ^ n := Nat.two_pow_pos n
    omega
  rw [toNat_and, toNat_ofNat, Nat.mod_eq_of_lt hlt, Nat.and_two_pow_sub_one_eq_mod]

/-- The field of `n` bits from bit `k` on is equal in two words when those bits are. -/
theorem shift_and_mask_eq_iff {x y : BitVec w} {k n : ℕ} (hk : k + n ≤ w) :
    (x >>> k) &&& BitVec.ofNat w (2 ^ n - 1) = (y >>> k) &&& BitVec.ofNat w (2 ^ n - 1) ↔
      ∀ b, k ≤ b → b < k + n → x.getLsbD b = y.getLsbD b := by
  constructor
  · intro h b hkb hb
    have hbit := congrArg (fun z => getLsbD z (b - k)) h
    have hw : b - k < w := by omega
    have hn : b - k < n := by omega
    have hadd : k + (b - k) = b := by omega
    simpa only [getLsbD_and, getLsbD_ushiftRight, getLsbD_two_pow_sub_one, hw, hn,
      hadd, decide_true, Bool.and_true] using hbit
  · intro h
    apply eq_of_getLsbD_eq
    intro i hi
    simp only [getLsbD_and, getLsbD_ushiftRight, getLsbD_two_pow_sub_one]
    by_cases hin : i < n
    · rw [h (k + i) (by omega) (by omega)]
    · simp [hin]

/-- Shifting a field down and up again leaves it in its place. -/
theorem field_shift_back (x m : BitVec w) (n : ℕ) :
    ((x >>> n) &&& m) <<< n = x &&& (~~~(BitVec.ofNat w (2 ^ n - 1)) &&& (m <<< n)) := by
  rw [shiftLeft_and_distrib, ← and_not_mask_eq_shift, BitVec.and_assoc]

end GnuOS.Lib

import Mathlib.Data.Nat.Bitwise
import Mathlib.Tactic.Ring
import Mathlib.Tactic.Linarith

/-!
# Aligned power-of-two intervals

The arithmetic of a binary buddy system, with no allocator in sight. A *block* is a pair
`(h, k)` that stands for `[h, h + 2 ^ k)`; it is aligned when `2 ^ k ∣ h`. Aligned blocks
are nested or disjoint (`covers_nested`), the two halves of a block are each other's
buddies (`xor_two_pow_cases`), and a family of aligned blocks without a pair of buddies
consists of the maximal aligned blocks inside the set it covers
(`Coalesced.isMaximal_iff`).
-/

namespace GnuOS.Lib

/-- The page `p` lies in the block `[h, h + 2 ^ k)`. -/
def Covers (h k p : ℕ) : Prop := h ≤ p ∧ p < h + 2 ^ k

instance (h k p : ℕ) : Decidable (Covers h k p) := inferInstanceAs (Decidable (_ ∧ _))

theorem covers_start (h k : ℕ) : Covers h k h :=
  ⟨le_refl h, Nat.lt_add_of_pos_right (Nat.two_pow_pos k)⟩

theorem covers_zero_iff {h p : ℕ} : Covers h 0 p ↔ p = h := by
  unfold Covers
  rw [pow_zero]
  omega

/-- A block is the disjoint union of its two halves. -/
theorem covers_succ_iff {h k p : ℕ} :
    Covers h (k + 1) p ↔ Covers h k p ∨ Covers (h + 2 ^ k) k p := by
  unfold Covers
  rw [pow_succ]
  omega

/-- Two aligned blocks that share a page are nested, the smaller one inside. -/
theorem covers_nested {a i b j p : ℕ} (ha : 2 ^ i ∣ a) (hb : 2 ^ j ∣ b) (hij : i ≤ j)
    (hpa : Covers a i p) (hpb : Covers b j p) : b ≤ a ∧ a + 2 ^ i ≤ b + 2 ^ j := by
  obtain ⟨n, rfl⟩ := ha
  obtain ⟨m, rfl⟩ := hb
  obtain ⟨d, rfl⟩ := Nat.exists_eq_add_of_le hij
  unfold Covers at hpa hpb
  rw [pow_add] at hpb ⊢
  -- measure everything in units of the smaller size `2 ^ i`
  have hc : 0 < 2 ^ i := Nat.two_pow_pos i
  have hlow : 2 ^ d * m < n + 1 := by
    apply Nat.lt_of_mul_lt_mul_left (a := 2 ^ i)
    calc 2 ^ i * (2 ^ d * m) = 2 ^ i * 2 ^ d * m := by ring
      _ ≤ p := hpb.1
      _ < 2 ^ i * (n + 1) := by rw [Nat.mul_succ]; exact hpa.2
  have hhigh : n < 2 ^ d * m + 2 ^ d := by
    apply Nat.lt_of_mul_lt_mul_left (a := 2 ^ i)
    calc 2 ^ i * n ≤ p := hpa.1
      _ < 2 ^ i * 2 ^ d * m + 2 ^ i * 2 ^ d := hpb.2
      _ = 2 ^ i * (2 ^ d * m + 2 ^ d) := by ring
  constructor
  · calc 2 ^ i * 2 ^ d * m = 2 ^ i * (2 ^ d * m) := by ring
      _ ≤ 2 ^ i * n := Nat.mul_le_mul_left _ (by omega)
  · calc 2 ^ i * n + 2 ^ i = 2 ^ i * (n + 1) := by ring
      _ ≤ 2 ^ i * (2 ^ d * m + 2 ^ d) := Nat.mul_le_mul_left _ (by omega)
      _ = 2 ^ i * 2 ^ d * m + 2 ^ i * 2 ^ d := by ring

/-- A block strictly larger than an aligned block it meets contains that block's parent. -/
theorem covers_parent {a i b j p : ℕ} (ha : 2 ^ (i + 1) ∣ a) (hb : 2 ^ j ∣ b) (hij : i < j)
    (hpa : Covers a (i + 1) p) (hpb : Covers b j p) :
    b ≤ a ∧ a + 2 ^ (i + 1) ≤ b + 2 ^ j :=
  covers_nested ha hb hij hpa hpb

/-! ## Buddies -/

/-- Flipping bit `k` of an aligned start moves to the other half of the parent block:
upwards from the lower half, downwards from the upper one. -/
theorem xor_two_pow_cases {h k : ℕ} (hk : 2 ^ k ∣ h) :
    (2 ^ (k + 1) ∣ h ∧ h ^^^ 2 ^ k = h + 2 ^ k) ∨
      (2 ^ k ≤ h ∧ 2 ^ (k + 1) ∣ h - 2 ^ k ∧ h ^^^ 2 ^ k = h - 2 ^ k) := by
  obtain ⟨q, rfl⟩ := hk
  have hxor : 2 ^ k * q ^^^ 2 ^ k = 2 ^ k * (q ^^^ 1) := by
    have hdist := Nat.shiftLeft_xor_distrib (i := k) (a := q) (b := 1)
    simp only [Nat.shiftLeft_eq, one_mul] at hdist
    rw [Nat.mul_comm _ q, Nat.mul_comm _ (q ^^^ 1)]
    exact hdist.symm
  rw [hxor]
  rcases Nat.even_or_odd q with hq | hq
  · left
    rw [Nat.xor_one_of_even hq]
    obtain ⟨r, rfl⟩ := hq
    exact ⟨⟨r, by ring⟩, by ring⟩
  · right
    rw [Nat.xor_one_of_odd hq]
    obtain ⟨r, rfl⟩ := hq
    have hsub : 2 ^ k * (2 * r + 1) - 2 ^ k = 2 ^ k * (2 * r) := by
      rw [Nat.mul_succ]
      omega
    refine ⟨?_, ?_, ?_⟩
    · exact Nat.le_mul_of_pos_right _ (by omega)
    · rw [hsub]
      exact ⟨r, by ring⟩
    · rw [hsub]
      rfl

theorem two_pow_dvd_of_succ {h k : ℕ} (hk : 2 ^ (k + 1) ∣ h) : 2 ^ k ∣ h :=
  Dvd.dvd.trans (pow_dvd_pow 2 (Nat.le_succ k)) hk

/-- The upper half of an aligned block is aligned. -/
theorem two_pow_dvd_upper {h k : ℕ} (hk : 2 ^ (k + 1) ∣ h) : 2 ^ k ∣ h + 2 ^ k :=
  Nat.dvd_add (two_pow_dvd_of_succ hk) (dvd_refl _)

/-- From the lower half the buddy is the upper one. -/
theorem xor_two_pow_lower {h k : ℕ} (hk : 2 ^ (k + 1) ∣ h) : h ^^^ 2 ^ k = h + 2 ^ k := by
  rcases xor_two_pow_cases (two_pow_dvd_of_succ hk) with ⟨_, hx⟩ | ⟨hle, hdvd, _⟩
  · exact hx
  · -- `h` and `h - 2 ^ k` cannot both be multiples of `2 ^ (k + 1)`
    have hdiff : 2 ^ (k + 1) ∣ h - (h - 2 ^ k) := Nat.dvd_sub hk hdvd
    have hle' := Nat.le_of_dvd (by have := Nat.two_pow_pos k; omega) hdiff
    rw [pow_succ] at hle'
    have := Nat.two_pow_pos k
    omega

/-- From the upper half the buddy is the lower one. -/
theorem xor_two_pow_upper {h k : ℕ} (hk : 2 ^ (k + 1) ∣ h) : (h + 2 ^ k) ^^^ 2 ^ k = h := by
  rw [← xor_two_pow_lower hk, Nat.xor_assoc, Nat.xor_self, Nat.xor_zero]

/-! ## Families of blocks without buddies -/

/-- `(h, k)` is a maximal aligned block inside `F`: it lies in `F`, and every aligned block
inside `F` that contains it is the block itself. -/
def IsMaximal (F : Set ℕ) (h k : ℕ) : Prop :=
  2 ^ k ∣ h ∧ (∀ p, Covers h k p → p ∈ F) ∧
    ∀ h' k', 2 ^ k' ∣ h' → (∀ p, Covers h' k' p → p ∈ F) →
      (∀ p, Covers h k p → Covers h' k' p) → h' = h ∧ k' = k

/-- A family of aligned blocks that covers exactly `F` and holds no pair of buddies. -/
structure Coalesced (F : Set ℕ) (B : ℕ → ℕ → Prop) : Prop where
  aligned : ∀ {h k}, B h k → 2 ^ k ∣ h
  covered : ∀ {h k p}, B h k → Covers h k p → p ∈ F
  covers : ∀ {p}, p ∈ F → ∃ h k, B h k ∧ Covers h k p
  disjoint : ∀ {h k h' k' p}, B h k → B h' k' → Covers h k p → Covers h' k' p →
    h = h' ∧ k = k'
  no_buddies : ∀ {h k}, 2 ^ (k + 1) ∣ h → B h k → ¬ B (h + 2 ^ k) k

section
variable {F : Set ℕ} {B : ℕ → ℕ → Prop}

/-- Every aligned block inside `F` lies in one block of the family. The induction is on the
order: the two halves lie in blocks of the family, and if neither of these is larger than
its half they would be a pair of buddies. -/
theorem Coalesced.exists_superblock (hB : Coalesced F B) :
    ∀ (k h : ℕ), 2 ^ k ∣ h → (∀ p, Covers h k p → p ∈ F) →
      ∃ h' k', B h' k' ∧ h' ≤ h ∧ h + 2 ^ k ≤ h' + 2 ^ k' := by
  intro k
  induction k with
  | zero =>
    intro h _ hF
    obtain ⟨h', k', hb, hle, hlt⟩ := hB.covers (hF h (covers_start h 0))
    exact ⟨h', k', hb, hle, by rw [pow_zero]; omega⟩
  | succ k ih =>
    intro h hal hF
    obtain ⟨a, i, ha, hale, hage⟩ := ih h (two_pow_dvd_of_succ hal)
      (fun p hp => hF p (covers_succ_iff.mpr (.inl hp)))
    obtain ⟨b, j, hb, hble, hbge⟩ := ih (h + 2 ^ k) (two_pow_dvd_upper hal)
      (fun p hp => hF p (covers_succ_iff.mpr (.inr hp)))
    have hpos := Nat.two_pow_pos k
    have hik : k ≤ i := (Nat.pow_le_pow_iff_right (by norm_num : 1 < 2)).mp (by omega)
    have hjk : k ≤ j := (Nat.pow_le_pow_iff_right (by norm_num : 1 < 2)).mp (by omega)
    rcases Nat.lt_or_ge k i with hi | hi
    · -- the lower half's block is larger, so it holds the parent too
      have hpar := covers_parent hal (hB.aligned ha) hi (covers_start h (k + 1))
        ⟨hale, by omega⟩
      exact ⟨a, i, ha, hpar⟩
    rcases Nat.lt_or_ge k j with hj | hj
    · have hmid : Covers h (k + 1) (h + 2 ^ k) :=
        covers_succ_iff.mpr (.inr (covers_start _ k))
      have hpar := covers_parent hal (hB.aligned hb) hj hmid ⟨hble, by omega⟩
      exact ⟨b, j, hb, hpar⟩
    · -- both halves are blocks of the family
      have hieq : i = k := by omega
      have hjeq : j = k := by omega
      subst hieq hjeq
      have haeq : a = h := by omega
      have hbeq : b = h + 2 ^ j := by omega
      subst haeq hbeq
      exact absurd hb (hB.no_buddies hal ha)

/-- **The coalesced family is canonical**: its blocks are the maximal aligned blocks inside
the set it covers. -/
theorem Coalesced.isMaximal_iff (hB : Coalesced F B) (h k : ℕ) :
    B h k ↔ IsMaximal F h k := by
  constructor
  · intro hb
    refine ⟨hB.aligned hb, fun p hp => hB.covered hb hp, ?_⟩
    intro h' k' hal hF hsub
    obtain ⟨a, i, ha, hale, hage⟩ := hB.exists_superblock k' h' hal hF
    obtain ⟨hle, hlt⟩ := hsub h (covers_start h k)
    -- the superblock shares the page `h` with `(h, k)`, so it is `(h, k)` itself
    obtain ⟨rfl, rfl⟩ := hB.disjoint hb ha (covers_start h k) ⟨by omega, by omega⟩
    have hheq : h' = h := by omega
    subst hheq
    have hk' : k' ≤ k := (Nat.pow_le_pow_iff_right (by norm_num : 1 < 2)).mp (by omega)
    have hpos := Nat.two_pow_pos k
    have hlast := hsub (h' + 2 ^ k - 1) ⟨by omega, by omega⟩
    have hk : k ≤ k' :=
      (Nat.pow_le_pow_iff_right (by norm_num : 1 < 2)).mp (by have := hlast.2; omega)
    exact ⟨rfl, by omega⟩
  · rintro ⟨hal, hF, hmax⟩
    obtain ⟨a, i, ha, hale, hage⟩ := hB.exists_superblock k h hal hF
    obtain ⟨rfl, rfl⟩ := hmax a i (hB.aligned ha) (fun p hp => hB.covered ha hp)
      (fun p hp => ⟨by have := hp.1; omega, by have := hp.2; omega⟩)
    exact ha

end

end GnuOS.Lib

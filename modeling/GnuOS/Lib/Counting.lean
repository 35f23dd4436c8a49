import Mathlib.Algebra.Order.BigOperators.Group.Finset

/-!
# Counting indices

Sums over the values that a function takes below a bound, and in particular the number of indices
with a property.  An update of the function at one index changes them by the difference at that
index.
-/

namespace GnuOS.Lib

open Function

variable {α : Type*} {n b : ℕ}

theorem sum_update (g : α → ℕ) (f : ℕ → α) (a : α) (hb : b < n) :
    ∑ i ∈ Finset.range n, g (update f b a i) + g (f b) =
      ∑ i ∈ Finset.range n, g (f i) + g a := by
  have hmem : b ∈ Finset.range n := Finset.mem_range.mpr hb
  rw [← Finset.add_sum_erase _ _ hmem, ← Finset.add_sum_erase _ (fun i => g (f i)) hmem,
    update_self]
  have hrest : ∑ i ∈ (Finset.range n).erase b, g (update f b a i) =
      ∑ i ∈ (Finset.range n).erase b, g (f i) := by
    apply Finset.sum_congr rfl
    intro i hi
    rw [update_of_ne (Finset.ne_of_mem_erase hi)]
  rw [hrest]
  omega

/-- The number of indices below `n` at which `f` has `P`. -/
@[irreducible]
def countBelow (n : ℕ) (P : α → Prop) [DecidablePred P] (f : ℕ → α) : ℕ :=
  ∑ i ∈ Finset.range n, if P (f i) then 1 else 0

section
variable {P P' : α → Prop} [DecidablePred P] [DecidablePred P'] {f f' : ℕ → α}

theorem countBelow_update (P : α → Prop) [DecidablePred P] (f : ℕ → α) (a : α) (hb : b < n) :
    countBelow n P (update f b a) + (if P (f b) then 1 else 0) =
      countBelow n P f + if P a then 1 else 0 := by
  unfold countBelow
  exact sum_update (fun a => if P a then 1 else 0) f a hb

theorem countBelow_congr (h : ∀ i, i < n → (P (f' i) ↔ P (f i))) :
    countBelow n P f' = countBelow n P f := by
  unfold countBelow
  apply Finset.sum_congr rfl
  intro i hi
  rw [if_congr (h i (Finset.mem_range.mp hi)) rfl rfl]

theorem countBelow_mono (h : ∀ i, i < n → P (f i) → P' (f i)) :
    countBelow n P f ≤ countBelow n P' f := by
  unfold countBelow
  apply Finset.sum_le_sum
  intro i hi
  by_cases hP : P (f i)
  · rw [if_pos hP, if_pos (h i (Finset.mem_range.mp hi) hP)]
  · rw [if_neg hP]
    exact Nat.zero_le _

theorem countBelow_eq_zero (h : ∀ i, i < n → ¬ P (f i)) : countBelow n P f = 0 := by
  unfold countBelow
  apply Finset.sum_eq_zero
  intro i hi
  rw [if_neg (h i (Finset.mem_range.mp hi))]

/-- Not all indices are counted exactly if one does not have the property. -/
theorem countBelow_lt_iff : countBelow n P f < n ↔ ∃ i, i < n ∧ ¬ P (f i) := by
  have hall : ∑ _i ∈ Finset.range n, 1 = n := by simp
  unfold countBelow
  constructor
  · intro hlt
    by_contra hnone
    push Not at hnone
    have hsum : (∑ i ∈ Finset.range n, if P (f i) then 1 else 0) = ∑ _i ∈ Finset.range n, 1 := by
      apply Finset.sum_congr rfl
      intro i hi
      rw [if_pos (hnone i (Finset.mem_range.mp hi))]
    omega
  · rintro ⟨i, hi, hP⟩
    have hlt : (∑ i ∈ Finset.range n, if P (f i) then 1 else 0) < ∑ _i ∈ Finset.range n, 1 := by
      apply Finset.sum_lt_sum
      · intro j _
        split <;> omega
      · exact ⟨i, Finset.mem_range.mpr hi, by rw [if_neg hP]; omega⟩
    omega

end

end GnuOS.Lib

import Mathlib.Data.List.GetD
import Mathlib.Data.List.Nodup

/-!
# Compacted arrays

An array whose first entries hold a list and whose other entries hold a filler.  An element is
appended behind the last one, and taken out by moving those behind it down by one.
-/

namespace GnuOS.Lib

open List

open Function

variable {α : Type*}

/-- The loop that moves `n` entries down, from the one behind `i` on. -/
def shiftDown (entries : ℕ → α) : ℕ → ℕ → ℕ → α
  | 0, _ => entries
  | n + 1, i => shiftDown (update entries i (entries (i + 1))) n (i + 1)

/-- The array holds the list, and the filler up to the capacity. -/
structure Compact (entries : ℕ → α) (filler : α) (cap : ℕ) (l : List α) : Prop where
  length_le : l.length ≤ cap
  entry : ∀ i < cap, entries i = l.getD i filler

theorem shiftDown_apply (entries : ℕ → α) (n i j : ℕ) :
    shiftDown entries n i j = if i ≤ j ∧ j < i + n then entries (j + 1) else entries j := by
  induction n generalizing entries i with
  | zero => rw [if_neg (by omega), shiftDown]
  | succ n ih =>
    rw [shiftDown, ih]
    by_cases hj : j = i
    · subst hj
      rw [if_neg (by omega), if_pos (by omega), update_self]
    · rw [update_of_ne hj]
      by_cases hin : i + 1 ≤ j ∧ j < i + 1 + n
      · rw [if_pos hin, if_pos (by omega), update_of_ne (by omega)]
      · rw [if_neg hin, if_neg (by omega)]

namespace Compact

variable {entries : ℕ → α} {filler a : α} {cap i : ℕ} {l : List α}

theorem empty (cap : ℕ) (h : ∀ i < cap, entries i = filler) : Compact entries filler cap [] :=
  ⟨Nat.zero_le _, fun i hi => (h i hi).trans (getD_nil).symm⟩

section

variable (h : Compact entries filler cap l)

include h

theorem getElem? (hi : i < l.length) :
    l[i]? = some (entries i) := by
  have hcap := h.length_le
  rw [h.entry i (by omega), getD_eq_getElem _ _ hi, getElem?_eq_getElem hi]

theorem append (hlt : l.length < cap) (a : α) :
    Compact (update entries l.length a) filler cap (l ++ [a]) where
  length_le := by
    rw [length_append, length_singleton]
    omega
  entry i hi := by
    by_cases heq : i = l.length
    · subst heq
      rw [update_self, getD_append_right _ _ _ _ (Nat.le_refl _), Nat.sub_self]
      rfl
    · rw [update_of_ne heq, h.entry i hi]
      rcases Nat.lt_or_gt_of_ne heq with hlt | hgt
      · rw [getD_append _ _ _ _ hlt]
      · rw [getD_eq_default _ _ (by omega), getD_eq_default]
        rw [length_append, length_singleton]
        omega

/-- The loop takes the entry `i` out. -/
theorem eraseIdx (hi : i < l.length) :
    Compact (update (shiftDown entries (l.length - 1 - i) i) (l.length - 1) filler)
      filler cap (l.eraseIdx i) where
  length_le := by
    have hcap := h.length_le
    rw [length_eraseIdx_of_lt hi]
    omega
  entry j hj := by
    have hcap := h.length_le
    rw [getD_eq_getElem?_getD, getElem?_eraseIdx]
    by_cases hlast : j = l.length - 1
    · subst hlast
      rw [update_self, if_neg (by omega), getElem?_eq_none (by omega)]
      rfl
    · rw [update_of_ne hlast, shiftDown_apply]
      by_cases hbefore : j < i
      · rw [if_neg (by omega), if_pos hbefore, h.entry j hj, getD_eq_getElem?_getD]
      · rw [if_neg hbefore]
        by_cases hin : j < l.length - 1
        · rw [if_pos (by omega), h.entry (j + 1) (by omega), getD_eq_getElem?_getD]
        · rw [if_neg (by omega), h.entry j hj, getD_eq_default _ _ (by omega),
            getElem?_eq_none (by omega)]
          rfl

/-- A search through the entries of the list. -/
theorem find?_eq_none_iff [DecidableEq α] :
    ((range l.length).find? fun i => entries i = a) = none ↔ a ∉ l := by
  rw [find?_eq_none]
  constructor
  · intro hnone hmem
    obtain ⟨i, hi, rfl⟩ := getElem_of_mem hmem
    have hget := h.getElem? hi
    rw [getElem?_eq_getElem hi, Option.some_inj] at hget
    exact hnone i (mem_range.mpr hi) (decide_eq_true hget.symm)
  · intro hnot i hi heq
    have hget := h.getElem? (mem_range.mp hi)
    rw [of_decide_eq_true heq] at hget
    exact hnot (mem_of_getElem? hget)

/-- The entry that is found is the one to take out. -/
theorem eraseIdx_of_find? [DecidableEq α] (hnodup : l.Nodup)
    (hfind : ((range l.length).find? fun i => entries i = a) = some i) :
    i < l.length ∧ l.eraseIdx i = l.erase a := by
  have hi : i < l.length := mem_range.mp (mem_of_find?_eq_some hfind)
  have hget := h.getElem? hi
  have hfound := find?_some hfind
  have hentry : entries i = a := of_decide_eq_true hfound
  rw [getElem?_eq_getElem hi, Option.some_inj, hentry] at hget
  refine ⟨hi, (erase_eq_eraseIdx_of_idxOf ?_).symm⟩
  rw [← hget]
  exact hnodup.idxOf_getElem i hi

end

end Compact

end GnuOS.Lib

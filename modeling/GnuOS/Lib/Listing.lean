import Mathlib.Data.Finset.Card

/-!
# Lists of the objects in a place

Objects `0, ..., n - 1` are each in one place, given by a function `place`.  A list *lists* a
place when it holds exactly the objects in it, each once.  Moving an object is an update of
`place`; the lemmas say what list then lists which place.
-/

namespace GnuOS.Lib

open List

open Function

variable {P : Type*}

/-- The list `l` holds the objects below `n` that are in the place `p`, each once. -/
structure Lists (n : ℕ) (place : ℕ → P) (p : P) (l : List ℕ) : Prop where
  nodup : l.Nodup
  mem_iff : ∀ i, i ∈ l ↔ i < n ∧ place i = p

namespace Lists

variable {n i : ℕ} {place : ℕ → P} {p p' : P} {l : List ℕ}

/-- An object moves between two other places. -/
theorem update_other (h : Lists n place p l) (hi : place i ≠ p) (hp : p' ≠ p) :
    Lists n (update place i p') p l where
  nodup := h.nodup
  mem_iff j := by
    rw [h.mem_iff]
    by_cases hj : j = i
    · subst hj
      simp [hi, hp]
    · rw [update_of_ne hj]

/-- An object arrives. -/
theorem push (h : Lists n place p l) (hin : i < n) (hi : place i ≠ p) :
    Lists n (update place i p) p (l ++ [i]) where
  nodup := by
    have hni : i ∉ l := fun hmem => hi ((h.mem_iff i).mp hmem).2
    rw [← concat_eq_append]
    exact List.Nodup.concat hni h.nodup
  mem_iff j := by
    rw [mem_append, mem_singleton, h.mem_iff]
    by_cases hj : j = i
    · subst hj
      simp [hin]
    · simp [hj]

/-- The first object leaves. -/
theorem pop (h : Lists n place p (i :: l)) (hp : p' ≠ p) :
    Lists n (update place i p') p l where
  nodup := (nodup_cons.mp h.nodup).2
  mem_iff j := by
    have hni := (nodup_cons.mp h.nodup).1
    by_cases hj : j = i
    · subst hj
      simp [hni, hp]
    · have hmem := h.mem_iff j
      rw [mem_cons, or_iff_right hj] at hmem
      rw [hmem, update_of_ne hj]

section

variable (h : Lists n place p l)

include h

/-- An object leaves from anywhere in the list. -/
theorem remove (hp : p' ≠ p) :
    Lists n (update place i p') p (l.filter fun j => decide (j ≠ i)) where
  nodup := h.nodup.filter _
  mem_iff j := by
    rw [mem_filter, h.mem_iff]
    by_cases hj : j = i
    · subst hj
      simp [hp]
    · simp [hj]

/-- As many elements as there are objects in the place. -/
theorem length_eq_card [DecidableEq P] :
    l.length = ((Finset.range n).filter fun i => place i = p).card := by
  rw [← toFinset_card_of_nodup h.nodup]
  congr 1
  ext j
  rw [mem_toFinset, h.mem_iff, Finset.mem_filter, Finset.mem_range]

/-- An object elsewhere leaves room in the list. -/
theorem length_lt (hin : i < n) (hi : place i ≠ p) : l.length < n := by
  classical
  have hsub : l.toFinset ⊆ (Finset.range n).erase i := by
    intro j hj
    rw [mem_toFinset, h.mem_iff] at hj
    rw [Finset.mem_erase, Finset.mem_range]
    refine ⟨?_, hj.1⟩
    intro hji
    exact hi (hji ▸ hj.2)
  have hcard := Finset.card_le_card hsub
  rw [toFinset_card_of_nodup h.nodup, Finset.card_erase_of_mem (Finset.mem_range.mpr hin),
    Finset.card_range] at hcard
  omega

end

end Lists

end GnuOS.Lib

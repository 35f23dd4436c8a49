import GnuOS.Lib.RingBuffer
import Mathlib.Data.List.Induction

/-!
# Rings of recent elements

An array of `cap` slots that keeps the last `cap` elements of a history: when it is full, a new
element takes the slot of the oldest one.
-/

namespace GnuOS.Lib

open List Function

structure HistoryRing (α : Type*) (cap : ℕ) where
  slots : ℕ → α
  head : ℕ
  size : ℕ
  head_lt : head < cap
  size_le : size ≤ cap

namespace HistoryRing

variable {α : Type*} {cap : ℕ}

/-- The elements, oldest first. -/
def contents (r : HistoryRing α cap) : List α :=
  (range r.size).map fun i => r.slots ((r.head + i) % cap)

def record (r : HistoryRing α cap) (a : α) : HistoryRing α cap :=
  if hfull : r.size = cap then
    { slots := update r.slots r.head a
      head := (r.head + 1) % cap
      size := r.size
      head_lt := Nat.mod_lt _ (Nat.zero_lt_of_lt r.head_lt)
      size_le := r.size_le }
  else
    { slots := update r.slots ((r.head + r.size) % cap) a
      head := r.head
      size := r.size + 1
      head_lt := r.head_lt
      size_le := Nat.lt_of_le_of_ne r.size_le hfull }

variable (r : HistoryRing α cap) (a : α)

theorem length_contents : r.contents.length = r.size := by
  simp [contents]

/-- A full ring is a ring that has lost its oldest element and got a new one behind the others. -/
theorem contents_full (slots : ℕ → α) {head n : ℕ} (hhead : head < n + 1) :
    ((range (n + 1)).map fun i =>
      update slots head a (((head + 1) % (n + 1) + i) % (n + 1))) =
      (((range (n + 1)).map fun i => slots ((head + i) % (n + 1))).drop 1) ++ [a] := by
  have hhead' : head % (n + 1) = head := Nat.mod_eq_of_lt hhead
  -- slot `i` behind the new head is slot `i + 1` behind the old one
  have hslot : ∀ i, ((head + 1) % (n + 1) + i) % (n + 1) = (head + (i + 1)) % (n + 1) := by
    intro i
    rw [Nat.mod_add_mod, Nat.add_assoc, Nat.add_comm 1 i]
  have hlast : (head + (n + 1)) % (n + 1) = head := by
    rw [Nat.add_mod_right, hhead']
  have hdrop : (range (n + 1)).drop 1 = (range n).map Nat.succ := by
    rw [range_succ_eq_map]
    rfl
  rw [← map_drop, hdrop, map_map]
  simp only [hslot]
  rw [range_succ, map_append, map_singleton, hlast, update_self]
  congr 1
  apply map_congr_left
  intro i hi
  have hi' := mem_range.mp hi
  have hne : (head + (i + 1)) % (n + 1) ≠ head := by
    have hslots : (head + 1 + i) % (n + 1) ≠ (head + 1 + n) % (n + 1) :=
      RingBuffer.slot_ne hi' (Nat.lt_succ_self n)
    rw [Nat.add_assoc, Nat.add_assoc, Nat.add_comm 1 i, Nat.add_comm 1 n, hlast] at hslots
    exact hslots
  rw [update_of_ne hne]
  rfl

/-- After a new element the ring holds the last `cap` of its old elements and the new one. -/
theorem contents_record :
    (r.record a).contents = (r.contents ++ [a]).drop (r.contents.length + 1 - cap) := by
  rw [length_contents]
  unfold record
  split
  · rename_i hfull
    obtain ⟨n, rfl⟩ : ∃ n, cap = n + 1 := ⟨cap - 1, by have := r.head_lt; omega⟩
    have hone : r.size + 1 - (n + 1) = 1 := by omega
    have hlength : 1 ≤ r.contents.length := by rw [length_contents]; omega
    rw [hone, drop_append_of_le_length hlength]
    unfold contents
    simp only [hfull]
    exact contents_full a r.slots r.head_lt
  · rename_i hfull
    have hlt : r.size < cap := Nat.lt_of_le_of_ne r.size_le hfull
    have hzero : r.size + 1 - cap = 0 := by omega
    rw [hzero, drop_zero]
    unfold contents
    simp only
    rw [range_succ, map_append, map_singleton, update_self]
    congr 1
    apply map_congr_left
    intro i hi
    rw [update_of_ne (RingBuffer.slot_ne (mem_range.mp hi) hlt)]

/-- The window of the last `cap` elements of a history slides by one with each element. -/
theorem drop_window (history : List α) (cap : ℕ) :
    (history.drop (history.length - cap) ++ [a]).drop
        ((history.drop (history.length - cap)).length + 1 - cap) =
      (history ++ [a]).drop (history.length + 1 - cap) := by
  rw [← drop_append_of_le_length (Nat.sub_le _ _), drop_drop, length_drop]
  congr 1
  omega

/-- A ring that was empty holds the last `cap` elements of its history. -/
theorem contents_foldl_record {r : HistoryRing α cap} (hempty : r.contents = [])
    (history : List α) :
    (history.foldl record r).contents = history.drop (history.length - cap) := by
  induction history using reverseRecOn with
  | nil => rw [foldl_nil, hempty, drop_nil]
  | append_singleton history a ih =>
    rw [foldl_concat, contents_record, ih, drop_window, length_append,
      length_singleton]

end HistoryRing

end GnuOS.Lib

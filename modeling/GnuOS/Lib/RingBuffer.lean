import Mathlib.Data.Nat.ModEq
import Mathlib.Data.List.Basic

/-!
# Ring buffers

A bounded queue in an array of `cap` slots: the oldest element is at `head`, the next free slot
at `tail`, and `size` counts the elements.  `contents` is the list that a valid ring stands for,
oldest first; pushing appends to it and popping takes its head.
-/

namespace GnuOS.Lib

open List

open Function

structure RingBuffer (α : Type*) where
  slots : ℕ → α
  head : ℕ
  tail : ℕ
  size : ℕ

namespace RingBuffer

variable {α : Type*} (cap : ℕ)

/-- Append an element, unless the ring is full. -/
def push (r : RingBuffer α) (a : α) : Option (RingBuffer α) :=
  if cap ≤ r.size then none
  else some { r with
    slots := update r.slots r.tail a
    tail := (r.tail + 1) % cap
    size := r.size + 1 }

/-- Take the oldest element, unless the ring is empty. -/
def pop (r : RingBuffer α) : Option (α × RingBuffer α) :=
  if r.size = 0 then none
  else some (r.slots r.head, { r with head := (r.head + 1) % cap, size := r.size - 1 })

/-- The ring without elements that `head = tail = size = 0` leaves. -/
def reset (r : RingBuffer α) : RingBuffer α := { r with head := 0, tail := 0, size := 0 }

/-- The elements, oldest first. -/
def contents (r : RingBuffer α) : List α :=
  (range r.size).map fun i => r.slots ((r.head + i) % cap)

structure Valid (r : RingBuffer α) : Prop where
  head_lt : r.head < cap
  size_le : r.size ≤ cap
  tail_eq : r.tail = (r.head + r.size) % cap

variable {cap} {r r' : RingBuffer α} {a : α}

@[simp] theorem length_contents : (r.contents cap).length = r.size := by
  simp [contents]

/-- The free slot is none of the occupied ones. -/
theorem slot_ne {i n h : ℕ} (hi : i < n) (hn : n < cap) : (h + i) % cap ≠ (h + n) % cap := by
  intro heq
  have hmod : (h + i) ≡ (h + n) [MOD cap] := heq
  have hin : i ≡ n [MOD cap] := Nat.ModEq.add_left_cancel' h hmod
  have := hin.eq_of_lt_of_lt (by omega) hn
  omega

theorem push_eq_none_iff : r.push cap a = none ↔ cap ≤ r.size := by
  unfold push
  split <;> simp [*]

theorem pop_eq_none_iff : r.pop cap = none ↔ r.contents cap = [] := by
  rw [← length_eq_zero_iff, length_contents]
  unfold pop
  split <;> simp [*]

theorem push_head (hr : r.push cap a = some r') : r'.head = r.head := by
  unfold push at hr
  split at hr
  · cases hr
  · rw [← Option.some.inj hr]

/-- Pushing appends. -/
theorem push_contents (h : r.Valid cap) (hr : r.push cap a = some r') :
    r'.Valid cap ∧ r'.contents cap = r.contents cap ++ [a] := by
  unfold push at hr
  split at hr
  · simp at hr
  rename_i hfull
  have hlt : r.size < cap := by omega
  rw [← Option.some.inj hr]
  refine ⟨⟨h.head_lt, by simp only; omega, ?_⟩, ?_⟩
  · simp only [h.tail_eq, Nat.mod_add_mod, Nat.add_assoc]
  · simp only [contents, range_succ, map_append, map_cons, map_nil]
    congr 1
    · apply map_congr_left
      intro i hi
      rw [mem_range] at hi
      rw [update_of_ne]
      rw [h.tail_eq]
      exact slot_ne hi hlt
    · rw [h.tail_eq, update_self]

/-- Popping takes the head. -/
theorem pop_contents (h : r.Valid cap) (hr : r.pop cap = some (a, r')) :
    r'.Valid cap ∧ r.contents cap = a :: r'.contents cap := by
  unfold pop at hr
  split at hr
  · simp at hr
  rename_i hne
  simp only [Option.some.injEq, Prod.mk.injEq] at hr
  rcases hr with ⟨rfl, rfl⟩
  have hcap : 0 < cap := by
    have := h.size_le
    omega
  have hsize : r.size = r.size - 1 + 1 := by omega
  refine ⟨⟨Nat.mod_lt _ hcap, ?_, ?_⟩, ?_⟩
  · have := h.size_le
    simp only
    omega
  · simp only [h.tail_eq, Nat.mod_add_mod]
    congr 1
    omega
  · simp only [contents]
    rw [hsize, range_succ_eq_map, map_cons, map_map, Nat.add_zero,
      Nat.mod_eq_of_lt h.head_lt, Nat.add_sub_cancel]
    congr 1
    apply map_congr_left
    intro i _
    simp only [comp, Nat.mod_add_mod]
    congr 2
    omega

theorem reset_valid (hcap : 0 < cap) : r.reset.Valid cap :=
  ⟨hcap, Nat.zero_le _, by simp [reset]⟩

@[simp] theorem reset_contents : r.reset.contents cap = [] := by
  simp [reset, contents]

end RingBuffer

end GnuOS.Lib

import Mathlib.Data.List.Nodup

/-!
# Singly linked queues

A queue of nodes threaded through one array, `next`, with a pointer to its first node and one to
its last; `nil` is the end mark, and both pointers of an empty queue.  A node is appended behind the
last one and taken from the front, each stated over the array writes that perform it.
-/

namespace GnuOS.Lib

open List

open Function

variable {α : Type*} {next next' : α → α} {nil head tail a b x : α} {l : List α}

/-- Following `next` from `a` visits exactly `l`. -/
def Linked (next : α → α) (nil : α) : α → List α → Prop
  | a, [] => a = nil
  | a, b :: l => a = b ∧ b ≠ nil ∧ Linked next nil (next b) l

namespace Linked

/-- Only the links of the nodes matter. -/
theorem congr (h : Linked next nil a l) (hnext : ∀ b ∈ l, next' b = next b) :
    Linked next' nil a l := by
  induction l generalizing a with
  | nil => exact h
  | cons b l ih =>
    obtain ⟨hab, hb, hrest⟩ := h
    refine ⟨hab, hb, ?_⟩
    rw [hnext b mem_cons_self]
    exact ih hrest fun c hc => hnext c (mem_cons_of_mem b hc)

theorem eq_nil_iff (h : Linked next nil a l) : a = nil ↔ l = [] := by
  cases l with
  | nil =>
    have ha : a = nil := h
    simpa using ha
  | cons b l =>
    obtain ⟨rfl, hb, _⟩ := h
    simpa using hb

/-- A node is linked behind the last one. -/
theorem concat [DecidableEq α] {t : α} (h : Linked next nil a (l ++ [t]))
    (hnodup : (l ++ [t]).Nodup) (hx : x ≠ nil) (hxnext : next x = nil) (hmem : x ∉ l ++ [t]) :
    Linked (update next t x) nil a (l ++ [t] ++ [x]) := by
  induction l generalizing a with
  | nil =>
    obtain ⟨rfl, ha, _⟩ := h
    have hne : x ≠ a := by simpa using hmem
    refine ⟨rfl, ha, ?_, hx, ?_⟩
    · rw [update_self]
    · rw [update_of_ne hne]
      exact hxnext
  | cons b l ih =>
    obtain ⟨rfl, ha, hrest⟩ := h
    rw [cons_append, nodup_cons] at hnodup
    have hne : a ≠ t := by
      rintro rfl
      exact hnodup.1 (by simp)
    refine ⟨rfl, ha, ?_⟩
    rw [update_of_ne hne]
    exact ih hrest hnodup.2 fun hc => hmem (mem_cons_of_mem a hc)

end Linked

/-- `head` and `tail` point to the first and the last of the distinct nodes `l`. -/
structure LinkedQueue (next : α → α) (nil head tail : α) (l : List α) : Prop where
  linked : Linked next nil head l
  last : tail = l.getLast?.getD nil
  nodup : l.Nodup

namespace LinkedQueue

theorem empty : LinkedQueue next nil nil nil [] := ⟨rfl, rfl, nodup_nil⟩

theorem congr (h : LinkedQueue next nil head tail l) (hnext : ∀ b ∈ l, next' b = next b) :
    LinkedQueue next' nil head tail l :=
  ⟨h.linked.congr hnext, h.last, h.nodup⟩

theorem push_empty (h : LinkedQueue next nil nil tail l) (hx : x ≠ nil) (hxnext : next x = nil) :
    LinkedQueue next nil x x (l ++ [x]) := by
  have hl : l = [] := h.linked.eq_nil_iff.mp rfl
  subst hl
  exact ⟨⟨rfl, hx, hxnext⟩, rfl, nodup_singleton x⟩

theorem tail_mem (h : LinkedQueue next nil head tail l) (hhead : head ≠ nil) : tail ∈ l := by
  rcases eq_nil_or_concat' l with rfl | ⟨l', t, rfl⟩
  · exact absurd h.linked hhead
  · rw [h.last]
    simp

variable [DecidableEq α]

theorem push (h : LinkedQueue next nil head tail l) (hhead : head ≠ nil) (hx : x ≠ nil)
    (hxnext : next x = nil) (hmem : x ∉ l) :
    LinkedQueue (update next tail x) nil head x (l ++ [x]) := by
  rcases eq_nil_or_concat' l with rfl | ⟨l', t, rfl⟩
  · exact absurd h.linked hhead
  · have htail : tail = t := by rw [h.last]; simp
    subst htail
    refine ⟨h.linked.concat h.nodup hx hxnext hmem, by simp, ?_⟩
    rw [← concat_eq_append]
    exact List.Nodup.concat hmem h.nodup

/-- The first node is taken, and its link is cleared. -/
theorem pop (h : LinkedQueue next nil head tail l) (hhead : head ≠ nil) :
    ∃ l', l = head :: l' ∧ LinkedQueue (update next head nil) nil (next head)
      (if next head = nil then nil else tail) l' := by
  cases l with
  | nil => exact absurd h.linked hhead
  | cons b l =>
    obtain ⟨rfl, _, hrest⟩ := h.linked
    have hnodup := nodup_cons.mp h.nodup
    refine ⟨l, rfl, ⟨?_, ?_, hnodup.2⟩⟩
    · apply hrest.congr
      rintro b hb
      apply update_of_ne
      rintro rfl
      exact hnodup.1 hb
    · rcases eq_nil_or_concat' l with rfl | ⟨l', t, rfl⟩
      · rw [if_pos (hrest.eq_nil_iff.mpr rfl)]
        rfl
      · rw [if_neg (fun hnil => absurd (hrest.eq_nil_iff.mp hnil) (by simp)), h.last,
          ← cons_append, getLast?_concat, getLast?_concat]

end LinkedQueue

end GnuOS.Lib

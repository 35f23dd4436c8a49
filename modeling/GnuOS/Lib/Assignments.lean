import Mathlib.Data.List.Basic

/-!
# Assignments

A loop over a list in which every element assigns a value to a key.  What a key holds afterwards
depends only on the elements with that key, so their order does not matter if there is at most one.
-/

namespace GnuOS.Lib

open List

open Function

variable {α κ ν : Type*} [DecidableEq κ] (key : α → κ) (value : α → ν)

/-- The values of all keys after the elements of the list have been assigned. -/
def assign (f : κ → ν) (l : List α) : κ → ν :=
  l.foldl (fun f a => update f (key a) (value a)) f

theorem assign_cons (f : κ → ν) (a : α) (l : List α) :
    assign key value f (a :: l) = assign key value (update f (key a) (value a)) l := rfl

variable {key value}

/-- Elements with other keys can be left out. -/
theorem assign_filter {p : α → Bool} {k : κ} (l : List α) (f : κ → ν)
    (hp : ∀ a ∈ l, key a = k → p a = true) :
    assign key value f (l.filter p) k = assign key value f l k := by
  suffices h : ∀ g : κ → ν, f k = g k →
      assign key value f (l.filter p) k = assign key value g l k from h f rfl
  induction l generalizing f with
  | nil => exact fun g hg => hg
  | cons a l ih =>
    intro g hg
    have hl : ∀ b ∈ l, key b = k → p b = true := fun b hb => hp b (mem_cons_of_mem a hb)
    by_cases hkey : key a = k
    · -- the element counts, and both sides assign the same value to the key
      rw [filter_cons_of_pos (hp a mem_cons_self hkey), assign_cons, assign_cons]
      apply ih _ hl
      rw [← hkey, update_self, update_self]
    · have hother : ∀ h : κ → ν, update h (key a) (value a) k = h k := fun h =>
        update_of_ne (Ne.symm hkey) _ _
      cases ha : p a with
      | true =>
        rw [filter_cons_of_pos ha, assign_cons, assign_cons]
        apply ih _ hl
        rw [hother, hother, hg]
      | false =>
        rw [filter_cons_of_neg (by rw [ha]; decide), assign_cons]
        apply ih _ hl
        rw [hother, hg]

/-- The order of the elements does not matter if their keys are distinct. -/
theorem assign_perm {l l' : List α} (hperm : l.Perm l') (hnodup : (l.map key).Nodup) (f : κ → ν) :
    assign key value f l = assign key value f l' := by
  induction hperm generalizing f with
  | nil => rfl
  | cons a _ ih =>
    rw [map_cons, nodup_cons] at hnodup
    exact ih hnodup.2 _
  | swap a b l =>
    simp only [map_cons, nodup_cons, mem_cons, not_or] at hnodup
    rw [assign_cons, assign_cons, assign_cons, assign_cons, update_comm hnodup.1.1]
  | trans h _ ih ih' =>
    rw [ih hnodup, ih' ((h.map key).nodup_iff.mp hnodup)]

/-- Two lists assign the same value to a key if they agree, up to order, on the elements that
count, and these have distinct keys. -/
theorem assign_congr {p : α → Bool} {l l' : List α} {k : κ}
    (hp : ∀ a, key a = k → p a = true) (hnodup : ((l.filter p).map key).Nodup)
    (hperm : (l.filter p).Perm (l'.filter p)) (f : κ → ν) :
    assign key value f l k = assign key value f l' k := by
  rw [← assign_filter l f fun a _ => hp a, ← assign_filter l' f fun a _ => hp a,
    assign_perm hperm hnodup]

end GnuOS.Lib

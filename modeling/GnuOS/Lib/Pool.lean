import Mathlib.Data.List.Basic

/-!
# Pools of concurrent calls

Calls in flight are kept in a list, where a call is named by its position: a new call is appended
and a step of one call replaces its entry.  The lemmas say which entries there are after a step
and how the number of calls in some phase changes.
-/

namespace GnuOS.Lib

open List

variable {α : Type*} {l : List α} {c e d : α} {j k : ℕ}

theorem getElem?_set_iff (hk : l[k]? = some c) :
    (l.set k e)[j]? = some d ↔ (j = k ∧ d = e) ∨ (j ≠ k ∧ l[j]? = some d) := by
  have hlt : k < l.length := (List.getElem?_eq_some_iff.mp hk).1
  rw [getElem?_set]
  by_cases hjk : k = j
  · subst hjk
    simp [hlt, eq_comm]
  · simp [hjk, Ne.symm hjk]

/-- The calls that take no step stay. -/
theorem mem_set_of_ne (hk : l[k]? = some c) (hd : d ∈ l) (hne : d ≠ c) : d ∈ l.set k e := by
  rcases mem_iff_getElem?.mp hd with ⟨j, hj⟩
  apply mem_iff_getElem?.mpr
  refine ⟨j, (getElem?_set_iff hk).mpr (.inr ⟨?_, hj⟩)⟩
  rintro rfl
  rw [hk, Option.some.injEq] at hj
  exact hne hj.symm

theorem getElem?_concat_iff :
    (l ++ [c])[j]? = some d ↔ l[j]? = some d ∨ (j = l.length ∧ d = c) := by
  rw [getElem?_append]
  split
  · rename_i hlt
    simp [Nat.ne_of_lt hlt]
  · rename_i hge
    have hnone : l[j]? = none := getElem?_eq_none (Nat.le_of_not_lt hge)
    rw [hnone, getElem?_singleton]
    simp only [reduceCtorEq, false_or]
    constructor
    · intro h
      split at h
      · exact ⟨by omega, (Option.some.inj h).symm⟩
      · simp at h
    · rintro ⟨rfl, rfl⟩
      simp

/-- Call `k` is in a phase in which `f` reads `b` off it. -/
def Shows {β : Type*} (f : α → Option β) (l : List α) (k : ℕ) (b : β) : Prop :=
  (l[k]?).bind f = some b

section Shows

variable {β : Type*} {f : α → Option β} {b : β}

theorem shows_iff (hk : l[k]? = some c) : Shows f l k b ↔ f c = some b := by
  rw [Shows, hk, Option.bind_some]

theorem Shows.exists (h : Shows f l k b) : ∃ c, l[k]? = some c ∧ f c = some b :=
  Option.bind_eq_some_iff.mp h

section

variable (hk : l[k]? = some c)

include hk

theorem shows_set_iff :
    Shows f (l.set k e) j b ↔ (j = k ∧ f e = some b) ∨ (j ≠ k ∧ Shows f l j b) := by
  have hlt : k < l.length := (List.getElem?_eq_some_iff.mp hk).1
  rw [Shows, Shows, getElem?_set]
  by_cases hjk : k = j
  · subst hjk
    simp [hlt]
  · simp [hjk, Ne.symm hjk]

/-- A step that does not change what is read off the call. -/
theorem shows_set_same (hf : f e = f c) :
    Shows f (l.set k e) j b ↔ Shows f l j b := by
  rw [shows_set_iff hk, hf]
  by_cases hjk : j = k
  · subst hjk
    rw [shows_iff hk]
    simp
  · simp [hjk]

/-- A step that makes something to be read off the call. -/
theorem shows_set_enter (hc : f c = none) :
    Shows f (l.set k e) j b ↔ (j = k ∧ f e = some b) ∨ Shows f l j b := by
  rw [shows_set_iff hk]
  refine or_congr_right ⟨And.right, fun hj => ⟨?_, hj⟩⟩
  rintro rfl
  rw [shows_iff hk, hc] at hj
  exact absurd hj (by simp)

/-- A step after which nothing is read off the call. -/
theorem shows_set_leave (he : f e = none) :
    Shows f (l.set k e) j b ↔ j ≠ k ∧ Shows f l j b := by
  rw [shows_set_iff hk, he]
  simp

end

theorem shows_concat_iff :
    Shows f (l ++ [c]) j b ↔ Shows f l j b ∨ (j = l.length ∧ f c = some b) := by
  simp only [Shows, Option.bind_eq_some_iff, getElem?_concat_iff, or_and_right, exists_or,
    and_assoc, exists_and_left, exists_eq_left]

theorem shows_concat_none (hf : f c = none) : Shows f (l ++ [c]) j b ↔ Shows f l j b := by
  rw [shows_concat_iff, hf]
  simp

end Shows

/-- A step of one call changes a count by what it changes for that call. -/
theorem countP_set_add (p : α → Bool) (hk : l[k]? = some c) :
    (l.set k e).countP p + (if p c then 1 else 0) = l.countP p + if p e then 1 else 0 := by
  rcases List.getElem?_eq_some_iff.mp hk with ⟨hlt, rfl⟩
  rw [countP_set hlt]
  split
  · rename_i hp
    have hpos : 0 < l.countP p := countP_pos_iff.mpr ⟨l[k], getElem_mem hlt, hp⟩
    omega
  · omega

theorem countP_set_same {p : α → Bool} (hk : l[k]? = some c) (hp : p e = p c) :
    (l.set k e).countP p = l.countP p := by
  have hadd := countP_set_add (e := e) p hk
  rw [hp] at hadd
  omega

theorem countP_concat (p : α → Bool) :
    (l ++ [c]).countP p = l.countP p + if p c then 1 else 0 := by
  rw [countP_append, countP_singleton]

/-- When at most one call is counted, it is at one position. -/
theorem eq_of_countP_le_one {p : α → Bool} (hle : l.countP p ≤ 1) (hj : l[j]? = some c)
    (hc : p c = true) (hk : l[k]? = some d) (hd : p d = true) : j = k := by
  induction l generalizing j k with
  | nil => simp at hj
  | cons x l ih =>
    have hpos : ∀ {i : ℕ} {b : α}, l[i]? = some b → p b = true → 0 < l.countP p :=
      fun hi hb => countP_pos_iff.mpr ⟨_, mem_of_getElem? hi, hb⟩
    rw [countP_cons] at hle
    cases j with
    | zero =>
      cases k with
      | zero => rfl
      | succ k =>
        rw [getElem?_cons_zero, Option.some.injEq] at hj
        rw [getElem?_cons_succ] at hk
        have hl := hpos hk hd
        rw [hj, if_pos hc] at hle
        omega
    | succ j =>
      rw [getElem?_cons_succ] at hj
      have hl := hpos hj hc
      cases k with
      | zero =>
        rw [getElem?_cons_zero, Option.some.injEq] at hk
        rw [hk, if_pos hd] at hle
        omega
      | succ k =>
        rw [getElem?_cons_succ] at hk
        rw [ih (by omega) hj hk]

/-- One call more is counted. -/
theorem countP_lt_countP {p q : α → Bool} (himp : ∀ d ∈ l, p d = true → q d = true)
    (hk : l[k]? = some c) (hp : p c = false) (hq : q c = true) : l.countP p < l.countP q := by
  induction l generalizing k with
  | nil => simp at hk
  | cons d l ih =>
    have himp' : ∀ x ∈ l, p x = true → q x = true :=
      fun x hx => himp x (mem_cons_of_mem d hx)
    cases k with
    | zero =>
      rw [getElem?_cons_zero, Option.some.injEq] at hk
      subst hk
      have hle : l.countP p ≤ l.countP q := countP_mono_left himp'
      rw [countP_cons_of_neg (by simp [hp]), countP_cons_of_pos hq]
      omega
    | succ k =>
      have hlt := ih himp' (by simpa using hk)
      have hd := himp d mem_cons_self
      simp only [countP_cons]
      split_ifs with hpd hqd hqd
      · omega
      · exact absurd (hd hpd) hqd
      · omega
      · omega

end GnuOS.Lib

import Mathlib.Tactic.Common

/-!
# Loops that return at the first hit

A loop over the indices from `start` on whose body either goes on or returns a value.
-/

namespace GnuOS.Lib

/-- The value that the first of `n` rounds returns, if one of them does. -/
def firstSome {α : Type} (body : ℕ → Option α) : ℕ → ℕ → Option α
  | 0, _ => none
  | n + 1, i =>
    match body i with
    | some a => some a
    | none => firstSome body n (i + 1)

section

variable {α : Type} {body : ℕ → Option α} {n start : ℕ} {a : α}

theorem firstSome_eq_some_iff :
    firstSome body n start = some a ↔
      ∃ i, start ≤ i ∧ i < start + n ∧ body i = some a ∧
        ∀ j, start ≤ j → j < i → body j = none := by
  induction n generalizing start with
  | zero =>
    constructor
    · intro h
      cases h
    · rintro ⟨i, hle, hlt, _⟩
      omega
  | succ n ih =>
    unfold firstSome
    cases hbody : body start with
    | some b =>
      constructor
      · intro h
        cases h
        exact ⟨start, Nat.le_refl _, by omega, hbody, fun j hj hj' => absurd hj (by omega)⟩
      · rintro ⟨i, hle, hlt, hi, hbefore⟩
        have hstart : i = start := by
          by_contra hne
          have hnone := hbefore start (Nat.le_refl _) (by omega)
          rw [hbody] at hnone
          cases hnone
        rw [hstart, hbody] at hi
        exact hi
    | none =>
      simp only
      rw [ih]
      constructor
      · rintro ⟨i, hle, hlt, hi, hbefore⟩
        refine ⟨i, by omega, by omega, hi, ?_⟩
        intro j hj hji
        rcases Nat.eq_or_lt_of_le hj with heq | hlt
        · rw [← heq]
          exact hbody
        · exact hbefore j hlt hji
      · rintro ⟨i, hle, hlt, hi, hbefore⟩
        have hne : i ≠ start := by
          intro heq
          rw [heq, hbody] at hi
          cases hi
        exact ⟨i, by omega, by omega, hi, fun j hj hji => hbefore j (by omega) hji⟩

theorem firstSome_eq_none_iff :
    firstSome body n start = none ↔ ∀ i, start ≤ i → i < start + n → body i = none := by
  induction n generalizing start with
  | zero => exact iff_of_true rfl fun i hle hlt => absurd hlt (by omega)
  | succ n ih =>
    unfold firstSome
    cases hbody : body start with
    | some b =>
      constructor
      · intro h
        cases h
      · intro h
        have hnone := h start (Nat.le_refl _) (by omega)
        rw [hbody] at hnone
        cases hnone
    | none =>
      simp only
      rw [ih]
      constructor
      · intro h i hle hlt
        rcases Nat.eq_or_lt_of_le hle with heq | hgt
        · rw [← heq]
          exact hbody
        · exact h i hgt (by omega)
      · intro h i hle hlt
        exact h i (by omega) (by omega)

theorem firstSome_congr {body' : ℕ → Option α}
    (h : ∀ i, start ≤ i → i < start + n → body i = body' i) :
    firstSome body n start = firstSome body' n start := by
  induction n generalizing start with
  | zero => rfl
  | succ n ih =>
    have hrest : firstSome body n (start + 1) = firstSome body' n (start + 1) :=
      ih fun i hle hlt => h i (by omega) (by omega)
    rw [firstSome, firstSome, h start (Nat.le_refl _) (by omega), hrest]

end

end GnuOS.Lib

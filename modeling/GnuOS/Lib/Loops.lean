import Mathlib.Data.List.Basic

/-!
# Counting loops

`for (i = lo; i < hi; i++)` with a body that may fail.  If the body takes the state `f i` to
`f (i + 1)` in each round, the loop takes `f lo` to `f hi` and does not fail.
-/

namespace GnuOS.Lib

variable {S : Type*}

/-- The loop over the numbers from `lo` up to `hi`. -/
def countingLoop (lo hi : ℕ) (body : S → ℕ → Option S) (s : S) : Option S :=
  (List.range' lo (hi - lo)).foldlM body s

theorem countingLoop_eq (lo hi : ℕ) (body : S → ℕ → Option S) (f : ℕ → S) (hle : lo ≤ hi)
    (hbody : ∀ i, lo ≤ i → i < hi → body (f i) i = some (f (i + 1))) :
    countingLoop lo hi body (f lo) = some (f hi) := by
  unfold countingLoop
  -- induction on the number of rounds that are left
  induction hn : hi - lo generalizing lo with
  | zero =>
    have heq : lo = hi := by omega
    rw [heq]
    rfl
  | succ n ih =>
    rw [List.range'_succ, List.foldlM_cons, hbody lo (by omega) (by omega)]
    exact ih (lo + 1) (by omega) (fun i hlo => hbody i (by omega)) (by omega)

end GnuOS.Lib

import Mathlib.Algebra.GroupWithZero.Nat
import GnuOS.Rwlock.Exclusion

/-!
# Every thread can finish

From every state that is reached, a schedule brings all threads out of the lock and the lock back to
what `rwlock_init` left: no increment is lost, and no flag stays set.
-/

namespace GnuOS.Rwlock

open GnuOS.Lib List

variable {lock : RwLock} {c e : Phase} {y y' : RwlockSystem} {k n : ℕ}

/-- How far a thread is from the end of its call when nobody is in its way. -/
def Phase.distance : Phase → ℕ
  | .idle => 0
  | .readSpinning => 2
  | .readEntering => 1
  | .readChecking => 4
  | .readRetreating => 3
  | .reading => 1
  | .writeSpinning => 3
  | .writeDraining => 2
  | .writing => 1

/-- The threads of the list execute their next operations, one after the other. -/
def RwlockSystem.schedule (y : RwlockSystem) (ks : List ℕ) : Option RwlockSystem :=
  ks.foldlM (fun y k => y.step (.resume k)) y

def RwlockSystem.remaining (y : RwlockSystem) : ℕ := (y.threads.map Phase.distance).sum

theorem remaining_set (hk : y.threads[k]? = some c) (hlt : e.distance < c.distance)
    (lock : RwLock) : RwlockSystem.remaining ⟨lock, y.threads.set k e⟩ < y.remaining := by
  obtain ⟨hlen, rfl⟩ := List.getElem?_eq_some_iff.mp hk
  rw [RwlockSystem.remaining, RwlockSystem.remaining, set_eq_take_append_cons_drop, if_pos hlen]
  conv_rhs => rw [← take_append_drop k y.threads, drop_eq_getElem_cons hlen]
  simp only [map_append, map_cons, sum_append, sum_cons]
  omega

/-- Nobody is in the way of a thread that is counted, of the owner of the flag when there are no
readers, and of any thread when there is no owner either. -/
def Phase.Free (lock : RwLock) (c : Phase) : Prop :=
  c.counted ∨ lock.readers = 0#32 ∧ (c.owns ∨ lock.writer = 0#32 ∧ c ≠ .idle)

theorem Phase.Free.closer (h : c.Free lock) (henter : c ≠ .readEntering) :
    ∃ e lock', c.advance lock = some (e, lock') ∧ e.distance < c.distance := by
  cases c <;> simp_all [Phase.Free, Phase.counted, Phase.owns, Phase.advance, Phase.distance]
  by_cases hwriter : lock.writer = 0#32 <;> simp [hwriter]

section

variable (h : Excluded y.lock y.threads) (hbusy : ∃ c ∈ y.threads, c ≠ .idle)

include h hbusy

theorem Excluded.exists_free : ∃ c ∈ y.threads, c.Free y.lock := by
  by_cases hcounted : ∃ c ∈ y.threads, c.counted
  · obtain ⟨c, hc, hcounted⟩ := hcounted
    exact ⟨c, hc, .inl hcounted⟩
  have hreaders : y.lock.readers = 0#32 := by
    rw [h.readers, countP_eq_zero.mpr fun c hc hcount => hcounted ⟨c, hc, hcount⟩]
  by_cases howned : ∃ c ∈ y.threads, c.owns
  · obtain ⟨c, hc, howns⟩ := howned
    exact ⟨c, hc, .inr ⟨hreaders, .inl howns⟩⟩
  have hwriter : y.lock.writer = 0#32 := by
    rw [h.writer, countP_eq_zero.mpr fun c hc howns => howned ⟨c, hc, howns⟩]
  obtain ⟨c, hc, hidle⟩ := hbusy
  exact ⟨c, hc, .inr ⟨hreaders, .inr ⟨hwriter, hidle⟩⟩⟩

theorem Excluded.closer : ∃ ks y', y.schedule ks = some y' ∧ y'.remaining < y.remaining := by
  obtain ⟨c, hc, hfree⟩ := h.exists_free hbusy
  obtain ⟨k, hk⟩ := mem_iff_getElem?.mp hc
  have hlen : k < y.threads.length := (List.getElem?_eq_some_iff.mp hk).1
  by_cases henter : c = .readEntering
  · -- a reader that enters has to go on to its end, so that it does not begin again
    subst henter
    obtain hcounted | ⟨_, howns | ⟨hwriter, _⟩⟩ := hfree
    · cases hcounted
    · cases howns
    refine ⟨[k, k, k], ⟨⟨y.lock.readers + 1#32 - 1#32, 0#32⟩, y.threads.set k .idle⟩, ?_,
      remaining_set hk (by decide) _⟩
    simp only [RwlockSystem.schedule, foldlM_cons, foldlM_nil, RwlockSystem.step, hk,
      Phase.advance, Option.bind_some, Option.map_some, Option.bind_eq_bind]
    simp [hlen, hwriter]
  · obtain ⟨e, lock', hadvance, hlt⟩ := hfree.closer henter
    refine ⟨[k], ⟨lock', y.threads.set k e⟩, ?_, remaining_set hk hlt lock'⟩
    simp [RwlockSystem.schedule, RwlockSystem.step, hk, hadvance]

end

/-- The invariant, with the number of threads. -/
def ExcludedOf (n : ℕ) (y : RwlockSystem) : Prop :=
  Excluded y.lock y.threads ∧ y.threads.length = n

section

variable (hn : n < 2 ^ 32)

include hn

theorem ExcludedOf.step (y : RwlockSystem) (op : RwlockOp) (y' : RwlockSystem)
    (h : ExcludedOf n y) (hstep : y.step op = some y') : ExcludedOf n y' := by
  obtain ⟨hexcluded, hlength⟩ := h
  refine ⟨hexcluded.step (Nat.lt_of_le_of_lt countP_le_length (hlength ▸ hn)) hstep, ?_⟩
  obtain ⟨k, c, e, _, hthreads, _⟩ := RwlockSystem.move_of_step hstep
  rw [hthreads, length_set, hlength]

theorem ExcludedOf.finishes (lock : RwLock) (h : ExcludedOf n y) :
    ∃ ks, y.schedule ks = some (.start lock n) := by
  induction hm : y.remaining using Nat.strongRecOn generalizing y with
  | _ m ih =>
    by_cases hbusy : ∃ c ∈ y.threads, c ≠ .idle
    · obtain ⟨ks, y', hrun, hlt⟩ := h.1.closer hbusy
      have hafter := run_invariant (fun z k => ExcludedOf.step hn z (.resume k)) h hrun
      obtain ⟨ks', hrest⟩ := ih _ (hm ▸ hlt) hafter rfl
      exact ⟨ks ++ ks', run_append.mpr ⟨y', hrun, hrest⟩⟩
    · have hidle : y.threads = replicate n .idle :=
        eq_replicate_iff.mpr ⟨h.2, fun c hc => not_not.mp fun hne => hbusy ⟨c, hc, hne⟩⟩
      obtain ⟨⟨hreaders, hwriter, _, _⟩, _⟩ := h
      rw [hidle, countP_replicate] at hreaders hwriter
      exact ⟨[], congrArg some (congrArg₂ RwlockSystem.mk (congrArg₂ RwLock.mk hreaders hwriter)
        hidle)⟩

end

/-- In every run of fewer than 2^32 threads, the threads can finish what they have begun, with the
lock as it was at the start: none of them is stuck, whatever has happened before. -/
theorem rwlock_run_finishes (lock : RwLock) (n : ℕ) (hn : n < 2 ^ 32) (ops : List RwlockOp)
    (y : RwlockSystem) (hrun : ops.foldlM RwlockSystem.step (.start lock n) = some y) :
    ∃ ks, y.schedule ks = some (.start lock n) :=
  ExcludedOf.finishes hn lock
    (run_invariant (ExcludedOf.step hn) ⟨.start lock n, length_replicate⟩ hrun)

theorem rwlock_run_finishes_writer_waits :
    ∃ y, readerBeforeWriter.foldlM RwlockSystem.step (.start ⟨3#32, 1#32⟩ 3) = some y ∧
      ∃ ks, y.schedule ks = some (.start ⟨3#32, 1#32⟩ 3) :=
  ⟨_, rfl, rwlock_run_finishes ⟨3#32, 1#32⟩ 3 (by decide) readerBeforeWriter _ rfl⟩

end GnuOS.Rwlock

import GnuOS.Lib.Runs
import GnuOS.Rwlock.Basic
import Mathlib.Algebra.Group.Nat.Defs

/-!
# Readers and writers exclude each other

The fields of the lock count threads: `readers` those between their increment and their decrement,
`writer` those that own the writer flag, of which there is at most one.  A reader enters after it
has announced itself and seen no writer, a writer after it has set its flag and seen no reader, so
the second one to look finds the first.
-/

namespace GnuOS.Rwlock

open GnuOS.Lib List BitVec

variable {lock lock' : RwLock} {c e : Phase} {k : ℕ} {threads : List Phase}

/-- Each operation changes `readers` by what it changes for its thread. -/
theorem Moves.readers (h : Moves lock c e lock') :
    lock'.readers + (if c.counted then 1#32 else 0#32) =
      lock.readers + if e.counted then 1#32 else 0#32 := by
  cases h with
  | withdraws | readUnlock =>
    show lock.readers - 1#32 + 1#32 = lock.readers + 0#32
    rw [BitVec.sub_add_cancel, BitVec.add_zero]
  | _ => simp [Phase.counted]

/-- The fields of the lock agree with the phases of the threads. -/
structure Excluded (lock : RwLock) (threads : List Phase) : Prop where
  readers : lock.readers = BitVec.ofNat 32 (threads.countP Phase.counted)
  writer : lock.writer = BitVec.ofNat 32 (threads.countP Phase.owns)
  one : threads.countP Phase.owns ≤ 1
  apart : .writing ∈ threads → .reading ∉ threads

namespace Excluded

theorem start (lock : RwLock) (n : ℕ) :
    Excluded (RwlockSystem.start lock n).lock (RwlockSystem.start lock n).threads := by
  have hidle : ∀ p : Phase → Bool, p .idle = false →
      (replicate n Phase.idle).countP p = 0 := by
    intro p hp
    simp [countP_replicate, hp]
  refine ⟨?_, ?_, ?_, ?_⟩
  · rw [RwlockSystem.start, hidle _ rfl]
    rfl
  · rw [RwlockSystem.start, hidle _ rfl]
    rfl
  · rw [RwlockSystem.start, hidle _ rfl]
    omega
  · simp [RwlockSystem.start]

section

variable (h : Excluded lock threads)

include h

/-- No thread owns the writer flag when it is clear. -/
theorem no_owner (hzero : lock.writer = 0#32) :
    threads.countP Phase.owns = 0 := by
  have hone := h.one
  have hnat := congrArg BitVec.toNat (h.writer.symm.trans hzero)
  rw [toNat_ofNat, Nat.mod_eq_of_lt (by omega)] at hnat
  exact hnat

theorem one_owner (hne : lock.writer ≠ 0#32) :
    threads.countP Phase.owns = 1 := by
  have hone := h.one
  by_contra hcount
  have hzero : threads.countP Phase.owns = 0 := by omega
  rw [h.writer, hzero] at hne
  exact hne rfl

/-- No thread is counted when `readers` is 0. -/
theorem no_reader (hfew : threads.countP Phase.counted < 2 ^ 32) (hzero : lock.readers = 0#32) :
    threads.countP Phase.counted = 0 := by
  have hnat := congrArg BitVec.toNat (h.readers.symm.trans hzero)
  rw [toNat_ofNat, Nat.mod_eq_of_lt hfew] at hnat
  exact hnat

theorem readers_move (hk : threads[k]? = some c) (hmove : Moves lock c e lock') :
    lock'.readers = BitVec.ofNat 32 ((threads.set k e).countP Phase.counted) := by
  have hcount := congrArg (BitVec.ofNat 32) (countP_set_add (e := e) Phase.counted hk)
  have hif : ∀ b : Bool, BitVec.ofNat 32 (if b then 1 else 0) = if b then 1#32 else 0#32 := by
    decide
  have hreaders := hmove.readers
  rw [ofNat_add, ofNat_add, hif, hif, ← h.readers, ← hreaders] at hcount
  exact ((BitVec.add_left_inj _).mp hcount).symm

/-- What happens to the writer flag and to the threads that own it. -/
theorem writer_move (hk : threads[k]? = some c) (hmove : Moves lock c e lock') :
    lock'.writer = BitVec.ofNat 32 ((threads.set k e).countP Phase.owns) ∧
      (threads.set k e).countP Phase.owns ≤ 1 := by
  have hadd := countP_set_add (e := e) Phase.owns hk
  have hsame := countP_set_same (e := e) (p := Phase.owns) hk
  cases hmove with
  | writeSpins hne =>
    have hcount : (threads.set k .writeSpinning).countP Phase.owns = 1 := by
      rw [hsame rfl]
      exact h.one_owner hne
    rw [hcount]
    exact ⟨rfl, Nat.le_refl 1⟩
  | claims hzero =>
    have hcount : (threads.set k .writeDraining).countP Phase.owns = 1 := by
      have hnone := h.no_owner hzero
      simp only [Phase.owns, Bool.false_eq_true, ↓reduceIte] at hadd
      omega
    rw [hcount]
    exact ⟨rfl, Nat.le_refl 1⟩
  | writeUnlock =>
    have hcount : (threads.set k .idle).countP Phase.owns = 0 := by
      have hone := h.one
      simp only [Phase.owns, Bool.false_eq_true, ↓reduceIte] at hadd
      omega
    rw [hcount]
    exact ⟨rfl, Nat.zero_le 1⟩
  | _ =>
    rw [hsame rfl]
    exact ⟨h.writer, h.one⟩

/-- The second of a reader and a writer to look finds the first. -/
theorem apart_move (hfew : threads.countP Phase.counted < 2 ^ 32) (hmove : Moves lock c e lock')
    (hwriting : .writing ∈ threads.set k e) :
    .reading ∉ threads.set k e := by
  intro hreading
  rcases mem_or_eq_of_mem_set hwriting with hw | rfl
  · rcases mem_or_eq_of_mem_set hreading with hr | rfl
    · exact h.apart hw hr
    · cases hmove with
      | readAcquires hzero =>
        have hpos := countP_pos_iff.mpr ⟨_, hw, (rfl : Phase.writing.owns = true)⟩
        rw [h.no_owner hzero] at hpos
        omega
  · rcases mem_or_eq_of_mem_set hreading with hr | hr
    · cases hmove with
      | writeAcquires hzero =>
        have hpos := countP_pos_iff.mpr ⟨_, hr, (rfl : Phase.reading.counted = true)⟩
        rw [h.no_reader hfew hzero] at hpos
        omega
    · exact absurd hr (by simp)

end

theorem step {y y' : RwlockSystem} {op : RwlockOp} (h : Excluded y.lock y.threads)
    (hfew : y.threads.countP Phase.counted < 2 ^ 32) (hstep : y.step op = some y') :
    Excluded y'.lock y'.threads := by
  rcases RwlockSystem.move_of_step hstep with ⟨k, c, e, hk, hthreads, hmove⟩
  have hwriter := h.writer_move hk hmove
  rw [hthreads]
  exact ⟨h.readers_move hk hmove, hwriter.1, hwriter.2, h.apart_move hfew hmove⟩

end Excluded

/-! ## Exclusion in every run -/

/-- Fewer than 2^32 readers are announced. -/
def FewReaders (y : RwlockSystem) : Prop := y.threads.countP Phase.counted < 2 ^ 32

instance (y : RwlockSystem) : Decidable (FewReaders y) := by
  unfold FewReaders
  infer_instance

/-- At most one writer is in its critical section, and then no reader; and `readers` is the number
of threads between their increment and their decrement. -/
structure ReadersWritersExcluded (y : RwlockSystem) : Prop where
  writers : ∀ j k : ℕ, y.threads[j]? = some .writing → y.threads[k]? = some .writing → j = k
  readers : ∀ j k : ℕ, y.threads[j]? = some .writing → y.threads[k]? ≠ some .reading
  count : y.lock.readers.toNat = y.threads.countP Phase.counted

/-- For any number of threads, of which fewer than 2^32 read at once, in every state reached. -/
theorem rwlock_run_exclusion (lock : RwLock) (n : ℕ) (ops : List RwlockOp) (y : RwlockSystem)
    (hrun : ops.foldlM RwlockSystem.step (RwlockSystem.start lock n) = some y)
    (hfew : Throughout RwlockSystem.step FewReaders (RwlockSystem.start lock n) ops) :
    ReadersWritersExcluded y := by
  have h : Excluded y.lock y.threads := by
    refine run_invariant_of (P := fun y => Excluded y.lock y.threads) ?_ (.start lock n)
      hfew.eachStep hrun
    intro y₁ op y₂ h₁ hfew₁ hstep
    exact h₁.step hfew₁.1 hstep
  refine ⟨fun j k hj hk => ?_, fun j k hj hk => ?_, ?_⟩
  · exact eq_of_countP_le_one h.one hj rfl hk rfl
  · exact h.apart (mem_of_getElem? hj) (mem_of_getElem? hk)
  · rw [h.readers, toNat_ofNat]
    exact Nat.mod_eq_of_lt (hfew.last hrun)

/-- A reader holds the lock while a writer waits for it and a second reader backs out. -/
def readerBeforeWriter : List RwlockOp :=
  [.readLock 0, .resume 0, .readLock 2, .resume 2, .resume 0, .resume 0, .writeLock 1, .resume 1,
    .resume 2, .resume 2, .resume 2, .resume 1, .resume 0, .resume 1]

theorem rwlock_run_exclusion_writer_waits :
    ∃ y, readerBeforeWriter.foldlM RwlockSystem.step (.start ⟨3#32, 1#32⟩ 3) = some y ∧
      y.threads = [.idle, .writing, .readSpinning] ∧ ReadersWritersExcluded y := by
  refine ⟨_, rfl, rfl, ?_⟩
  exact rwlock_run_exclusion ⟨3#32, 1#32⟩ 3 readerBeforeWriter _ rfl
    (.of_eachStep (by decide +kernel) rfl (by decide +kernel))

end GnuOS.Rwlock

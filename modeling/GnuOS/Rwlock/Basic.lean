import GnuOS.Lib.Pool

/-!
# The reader-writer lock

A model of `kernel/lib/rwlock.c`, and the system of the threads that use one lock.  Each step is one
atomic operation on a field of the lock: the operations interleave in any order, and are seen in
that order by all threads.  The functions return at once for a null lock, which no thread passes.
-/

namespace GnuOS.Rwlock

open GnuOS.Lib

/-- `rwlock_t` -/
structure RwLock where
  readers : BitVec 32
  writer : BitVec 32
  deriving DecidableEq, Repr

def rwlockInit (_lock : RwLock) : RwLock := ⟨0#32, 0#32⟩

/-! ## Threads -/

/-- Which operation a thread executes next. -/
inductive Phase
  /-- Outside; it may call `rwlock_read_lock` or `rwlock_write_lock`. -/
  | idle
  /-- `rwlock_read_lock` loads `writer` in its inner loop. -/
  | readSpinning
  /-- It increments `readers`. -/
  | readEntering
  /-- It loads `writer` again. -/
  | readChecking
  /-- It found a writer, and decrements `readers`. -/
  | readRetreating
  /-- In the critical section of a reader; `rwlock_read_unlock` decrements `readers`. -/
  | reading
  /-- `rwlock_write_lock` exchanges `writer`. -/
  | writeSpinning
  /-- It loads `readers`. -/
  | writeDraining
  /-- In the critical section of a writer; `rwlock_write_unlock` clears `writer`. -/
  | writing
  deriving DecidableEq, Repr

namespace Phase

/-- Between the increment of `readers` and the matching decrement. -/
def counted : Phase → Bool
  | .readChecking => true
  | .readRetreating => true
  | .reading => true
  | _ => false

/-- Between the exchange that set `writer` and the store that clears it. -/
def owns : Phase → Bool
  | .writeDraining => true
  | .writing => true
  | _ => false

/-- The next operation of a thread that is inside one of the functions or a critical section. -/
def advance (lock : RwLock) : Phase → Option (Phase × RwLock)
  | .idle => none
  | .readSpinning => some (if lock.writer ≠ 0#32 then .readSpinning else .readEntering, lock)
  | .readEntering => some (.readChecking, { lock with readers := lock.readers + 1#32 })
  | .readChecking => some (if lock.writer = 0#32 then .reading else .readRetreating, lock)
  | .readRetreating => some (.readSpinning, { lock with readers := lock.readers - 1#32 })
  | .reading => some (.idle, { lock with readers := lock.readers - 1#32 })
  | .writeSpinning =>
    some (if lock.writer ≠ 0#32 then .writeSpinning else .writeDraining,
      { lock with writer := 1#32 })
  | .writeDraining => some (if lock.readers ≠ 0#32 then .writeDraining else .writing, lock)
  | .writing => some (.idle, { lock with writer := 0#32 })

end Phase

/-! ## The system -/

structure RwlockSystem where
  lock : RwLock
  threads : List Phase

inductive RwlockOp
  | readLock (k : ℕ)
  | writeLock (k : ℕ)
  /-- Thread `k` executes its next operation. -/
  | resume (k : ℕ)

namespace RwlockSystem

/-- `n` threads, after `rwlock_init`. -/
def start (lock : RwLock) (n : ℕ) : RwlockSystem := ⟨rwlockInit lock, List.replicate n .idle⟩

def step (y : RwlockSystem) : RwlockOp → Option RwlockSystem
  | .readLock k =>
    if y.threads[k]? = some .idle then
      some { y with threads := y.threads.set k .readSpinning }
    else none
  | .writeLock k =>
    if y.threads[k]? = some .idle then
      some { y with threads := y.threads.set k .writeSpinning }
    else none
  | .resume k =>
    (y.threads[k]?).bind fun c => (c.advance y.lock).map fun p => ⟨p.2, y.threads.set k p.1⟩

end RwlockSystem

/-- One operation of a thread, with what it reads. -/
inductive Moves (lock : RwLock) : Phase → Phase → RwLock → Prop
  | readLock : Moves lock .idle .readSpinning lock
  | writeLock : Moves lock .idle .writeSpinning lock
  | readSpins (hne : lock.writer ≠ 0#32) : Moves lock .readSpinning .readSpinning lock
  | readEnters (hzero : lock.writer = 0#32) : Moves lock .readSpinning .readEntering lock
  | announces : Moves lock .readEntering .readChecking { lock with readers := lock.readers + 1#32 }
  | readAcquires (hzero : lock.writer = 0#32) : Moves lock .readChecking .reading lock
  | retreats (hne : lock.writer ≠ 0#32) : Moves lock .readChecking .readRetreating lock
  | withdraws :
    Moves lock .readRetreating .readSpinning { lock with readers := lock.readers - 1#32 }
  | readUnlock : Moves lock .reading .idle { lock with readers := lock.readers - 1#32 }
  | writeSpins (hne : lock.writer ≠ 0#32) :
    Moves lock .writeSpinning .writeSpinning { lock with writer := 1#32 }
  | claims (hzero : lock.writer = 0#32) :
    Moves lock .writeSpinning .writeDraining { lock with writer := 1#32 }
  | drains (hne : lock.readers ≠ 0#32) : Moves lock .writeDraining .writeDraining lock
  | writeAcquires (hzero : lock.readers = 0#32) : Moves lock .writeDraining .writing lock
  | writeUnlock : Moves lock .writing .idle { lock with writer := 0#32 }

variable {lock lock' : RwLock} {c e : Phase}

theorem Moves.of_advance (h : c.advance lock = some (e, lock')) : Moves lock c e lock' := by
  cases c <;> simp only [Phase.advance, Option.some.injEq, Prod.mk.injEq, reduceCtorEq] at h
  all_goals obtain ⟨rfl, rfl⟩ := h
  case readSpinning =>
    split
    · exact .readSpins ‹_›
    · exact .readEnters (not_not.mp ‹_›)
  case readEntering => exact .announces
  case readChecking =>
    split
    · exact .readAcquires ‹_›
    · exact .retreats ‹_›
  case readRetreating => exact .withdraws
  case reading => exact .readUnlock
  case writeSpinning =>
    split
    · exact .writeSpins ‹_›
    · exact .claims (not_not.mp ‹_›)
  case writeDraining =>
    split
    · exact .drains ‹_›
    · exact .writeAcquires (not_not.mp ‹_›)
  case writing => exact .writeUnlock

/-- Every step is one operation of one thread. -/
theorem RwlockSystem.move_of_step {y y' : RwlockSystem} {op : RwlockOp}
    (h : y.step op = some y') :
    ∃ k c e, y.threads[k]? = some c ∧ y'.threads = y.threads.set k e ∧
      Moves y.lock c e y'.lock := by
  cases op with
  | readLock k =>
    simp only [RwlockSystem.step, Option.ite_none_right_eq_some, Option.some.injEq] at h
    obtain ⟨hk, rfl⟩ := h
    exact ⟨k, _, _, hk, rfl, .readLock⟩
  | writeLock k =>
    simp only [RwlockSystem.step, Option.ite_none_right_eq_some, Option.some.injEq] at h
    obtain ⟨hk, rfl⟩ := h
    exact ⟨k, _, _, hk, rfl, .writeLock⟩
  | resume k =>
    simp only [RwlockSystem.step, Option.bind_eq_some_iff, Option.map_eq_some_iff] at h
    obtain ⟨c, hk, ⟨e, lock⟩, hadvance, rfl⟩ := h
    exact ⟨k, c, e, hk, rfl, .of_advance hadvance⟩

end GnuOS.Rwlock

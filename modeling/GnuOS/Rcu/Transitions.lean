import GnuOS.Lib.LinkedQueue
import GnuOS.Rcu.Basic

/-!
# What a step of the callbacks does

The critical sections over the list of callbacks, and one inversion lemma for the steps of the
system, from which the invariants are derived.
-/

namespace GnuOS.Rcu

open GnuOS.Lib Function

/-! ## The list of callbacks -/

variable {s s' : RcuState} {l : List (BitVec 64)} {head func a : BitVec 64}

/-- The list from `g_callbacks_head` to `g_callbacks_tail`. -/
def CallbackList (s : RcuState) (l : List (BitVec 64)) : Prop :=
  LinkedQueue s.next 0#64 s.callbacksHead s.callbacksTail l

theorem rcuInit_list : CallbackList (rcuInit s) [] := LinkedQueue.empty

/-- The stores of `call_rcu` do not reach the list. -/
theorem callRcuPrepare_list (h : CallbackList s l) (hmem : head ∉ l) :
    CallbackList (callRcuPrepare s head func) l := by
  apply LinkedQueue.congr h
  intro b hb
  apply update_of_ne
  rintro rfl
  exact hmem hb

/-- A state in which the list and the queued count have changed, and the other heads have not. -/
structure Appended (s : RcuState) (l : List (BitVec 64)) (head : BitVec 64) (s' : RcuState) :
    Prop where
  callbacks : CallbackList s' (l ++ [head])
  queued : s'.callbacksQueuedCount = s.callbacksQueuedCount + 1#64
  completed : s'.callbacksCompletedCount = s.callbacksCompletedCount
  func : s'.func = s.func
  next : ∀ b, b ∉ l → s'.next b = s.next b

theorem callRcuLocked_spec (h : CallbackList s l) (hhead : head ≠ 0#64)
    (hnext : s.next head = 0#64) (hmem : head ∉ l) :
    Appended s l head (callRcuLocked s head) := by
  unfold callRcuLocked
  by_cases hempty : s.callbacksHead = 0#64
  · rw [CallbackList, hempty] at h
    simp only [hempty, ↓reduceIte]
    exact ⟨h.push_empty hhead hnext, rfl, rfl, rfl, fun _ _ => rfl⟩
  · simp only [hempty, ↓reduceIte]
    refine ⟨LinkedQueue.push h hempty hhead hnext hmem, rfl, rfl, rfl, ?_⟩
    intro b hb
    apply update_of_ne
    rintro rfl
    exact hb (LinkedQueue.tail_mem h hempty)

theorem callRcuLocked_readers : (callRcuLocked s head).readers = s.readers := by
  unfold callRcuLocked
  split <;> rfl

/-- A state in which the first head was taken from the list. -/
structure Removed (s : RcuState) (l : List (BitVec 64)) (head : BitVec 64) (s' : RcuState) :
    Prop where
  callbacks : ∃ l', l = head :: l' ∧ CallbackList s' l'
  queued : s'.callbacksQueuedCount = s.callbacksQueuedCount
  completed : s'.callbacksCompletedCount = s.callbacksCompletedCount
  readers : s'.readers = s.readers
  func : s'.func = s.func
  next : ∀ b, b ≠ head → s'.next b = s.next b

theorem rcuDequeueLocked_spec (h : CallbackList s l)
    (hdequeue : rcuDequeueLocked s = some (a, s')) : Removed s l a s' := by
  unfold rcuDequeueLocked at hdequeue
  split at hdequeue
  · simp at hdequeue
  · rename_i hhead
    simp only [Option.some.injEq, Prod.mk.injEq] at hdequeue
    rcases hdequeue with ⟨rfl, rfl⟩
    exact ⟨LinkedQueue.pop h hhead, rfl, rfl, rfl, rfl, fun b hb => update_of_ne hb _ _⟩

/-! ## The steps of the system -/

variable {y y' : RcuSystem} {k n : ℕ} {blockIfEmpty : Bool} {callback : Option (ℕ × BitVec 64)}

/-- The steps of the system, with what they require. -/
inductive Transition (y : RcuSystem) : RcuOp → RcuSystem → Prop
  | opens : Transition y .readLock
      { y with rcu := rcuReadLock y.rcu, calls := y.calls ++ [.reading] }
  /-- A call without head or function returns at once. -/
  | refuses {head func : BitVec 64} (hnull : head = 0#64 ∨ func = 0#64) :
    Transition y (.callRcu head func) { y with calls := y.calls ++ [.returned false] }
  | prepares {head func : BitVec 64} (hhead : head ≠ 0#64) (hpending : head ∉ y.pending) :
    Transition y (.callRcu head func)
      { y with
        rcu := callRcuPrepare y.rcu head func
        calls := y.calls ++ [.linking head func]
        pending := head :: y.pending }
  | processes {blockIfEmpty : Bool} : Transition y (.processCallbacks blockIfEmpty)
      { y with calls := y.calls ++ [.dequeuing blockIfEmpty] }
  | synchronizes : Transition y .synchronizeRcu
      { y with calls := y.calls ++ [.synchronizing none] }
  /-- `rcu_read_unlock` reads 0, and does not decrement. -/
  | abandons {k : ℕ} (hk : y.calls[k]? = some .reading) (hzero : y.rcu.readers = 0#64) :
    Transition y (.resume k) { y with calls := y.calls.set k .closed }
  | unlocks {k : ℕ} (hk : y.calls[k]? = some .reading) (hne : y.rcu.readers ≠ 0#64) :
    Transition y (.resume k) { y with calls := y.calls.set k .unlocking }
  | closes {k : ℕ} (hk : y.calls[k]? = some .unlocking) :
    Transition y (.resume k)
      { y with rcu := rcuReadUnlockSub y.rcu, calls := y.calls.set k .closed }
  | links {k : ℕ} {head func : BitVec 64} (hk : y.calls[k]? = some (.linking head func)) :
    Transition y (.resume k)
      { y with
        rcu := callRcuLocked y.rcu head
        calls := y.calls.set k (.returned true)
        links := y.links ++ [⟨head, func, openSections y.calls⟩] }
  | empty {k : ℕ} {blockIfEmpty : Bool} (hk : y.calls[k]? = some (.dequeuing blockIfEmpty))
    (hempty : rcuDequeueLocked y.rcu = none) :
    Transition y (.resume k)
      { y with calls := y.calls.set k (if blockIfEmpty then
          .dequeuing blockIfEmpty else .returned false) }
  | dequeues {k : ℕ} {blockIfEmpty : Bool} {head : BitVec 64} {s : RcuState}
    (hk : y.calls[k]? = some (.dequeuing blockIfEmpty))
    (hdequeue : rcuDequeueLocked y.rcu = some (head, s)) :
    Transition y (.resume k)
      { y with
        rcu := s
        calls := y.calls.set k (.synchronizing (some (y.dequeued.length, head)))
        dequeued := y.dequeued ++ [head] }
  | waits {k : ℕ} {callback : Option (ℕ × BitVec 64)}
    (hk : y.calls[k]? = some (.synchronizing callback)) (hne : y.rcu.readers ≠ 0#64) :
    Transition y (.resume k) y
  | passes {k : ℕ} {callback : Option (ℕ × BitVec 64)}
    (hk : y.calls[k]? = some (.synchronizing callback)) (hzero : y.rcu.readers = 0#64) :
    Transition y (.resume k) { y with calls := y.calls.set k (.synchronized callback) }
  | invokes {k n : ℕ} {head : BitVec 64} (hk : y.calls[k]? = some (.invoking n head)) :
    Transition y (.resume k)
      { y with
        calls := y.calls.set k (.invoked n head)
        pending := y.pending.filter (· ≠ head)
        invocations := y.invocations ++ [⟨n, head, y.rcu.func head, openSections y.calls⟩] }
  | completes {k n : ℕ} {head : BitVec 64} (hk : y.calls[k]? = some (.invoked n head)) :
    Transition y (.resume k)
      { y with
        rcu := rcuCompleteLocked y.rcu
        calls := y.calls.set k (.returned true)
        completed := y.completed ++ [n] }

theorem Transition.of_resume {c : Call} (hk : y.calls[k]? = some c)
    (hstep : y.resumeCall k c = some y') : Transition y (.resume k) y' := by
  cases c with
  | reading =>
    rw [← Option.some.inj hstep]
    by_cases hzero : y.rcu.readers = 0#64
    · simp only [hzero, ↓reduceIte]
      exact .abandons hk hzero
    · simp only [hzero, ↓reduceIte]
      exact .unlocks hk hzero
  | unlocking =>
    rw [← Option.some.inj hstep]
    exact .closes hk
  | closed => simp [RcuSystem.resumeCall] at hstep
  | linking head func =>
    rw [← Option.some.inj hstep]
    exact .links hk
  | dequeuing blockIfEmpty =>
    simp only [RcuSystem.resumeCall] at hstep
    split at hstep
    · rename_i hempty
      rw [← Option.some.inj hstep]
      exact .empty hk hempty
    · rename_i hdequeue
      rw [← Option.some.inj hstep]
      exact .dequeues hk hdequeue
  | synchronizing callback =>
    simp only [RcuSystem.resumeCall] at hstep
    split at hstep
    · rename_i hzero
      rw [← Option.some.inj hstep]
      exact .passes hk hzero
    · rename_i hne
      rw [← Option.some.inj hstep]
      exact .waits hk hne
  | invoking n head =>
    rw [← Option.some.inj hstep]
    exact .invokes hk
  | invoked n head =>
    rw [← Option.some.inj hstep]
    exact .completes hk
  | returned result => simp [RcuSystem.resumeCall] at hstep

theorem Transition.of_step {op : RcuOp} (hstep : y.step op = some y') : Transition y op y' := by
  cases op with
  | readLock =>
    rw [← Option.some.inj hstep]
    exact .opens
  | callRcu head func =>
    simp only [RcuSystem.step] at hstep
    split at hstep
    · rename_i hnull
      rw [← Option.some.inj hstep]
      exact .refuses hnull
    · rename_i hnull
      split at hstep
      · simp at hstep
      · rename_i hpending
        rw [← Option.some.inj hstep]
        exact .prepares (fun h => hnull (.inl h)) hpending
  | processCallbacks blockIfEmpty =>
    rw [← Option.some.inj hstep]
    exact .processes
  | synchronizeRcu =>
    rw [← Option.some.inj hstep]
    exact .synchronizes
  | resume k =>
    rw [RcuSystem.step, Option.bind_eq_some_iff] at hstep
    rcases hstep with ⟨c, hk, hstep⟩
    exact .of_resume hk hstep

end GnuOS.Rcu

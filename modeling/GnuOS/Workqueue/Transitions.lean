import GnuOS.Workqueue.Basic

/-!
# What a step of the work queue does

The queue functions over the list of items, and one inversion lemma for the steps of the system,
from which the invariants are derived.
-/

namespace GnuOS.Workqueue

open GnuOS.Lib GnuOS.Sched

/-! ## The queue functions -/

variable {queue queue' : WorkQueue} {item : WorkItem}

/-- A valid queue took an item in. -/
structure Enqueued (queue : WorkQueue) (item : WorkItem) (queue' : WorkQueue) : Prop where
  valid : queue'.ring.Valid 128
  items : queue'.items = queue.items ++ [item]
  submitted : queue'.submitted = queue.submitted + 1#64
  completed : queue'.completed = queue.completed

/-- A valid queue gave its oldest item out. -/
structure Dequeued (queue : WorkQueue) (item : WorkItem) (queue' : WorkQueue) : Prop where
  valid : queue'.ring.Valid 128
  items : queue.items = item :: queue'.items
  submitted : queue'.submitted = queue.submitted
  completed : queue'.completed = queue.completed

/-- A submission fails exactly when 128 items are pending, and then changes nothing. -/
theorem workqueueSubmitLocked_spec (h : queue.ring.Valid 128) (item : WorkItem) :
    (queue.items.length = 128 ∧ workqueueSubmitLocked queue item = (false, queue)) ∨
      (queue.items.length < 128 ∧ ∃ queue', workqueueSubmitLocked queue item = (true, queue') ∧
        Enqueued queue item queue') := by
  have hlength : queue.items.length = queue.ring.size := RingBuffer.length_contents
  have hle := h.size_le
  unfold workqueueSubmitLocked
  cases hpush : queue.ring.push workqueueCapacity item with
  | none =>
    have hfull : 128 ≤ queue.ring.size := RingBuffer.push_eq_none_iff.mp hpush
    exact .inl ⟨by omega, rfl⟩
  | some r =>
    have hroom : ¬ 128 ≤ queue.ring.size := by
      intro hfull
      have hnone : queue.ring.push workqueueCapacity item = none :=
        RingBuffer.push_eq_none_iff.mpr hfull
      rw [hpush] at hnone
      exact absurd hnone (by simp)
    rcases RingBuffer.push_contents h hpush with ⟨hvalid, hcontents⟩
    exact .inr ⟨by omega, _, rfl, hvalid, hcontents, rfl, rfl⟩

/-- A pop fails exactly when no item is pending. -/
theorem workqueuePopLocked_spec (h : queue.ring.Valid 128) :
    (queue.items = [] ∧ workqueuePopLocked queue = none) ∨
      ∃ item queue', workqueuePopLocked queue = some (item, queue') ∧
        Dequeued queue item queue' := by
  unfold workqueuePopLocked
  cases hpop : queue.ring.pop workqueueCapacity with
  | none => exact .inl ⟨RingBuffer.pop_eq_none_iff.mp hpop, rfl⟩
  | some p =>
    rcases RingBuffer.pop_contents h hpop with ⟨hvalid, hcontents⟩
    exact .inr ⟨p.1, _, rfl, hvalid, hcontents, rfl, rfl⟩

/-! ## The steps of the system -/

variable {Q : Type} [DecidableEq Q] {waiters : Q} {y y' : WorkSystem Q}

/-- The steps of the system, with what they require. -/
inductive Transition (waiters : Q) (y : WorkSystem Q) : WorkOp Q → WorkSystem Q → Prop
  | sched {op : SchedOp Q} {z : SchedSystem Q} (hpermits : y.permits waiters op = true)
    (hexec : y.sched.exec op = some z) : Transition waiters y (.sched op) { y with sched := z }
  /-- A submission without function returns at once. -/
  | refuses {arg : BitVec 64} : Transition waiters y (.submit 0#64 arg)
      { y with calls := y.calls ++ [.returned false] }
  | submits {func arg : BitVec 64} (hfunc : func ≠ 0#64) : Transition waiters y (.submit func arg)
      { y with calls := y.calls ++ [.submitting ⟨func, arg⟩] }
  | executes {task : TaskRef} {blockIfEmpty : Bool} (hrun : y.canRun task = true) :
    Transition waiters y (.executeOne task blockIfEmpty)
      { y with calls := y.calls ++ [.popping task blockIfEmpty] }
  | full {k : ℕ} {item : WorkItem} (hk : y.calls[k]? = some (.submitting item))
    (hfull : y.queue.items.length = 128) :
    Transition waiters y (.resume k) { y with calls := y.calls.set k (.returned false) }
  | enqueues {k : ℕ} {item : WorkItem} {queue : WorkQueue}
    (hk : y.calls[k]? = some (.submitting item)) (hroom : y.queue.items.length < 128)
    (hqueue : Enqueued y.queue item queue) :
    Transition waiters y (.resume k)
      { y with
        calls := y.calls.set k .waking
        queue := queue
        submits := y.submits ++ [item] }
  | wakes {k : ℕ} {z : SchedSystem Q} (hk : y.calls[k]? = some .waking)
    (hexec : y.sched.exec (.waitQueueWakeOne (some waiters)) = some z) :
    Transition waiters y (.resume k)
      { y with sched := z, calls := y.calls.set k (.returned true) }
  | empty {k : ℕ} {task : TaskRef} {blockIfEmpty : Bool}
    (hk : y.calls[k]? = some (.popping task blockIfEmpty)) (hrun : y.canRun task = true)
    (hempty : y.queue.items = []) :
    Transition waiters y (.resume k)
      { y with calls := y.calls.set k (if blockIfEmpty then .sleeping task else .returned false) }
  | pops {k : ℕ} {task : TaskRef} {blockIfEmpty : Bool} {item : WorkItem} {queue : WorkQueue}
    (hk : y.calls[k]? = some (.popping task blockIfEmpty)) (hrun : y.canRun task = true)
    (hqueue : Dequeued y.queue item queue) :
    Transition waiters y (.resume k)
      { y with
        calls := y.calls.set k (.holding task y.popped.length item)
        queue := queue
        popped := y.popped ++ [item] }
  | sleeps {k : ℕ} {task : TaskRef} {z : SchedSystem Q}
    (hk : y.calls[k]? = some (.sleeping task)) (hcur : y.sched.sched.currentTask = task)
    (hexec : y.sched.exec (.waitQueueWait (some waiters)) = some z) :
    Transition waiters y (.resume k)
      { y with
        sched := z
        calls := y.calls.set k (if (schedWaitQueueWait y.sched.sched (some waiters)).1 then
          .popping task true else .yielding task) }
  | yields {k : ℕ} {task : TaskRef} {z : SchedSystem Q}
    (hk : y.calls[k]? = some (.yielding task)) (hexec : y.sched.exec .yield = some z) :
    Transition waiters y (.resume k)
      { y with sched := z, calls := y.calls.set k (.popping task true) }
  | calls {k : ℕ} {task : TaskRef} {n : ℕ} {item : WorkItem}
    (hk : y.calls[k]? = some (.holding task n item)) :
    Transition waiters y (.resume k)
      { y with calls := y.calls.set k (.running task n item), ran := y.ran ++ [(n, item)] }
  | finishes {k : ℕ} {task : TaskRef} {n : ℕ} {item : WorkItem}
    (hk : y.calls[k]? = some (.running task n item)) :
    Transition waiters y (.resume k)
      { y with
        calls := y.calls.set k (.returned true)
        queue := workqueueCompleteLocked y.queue
        finished := y.finished ++ [n] }

theorem Transition.of_resume {k : ℕ} {c : Call} (hvalid : y.queue.ring.Valid 128)
    (hk : y.calls[k]? = some c) (hstep : y.resumeCall waiters k c = some y') :
    Transition waiters y (.resume k) y' := by
  cases c with
  | submitting item =>
    simp only [WorkSystem.resumeCall] at hstep
    rcases workqueueSubmitLocked_spec hvalid item with ⟨hfull, heq⟩ | ⟨hroom, queue, heq, hqueue⟩
    · rw [heq, Option.some.injEq] at hstep
      rw [← hstep]
      exact .full hk hfull
    · rw [heq, Option.some.injEq] at hstep
      rw [← hstep]
      exact .enqueues hk hroom hqueue
  | waking =>
    simp only [WorkSystem.resumeCall, Option.map_eq_some_iff] at hstep
    rcases hstep with ⟨z, hexec, rfl⟩
    exact .wakes hk hexec
  | popping task blockIfEmpty =>
    obtain ⟨hrun, hstep⟩ := Option.ite_none_right_eq_some.mp hstep
    rcases workqueuePopLocked_spec hvalid with ⟨hempty, heq⟩ | ⟨item, queue, heq, hqueue⟩
    · rw [heq, Option.some.injEq] at hstep
      rw [← hstep]
      exact .empty hk hrun hempty
    · rw [heq, Option.some.injEq] at hstep
      rw [← hstep]
      exact .pops hk hrun hqueue
  | sleeping task =>
    obtain ⟨hcur, hstep⟩ := Option.ite_none_right_eq_some.mp hstep
    rw [Option.map_eq_some_iff] at hstep
    rcases hstep with ⟨z, hexec, rfl⟩
    exact .sleeps hk hcur hexec
  | yielding task =>
    obtain ⟨-, hstep⟩ := Option.ite_none_right_eq_some.mp hstep
    rw [Option.map_eq_some_iff] at hstep
    rcases hstep with ⟨z, hexec, rfl⟩
    exact .yields hk hexec
  | holding task n item =>
    obtain ⟨-, hstep⟩ := Option.ite_none_right_eq_some.mp hstep
    rw [← Option.some.inj hstep]
    exact .calls hk
  | running task n item =>
    obtain ⟨-, hstep⟩ := Option.ite_none_right_eq_some.mp hstep
    rw [← Option.some.inj hstep]
    exact .finishes hk
  | returned result => simp [WorkSystem.resumeCall] at hstep

theorem Transition.of_step {op : WorkOp Q} (hvalid : y.queue.ring.Valid 128)
    (hstep : y.step waiters op = some y') : Transition waiters y op y' := by
  cases op with
  | sched op =>
    obtain ⟨hpermits, hstep⟩ := Option.ite_none_right_eq_some.mp hstep
    rw [Option.map_eq_some_iff] at hstep
    rcases hstep with ⟨z, hexec, rfl⟩
    exact .sched hpermits hexec
  | submit func arg =>
    simp only [WorkSystem.step] at hstep
    split at hstep
    · rename_i hfunc
      rw [hfunc, ← Option.some.inj hstep]
      exact .refuses
    · rename_i hfunc
      rw [← Option.some.inj hstep]
      exact .submits hfunc
  | executeOne task blockIfEmpty =>
    obtain ⟨hrun, hstep⟩ := Option.ite_none_right_eq_some.mp hstep
    rw [← Option.some.inj hstep]
    exact .executes hrun
  | resume k =>
    simp only [WorkSystem.step, Option.bind_eq_some_iff] at hstep
    rcases hstep with ⟨c, hk, hstep⟩
    exact .of_resume hvalid hk hstep

end GnuOS.Workqueue

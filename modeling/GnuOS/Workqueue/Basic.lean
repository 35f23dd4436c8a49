import GnuOS.Lib.Pool
import GnuOS.Sched.Runs

/-!
# The work queue

A model of `kernel/sched/workqueue.c`, and the system of its calls on one queue.  A call is a
sequence of atomic steps: the critical sections under the queue's lock, the calls of the scheduler,
and the call of an item's function.  The tasks are those of the scheduler; its other steps may come
at any time.

The wait queue of the work queue is named `waiters`; only the functions of `workqueue.c` use it.
The name of the queue is not read by any function and is left out.
-/

namespace GnuOS.Workqueue

open GnuOS.Lib GnuOS.Sched

/-! ## The functions on the queue -/

def workqueueCapacity : ℕ := 128

structure WorkItem where
  func : BitVec 64
  arg : BitVec 64
  deriving DecidableEq, Repr

/-- `work_queue_t` -/
structure WorkQueue where
  ring : RingBuffer WorkItem
  submitted : BitVec 64
  completed : BitVec 64

/-- `none` is the return value 0. -/
def workqueuePopLocked (queue : WorkQueue) : Option (WorkItem × WorkQueue) :=
  (queue.ring.pop workqueueCapacity).map fun p => (p.1, { queue with ring := p.2 })

/-- `workqueue_init`, without the initialisation of the waiters. -/
def workqueueInit (queue : WorkQueue) : WorkQueue :=
  { ring := queue.ring.reset, submitted := 0#64, completed := 0#64 }

/-- The critical section of `workqueue_submit`. -/
def workqueueSubmitLocked (queue : WorkQueue) (item : WorkItem) : Bool × WorkQueue :=
  match queue.ring.push workqueueCapacity item with
  | none => (false, queue)
  | some r => (true, { queue with ring := r, submitted := queue.submitted + 1#64 })

/-- The last critical section of `workqueue_execute_one`. -/
def workqueueCompleteLocked (queue : WorkQueue) : WorkQueue :=
  { queue with completed := queue.completed + 1#64 }

def workqueuePending : Option WorkQueue → BitVec 64
  | none => 0#64
  | some queue => BitVec.ofNat 64 queue.ring.size

def workqueueSubmitted : Option WorkQueue → BitVec 64
  | none => 0#64
  | some queue => queue.submitted

def workqueueCompleted : Option WorkQueue → BitVec 64
  | none => 0#64
  | some queue => queue.completed

/-- The items in the queue, oldest first. -/
def WorkQueue.items (queue : WorkQueue) : List WorkItem := queue.ring.contents 128

/-! ## Calls -/

/-- How far a call of `workqueue_submit` or `workqueue_execute_one` has got.  The number of an
item is its position in the order of the submissions. -/
inductive Call
  | submitting (item : WorkItem)
  /-- The item is in the queue; `sched_wait_queue_wake_one` is still to be called. -/
  | waking
  /-- At the top of the loop of `workqueue_execute_one`. -/
  | popping (task : TaskRef) (blockIfEmpty : Bool)
  /-- The queue was empty; `sched_wait_queue_wait` is still to be called. -/
  | sleeping (task : TaskRef)
  /-- `sched_wait_queue_wait` returned 0; `sched_yield` is still to be called. -/
  | yielding (task : TaskRef)
  /-- An item was popped; its function is still to be called. -/
  | holding (task : TaskRef) (n : ℕ) (item : WorkItem)
  | running (task : TaskRef) (n : ℕ) (item : WorkItem)
  | returned (result : Bool)
  deriving DecidableEq, Repr

namespace Call

/-- The task that is inside the loop of `workqueue_execute_one`, without an item. -/
def looping : Call → Option TaskRef
  | .popping task _ => some task
  | .sleeping task => some task
  | .yielding task => some task
  | _ => none

/-- The item that was popped and has not been finished. -/
def held : Call → Option (ℕ × WorkItem)
  | .holding _ n item => some (n, item)
  | .running _ n item => some (n, item)
  | _ => none

def isHolding (c : Call) : Bool := c.held.isSome

/-- The item whose function has been called and has not returned. -/
def runs : Call → Option ℕ
  | .running _ n _ => some n
  | _ => none

end Call

/-! ## The system -/

/-- The scheduler, a work queue with its calls, and what happened so far: the items submitted and
popped in this order, the functions called for them, and the items finished. -/
structure WorkSystem (Q : Type) where
  sched : SchedSystem Q
  queue : WorkQueue
  calls : List Call
  submits : List WorkItem
  popped : List WorkItem
  ran : List (ℕ × WorkItem)
  finished : List ℕ

inductive WorkOp (Q : Type)
  /-- A step of the scheduler that is not part of a call on the work queue. -/
  | sched (op : SchedOp Q)
  | submit (func arg : BitVec 64)
  | executeOne (task : TaskRef) (blockIfEmpty : Bool)
  /-- The next step of call `k`. -/
  | resume (k : ℕ)

namespace WorkSystem

variable {Q : Type}

/-- After `workqueue_init`, with the scheduler that it has left. -/
def start (sched : SchedSystem Q) (queue : WorkQueue) : WorkSystem Q where
  sched := sched
  queue := workqueueInit queue
  calls := []
  submits := []
  popped := []
  ran := []
  finished := []

/-- The task can execute code: it is not asleep, and has not exited. -/
def canRun (y : WorkSystem Q) : TaskRef → Bool
  | .null => false
  | .bootstrap => true
  | .slot i => i < 128 ∧ ((y.sched.sched.tasks i).state = .ready ∨
      (y.sched.sched.tasks i).state = .running)

/-- The running task executes the loop of `workqueue_execute_one`. -/
def currentLoops (y : WorkSystem Q) : Bool :=
  y.calls.any fun c => c.looping = some y.sched.sched.currentTask

variable [DecidableEq Q] (waiters : Q)

/-- Which steps of the scheduler other code takes: none on the waiters of the work queue, and a
task does not sleep elsewhere or exit in the loop of `workqueue_execute_one`. -/
def permits (y : WorkSystem Q) : SchedOp Q → Bool
  | .waitQueueInit q => q ≠ waiters
  | .waitQueueWait queue => queue ≠ some waiters ∧ ¬ y.currentLoops
  | .waitQueueWakeOne queue => queue ≠ some waiters
  | .waitQueueWakeAll queue => queue ≠ some waiters
  | .taskExit => ¬ y.currentLoops
  | _ => true

/-- The next step of call `k`; a step that calls the scheduler is one of the running task. -/
def resumeCall (y : WorkSystem Q) (k : ℕ) : Call → Option (WorkSystem Q)
  | .submitting item =>
    match workqueueSubmitLocked y.queue item with
    | (false, queue) =>
      some { y with calls := y.calls.set k (.returned false), queue := queue }
    | (true, queue) =>
      some { y with
        calls := y.calls.set k .waking
        queue := queue
        submits := y.submits ++ [item] }
  | .waking =>
    (y.sched.exec (.waitQueueWakeOne (some waiters))).map fun z =>
      { y with sched := z, calls := y.calls.set k (.returned true) }
  | .popping task blockIfEmpty =>
    if y.canRun task then
      match workqueuePopLocked y.queue with
      | none =>
        let next := if blockIfEmpty then .sleeping task else .returned false
        some { y with calls := y.calls.set k next }
      | some (item, queue) =>
        some { y with
          calls := y.calls.set k (.holding task y.popped.length item)
          queue := queue
          popped := y.popped ++ [item] }
    else none
  | .sleeping task =>
    if y.sched.sched.currentTask = task then
      let slept := (schedWaitQueueWait y.sched.sched (some waiters)).1
      let next := if slept then .popping task true else .yielding task
      (y.sched.exec (.waitQueueWait (some waiters))).map fun z =>
        { y with sched := z, calls := y.calls.set k next }
    else none
  | .yielding task =>
    if y.sched.sched.currentTask = task then
      (y.sched.exec .yield).map fun z =>
        { y with sched := z, calls := y.calls.set k (.popping task true) }
    else none
  | .holding task n item =>
    if y.canRun task then
      some { y with calls := y.calls.set k (.running task n item), ran := y.ran ++ [(n, item)] }
    else none
  | .running task n _ =>
    if y.canRun task then
      some { y with
        calls := y.calls.set k (.returned true)
        queue := workqueueCompleteLocked y.queue
        finished := y.finished ++ [n] }
    else none
  | .returned _ => none

def step (y : WorkSystem Q) : WorkOp Q → Option (WorkSystem Q)
  | .sched op =>
    if y.permits waiters op then (y.sched.exec op).map fun z => { y with sched := z } else none
  | .submit func arg =>
    if func = 0#64 then some { y with calls := y.calls ++ [.returned false] }
    else some { y with calls := y.calls ++ [.submitting ⟨func, arg⟩] }
  | .executeOne task blockIfEmpty =>
    if y.canRun task then some { y with calls := y.calls ++ [.popping task blockIfEmpty] }
    else none
  | .resume k => (y.calls[k]?).bind (y.resumeCall waiters k)

end WorkSystem

end GnuOS.Workqueue

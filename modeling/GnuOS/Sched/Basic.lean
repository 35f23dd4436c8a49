import GnuOS.Lib.RingBuffer
import Mathlib.Data.BitVec

/-!
# The scheduler

A model of `kernel/sched/sched.c`.  Every function below that the source runs under
`g_sched_lock` is one atomic step.  The wait queues are the objects of callers; they are named by
a type `Q`, and their memory holds anything until `sched_wait_queue_init`.

The context switch itself, the two words that `sched_prepare_task_stack` stores on the new stack
and the log (with its trace budget) change nothing that these functions read, and are left out.
-/

namespace GnuOS.Sched

open GnuOS.Lib

/-! ## Constants and data -/

def schedMaxTasks : ℕ := 128
def schedReadyQueueCapacity : ℕ := schedMaxTasks
def schedWaitQueueCapacity : ℕ := 128
def schedTaskIndexNone : ℕ := 65535

inductive TaskState
  | unused | ready | running | blocked | exited
  deriving DecidableEq, Repr

structure TaskContext where
  rsp : BitVec 64
  rbx : BitVec 64
  rbp : BitVec 64
  r12 : BitVec 64
  r13 : BitVec 64
  r14 : BitVec 64
  r15 : BitVec 64
  deriving DecidableEq, Repr

/-- `task_t`; pointers are addresses, the process is named by its index in `g_processes`. -/
structure Task where
  tid : BitVec 64
  state : TaskState
  name : BitVec 64
  process : Option ℕ
  entry : BitVec 64
  arg : BitVec 64
  runtimeTicks : BitVec 64
  vruntime : BitVec 64
  contextSwitches : BitVec 64
  context : TaskContext
  kernelStackBase : BitVec 64
  kernelStackSize : BitVec 64
  deriving DecidableEq, Repr

/-- What `g_current_task` points to. -/
inductive TaskRef
  | null
  | bootstrap
  | slot (index : ℕ)
  deriving DecidableEq, Repr

/-- The globals of `sched.c` and the wait queues of its callers. -/
structure SchedState (Q : Type) where
  pids : ℕ → BitVec 64
  tasks : ℕ → Task
  readyQueue : RingBuffer ℕ
  nextPid : BitVec 64
  nextTid : BitVec 64
  currentTask : TaskRef
  currentIndex : ℕ
  schedTicks : BitVec 64
  needResched : Bool
  preemptSwitches : BitVec 64
  cfsMinVruntime : BitVec 64
  waitQueues : Q → RingBuffer ℕ

section

variable {Q : Type}

def SchedState.setTask (s : SchedState Q) (i : ℕ) (t : Task) : SchedState Q :=
  { s with tasks := Function.update s.tasks i t }

/-- The assignment `g_tasks[i].state = st`. -/
def SchedState.setState (s : SchedState Q) (i : ℕ) (st : TaskState) : SchedState Q :=
  s.setTask i { s.tasks i with state := st }

/-! ## Queues -/

/-- `none` is the return value 0. -/
def schedEnqueueTask (s : SchedState Q) (taskIndex : ℕ) : Option (SchedState Q) :=
  (s.readyQueue.push schedReadyQueueCapacity taskIndex).map fun r => { s with readyQueue := r }

def schedDequeueTask (s : SchedState Q) : Option (ℕ × SchedState Q) :=
  (s.readyQueue.pop schedReadyQueueCapacity).map fun p => (p.1, { s with readyQueue := p.2 })

def schedWaitqEnqueue (queue : RingBuffer ℕ) (taskIndex : ℕ) : Option (RingBuffer ℕ) :=
  queue.push schedWaitQueueCapacity taskIndex

def schedWaitqDequeue (queue : RingBuffer ℕ) : Option (ℕ × RingBuffer ℕ) :=
  queue.pop schedWaitQueueCapacity

variable [DecidableEq Q]

def SchedState.setQueue (s : SchedState Q) (q : Q) (r : RingBuffer ℕ) : SchedState Q :=
  { s with waitQueues := Function.update s.waitQueues q r }

/-- The loop of `sched_wake_one_locked`, with `n` attempts left. -/
def wakeOneLoop (q : Q) : ℕ → SchedState Q → Bool × SchedState Q
  | 0, s => (false, s)
  | n + 1, s =>
    match schedWaitqDequeue (s.waitQueues q) with
    | none => (false, s)
    | some (candidate, r) =>
      let s := s.setQueue q r
      if schedMaxTasks ≤ candidate then wakeOneLoop q n s
      else if (s.tasks candidate).state ≠ .blocked then wakeOneLoop q n s
      else
        match schedEnqueueTask (s.setState candidate .ready) candidate with
        | none =>
          let s := (s.setState candidate .ready).setState candidate .blocked
          match schedWaitqEnqueue (s.waitQueues q) candidate with
          | none => (false, s)
          | some r => (false, s.setQueue q r)
        | some s => (true, { s with needResched := true })

def schedWakeOneLocked (s : SchedState Q) : Option Q → Bool × SchedState Q
  | none => (false, s)
  | some q => wakeOneLoop q (s.waitQueues q).size s

/-! ## Choosing the next task -/

/-- The first free slot. -/
def schedAllocTaskSlot (s : SchedState Q) : Option ℕ :=
  (List.range schedMaxTasks).find? fun i => (s.tasks i).state = .unused

/-- One iteration of the scan of `sched_pick_next_ready`; `none` is `SCHED_TASK_INDEX_NONE`. -/
def scanStep (tasks : ℕ → Task) (best : Option ℕ) (i : ℕ) : Option ℕ :=
  if (tasks i).state ≠ .ready then best
  else
    match best with
    | none => some i
    | some b =>
      if (tasks i).vruntime < (tasks b).vruntime ∨
          ((tasks i).vruntime = (tasks b).vruntime ∧ (tasks i).tid < (tasks b).tid) then some i
      else some b

/-- The loop that empties the ready queue, with `n` attempts left; it returns the indices kept. -/
def drainLoop (best : ℕ) : ℕ → SchedState Q → List ℕ → List ℕ × SchedState Q
  | 0, s, kept => (kept, s)
  | n + 1, s, kept =>
    match schedDequeueTask s with
    | none => (kept, s)
    | some (candidate, s) =>
      if candidate = best then drainLoop best n s kept
      else if schedMaxTasks ≤ candidate then drainLoop best n s kept
      else if (s.tasks candidate).state ≠ .ready then drainLoop best n s kept
      else if kept.length < schedReadyQueueCapacity then drainLoop best n s (kept ++ [candidate])
      else drainLoop best n s kept

/-- The loop that puts the kept indices back; `false` when one does not fit. -/
def requeueLoop : List ℕ → SchedState Q → Bool × SchedState Q
  | [], s => (true, s)
  | i :: kept, s =>
    match schedEnqueueTask s i with
    | none => (false, s)
    | some s => requeueLoop kept s

def schedPickNextReady (s : SchedState Q) : Option ℕ × SchedState Q :=
  match (List.range schedMaxTasks).foldl (scanStep s.tasks) none with
  | none => (none, s)
  | some best =>
    match drainLoop best s.readyQueue.size s [] with
    | (kept, s) =>
      match requeueLoop kept { s with readyQueue := s.readyQueue.reset } with
      | (false, s) => (none, s)
      | (true, s) => (some best, s)

end

/-! ## Initialisation -/

/-- `sched_reset_task` -/
def schedResetTask : Task :=
  { tid := 0#64, state := .unused, name := 0#64, process := none, entry := 0#64, arg := 0#64
    runtimeTicks := 0#64, vruntime := 0#64, contextSwitches := 0#64
    context := ⟨0#64, 0#64, 0#64, 0#64, 0#64, 0#64, 0#64⟩
    kernelStackBase := 0#64, kernelStackSize := 0#64 }

section

variable {Q : Type}

/-- `sched_init`, from any values of the globals. -/
def schedInit (s : SchedState Q) : SchedState Q :=
  { s with
    pids := fun i => if i < schedMaxTasks then 0#64 else s.pids i
    tasks := fun i => if i < schedMaxTasks then schedResetTask else s.tasks i
    readyQueue := s.readyQueue.reset
    nextPid := 1#64
    nextTid := 1#64
    currentTask := .bootstrap
    currentIndex := schedTaskIndexNone
    schedTicks := 0#64
    needResched := false
    preemptSwitches := 0#64
    cfsMinVruntime := 0#64 }

/-! ## Creating a task -/

/-- The first critical section of `sched_create_kernel_task`: claim a slot. -/
def schedCreateClaim (s : SchedState Q) (name entry arg : BitVec 64) :
    Option ℕ × SchedState Q :=
  if entry = 0#64 then (none, s)
  else
    match schedAllocTaskSlot s with
    | none => (none, s)
    | some index =>
      let s := { s with
        pids := Function.update s.pids index s.nextPid
        nextPid := s.nextPid + 1#64 }
      let task := { schedResetTask with
        tid := s.nextTid
        state := .blocked
        name := name
        process := some index
        entry := entry
        arg := arg
        vruntime := s.cfsMinVruntime }
      (some index, { s.setTask index task with nextTid := s.nextTid + 1#64 })

/-- `sched_prepare_task_stack`, outside the lock; `page` is the answer of `pmm_alloc_page`. -/
def schedPrepareTaskStack (s : SchedState Q) (index : ℕ) (page : BitVec 64) :
    Bool × SchedState Q :=
  let task := { s.tasks index with kernelStackBase := page, kernelStackSize := 4096#64 }
  if page = 0#64 then (false, s.setTask index { task with kernelStackSize := 0#64 })
  else
    (true, s.setTask index { task with
      context := ⟨page + 4096#64 - 16#64, 0#64, 0#64, 0#64, 0#64, 0#64, 0#64⟩ })

/-- The rollback of `sched_create_kernel_task`. -/
def schedCreateRollback (s : SchedState Q) (index : ℕ) : SchedState Q :=
  { s.setTask index schedResetTask with pids := Function.update s.pids index 0#64 }

/-- The last critical section of `sched_create_kernel_task`: make the task ready. -/
def schedCreateReady (s : SchedState Q) (index : ℕ) : Bool × SchedState Q :=
  let s := s.setState index .ready
  match schedEnqueueTask s index with
  | none => (false, schedCreateRollback s index)
  | some s => (true, s)

/-! ## Waiting and waking -/

section

variable [DecidableEq Q]

def schedWaitQueueInit (s : SchedState Q) : Option Q → SchedState Q
  | none => s
  | some q => s.setQueue q (s.waitQueues q).reset

/-- Back to the bootstrap task. -/
def SchedState.toBootstrap (s : SchedState Q) : SchedState Q :=
  { s with currentTask := .bootstrap, currentIndex := schedTaskIndexNone }

def schedWaitQueueWait (s : SchedState Q) : Option Q → Bool × SchedState Q
  | none => (false, s)
  | some q =>
    match s.currentTask with
    | .slot i =>
      if (s.tasks i).state ≠ .running ∨ s.currentIndex = schedTaskIndexNone then (false, s)
      else
        match schedWaitqEnqueue (s.waitQueues q) s.currentIndex with
        | none => (false, s)
        | some r => (true, ((s.setQueue q r).setState i .blocked).toBootstrap)
    | _ => (false, s)

def schedWaitQueueWakeOne (s : SchedState Q) (queue : Option Q) : Bool × SchedState Q :=
  schedWakeOneLocked s queue

/-- The loop of `sched_wait_queue_wake_all`, counting the tasks woken. -/
def wakeAllLoop (queue : Option Q) : ℕ → SchedState Q → ℕ → ℕ × SchedState Q
  | 0, s, woke => (woke, s)
  | fuel + 1, s, woke =>
    match schedWakeOneLocked s queue with
    | (true, s) => wakeAllLoop queue fuel s (woke + 1)
    | (false, s) => (woke, s)

/-- Each successful wake takes an entry from the queue, so `size + 1` rounds are enough. -/
def schedWaitQueueWakeAll (s : SchedState Q) (queue : Option Q) : ℕ × SchedState Q :=
  match queue with
  | none => wakeAllLoop none 1 s 0
  | some q => wakeAllLoop (some q) ((s.waitQueues q).size + 1) s 0

end

/-! ## Ticks and switches -/

def schedTick (s : SchedState Q) : SchedState Q :=
  let s := { s with schedTicks := s.schedTicks + 1#64 }
  match s.currentTask with
  | .slot i =>
    if (s.tasks i).state = .running then
      let t := { s.tasks i with
        runtimeTicks := (s.tasks i).runtimeTicks + 1#64
        vruntime := (s.tasks i).vruntime + 1#64 }
      { s.setTask i t with cfsMinVruntime := t.vruntime, needResched := true }
    else s
  | _ => s

def schedRequestResched (s : SchedState Q) : SchedState Q := { s with needResched := true }

def schedPreemptOnTick (s : SchedState Q) : Bool × SchedState Q :=
  if s.needResched = false then (false, s)
  else
    match s.currentTask with
    | .slot i =>
      if (s.tasks i).state ≠ .running ∨ s.currentIndex = schedTaskIndexNone then
        (false, { s with needResched := false })
      else
        match schedEnqueueTask (s.setState i .ready) s.currentIndex with
        | none =>
          (false, { (s.setState i .ready).setState i .running with needResched := false })
        | some s =>
          (true, { s with
            needResched := false
            preemptSwitches := s.preemptSwitches + 1#64
            currentTask := .bootstrap
            currentIndex := schedTaskIndexNone })
    | _ => (false, { s with needResched := false })

def schedRun (s : SchedState Q) : Bool × SchedState Q :=
  if s.currentTask ≠ .bootstrap then (false, s)
  else
    match schedPickNextReady s with
    | (none, s) => (false, s)
    | (some next, s) =>
      let t := { s.tasks next with
        state := .running
        contextSwitches := (s.tasks next).contextSwitches + 1#64 }
      (true, { s.setTask next t with
        needResched := false
        currentTask := .slot next
        currentIndex := next })

def schedYield (s : SchedState Q) : SchedState Q :=
  match s.currentTask with
  | .slot i =>
    if (s.tasks i).state ≠ .running ∨ s.currentIndex = schedTaskIndexNone then s
    else
      match schedEnqueueTask (s.setState i .ready) s.currentIndex with
      | none => (s.setState i .ready).setState i .running
      | some s => { s with currentTask := .bootstrap, currentIndex := schedTaskIndexNone }
  | _ => s

/-- `none` is the panic of an exit without a running task. -/
def schedTaskExit (s : SchedState Q) : Option (SchedState Q) :=
  match s.currentTask with
  | .slot i =>
    let t := { s.tasks i with state := .exited, entry := 0#64, arg := 0#64 }
    some { s.setTask i t with currentTask := .bootstrap, currentIndex := schedTaskIndexNone }
  | _ => none

end

end GnuOS.Sched

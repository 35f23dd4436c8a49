import GnuOS.Lib.Fifo
import GnuOS.Lib.Handout
import GnuOS.Workqueue.Transitions

/-!
# Every item is run once

Each submitted item has a number, its position in the order of the submissions.  The queue hands
the items out to the calls in this order; the steps move one number at a time, which gives the
accounting of the queue over all interleavings.
-/

namespace GnuOS.Workqueue

open GnuOS.Lib GnuOS.Sched

variable {Q : Type}

/-! ## The items are accounted for -/

/-- The calls and the logs agree with `place`, and the counters with the logs. -/
structure Accounted (y : WorkSystem Q) (place : ℕ → ItemPlace) : Prop where
  valid : y.queue.ring.Valid 128
  fifo : Fifo y.submits y.popped y.queue.items
  handout : Handout Call.held Call.runs y.calls y.popped y.ran y.finished place
  submitted : y.queue.submitted = BitVec.ofNat 64 y.submits.length
  completed : y.queue.completed = BitVec.ofNat 64 y.finished.length

/-- A call that runs an item holds it. -/
theorem Call.held_of_runs (c : Call) (n : ℕ) (h : c.runs = some n) :
    ∃ item, c.held = some (n, item) := by
  cases c <;> simp [Call.runs] at h
  rename_i item
  exact ⟨item, by rw [Call.held, h]⟩

namespace Accounted

variable {y y' : WorkSystem Q} {place : ℕ → ItemPlace} {k n : ℕ} {c c' : Call} {task : TaskRef}
  {item : WorkItem} {queue : WorkQueue}

section

variable (h : Accounted y place)

include h

/-- A step of the scheduler. -/
theorem sched (z : SchedSystem Q) : Accounted { y with sched := z } place :=
  ⟨h.valid, h.fifo, h.handout, h.submitted, h.completed⟩

/-- A call begins. -/
theorem begin (hc : c.held = none) (hc' : c.runs = none) :
    Accounted { y with calls := y.calls ++ [c] } place :=
  ⟨h.valid, h.fifo, h.handout.begin hc hc', h.submitted, h.completed⟩

/-- A step of a call that leaves its item where it is. -/
theorem move (z : SchedSystem Q) (hk : y.calls[k]? = some c) (hheld : c'.held = c.held)
    (hruns : c'.runs = c.runs) :
    Accounted { y with sched := z, calls := y.calls.set k c' } place :=
  ⟨h.valid, h.fifo, h.handout.move hk hheld hruns, h.submitted, h.completed⟩

/-- An item enters the queue. -/
theorem enqueue (hqueue : Enqueued y.queue item queue) :
    Accounted { y with queue := queue, submits := y.submits ++ [item] } place where
  valid := hqueue.valid
  fifo := by
    rw [hqueue.items]
    exact h.fifo.put item
  handout := h.handout
  submitted := by
    rw [hqueue.submitted, h.submitted, List.length_append, List.length_singleton,
      BitVec.ofNat_add]
  completed := by
    rw [hqueue.completed]
    exact h.completed

/-- Call `k` pops the next item. -/
theorem pop {blockIfEmpty : Bool} (hk : y.calls[k]? = some (.popping task blockIfEmpty))
    (hqueue : Dequeued y.queue item queue) :
    Accounted { y with
      calls := y.calls.set k (.holding task y.popped.length item)
      queue := queue
      popped := y.popped ++ [item] } (Function.update place y.popped.length (.held k)) where
  valid := hqueue.valid
  fifo := h.fifo.take hqueue.items
  handout := h.handout.take hk rfl rfl rfl
  submitted := by
    rw [hqueue.submitted]
    exact h.submitted
  completed := by
    rw [hqueue.completed]
    exact h.completed

/-- Call `k` calls the function of the item it holds. -/
theorem call (hk : y.calls[k]? = some (.holding task n item)) :
    Accounted { y with
      calls := y.calls.set k (.running task n item)
      ran := y.ran ++ [(n, item)] } place :=
  ⟨h.valid, h.fifo, h.handout.run Call.held_of_runs hk rfl rfl rfl rfl, h.submitted, h.completed⟩

/-- The function returns, and call `k` counts its item as completed. -/
theorem finish (hk : y.calls[k]? = some (.running task n item)) :
    Accounted { y with
      calls := y.calls.set k (.returned true)
      queue := workqueueCompleteLocked y.queue
      finished := y.finished ++ [n] } (Function.update place n .finished) where
  valid := h.valid
  fifo := h.fifo
  handout := h.handout.finish hk rfl rfl rfl rfl
  submitted := h.submitted
  completed := by
    rw [workqueueCompleteLocked, h.completed, List.length_append, List.length_singleton,
      BitVec.ofNat_add]

end

theorem start (z : SchedSystem Q) (queue : WorkQueue) :
    Accounted (WorkSystem.start z queue) (fun _ => .pending) where
  valid := RingBuffer.reset_valid (by decide)
  fifo := by
    rw [WorkQueue.items, WorkSystem.start, workqueueInit, RingBuffer.reset_contents]
    exact Fifo.empty
  handout := Handout.empty
  submitted := rfl
  completed := rfl

variable [DecidableEq Q] {waiters : Q} {op : WorkOp Q}

/-- Each step keeps the items accounted for: it moves at most one. -/
theorem step (h : Accounted y place) (hstep : Transition waiters y op y') :
    ∃ place', Accounted y' place' := by
  cases hstep with
  | sched _ _ => exact ⟨place, h.sched _⟩
  | refuses => exact ⟨place, h.begin rfl rfl⟩
  | submits _ => exact ⟨place, h.begin rfl rfl⟩
  | executes _ => exact ⟨place, h.begin rfl rfl⟩
  | full hk _ => exact ⟨place, h.move y.sched hk rfl rfl⟩
  | enqueues hk _ hqueue => exact ⟨place, (h.enqueue hqueue).move y.sched hk rfl rfl⟩
  | wakes hk _ => exact ⟨place, h.move _ hk rfl rfl⟩
  | @empty k task blockIfEmpty hk _ _ =>
    refine ⟨place, h.move y.sched hk ?_ ?_⟩ <;> cases blockIfEmpty <;> rfl
  | pops hk _ hqueue => exact ⟨_, h.pop hk hqueue⟩
  | sleeps hk _ _ =>
    refine ⟨place, h.move _ hk ?_ ?_⟩ <;> split <;> rfl
  | yields hk _ => exact ⟨place, h.move _ hk rfl rfl⟩
  | calls hk => exact ⟨place, h.call hk⟩
  | finishes hk => exact ⟨_, h.finish hk⟩

end Accounted

/-! ## Exactly once -/

namespace WorkSystem

variable (y : WorkSystem Q) (n : ℕ)

/-- The item is in the queue. -/
def Pending : Prop := y.popped.length ≤ n ∧ n < y.popped.length + y.queue.items.length

/-- A call has popped the item and not finished it. -/
def InProgress : Prop := ∃ k item, Shows Call.held y.calls k (n, item)

def Finished : Prop := n ∈ y.finished

end WorkSystem

variable [DecidableEq Q] {waiters : Q}

/-- What holds of the items of a work queue in every state. -/
structure ExactlyOnce (waiters : Q) (y : WorkSystem Q) : Prop where
  /-- Items leave the queue in the order of the submissions. -/
  order : y.submits = y.popped ++ y.queue.items
  /-- Every item is in exactly one condition. -/
  condition : ∀ n, n < y.submits.length →
    (y.Pending n ∧ ¬ y.InProgress n ∧ ¬ y.Finished n) ∨
      (¬ y.Pending n ∧ y.InProgress n ∧ ¬ y.Finished n) ∨
      (¬ y.Pending n ∧ ¬ y.InProgress n ∧ y.Finished n)
  holder : ∀ n j k a b, Shows Call.held y.calls j (n, a) → Shows Call.held y.calls k (n, b) → j = k
  /-- A call holds the item that was submitted under its number, ... -/
  held : ∀ k n item, Shows Call.held y.calls k (n, item) → y.submits[n]? = some item
  /-- ... its function is called with its argument after it was popped, at most once, ... -/
  ran : ∀ n item, (n, item) ∈ y.ran → y.submits[n]? = some item ∧ ¬ y.Pending n
  ranOnce : (y.ran.map Prod.fst).Nodup
  /-- ... and once when it is finished. -/
  finished : ∀ n, y.Finished n → n ∈ y.ran.map Prod.fst
  /-- A submission is of the function and the argument that it is called with. -/
  begun : ∀ func arg, func ≠ 0#64 → y.step waiters (.submit func arg) =
    some { y with calls := y.calls ++ [.submitting ⟨func, arg⟩] }
  /-- It fails exactly when 128 items are pending, and then changes nothing. -/
  full : ∀ k item, y.calls[k]? = some (.submitting item) → y.queue.items.length = 128 →
    y.step waiters (.resume k) = some { y with calls := y.calls.set k (.returned false) }
  room : ∀ k item, y.calls[k]? = some (.submitting item) → y.queue.items.length ≠ 128 →
    ∃ queue, Enqueued y.queue item queue ∧
      y.step waiters (.resume k) = some { y with
        calls := y.calls.set k .waking
        queue := queue
        submits := y.submits ++ [item] }
  accounting : workqueueSubmitted (some y.queue) = workqueueCompleted (some y.queue) +
    workqueuePending (some y.queue) + BitVec.ofNat 64 (y.calls.countP Call.isHolding)

namespace Accounted

variable {y : WorkSystem Q} {place : ℕ → ItemPlace} {n : ℕ}

omit [DecidableEq Q] in
theorem pending_iff (h : Accounted y place) (hn : n < y.submits.length) :
    y.Pending n ↔ place n = .pending := by
  rw [WorkSystem.Pending, h.handout.place_pending, ← h.fifo.length_eq]
  simp [hn]

omit [DecidableEq Q] in
theorem inProgress_iff (h : Accounted y place) : y.InProgress n ↔ ∃ k, place n = .held k := by
  simp only [WorkSystem.InProgress, h.handout.place_held]

omit [DecidableEq Q] in
theorem finished_iff (h : Accounted y place) : y.Finished n ↔ place n = .finished :=
  (h.handout.place_finished n).symm

omit [DecidableEq Q] in
/-- An item that was popped is the one submitted under its number. -/
theorem submits_of_popped (h : Accounted y place) {item : WorkItem}
    (hn : y.popped[n]? = some item) : y.submits[n]? = some item := by
  rw [← h.fifo.getElem?_outs (List.getElem?_eq_some_iff.mp hn).1]
  exact hn

omit [DecidableEq Q] in
theorem accounting (h : Accounted y place) :
    workqueueSubmitted (some y.queue) = workqueueCompleted (some y.queue) +
      workqueuePending (some y.queue) + BitVec.ofNat 64 (y.calls.countP Call.isHolding) := by
  have hsize : y.queue.items.length = y.queue.ring.size := RingBuffer.length_contents
  have hcount : y.popped.length = y.finished.length + y.calls.countP Call.isHolding :=
    h.handout.count
  have hlength : y.submits.length =
      y.finished.length + y.queue.ring.size + y.calls.countP Call.isHolding := by
    rw [h.fifo.length_eq, hcount, hsize]
    omega
  rw [workqueueSubmitted, workqueueCompleted, workqueuePending, h.submitted, h.completed, hlength,
    BitVec.ofNat_add, BitVec.ofNat_add]

theorem exactlyOnce (h : Accounted y place) : ExactlyOnce waiters y where
  order := h.fifo
  condition n hn := by
    rw [h.pending_iff hn, h.inProgress_iff, h.finished_iff]
    cases place n <;> simp
  holder n j k a b hj hk := h.handout.holder_unique hj hk
  held k n item hk := h.submits_of_popped (h.handout.own k n item hk)
  ran n item hn := by
    have hpopped := h.handout.ranOwn n item hn
    have hlt := (List.getElem?_eq_some_iff.mp hpopped).1
    exact ⟨h.submits_of_popped hpopped, fun hpending => absurd hpending.1 (by omega)⟩
  ranOnce := h.handout.ranNodup
  finished n hn := (h.handout.mem_ran n).mpr (.inl (h.finished_iff.mp hn))
  begun func arg hfunc := if_neg hfunc
  full k item hk hfull := by
    rcases workqueueSubmitLocked_spec h.valid item with ⟨_, heq⟩ | ⟨hroom, _⟩
    · simp only [WorkSystem.step, hk, Option.bind_some, WorkSystem.resumeCall, heq]
    · omega
  room k item hk hne := by
    rcases workqueueSubmitLocked_spec h.valid item with ⟨hfull, _⟩ | ⟨_, queue, heq, hqueue⟩
    · exact absurd hfull hne
    · refine ⟨queue, hqueue, ?_⟩
      simp only [WorkSystem.step, hk, Option.bind_some, WorkSystem.resumeCall, heq]
  accounting := h.accounting

end Accounted

/-- In every state that a run reaches after `workqueue_init`, the items are accounted for. -/
theorem accounted_run {z : SchedSystem Q} {queue : WorkQueue} {ops : List (WorkOp Q)}
    {y : WorkSystem Q}
    (hrun : ops.foldlM (WorkSystem.step waiters) (WorkSystem.start z queue) = some y) :
    ∃ place, Accounted y place := by
  refine run_invariant (P := fun y => ∃ place, Accounted y place) ?_ ⟨_, .start z queue⟩ hrun
  intro y₁ op y₂ hy₁ hstep
  rcases hy₁ with ⟨place, h⟩
  exact h.step (.of_step h.valid hstep)

/-- Every run of submitters and workers handles each item exactly once, in order. -/
theorem work_run_exactly_once (waiters : Q) (z : SchedSystem Q) (queue : WorkQueue)
    (ops : List (WorkOp Q)) (y : WorkSystem Q)
    (hrun : ops.foldlM (WorkSystem.step waiters) (WorkSystem.start z queue) = some y) :
    ExactlyOnce waiters y := by
  rcases accounted_run hrun with ⟨place, h⟩
  exact h.exactlyOnce

/-- A work queue before `workqueue_init`. -/
def staleQueue : WorkQueue := ⟨⟨fun _ => ⟨0#64, 0#64⟩, 5, 7, 9⟩, 3#64, 4#64⟩

/-- An item is submitted, and the bootstrap task runs it before the submitter wakes a worker. -/
theorem work_run_exactly_once_one_item :
    ∃ y : WorkSystem Unit,
      [.submit 1#64 2#64, .executeOne .bootstrap true, .resume 0, .resume 1, .resume 1,
        .resume 1].foldlM (WorkSystem.step ()) (.start (.start staleSched) staleQueue) = some y ∧
      y.finished = [0] ∧ ExactlyOnce () y := by
  refine ⟨_, rfl, rfl, ?_⟩
  exact work_run_exactly_once () (.start staleSched) staleQueue [.submit 1#64 2#64,
    .executeOne .bootstrap true, .resume 0, .resume 1, .resume 1, .resume 1] _ rfl

end GnuOS.Workqueue

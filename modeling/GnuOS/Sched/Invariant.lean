import GnuOS.Lib.Listing
import GnuOS.Sched.Basic

/-!
# Where each task is

The scheduler keeps the whereabouts of a task in several objects: its state, the ready ring, the
wait queues and the current pointer.  The abstract view is a function that gives each task one
place.  A scheduler state represents such a function (`Represents`) when all these objects agree
with it; the operations move tasks from one place to another.
-/

namespace GnuOS.Sched

open GnuOS.Lib Function

variable {Q : Type}

/-! ## Places -/

/-- The places a task can be in. -/
inductive Place (Q : Type)
  | unused
  /-- Claimed by `sched_create_kernel_task`, which has not finished. -/
  | creating
  | ready
  | running
  | waiting (q : Q)
  | exited
  deriving DecidableEq

def Place.state : Place Q → TaskState
  | .unused => .unused
  | .creating => .blocked
  | .ready => .ready
  | .running => .running
  | .waiting _ => .blocked
  | .exited => .exited

/-- The task indices in the ready ring, oldest first. -/
def SchedState.readyList (s : SchedState Q) : List ℕ := s.readyQueue.contents 128

/-- The task indices in a wait queue, oldest first. -/
def SchedState.waitList (s : SchedState Q) (q : Q) : List ℕ := (s.waitQueues q).contents 128

/-- The objects of the scheduler agree with `place`; `live` are the initialised wait queues. -/
structure Represents (s : SchedState Q) (live : Q → Prop) (place : ℕ → Place Q) : Prop where
  state : ∀ i, i < 128 → (s.tasks i).state = (place i).state
  readyValid : s.readyQueue.Valid 128
  ready : Lists 128 place .ready s.readyList
  waitValid : ∀ q, live q → (s.waitQueues q).Valid 128
  waiting : ∀ q, live q → Lists 128 place (.waiting q) (s.waitList q)
  waitingLive : ∀ i q, i < 128 → place i = .waiting q → live q
  running : ∀ i, i < 128 → (place i = .running ↔ s.currentTask = .slot i)
  current : (s.currentTask = .bootstrap ∧ s.currentIndex = schedTaskIndexNone) ∨
    ∃ i, i < 128 ∧ s.currentTask = .slot i ∧ s.currentIndex = i

theorem Place.state_eq_ready {p : Place Q} : p.state = .ready ↔ p = .ready := by
  cases p <;> simp [Place.state]

theorem Place.state_eq_running {p : Place Q} : p.state = .running ↔ p = .running := by
  cases p <;> simp [Place.state]

theorem Place.state_eq_unused {p : Place Q} : p.state = .unused ↔ p = .unused := by
  cases p <;> simp [Place.state]

section Moves

variable {s : SchedState Q} {live : Q → Prop} {place : ℕ → Place Q} {i : ℕ} {p : Place Q} {t : Task}

/-! ## Parts of the state -/

section

variable (h : Represents s live place)

include h

/-- The states after a store to one task. -/
theorem Represents.state_setTask (ht : t.state = p.state) :
    ∀ j, j < 128 → ((s.setTask i t).tasks j).state = (update place i p j).state := by
  intro j hj
  by_cases hji : j = i
  · subst hji
    simp [SchedState.setTask, ht]
  · simp only [SchedState.setTask, update_of_ne hji]
    exact h.state j hj

/-- The task that the current pointer names. -/
theorem Represents.of_current (hcur : s.currentTask = .slot i) :
    i < 128 ∧ s.currentIndex = i ∧ place i = .running ∧ (s.tasks i).state = .running := by
  rcases h.current with ⟨hboot, _⟩ | ⟨j, hj, hslot, hidx⟩
  · rw [hcur] at hboot
    exact absurd hboot (by simp)
  · rw [hcur] at hslot
    cases hslot
    have hrun := (h.running i hj).mpr hcur
    refine ⟨hj, hidx, hrun, ?_⟩
    rw [h.state i hj, hrun]
    rfl

/-- Whatever is stored in the task table, the ready ring has room for a task that is not in it. -/
theorem Represents.enqueue (hi : i < 128) (hp : place i ≠ .ready) (t : Task) :
    ∃ r, schedEnqueueTask (s.setTask i t) i = some { s.setTask i t with readyQueue := r } ∧
      r.Valid 128 ∧ r.contents 128 = s.readyList ++ [i] := by
  have hroom := h.ready.length_lt hi hp
  rw [SchedState.readyList, RingBuffer.length_contents] at hroom
  cases hpush : s.readyQueue.push 128 i with
  | none =>
    rw [RingBuffer.push_eq_none_iff] at hpush
    omega
  | some r =>
    refine ⟨r, ?_, RingBuffer.push_contents h.readyValid hpush⟩
    simp only [schedEnqueueTask, SchedState.setTask, schedReadyQueueCapacity, schedMaxTasks, hpush,
      Option.map_some]

/-- The wait lists, when a task moves between places that are no wait queues. -/
theorem Represents.waiting_of_not (hi : ∀ q, place i ≠ .waiting q) (hp : ∀ q, p ≠ .waiting q)
    (q : Q) (hq : live q) :
    Lists 128 (update place i p) (.waiting q) (s.waitList q) :=
  (h.waiting q hq).update_other (hi q) (hp q)

theorem Represents.waitingLive_update (hp : ∀ q, p = .waiting q → live q) :
    ∀ j q, j < 128 → update place i p j = .waiting q → live q := by
  intro j q hj hplace
  by_cases hji : j = i
  · subst hji
    rw [update_self] at hplace
    exact hp q hplace
  · rw [update_of_ne hji] at hplace
    exact h.waitingLive j q hj hplace

/-- The running task, when another one moves. -/
theorem Represents.running_of_not (hi : place i ≠ .running) (hp : p ≠ .running) :
    ∀ j, j < 128 → (update place i p j = .running ↔ s.currentTask = .slot j) := by
  intro j hj
  rw [← h.running j hj]
  by_cases hji : j = i
  · subst hji
    simp [hi, hp]
  · rw [update_of_ne hji]

/-- Nothing runs once the running task has left. -/
theorem Represents.running_leave (hcur : s.currentTask = .slot i) (hp : p ≠ .running) :
    ∀ j, j < 128 → (update place i p j = .running ↔ TaskRef.bootstrap = .slot j) := by
  intro j hj
  by_cases hji : j = i
  · subst hji
    simp [hp]
  · rw [update_of_ne hji, h.running j hj, hcur]
    simp [Ne.symm hji]

end

/-! ## Moves between places -/

variable {s' : SchedState Q}

section

variable (h : Represents s live place)

include h

/-- Stores that leave the states, the queues and the current pointer as they are. -/
theorem Represents.congr (hstate : ∀ i, i < 128 → (s'.tasks i).state = (s.tasks i).state)
    (hready : s'.readyQueue = s.readyQueue) (hwait : s'.waitQueues = s.waitQueues)
    (hcur : s'.currentTask = s.currentTask) (hidx : s'.currentIndex = s.currentIndex) :
    Represents s' live place where
  state i hi := (hstate i hi).trans (h.state i hi)
  readyValid := hready ▸ h.readyValid
  ready := by
    rw [SchedState.readyList, hready]
    exact h.ready
  waitValid q hq := by
    rw [hwait]
    exact h.waitValid q hq
  waiting q hq := by
    rw [SchedState.waitList, hwait]
    exact h.waiting q hq
  waitingLive := h.waitingLive
  running := by
    rw [hcur]
    exact h.running
  current := by
    rw [hcur, hidx]
    exact h.current

/-- A task that is in no list moves to another such place: a slot is claimed or given back. -/
theorem Represents.moveUnlisted (hi : place i = .unused ∨ place i = .creating)
    (hp : p = .unused ∨ p = .creating) (ht : t.state = p.state) :
    Represents (s.setTask i t) live (update place i p) where
  state := h.state_setTask ht
  readyValid := h.readyValid
  ready := by
    apply h.ready.update_other
    · rcases hi with hi | hi <;> simp [hi]
    · rcases hp with rfl | rfl <;> simp
  waitValid := h.waitValid
  waiting := by
    apply h.waiting_of_not
    · rcases hi with hi | hi <;> simp [hi]
    · rcases hp with rfl | rfl <;> simp
  waitingLive := by
    apply h.waitingLive_update
    rcases hp with rfl | rfl <;> simp
  running := by
    apply h.running_of_not
    · rcases hi with hi | hi <;> simp [hi]
    · rcases hp with rfl | rfl <;> simp
  current := h.current

/-- A created task becomes ready. -/
theorem Represents.createdReady (hi : i < 128) (hcr : place i = .creating) (ht : t.state = .ready)
    {r : RingBuffer ℕ} (hr : r.Valid 128) (hcont : r.contents 128 = s.readyList ++ [i]) :
    Represents { s.setTask i t with readyQueue := r } live (update place i .ready) where
  state := h.state_setTask (p := .ready) ht
  readyValid := hr
  ready := by
    rw [SchedState.readyList, hcont]
    exact h.ready.push hi (by simp [hcr])
  waitValid := h.waitValid
  waiting := h.waiting_of_not (by simp [hcr]) (by simp)
  waitingLive := h.waitingLive_update (by simp)
  running := h.running_of_not (by simp [hcr]) (by simp)
  current := h.current

/-- The running task becomes ready. -/
theorem Represents.runningReady (hcur : s.currentTask = .slot i) (ht : t.state = .ready)
    {r : RingBuffer ℕ} (hr : r.Valid 128) (hcont : r.contents 128 = s.readyList ++ [i])
    (htasks : s'.tasks = (s.setTask i t).tasks) (hready : s'.readyQueue = r)
    (hwait : s'.waitQueues = s.waitQueues) (hcur' : s'.currentTask = .bootstrap)
    (hidx' : s'.currentIndex = schedTaskIndexNone) :
    Represents s' live (update place i .ready) := by
  rcases h.of_current hcur with ⟨hi, _, hrun, _⟩
  exact {
    state := by
      rw [htasks]
      exact h.state_setTask (p := .ready) ht
    readyValid := hready ▸ hr
    ready := by
      rw [SchedState.readyList, hready, hcont]
      exact h.ready.push hi (by simp [hrun])
    waitValid := by
      rw [hwait]
      exact h.waitValid
    waiting := by
      intro q hq
      rw [SchedState.waitList, hwait]
      exact h.waiting_of_not (by simp [hrun]) (by simp) q hq
    waitingLive := h.waitingLive_update (by simp)
    running := by
      rw [hcur']
      exact h.running_leave hcur (by simp)
    current := .inl ⟨hcur', hidx'⟩ }

/-- The running task exits. -/
theorem Represents.runningExits (hcur : s.currentTask = .slot i) (ht : t.state = .exited) :
    Represents { s.setTask i t with
      currentTask := .bootstrap, currentIndex := schedTaskIndexNone } live
      (update place i .exited) := by
  rcases h.of_current hcur with ⟨hi, _, hrun, _⟩
  exact {
    state := h.state_setTask (p := .exited) ht
    readyValid := h.readyValid
    ready := h.ready.update_other (by simp [hrun]) (by simp)
    waitValid := h.waitValid
    waiting := h.waiting_of_not (by simp [hrun]) (by simp)
    waitingLive := h.waitingLive_update (by simp)
    running := h.running_leave hcur (by simp)
    current := .inl ⟨rfl, rfl⟩ }

/-- The next task starts to run; `r` is the ready ring without it. -/
theorem Represents.readyRuns (hboot : s.currentTask = .bootstrap) (hi : i < 128)
    (hready : place i = .ready) (ht : t.state = .running) {r : RingBuffer ℕ} (hr : r.Valid 128)
    (hcont : r.contents 128 = s.readyList.filter fun j => decide (j ≠ i)) (b : Bool) :
    Represents { { s with readyQueue := r }.setTask i t with
      needResched := b, currentTask := .slot i, currentIndex := i } live
      (update place i .running) where
  state := h.state_setTask (p := .running) ht
  readyValid := hr
  ready := by
    show Lists 128 _ Place.ready (r.contents 128)
    rw [hcont]
    exact h.ready.remove (by simp)
  waitValid := h.waitValid
  waiting := h.waiting_of_not (by simp [hready]) (by simp)
  waitingLive := h.waitingLive_update (by simp)
  running j hj := by
    by_cases hji : j = i
    · subst hji
      simp
    · rw [update_of_ne hji, h.running j hj, hboot]
      simp [Ne.symm hji]
  current := .inr ⟨i, hi, rfl, rfl⟩

end

variable [DecidableEq Q]

section

variable (h : Represents s live place)

include h

/-- The running task goes to sleep on `q`. -/
theorem Represents.runningWaits (hcur : s.currentTask = .slot i) {q : Q} (hq : live q)
    (ht : t.state = .blocked) {r : RingBuffer ℕ} (hr : r.Valid 128)
    (hcont : r.contents 128 = s.waitList q ++ [i]) :
    Represents ((s.setQueue q r).setTask i t).toBootstrap live
      (update place i (.waiting q)) := by
  rcases h.of_current hcur with ⟨hi, _, hrun, _⟩
  exact {
    state := h.state_setTask (p := .waiting q) ht
    readyValid := h.readyValid
    ready := h.ready.update_other (by simp [hrun]) (by simp)
    waitValid := by
      intro q' hq'
      simp only [SchedState.toBootstrap, SchedState.setTask, SchedState.setQueue]
      by_cases hqq : q' = q
      · subst hqq
        simp [hr]
      · rw [update_of_ne hqq]
        exact h.waitValid q' hq'
    waiting := by
      intro q' hq'
      simp only [SchedState.waitList, SchedState.toBootstrap, SchedState.setTask,
        SchedState.setQueue]
      by_cases hqq : q' = q
      · subst hqq
        rw [update_self, hcont]
        exact (h.waiting q' hq').push hi (by simp [hrun])
      · rw [update_of_ne hqq]
        exact (h.waiting q' hq').update_other (by simp [hrun]) (by simp [Ne.symm hqq])
    waitingLive := by
      apply h.waitingLive_update
      intro q' hq'
      cases hq'
      exact hq
    running := h.running_leave hcur (by simp)
    current := .inl ⟨rfl, rfl⟩ }

/-- The task that has slept longest on `q` becomes ready. -/
theorem Represents.waitingReady {q : Q} (hq : live q) (ht : t.state = .ready) {w r : RingBuffer ℕ}
    (hw : w.Valid 128) (hwcont : s.waitList q = i :: w.contents 128) (hr : r.Valid 128)
    (hcont : r.contents 128 = s.readyList ++ [i]) (b : Bool) :
    Represents { (s.setQueue q w).setTask i t with readyQueue := r, needResched := b } live
      (update place i .ready) := by
  have hmem : i ∈ s.waitList q := by rw [hwcont]; exact List.mem_cons_self
  rcases ((h.waiting q hq).mem_iff i).mp hmem with ⟨hi, hplace⟩
  exact {
    state := h.state_setTask (p := .ready) ht
    readyValid := hr
    ready := by
      show Lists 128 _ Place.ready (r.contents 128)
      rw [hcont]
      exact h.ready.push hi (by simp [hplace])
    waitValid := by
      intro q' hq'
      simp only [SchedState.setTask, SchedState.setQueue]
      by_cases hqq : q' = q
      · subst hqq
        simp [hw]
      · rw [update_of_ne hqq]
        exact h.waitValid q' hq'
    waiting := by
      intro q' hq'
      simp only [SchedState.waitList, SchedState.setTask, SchedState.setQueue]
      by_cases hqq : q' = q
      · subst hqq
        rw [update_self]
        have hlist := h.waiting q' hq'
        rw [hwcont] at hlist
        exact hlist.pop (by simp)
      · rw [update_of_ne hqq]
        exact (h.waiting q' hq').update_other (by simp [hplace, Ne.symm hqq]) (by simp)
    waitingLive := h.waitingLive_update (by simp)
    running := h.running_of_not (by simp [hplace]) (by simp)
    current := h.current }

/-- A wait queue is initialised: nothing can be waiting on it yet. -/
theorem Represents.initQueue {q : Q} (hq : ¬ live q) :
    Represents (s.setQueue q (s.waitQueues q).reset) (fun q' => q' = q ∨ live q') place where
  state := h.state
  readyValid := h.readyValid
  ready := h.ready
  waitValid q' hq' := by
    simp only [SchedState.setQueue]
    by_cases hqq : q' = q
    · subst hqq
      simp only [update_self]
      exact RingBuffer.reset_valid (by decide)
    · rw [update_of_ne hqq]
      exact h.waitValid q' (hq'.resolve_left hqq)
  waiting q' hq' := by
    simp only [SchedState.waitList, SchedState.setQueue]
    by_cases hqq : q' = q
    · subst hqq
      simp only [update_self, RingBuffer.reset_contents]
      refine ⟨List.nodup_nil, ?_⟩
      intro i
      simp only [List.not_mem_nil, false_iff]
      intro hi
      exact hq (h.waitingLive i q' hi.1 hi.2)
    · rw [update_of_ne hqq]
      exact h.waiting q' (hq'.resolve_left hqq)
  waitingLive i q' hi hplace := .inr (h.waitingLive i q' hi hplace)
  running := h.running
  current := h.current

end

end Moves

end GnuOS.Sched

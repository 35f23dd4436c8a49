import GnuOS.Sched.Accounts
import GnuOS.Workqueue.ExactlyOnce

/-!
# Lost wakeups

A worker that finds the queue empty goes to sleep in a step of its own, and a submission between
the two steps wakes nobody.  In runs in which no worker goes to sleep while the queue holds an
item, there are, as long as a worker sleeps, at least as many pops and wakes to come as items in
the queue.
-/

namespace GnuOS.Workqueue

open GnuOS.Lib GnuOS.Sched Function List

variable {Q : Type}

/-! ## Places of the workers -/

section Moves

variable {y y' : SchedSystem Q} {place place' : ℕ → Place Q} {op : SchedOp Q} {q : Q} {i : ℕ}

/-- A step of the scheduler on other queues leaves the sleepers of `q` asleep. -/
theorem move_waiting_iff (h : Placed y place) (hmove : Move y place op place')
    (hwait : op ≠ .waitQueueWait (some q)) (hone : op ≠ .waitQueueWakeOne (some q))
    (hall : op ≠ .waitQueueWakeAll (some q)) :
    place' i = .waiting q ↔ place i = .waiting q := by
  have htask := hmove.task h i
  generalize place i = p at htask ⊢
  generalize place' i = p' at htask ⊢
  cases htask with
  | waits => simpa using hwait
  | woken => simpa using hone
  | wokenAll => simpa using hall
  | _ => simp

/-- A runnable task stays runnable, unless it takes a step to sleep or to exit. -/
theorem move_runnable (h : Placed y place) (hmove : Move y place op place')
    (hstays : y.sched.currentTask = .slot i → (∀ queue, op ≠ .waitQueueWait queue) ∧
      op ≠ .taskExit)
    (hrun : place i = .ready ∨ place i = .running) : place' i = .ready ∨ place' i = .running := by
  have htask := hmove.task h i
  generalize place' i = p at htask ⊢
  rcases hrun with hready | hrunning
  · rw [hready] at htask
    cases htask with
    | stays => exact .inl rfl
    | runs => exact .inr rfl
  · rw [hrunning] at htask
    cases htask with
    | stays => exact .inr rfl
    | waits hcur => exact absurd rfl ((hstays hcur).1 _)
    | leaves => exact .inl rfl
    | exits hcur => exact absurd rfl (hstays hcur).2

end Moves

/-! ## Workers that attend the queue -/

/-- The task of a call that has still to attempt a pop. -/
def Call.attempts : Call → Option TaskRef
  | .popping task _ => some task
  | .yielding task => some task
  | _ => none

def Call.isWaking : Call → Bool
  | .waking => true
  | _ => false

/-- A task in the loop of `workqueue_execute_one` is runnable or sleeps on the waiters. -/
def Attends (waiters : Q) (place : ℕ → Place Q) (task : TaskRef) : Prop :=
  task = .bootstrap ∨ ∃ i, task = .slot i ∧ i < 128 ∧
    (place i = .ready ∨ place i = .running ∨ place i = .waiting waiters)

theorem Attends.update {waiters : Q} {place : ℕ → Place Q} {task : TaskRef} {i : ℕ} {p : Place Q}
    (h : Attends waiters place task) (hp : p = .ready ∨ p = .running ∨ p = .waiting waiters) :
    Attends waiters (update place i p) task := by
  rcases h with hboot | ⟨j, rfl, hj, hplace⟩
  · exact .inl hboot
  · refine .inr ⟨j, rfl, hj, ?_⟩
    by_cases hji : j = i
    · rwa [hji, update_self]
    · rwa [update_of_ne hji]

variable [DecidableEq Q]

/-- The call has still to attempt a pop, and its task is awake. -/
def eager (waiters : Q) (place : ℕ → Place Q) (c : Call) : Bool :=
  match c.attempts with
  | some (.slot i) => place i ≠ .waiting waiters
  | some _ => true
  | none => false

/-- The pops and wakes that the call still stands for. -/
def credit (waiters : Q) (place : ℕ → Place Q) (c : Call) : ℕ :=
  (if eager waiters place c then 1 else 0) + if c.isWaking then 1 else 0

/-- As long as a worker sleeps, there are enough pops and wakes to come for all the items. -/
structure Served (waiters : Q) (y : WorkSystem Q) (place : ℕ → Place Q) : Prop where
  placed : Placed y.sched place
  live : y.sched.initialised waiters = true
  loops : ∀ c ∈ y.calls, ∀ task, c.looping = some task → Attends waiters place task
  sleeper : ∀ i, i < 128 → place i = .waiting waiters → .popping (.slot i) true ∈ y.calls
  enough : (∃ i, i < 128 ∧ place i = .waiting waiters) →
    y.queue.items.length ≤
      y.calls.countP (eager waiters place) + y.calls.countP Call.isWaking

namespace Served

variable {waiters : Q} {y y' : WorkSystem Q} {place place' : ℕ → Place Q} {k : ℕ} {c e : Call}

section

variable (h : Served waiters y place)

include h

variable {z : SchedSystem Q}

/-- Other code takes a step of the scheduler. -/
theorem sched {op : SchedOp Q} (hexec : y.sched.exec op = some z)
    (hwait : op ≠ .waitQueueWait (some waiters)) (hone : op ≠ .waitQueueWakeOne (some waiters))
    (hall : op ≠ .waitQueueWakeAll (some waiters))
    (hstays : y.currentLoops = true → (∀ queue, op ≠ .waitQueueWait queue) ∧ op ≠ .taskExit) :
    ∃ place', Served waiters { y with sched := z } place' := by
  rcases h.placed.exec_move op hexec with ⟨place', hmove, h'⟩
  have hsame : ∀ i, place' i = .waiting waiters ↔ place i = .waiting waiters :=
    fun i => move_waiting_iff h.placed hmove hwait hone hall
  have heager : eager waiters place' = eager waiters place := by
    funext c
    unfold eager
    simp only [ne_eq, hsame]
  refine ⟨place', h', ?_, ?_, ?_, ?_⟩
  · exact SchedSystem.initialised_of_exec hexec h.live
  · intro c hc task hloop
    rcases h.loops c hc task hloop with hboot | ⟨i, rfl, hi, hplace⟩
    · exact .inl hboot
    · refine .inr ⟨i, rfl, hi, ?_⟩
      rcases or_assoc.mpr hplace with hrun | hsleep
      · rw [← or_assoc]
        refine .inl (move_runnable h.placed hmove ?_ hrun)
        intro hcur
        apply hstays
        rw [WorkSystem.currentLoops, any_eq_true]
        exact ⟨c, hc, by rw [hcur]; simpa using hloop⟩
      · exact .inr (.inr ((hsame i).mpr hsleep))
  · intro i hi hplace
    exact h.sleeper i hi ((hsame i).mp hplace)
  · rintro ⟨i, hi, hplace⟩
    rw [heager]
    exact h.enough ⟨i, hi, (hsame i).mp hplace⟩

/-- A call begins. -/
theorem begin (hloop : ∀ task, c.looping = some task → Attends waiters place task) :
    Served waiters { y with calls := y.calls ++ [c] } place where
  placed := h.placed
  live := h.live
  loops d hd task hd' := by
    rcases mem_append.mp hd with hd | hd
    · exact h.loops d hd task hd'
    · rw [mem_singleton] at hd
      exact hloop task (hd ▸ hd')
  sleeper i hi hplace := mem_append_left _ (h.sleeper i hi hplace)
  enough hsleeps := by
    have hle := h.enough hsleeps
    simp only [countP_concat]
    omega

/-- Call `k` takes a step that leaves the scheduler as it is. -/
theorem move (hk : y.calls[k]? = some c) {queue : WorkQueue}
    (hloop : ∀ task, e.looping = some task → Attends waiters place task)
    (hsleeper : ∀ i, place i = .waiting waiters → c ≠ .popping (.slot i) true)
    (hcount : (∃ i, i < 128 ∧ place i = .waiting waiters) →
      queue.items.length + credit waiters place c ≤
          y.queue.items.length + credit waiters place e ∨ queue.items = []) :
    Served waiters { y with calls := y.calls.set k e, queue := queue } place where
  placed := h.placed
  live := h.live
  loops d hd task hd' := by
    rcases mem_or_eq_of_mem_set hd with hd | rfl
    · exact h.loops d hd task hd'
    · exact hloop task hd'
  sleeper i hi hplace :=
    mem_set_of_ne hk (h.sleeper i hi hplace) (hsleeper i hplace).symm
  enough hsleeps := by
    have henough := h.enough hsleeps
    have heager := countP_set_add (e := e) (eager waiters place) hk
    have hwaking := countP_set_add (e := e) Call.isWaking hk
    rcases hcount hsleeps with hle | hnil
    · unfold credit at hle
      simp only
      omega
    · simp [hnil]

/-- Only the scheduler, the calls and the items count. -/
theorem of_eq (hsched : y'.sched = y.sched) (hcalls : y'.calls = y.calls)
    (hitems : y'.queue.items = y.queue.items) :
    Served waiters y' place where
  placed := hsched ▸ h.placed
  live := hsched ▸ h.live
  loops := hcalls ▸ h.loops
  sleeper := hcalls ▸ h.sleeper
  enough := by
    rw [hcalls, hitems]
    exact h.enough

theorem withSched (hz : Placed z place) (hlive : z.initialised waiters = true) :
    Served waiters { y with sched := z } place where
  placed := hz
  live := hlive
  loops := h.loops
  sleeper := h.sleeper
  enough := h.enough

/-- A step of a call that is not in the loop of `workqueue_execute_one`. -/
theorem idle (hk : y.calls[k]? = some c) (hc : c.looping = none) (he : e.looping = none)
    (hwaking : e.isWaking = c.isWaking) :
    Served waiters { y with calls := y.calls.set k e } place := by
  have hnot : ∀ {d : Call}, d.looping = none → eager waiters place d = false := by
    intro d hd
    cases d <;> simp [Call.looping] at hd <;> rfl
  refine h.move hk ?_ ?_ ?_
  · intro task htask
    rw [he] at htask
    exact absurd htask (by simp)
  · rintro i _ rfl
    simp [Call.looping] at hc
  · intro _
    unfold credit
    rw [hnot he, hnot hc, hwaking]
    exact .inl le_rfl

/-- A submitter wakes the worker that sleeps longest. -/
theorem wake (hk : y.calls[k]? = some .waking)
    (hexec : y.sched.exec (.waitQueueWakeOne (some waiters)) = some z) :
    ∃ place', Served waiters { y with sched := z, calls := y.calls.set k (.returned true) }
      place' := by
  have hlive := SchedSystem.initialised_of_exec hexec h.live
  have hwaiting := h.placed.represents.waiting waiters h.live
  rcases h.placed.wakeOne h.live hexec with ⟨hnil, hz⟩ | ⟨i, rest, hlist, hplace, hz⟩
  · -- no worker sleeps
    refine ⟨place, (h.withSched hz hlive).move hk (by simp [Call.looping]) (by simp) ?_⟩
    rintro ⟨i, hi, hplace⟩
    have hmem := (hwaiting.mem_iff i).mpr ⟨hi, hplace⟩
    rw [hnil] at hmem
    exact absurd hmem (by simp)
  · have hi : i < 128 := by
      have hmem : i ∈ y.sched.sched.waitList waiters := by rw [hlist]; exact mem_cons_self
      exact ((hwaiting.mem_iff i).mp hmem).1
    have hrest : ∀ j, update place i .ready j = .waiting waiters →
        j ≠ i ∧ place j = .waiting waiters := by
      intro j hj
      by_cases hji : j = i
      · subst hji
        simp at hj
      · rw [update_of_ne hji] at hj
        exact ⟨hji, hj⟩
    refine ⟨update place i .ready, hz, hlive, ?_, ?_, ?_⟩
    · intro c hc task hloop
      rcases mem_or_eq_of_mem_set hc with hc | rfl
      · exact (h.loops c hc task hloop).update (by simp)
      · simp [Call.looping] at hloop
    · intro j hj hsleep
      exact mem_set_of_ne hk (h.sleeper j hj (hrest j hsleep).2) (by simp)
    · intro _
      have henough := h.enough ⟨i, hi, hplace⟩
      have hwaking : (y.calls.set k (.returned true)).countP Call.isWaking + 1 =
          y.calls.countP Call.isWaking + 0 := countP_set_add Call.isWaking hk
      -- the call of the worker that is woken has still to attempt a pop
      rcases mem_iff_getElem?.mp (h.sleeper i hi hplace) with ⟨j, hj⟩
      have hmore : y.calls.countP (eager waiters place) <
          y.calls.countP (eager waiters (update place i .ready)) := by
        refine countP_lt_countP ?_ hj (by simp [eager, Call.attempts, hplace])
          (by simp [eager, Call.attempts])
        intro d _ hd
        unfold eager at hd ⊢
        split at hd
        · rename_i j' _
          simp only [ne_eq, decide_eq_true_eq] at hd ⊢
          exact fun hsleep => hd (hrest j' hsleep).2
        · rfl
        · simp at hd
      have hsame : (y.calls.set k (.returned true)).countP
            (eager waiters (update place i .ready)) =
          y.calls.countP (eager waiters (update place i .ready)) :=
        countP_set_same hk rfl
      simp only
      omega

/-- A worker goes to sleep on an empty queue; the bootstrap task goes on. -/
theorem sleep {task : TaskRef} (hk : y.calls[k]? = some (.sleeping task))
    (hcur : y.sched.sched.currentTask = task)
    (hexec : y.sched.exec (.waitQueueWait (some waiters)) = some z)
    (hempty : ∀ i, task = .slot i → y.queue.items = []) :
    ∃ place', Served waiters { y with
      sched := z
      calls := y.calls.set k (if (schedWaitQueueWait y.sched.sched (some waiters)).1 then
        .popping task true else .yielding task) } place' := by
  have hlive := SchedSystem.initialised_of_exec hexec h.live
  rcases h.placed.wait h.live hexec with ⟨hboot, hret, hz⟩ | ⟨i, hslot, hret, hz⟩
  · rw [hret]
    rw [hcur] at hboot
    subst hboot
    refine ⟨place, (h.withSched hz hlive).move hk ?_ (by simp) ?_⟩
    · intro task htask
      exact .inl (Option.some.inj htask).symm
    · exact fun _ => .inl (Nat.add_le_add_left (Nat.zero_le 1) _)
  · rw [hret, if_pos rfl]
    rw [hcur] at hslot
    subst hslot
    have hi := (h.placed.represents.of_current hcur).1
    refine ⟨update place i (.waiting waiters), hz, hlive, ?_, ?_, ?_⟩
    · intro c hc task hloop
      rcases mem_or_eq_of_mem_set hc with hc | rfl
      · exact (h.loops c hc task hloop).update (by simp)
      · exact .inr ⟨i, (Option.some.inj hloop).symm, hi, by simp⟩
    · intro j hj hsleep
      by_cases hji : j = i
      · subst hji
        exact mem_iff_getElem?.mpr ⟨k, (getElem?_set_iff hk).mpr (.inl ⟨rfl, rfl⟩)⟩
      · rw [update_of_ne hji] at hsleep
        exact mem_set_of_ne hk (h.sleeper j hj hsleep) (by simp)
    · intro _
      simp only
      rw [hempty i rfl]
      simp

/-- What it takes for a task to execute code. -/
theorem awake {task : TaskRef} (hrun : y.canRun task = true) :
    Attends waiters place task ∧ ∀ i, place i = .waiting waiters → task ≠ .slot i := by
  cases task with
  | null => simp [WorkSystem.canRun] at hrun
  | bootstrap => exact ⟨.inl rfl, by simp⟩
  | slot i =>
    simp only [WorkSystem.canRun, decide_eq_true_eq] at hrun
    rcases hrun with ⟨hi, hstate⟩
    rw [h.placed.ready_iff hi, h.placed.running_iff hi] at hstate
    refine ⟨.inr ⟨i, rfl, hi, by tauto⟩, ?_⟩
    intro j hj heq
    cases heq
    rcases hstate with hstate | hstate <;> rw [hj] at hstate <;> simp at hstate

end

theorem eager_of_awake {task : TaskRef} {blockIfEmpty : Bool}
    (hawake : ∀ i, place i = .waiting waiters → task ≠ .slot i) :
    eager waiters place (.popping task blockIfEmpty) = true := by
  cases task with
  | null => rfl
  | bootstrap => rfl
  | slot i =>
    simp only [eager, Call.attempts, ne_eq, decide_eq_true_eq]
    exact fun hsleep => hawake i hsleep rfl

end Served

/-! ## Runs without lost wakeups -/

/-- A worker takes the step to sleep only while the queue is empty. -/
def SleepsOnEmpty (y : WorkSystem Q) : WorkOp Q → Prop
  | .resume k => ∀ i, i < 128 → y.calls[k]? = some (.sleeping (.slot i)) → y.queue.items = []
  | _ => True

omit [DecidableEq Q] in
instance (y : WorkSystem Q) : ∀ op, Decidable (SleepsOnEmpty y op)
  | .sched _ => inferInstanceAs (Decidable True)
  | .submit _ _ => inferInstanceAs (Decidable True)
  | .executeOne _ _ => inferInstanceAs (Decidable True)
  | .resume k => inferInstanceAs (Decidable (∀ i, i < 128 →
      y.calls[k]? = some (.sleeping (.slot i)) → y.queue.items = []))

/-- If no submitter is about to wake a worker, the queue holds an item and a worker sleeps, then
another worker is awake in `workqueue_execute_one` and has still to attempt a pop. -/
def NoLostWakeup (waiters : Q) (y : WorkSystem Q) : Prop :=
  .waking ∉ y.calls → y.queue.items ≠ [] → ∀ i ∈ y.sched.sched.waitList waiters,
    ∃ c ∈ y.calls, ∃ task, c.attempts = some task ∧ task ≠ .slot i ∧ y.canRun task = true

theorem permits_spec {waiters : Q} {y : WorkSystem Q} {op : SchedOp Q}
    (h : y.permits waiters op = true) :
    op ≠ .waitQueueWait (some waiters) ∧ op ≠ .waitQueueWakeOne (some waiters) ∧
      op ≠ .waitQueueWakeAll (some waiters) ∧
      (y.currentLoops = true → (∀ queue, op ≠ .waitQueueWait queue) ∧ op ≠ .taskExit) := by
  cases op <;> simp [WorkSystem.permits] at h ⊢ <;> simp [h]

namespace Served

variable {waiters : Q} {y y' : WorkSystem Q} {place : ℕ → Place Q}

theorem step (h : Served waiters y place) {op : WorkOp Q} (hstep : Transition waiters y op y')
    (hempty : SleepsOnEmpty y op) : ∃ place', Served waiters y' place' := by
  cases hstep with
  | sched hpermits hexec =>
    rcases permits_spec hpermits with ⟨hwait, hone, hall, hstays⟩
    exact h.sched hexec hwait hone hall hstays
  | refuses => exact ⟨place, h.begin (by simp [Call.looping])⟩
  | submits _ => exact ⟨place, h.begin (by simp [Call.looping])⟩
  | executes hrun =>
    refine ⟨place, h.begin ?_⟩
    intro task htask
    rw [← Option.some.inj htask]
    exact (h.awake hrun).1
  | full hk _ => exact ⟨place, h.idle hk rfl rfl rfl⟩
  | @enqueues k item queue hk _ hqueue =>
    have hserved :
        Served waiters { y with calls := y.calls.set k .waking, queue := queue } place := by
      refine h.move hk (by simp [Call.looping]) (by simp) ?_
      rw [hqueue.items, length_append, length_singleton]
      exact fun _ => .inl le_rfl
    exact ⟨place, hserved.of_eq rfl rfl rfl⟩
  | wakes hk hexec => exact h.wake hk hexec
  | @empty k task blockIfEmpty hk hrun hitems =>
    rcases h.awake hrun with ⟨hattends, hawake⟩
    refine ⟨place, h.move hk ?_ ?_ ?_⟩
    · intro task' htask'
      cases blockIfEmpty <;> simp [Call.looping] at htask'
      rw [← htask']
      exact hattends
    · rintro i hsleep heq
      simp only [Call.popping.injEq] at heq
      exact hawake i hsleep heq.1
    · exact fun _ => .inr hitems
  | @pops k task blockIfEmpty item queue hk hrun hqueue =>
    rcases h.awake hrun with ⟨_, hawake⟩
    have hserved : Served waiters { y with
        calls := y.calls.set k (.holding task y.popped.length item)
        queue := queue } place := by
      refine h.move hk (by simp [Call.looping]) ?_ ?_
      · rintro i hsleep heq
        simp only [Call.popping.injEq] at heq
        exact hawake i hsleep heq.1
      · rw [hqueue.items, length_cons, credit, eager_of_awake hawake]
        exact fun _ => .inl le_rfl
    exact ⟨place, hserved.of_eq rfl rfl rfl⟩
  | @sleeps k task z hk hcur hexec =>
    refine h.sleep hk hcur hexec ?_
    rintro i rfl
    exact hempty i (h.placed.represents.of_current hcur).1 hk
  | @yields k task z hk hexec =>
    rcases h.sched hexec (by simp) (by simp) (by simp) (by simp) with ⟨place', h'⟩
    refine ⟨place', h'.move hk ?_ (by simp) ?_⟩
    · intro task' htask'
      rw [← Option.some.inj htask']
      exact h'.loops _ (mem_iff_getElem?.mpr ⟨k, hk⟩) task rfl
    · exact fun _ => .inl le_rfl
  | @calls k task n item hk =>
    exact ⟨place, (h.idle (e := .running task n item) hk rfl rfl rfl).of_eq rfl rfl rfl⟩
  | finishes hk =>
    exact ⟨place, (h.idle (e := .returned true) hk rfl rfl rfl).of_eq rfl rfl rfl⟩

theorem noLostWakeup (h : Served waiters y place) : NoLostWakeup waiters y := by
  intro hwaking hitems i hi
  have hplace := ((h.placed.represents.waiting waiters h.live).mem_iff i).mp hi
  have henough := h.enough ⟨i, hplace⟩
  have hnone : y.calls.countP Call.isWaking = 0 := by
    rw [countP_eq_zero]
    intro c hc hcw
    cases c <;> simp [Call.isWaking] at hcw
    exact hwaking hc
  have hpos : 0 < y.calls.countP (eager waiters place) := by
    have := length_pos_iff.mpr hitems
    omega
  rcases countP_pos_iff.mp hpos with ⟨c, hc, heager⟩
  unfold eager at heager
  cases hattempts : c.attempts with
  | none => simp [hattempts] at heager
  | some task =>
    refine ⟨c, hc, task, hattempts, ?_⟩
    have hloop : c.looping = some task := by
      cases c <;> simp [Call.attempts] at hattempts <;> rw [hattempts] <;> rfl
    rcases h.loops c hc task hloop with rfl | ⟨j, rfl, hj, hplace_j⟩
    · exact ⟨by simp, rfl⟩
    · simp only [hattempts, ne_eq, decide_eq_true_eq] at heager
      refine ⟨?_, ?_⟩
      · intro heq
        cases heq
        exact heager hplace.2
      · simp only [WorkSystem.canRun, decide_eq_true_eq]
        rw [h.placed.ready_iff hj, h.placed.running_iff hj]
        exact ⟨hj, by tauto⟩

end Served

/-- The scheduler after the initialisation of the waiters. -/
theorem served_start {waiters : Q} {s : SchedState Q} {boot : List (SchedOp Q)}
    {z : SchedSystem Q} (queue : WorkQueue)
    (hboot :
      (boot ++ [SchedOp.waitQueueInit waiters]).foldlM SchedSystem.exec (.start s) = some z) :
    ∃ place, Served waiters (.start z queue) place := by
  rcases run_append.mp hboot with ⟨z₀, hz₀, hinit⟩
  rcases placed_run s hz₀ with ⟨place, h⟩
  rcases run_cons.mp hinit with ⟨z₁, hexec, hz⟩
  obtain rfl := Option.some.inj hz
  rcases h.exec_move _ hexec with ⟨place', hmove, h'⟩
  have hsame : place' = place := by
    cases hmove with
    | stay => rfl
    | leaves hop => simp at hop
  rw [hsame] at h'
  obtain ⟨hnot, hexec⟩ := Option.ite_none_left_eq_some.mp hexec
  have hnone : ∀ i, i < 128 → place i ≠ .waiting waiters := by
    intro i hi hplace
    exact hnot (h.represents.waitingLive i waiters hi hplace)
  refine ⟨place, h', ?_, ?_, ?_, ?_⟩
  · rw [← Option.some.inj hexec]
    simp [WorkSystem.start]
  · simp [WorkSystem.start]
  · intro i hi hplace
    exact absurd hplace (hnone i hi)
  · rintro ⟨i, hi, hplace⟩
    exact absurd hplace (hnone i hi)

/-- No wakeup is lost in a run in which every worker that goes to sleep does so on an empty
queue. -/
theorem work_run_no_lost_wakeup (waiters : Q) (s : SchedState Q) (boot : List (SchedOp Q))
    (z : SchedSystem Q) (queue : WorkQueue) (ops : List (WorkOp Q)) (y : WorkSystem Q)
    (hboot : (boot ++ [SchedOp.waitQueueInit waiters]).foldlM SchedSystem.exec (.start s) = some z)
    (hsteps : EachStep (WorkSystem.step waiters) SleepsOnEmpty (.start z queue) ops)
    (hrun : ops.foldlM (WorkSystem.step waiters) (.start z queue) = some y) :
    NoLostWakeup waiters y := by
  have hall := run_invariant_of
    (P := fun y => (∃ place, Accounted y place) ∧ ∃ place, Served waiters y place) ?_
    ⟨⟨_, .start z queue⟩, served_start queue hboot⟩ hsteps hrun
  · rcases hall.2 with ⟨place, h⟩
    exact h.noLostWakeup
  · intro y₁ op y₂ hy₁ hempty hstep
    rcases hy₁ with ⟨⟨items, haccounted⟩, place, h⟩
    have htransition := Transition.of_step haccounted.valid hstep
    exact ⟨haccounted.step htransition, h.step htransition hempty⟩

/-- Two tasks are created before `workqueue_init`. -/
def twoTasks : List (SchedOp Unit) :=
  [.createClaim 0#64 1#64 0#64, .prepareTaskStack 0 0x5000#64, .createReady 0,
    .createClaim 0#64 1#64 0#64, .prepareTaskStack 1 0x6000#64, .createReady 1]

/-- Task 0 goes to sleep, and is woken for the item of task 1. -/
def submitAfterSleep : List (WorkOp Unit) :=
  [.sched .run, .executeOne (.slot 0) true, .resume 0, .resume 0, .sched .run, .submit 1#64 2#64,
    .resume 1, .resume 1]

theorem work_run_no_lost_wakeup_submit_after_sleep :
    ∃ (z : SchedSystem Unit) (y : WorkSystem Unit),
      (twoTasks ++ [SchedOp.waitQueueInit ()]).foldlM SchedSystem.exec (.start staleSched) =
        some z ∧
      submitAfterSleep.foldlM (WorkSystem.step ()) (.start z staleQueue) = some y ∧
      y.queue.items = [⟨1#64, 2#64⟩] ∧ NoLostWakeup () y := by
  refine ⟨_, _, rfl, rfl, by decide +kernel, ?_⟩
  exact work_run_no_lost_wakeup () staleSched twoTasks _ staleQueue submitAfterSleep _ rfl
    (by decide +kernel) rfl

/-- Task 0 finds the queue empty; before it goes to sleep, task 1 submits an item and wakes
nobody. -/
def submitBeforeSleep : List (WorkOp Unit) :=
  [.sched .run, .executeOne (.slot 0) true, .resume 0, .sched .tick, .sched .preemptOnTick,
    .sched .run, .submit 1#64 2#64, .resume 1, .resume 1, .sched .tick, .sched .preemptOnTick,
    .sched .run, .resume 0]

set_option maxRecDepth 4000 in
theorem worker_sleeps_with_work_pending :
    ∃ (z : SchedSystem Unit) (y : WorkSystem Unit),
      (twoTasks ++ [SchedOp.waitQueueInit ()]).foldlM SchedSystem.exec (.start staleSched) =
        some z ∧
      submitBeforeSleep.foldlM (WorkSystem.step ()) (.start z staleQueue) = some y ∧
      ¬ NoLostWakeup () y := by
  refine ⟨_, _, rfl, rfl, ?_⟩
  intro hwake
  rcases hwake (by decide +kernel) (by decide +kernel) 0 (by decide +kernel)
    with ⟨c, hc, task, hattempts, hne, _⟩
  -- the only call that is left is that of the worker asleep
  have hcalls : c ∈ [Call.popping (.slot 0) true, Call.returned true] := hc
  simp only [mem_cons, not_mem_nil, or_false] at hcalls
  rcases hcalls with rfl | rfl
  · exact hne (Option.some.inj hattempts).symm
  · simp [Call.attempts] at hattempts

end GnuOS.Workqueue

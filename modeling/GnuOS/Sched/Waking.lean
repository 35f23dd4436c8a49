import GnuOS.Sched.Accounts

/-!
# Waking in order

A run of the scheduler, watched from outside: `sleepers` are the tasks that a wait queue has put to
sleep and that have been blocked since then, in the order in which they went to sleep.  Nothing of
the queues themselves goes into it.  The rings hold these tasks in this order (`Watched`), so that
the oldest sleeper of a queue is the next one to be woken (`wait_queue_fifo`).
-/

namespace GnuOS.Sched

open GnuOS.Lib List

variable {Q : Type} [DecidableEq Q]

/-! ## Watching a run -/

/-- The task that goes to sleep in a step, and the queue on which it does. -/
def sleeps (y : SchedSystem Q) : SchedOp Q → List (ℕ × Q)
  | .waitQueueWait (some q) =>
    match (schedWaitQueueWait y.sched (some q)).1, y.sched.currentTask with
    | true, .slot i => [(i, q)]
    | _, _ => []
  | _ => []

structure Watch (Q : Type) where
  system : SchedSystem Q
  sleepers : List (ℕ × Q)

namespace Watch

def start (s : SchedState Q) : Watch Q := ⟨SchedSystem.start s, []⟩

/-- A task that is not blocked any more is no sleeper. -/
def exec (w : Watch Q) (op : SchedOp Q) : Option (Watch Q) :=
  (w.system.exec op).map fun y =>
    ⟨y, (w.sleepers ++ sleeps w.system op).filter fun p => (y.sched.tasks p.1).state = .blocked⟩

end Watch

/-- The tasks that sleep on `q`, the one that has slept longest first. -/
def sleepersOf (q : Q) (l : List (ℕ × Q)) : List ℕ := (l.filter fun p => p.2 = q).map Prod.fst

def Watch.waiters (w : Watch Q) (q : Q) : List ℕ := sleepersOf q w.sleepers

section

variable {q : Q} {l : List (ℕ × Q)}

theorem mem_sleepersOf {i : ℕ} : i ∈ sleepersOf q l ↔ (i, q) ∈ l := by
  unfold sleepersOf
  rw [mem_map]
  constructor
  · rintro ⟨p, hp, rfl⟩
    rw [mem_filter, decide_eq_true_eq] at hp
    rw [← hp.2]
    exact hp.1
  · intro hi
    exact ⟨(i, q), mem_filter.mpr ⟨hi, decide_eq_true rfl⟩, rfl⟩

theorem sleepersOf_append (l' : List (ℕ × Q)) :
    sleepersOf q (l ++ l') = sleepersOf q l ++ sleepersOf q l' := by
  unfold sleepersOf
  rw [filter_append, map_append]

theorem sleepersOf_filter (keep : ℕ → Bool) :
    sleepersOf q (l.filter fun p => keep p.1) = (sleepersOf q l).filter keep := by
  unfold sleepersOf
  rw [filter_map, filter_filter, filter_filter]
  congr 1
  apply filter_congr
  intro p _
  exact Bool.and_comm _ _

end

/-! ## One step -/

section

variable {y y' : SchedSystem Q} {place : ℕ → Place Q} {op : SchedOp Q} {q : Q}

/-- The entries of a queue between two states: they leave at the front, and have become ready; the
new ones are at the back. -/
def Flows (y y' : SchedSystem Q) (q : Q) (new : List ℕ) : Prop :=
  ∃ woken, y.sched.waitList q ++ new = woken ++ y'.sched.waitList q ∧
    ∀ i ∈ woken, (y'.sched.tasks i).state = .ready

omit [DecidableEq Q] in
theorem flows_of_waitQueues (h : y'.sched.waitQueues = y.sched.waitQueues) : Flows y y' q [] := by
  refine ⟨[], ?_, fun i hi => absurd hi not_mem_nil⟩
  unfold SchedState.waitList
  rw [h, append_nil, nil_append]

theorem Flows.of_woken {s' : SchedState Q} {p : Q} {l : List ℕ} (h : Woken y.sched s' p l)
    (hy : y'.sched = s') : Flows y y' q [] := by
  subst hy
  by_cases hqp : q = p
  · subst hqp
    refine ⟨l, ?_, ?_⟩
    · rw [append_nil]
      exact h.waitList
    · intro i hi
      rw [h.tasks, if_pos hi]
  · refine ⟨[], ?_, fun i hi => absurd hi not_mem_nil⟩
    rw [h.others q hqp, append_nil, nil_append]

section

variable (s : SchedState Q)

omit [DecidableEq Q]

theorem waitQueues_createClaim (name entry arg : BitVec 64) :
    (schedCreateClaim s name entry arg).2.waitQueues = s.waitQueues := by
  unfold schedCreateClaim
  split
  · rfl
  split <;> rfl

theorem waitQueues_prepareTaskStack (i : ℕ) (page : BitVec 64) :
    (schedPrepareTaskStack s i page).2.waitQueues = s.waitQueues := by
  unfold schedPrepareTaskStack
  dsimp only
  split <;> rfl

theorem waitQueues_createReady (i : ℕ) : (schedCreateReady s i).2.waitQueues = s.waitQueues := by
  unfold schedCreateReady
  dsimp only
  split
  · rfl
  · rename_i henq
    obtain ⟨r, -, rfl⟩ := Option.map_eq_some_iff.mp henq
    rfl

theorem waitQueues_tick : (schedTick s).waitQueues = s.waitQueues := by
  unfold schedTick
  dsimp only
  split
  · split <;> rfl
  · rfl

end

/-- The tasks that a step puts to sleep on `q`. -/
theorem Placed.flows_wait (h : Placed y place) {p : Q} (hp : y.initialised p = true)
    (hexec : y.exec (.waitQueueWait (some p)) = some y') :
    Flows y y' q (sleepersOf q (sleeps y (.waitQueueWait (some p)))) := by
  simp only [SchedSystem.exec, SchedSystem.usable, hp, if_true, Option.some.injEq] at hexec
  rcases schedWaitQueueWait_spec h.represents hp with ⟨hboot, hwait⟩ |
    ⟨i, s', hcur, hwait, hback, hothers, _⟩
  · rw [hwait] at hexec
    simp only [sleeps, hwait]
    exact flows_of_waitQueues (by rw [← hexec])
  · rw [hwait] at hexec
    simp only [sleeps, hwait, hcur]
    refine ⟨[], ?_, fun i hi => absurd hi not_mem_nil⟩
    rw [← hexec, nil_append]
    show y.sched.waitList q ++ sleepersOf q [(i, p)] = s'.waitList q
    by_cases hqp : q = p
    · subst hqp
      rw [hback]
      simp [sleepersOf]
    · rw [hothers q hqp]
      simp [sleepersOf, Ne.symm hqp]

/-- What a step does to a wait queue. -/
theorem Placed.flows (h : Placed y place) (hq : y.initialised q = true)
    (hexec : y.exec op = some y') : Flows y y' q (sleepersOf q (sleeps y op)) := by
  cases op with
  | waitQueueWait queue =>
    cases queue with
    | none =>
      rw [← Option.some.inj hexec]
      exact flows_of_waitQueues rfl
    | some p => exact h.flows_wait (Option.ite_none_right_eq_some.mp hexec).1 hexec
  | waitQueueWakeOne queue =>
    obtain ⟨husable, hexec⟩ := Option.ite_none_right_eq_some.mp hexec
    rw [← Option.some.inj hexec]
    cases queue with
    | none => exact flows_of_waitQueues rfl
    | some p =>
      rcases schedWakeOneLocked_spec h.represents husable with ⟨_, hwake⟩ |
        ⟨i, rest, s', _, hwake, hwoken, _⟩
      · exact flows_of_waitQueues (by rw [schedWaitQueueWakeOne, hwake])
      · exact Flows.of_woken hwoken (by rw [schedWaitQueueWakeOne, hwake])
  | waitQueueWakeAll queue =>
    obtain ⟨husable, hexec⟩ := Option.ite_none_right_eq_some.mp hexec
    rw [← Option.some.inj hexec]
    cases queue with
    | none => exact flows_of_waitQueues rfl
    | some p =>
      rcases schedWaitQueueWakeAll_spec h.represents husable with ⟨s', hwake, _, hwoken, _⟩
      exact Flows.of_woken hwoken (by rw [hwake])
  | waitQueueInit p =>
    obtain ⟨hnot, hexec⟩ := Option.ite_none_left_eq_some.mp hexec
    rw [← Option.some.inj hexec]
    have hqp : q ≠ p := fun heq => hnot (heq ▸ hq)
    have hsame : (y.sched.setQueue p (y.sched.waitQueues p).reset).waitList q =
        y.sched.waitList q := (waitList_of_update rfl).trans (if_neg hqp)
    refine ⟨[], ?_, fun i hi => absurd hi not_mem_nil⟩
    rw [nil_append]
    exact (append_nil _).trans hsame.symm
  | createClaim name entry arg =>
    apply flows_of_waitQueues
    rw [← waitQueues_createClaim y.sched name entry arg]
    simp only [SchedSystem.exec] at hexec
    split at hexec
    all_goals
      rename_i hclaim
      rw [← Option.some.inj hexec, hclaim]
  | prepareTaskStack i page =>
    obtain ⟨-, hexec⟩ := Option.ite_none_right_eq_some.mp hexec
    rw [← Option.some.inj hexec]
    exact flows_of_waitQueues (waitQueues_prepareTaskStack y.sched i page)
  | createReady i =>
    obtain ⟨-, hexec⟩ := Option.ite_none_right_eq_some.mp hexec
    rw [← Option.some.inj hexec]
    exact flows_of_waitQueues (waitQueues_createReady y.sched i)
  | createRollback i =>
    obtain ⟨-, hexec⟩ := Option.ite_none_right_eq_some.mp hexec
    rw [← Option.some.inj hexec]
    exact flows_of_waitQueues rfl
  | tick =>
    rw [← Option.some.inj hexec]
    exact flows_of_waitQueues (waitQueues_tick y.sched)
  | requestResched =>
    rw [← Option.some.inj hexec]
    exact flows_of_waitQueues rfl
  | preemptOnTick =>
    rw [← Option.some.inj hexec]
    exact flows_of_waitQueues (Switched.preemptOnTick h.represents).waitQueues
  | run =>
    rw [← Option.some.inj hexec]
    exact flows_of_waitQueues (Switched.run h.represents.readyAgrees).waitQueues
  | yield =>
    rw [← Option.some.inj hexec]
    exact flows_of_waitQueues (Switched.yield h.represents).waitQueues
  | taskExit =>
    obtain ⟨s', hexit, rfl⟩ := Option.map_eq_some_iff.mp hexec
    exact flows_of_waitQueues (Switched.taskExit hexit).waitQueues

theorem mem_sleeps {p : ℕ × Q} (hp : p ∈ sleeps y op) : op = .waitQueueWait (some p.2) := by
  unfold sleeps at hp
  split at hp
  · split at hp
    · rw [mem_singleton.mp hp]
    · exact absurd hp not_mem_nil
  · exact absurd hp not_mem_nil

end

/-! ## Runs -/

/-- The rings hold the sleepers, in order. -/
structure Watched (w : Watch Q) (place : ℕ → Place Q) : Prop where
  placed : Placed w.system place
  waitList : ∀ q, w.system.initialised q = true → w.system.sched.waitList q = w.waiters q
  live : ∀ p ∈ w.sleepers, w.system.initialised p.2 = true

section

variable {w w' : Watch Q} {place : ℕ → Place Q} {op : SchedOp Q}

theorem watched_start (s : SchedState Q) : Watched (Watch.start s) fun _ => Place.unused where
  placed := Placed.start s
  waitList q hq := by cases hq
  live p hp := absurd hp not_mem_nil

omit [DecidableEq Q] in
/-- Entries that have left the queue are no sleepers any more, the others still are. -/
theorem filter_of_flows {y y' : SchedSystem Q} {place' : ℕ → Place Q} {q : Q} {new : List ℕ}
    (h : Flows y y' q new) (h' : Placed y' place') (hq : y'.initialised q = true) :
    (y.sched.waitList q ++ new).filter (fun i => (y'.sched.tasks i).state = .blocked) =
      y'.sched.waitList q := by
  obtain ⟨woken, heq, hready⟩ := h
  rw [heq, filter_append]
  have hgone : woken.filter (fun i => (y'.sched.tasks i).state = .blocked) = [] := by
    rw [filter_eq_nil_iff]
    intro i hi
    rw [hready i hi]
    decide
  have hstay : (y'.sched.waitList q).filter (fun i => (y'.sched.tasks i).state = .blocked) =
      y'.sched.waitList q := by
    rw [filter_eq_self]
    intro i hi
    exact decide_eq_true (h'.schedulerInvariant.wait_blocked q hq i hi).2
  rw [hgone, hstay, nil_append]

/-- Each step keeps the rings and the sleepers in agreement. -/
theorem Watched.exec (h : Watched w place) (hexec : w.exec op = some w') :
    ∃ place', Watched w' place' := by
  unfold Watch.exec at hexec
  rw [Option.map_eq_some_iff] at hexec
  obtain ⟨y', hstep, rfl⟩ := hexec
  obtain ⟨place', hplaced⟩ := h.placed.exec op hstep
  refine ⟨place', hplaced, ?_, ?_⟩
  · intro q hq'
    unfold Watch.waiters
    rw [sleepersOf_filter (fun i => (y'.sched.tasks i).state = .blocked), sleepersOf_append]
    by_cases hq : w.system.initialised q = true
    · have hflows := filter_of_flows (h.placed.flows hq hstep) hplaced hq'
      rw [h.waitList q hq] at hflows
      exact hflows.symm
    · -- the queue has just been initialised: it is empty, and nobody can sleep on it
      rcases SchedSystem.initialised_exec hstep with hsame | ⟨q', rfl, hnew⟩
      · rw [hsame] at hq'
        exact absurd hq' hq
      have hqq : q' = q := by
        by_contra hne
        rw [hnew, Function.update_of_ne (Ne.symm hne)] at hq'
        exact hq hq'
      subst hqq
      simp only [SchedSystem.exec, if_neg hq, Option.some.injEq] at hstep
      have hempty : sleepersOf q' w.sleepers = [] := by
        rw [eq_nil_iff_forall_not_mem]
        intro i hi
        exact hq (h.live _ (mem_sleepersOf.mp hi))
      rw [hempty, ← hstep]
      show (w.system.sched.setQueue q' (w.system.sched.waitQueues q').reset).waitList q' = []
      exact ((waitList_of_update rfl).trans (if_pos rfl)).trans RingBuffer.reset_contents
  · intro p hp
    rcases mem_append.mp (mem_of_mem_filter hp) with hold | hnew
    · exact SchedSystem.initialised_of_exec hstep (h.live p hold)
    · have hop := mem_sleeps hnew
      subst hop
      exact SchedSystem.initialised_of_exec hstep (Option.ite_none_right_eq_some.mp hstep).1

/-- Every run of the scheduler can be watched. -/
theorem watch_run (s : SchedState Q) {ops : List (SchedOp Q)} {y : SchedSystem Q}
    (hrun : ops.foldlM SchedSystem.exec (SchedSystem.start s) = some y) :
    ∃ w, ops.foldlM Watch.exec (Watch.start s) = some w ∧ w.system = y ∧
      ∃ place, Watched w place := by
  induction ops using reverseRecOn generalizing y with
  | nil =>
    rw [← Option.some.inj hrun]
    exact ⟨Watch.start s, rfl, rfl, _, watched_start s⟩
  | append_singleton ops op ih =>
    obtain ⟨y₁, hpre, hlast⟩ := run_append.mp hrun
    obtain ⟨y₂, hstep, hy⟩ := run_cons.mp hlast
    rw [← Option.some.inj hy]
    obtain ⟨w, hw, rfl, place, hwatched⟩ := ih hpre
    obtain ⟨w', hw'⟩ : ∃ w', w.exec op = some w' := by
      unfold Watch.exec
      rw [hstep]
      exact ⟨_, rfl⟩
    refine ⟨w', run_append.mpr ⟨w, hw, run_cons.mpr ⟨w', hw', rfl⟩⟩, ?_, hwatched.exec hw'⟩
    unfold Watch.exec at hw'
    rw [hstep] at hw'
    rw [← Option.some.inj hw']

/-- The places of the sleepers. -/
theorem Watched.mem_sleepers (h : Watched w place) {i : ℕ} {q : Q} :
    (i, q) ∈ w.sleepers ↔ i < 128 ∧ place i = .waiting q := by
  have hrep := h.placed.represents
  by_cases hq : w.system.initialised q = true
  · rw [← mem_sleepersOf, ← (hrep.waiting q hq).mem_iff i]
    show i ∈ w.waiters q ↔ _
    rw [h.waitList q hq]
  · refine iff_of_false (fun hmem => hq (h.live _ hmem)) ?_
    intro hi
    exact hq (hrep.waitingLive i q hi.1 hi.2)

end

/-- What the wait queues do in a state of a watched run. -/
structure FifoWakes (w : Watch Q) : Prop where
  /-- The sleepers are the blocked tasks, except for those that are still being created. -/
  sleeping : ∀ i, (i < 128 ∧ (w.system.sched.tasks i).state = .blocked ∧
    w.system.creating i = none) ↔ ∃ q, (i, q) ∈ w.sleepers
  wakeOne_none : ∀ q, w.system.initialised q = true → w.waiters q = [] →
    schedWaitQueueWakeOne w.system.sched (some q) = (false, w.system.sched)
  /-- The task that has slept longest becomes ready, and nothing else happens to the tasks. -/
  wakeOne : ∀ q i rest, w.system.initialised q = true → w.waiters q = i :: rest →
    ∃ s', schedWaitQueueWakeOne w.system.sched (some q) = (true, s') ∧
      Woken w.system.sched s' q [i] ∧ s'.waitList q = rest
  /-- However many rounds the loop is given, it stops after the last sleeper. -/
  wakeAll : ∀ q, w.system.initialised q = true →
    ∃ s', schedWaitQueueWakeAll w.system.sched (some q) = ((w.waiters q).length, s') ∧
      (∀ fuel, (w.waiters q).length < fuel →
        wakeAllLoop (some q) fuel w.system.sched 0 = ((w.waiters q).length, s')) ∧
      Woken w.system.sched s' q (w.waiters q) ∧ s'.waitList q = []
  onlyWakes : ∀ op y' i, w.system.exec op = some y' → i < 128 →
    (w.system.sched.tasks i).state = .blocked → w.system.creating i = none →
    (y'.sched.tasks i).state = .ready →
    ∃ q, (i, q) ∈ w.sleepers ∧
      (op = .waitQueueWakeOne (some q) ∨ op = .waitQueueWakeAll (some q))

section

variable {w : Watch Q} {place : ℕ → Place Q}

theorem Watched.sleeping (h : Watched w place) (i : ℕ) :
    (i < 128 ∧ (w.system.sched.tasks i).state = .blocked ∧ w.system.creating i = none) ↔
      ∃ q, (i, q) ∈ w.sleepers := by
  constructor
  · rintro ⟨hi, hblocked, hcreated⟩
    obtain ⟨q, hq, hmem⟩ := h.placed.schedulerInvariant.blocked_waits i hi hblocked hcreated
    rw [h.waitList q hq] at hmem
    exact ⟨q, mem_sleepersOf.mp hmem⟩
  · rintro ⟨q, hmem⟩
    obtain ⟨hi, hplace⟩ := h.mem_sleepers.mp hmem
    refine ⟨hi, ?_, ?_⟩
    · rw [h.placed.represents.state i hi, hplace]
      rfl
    · by_contra hcreating
      have hplace' := ((h.placed.creating i).mpr hcreating).2
      rw [hplace] at hplace'
      cases hplace'

/-- A sleeper becomes ready only in a wake on its queue. -/
theorem Watched.onlyWakes (h : Watched w place) {op : SchedOp Q} {y' : SchedSystem Q} {i : ℕ}
    {q : Q} (hexec : w.system.exec op = some y') (hmem : (i, q) ∈ w.sleepers)
    (hready : (y'.sched.tasks i).state = .ready) :
    op = .waitQueueWakeOne (some q) ∨ op = .waitQueueWakeAll (some q) := by
  obtain ⟨hi, hplace⟩ := h.mem_sleepers.mp hmem
  obtain ⟨place', hmove, hplaced⟩ := h.placed.exec_move op hexec
  have htask := hmove.task h.placed i
  rw [hplaced.ready_iff hi] at hready
  rw [hplace, hready] at htask
  cases htask with
  | woken => exact .inl rfl
  | wokenAll => exact .inr rfl

/-- For every run of the scheduler on any wait queues, each of them initialised once: a wake makes
ready the task that has slept longest on the queue, or does nothing if there is none; waking all
ends, and makes all the sleepers ready in the order in which they went to sleep; and a task that
sleeps becomes ready in no other way. -/
theorem wait_queue_fifo (s : SchedState Q) (ops : List (SchedOp Q)) (y : SchedSystem Q)
    (hrun : ops.foldlM SchedSystem.exec (SchedSystem.start s) = some y) :
    ∃ w, ops.foldlM Watch.exec (Watch.start s) = some w ∧ w.system = y ∧ FifoWakes w := by
  obtain ⟨w, hw, hy, place, hwatched⟩ := watch_run s hrun
  have hrep := hwatched.placed.represents
  refine ⟨w, hw, hy, hwatched.sleeping, ?_, ?_, ?_, ?_⟩
  · intro q hq hnone
    rw [← hwatched.waitList q hq] at hnone
    rcases schedWakeOneLocked_spec hrep hq with ⟨_, hwake⟩ | ⟨i, rest, _, hlist, _⟩
    · exact hwake
    · rw [hnone] at hlist
      cases hlist
  · intro q i rest hq hwaiters
    rw [← hwatched.waitList q hq] at hwaiters
    rcases schedWakeOneLocked_spec hrep hq with ⟨hnone, _⟩ |
      ⟨i', rest', s', hlist, hwake, hwoken, _⟩
    · rw [hnone] at hwaiters
      cases hwaiters
    · rw [hwaiters] at hlist
      cases hlist
      have hrest := hwoken.waitList
      rw [hwaiters, singleton_append, cons.injEq] at hrest
      exact ⟨s', hwake, hwoken, hrest.2.symm⟩
  · intro q hq
    rw [← hwatched.waitList q hq]
    obtain ⟨s', hwake, hloop, hwoken, _⟩ := schedWaitQueueWakeAll_spec hrep hq
    exact ⟨s', hwake, hloop, hwoken, self_eq_append_right.mp hwoken.waitList⟩
  · intro op y' i hexec hi hblocked hcreated hready
    obtain ⟨q, hmem⟩ := (hwatched.sleeping i).mp ⟨hi, hblocked, hcreated⟩
    exact ⟨q, hmem, hwatched.onlyWakes hexec hmem hready⟩

end

/-- Two tasks are created, and go to sleep on the same queue. -/
def twoSleepers : List (SchedOp Unit) :=
  [.waitQueueInit (), .createClaim 0#64 1#64 0#64, .createClaim 0#64 1#64 0#64,
    .prepareTaskStack 0 0x5000#64, .prepareTaskStack 1 0x6000#64, .createReady 0, .createReady 1,
    .run, .waitQueueWait (some ()), .run, .waitQueueWait (some ())]

theorem wait_queue_fifo_two_sleepers :
    ∃ w, twoSleepers.foldlM Watch.exec (Watch.start staleSched) = some w ∧
      w.waiters () = [0, 1] ∧ FifoWakes w := by
  have hwaiters : (twoSleepers.foldlM Watch.exec (Watch.start staleSched)).map
      (fun w => w.waiters ()) = some [0, 1] := by
    decide +kernel
  have hsome : (twoSleepers.foldlM SchedSystem.exec (SchedSystem.start staleSched)).isSome =
      true := by
    decide +kernel
  obtain ⟨y, hy⟩ := Option.isSome_iff_exists.mp hsome
  obtain ⟨w, hw, _, hfifo⟩ := wait_queue_fifo staleSched twoSleepers y hy
  rw [hw, Option.map_some, Option.some.injEq] at hwaiters
  exact ⟨w, hw, hwaiters, hfifo⟩

end GnuOS.Sched

import GnuOS.Lib.Runs
import GnuOS.Sched.Steps

/-!
# Runs of the scheduler

The system whose steps are the critical sections of `sched.c`, in any order: task creations are
in flight between their two sections, and a wait queue is used after it was initialised, which
happens once.  The main result is the invariant of every reachable state, spelled out over the
objects of the source.
-/

namespace GnuOS.Sched

open GnuOS.Lib Function

/-! ## The system -/

/-- How far a call of `sched_create_kernel_task` has got with its slot. -/
inductive CreatePhase
  | claimed
  | prepared
  | failed
  deriving DecidableEq, Repr

structure SchedSystem (Q : Type) where
  sched : SchedState Q
  creating : ℕ → Option CreatePhase
  initialised : Q → Bool

inductive SchedOp (Q : Type)
  | createClaim (name entry arg : BitVec 64)
  | prepareTaskStack (index : ℕ) (page : BitVec 64)
  | createReady (index : ℕ)
  | createRollback (index : ℕ)
  | waitQueueInit (q : Q)
  | waitQueueWait (queue : Option Q)
  | waitQueueWakeOne (queue : Option Q)
  | waitQueueWakeAll (queue : Option Q)
  | tick
  | requestResched
  | preemptOnTick
  | run
  | yield
  | taskExit

namespace SchedSystem

variable {Q : Type}

/-- After `sched_init`, from any values of the globals and any contents of the wait queues. -/
def start (s : SchedState Q) : SchedSystem Q where
  sched := schedInit s
  creating := fun _ => none
  initialised := fun _ => false

/-- A caller passes `NULL` or a queue that it has initialised. -/
def usable (y : SchedSystem Q) : Option Q → Bool
  | none => true
  | some q => y.initialised q

variable [DecidableEq Q]

/-- One step; `none` where the step is not possible: a section of a creation that has not got
there, a queue before its initialisation or initialised again, the panic of `sched_task_exit`. -/
def exec (y : SchedSystem Q) : SchedOp Q → Option (SchedSystem Q)
  | .createClaim name entry arg =>
    match schedCreateClaim y.sched name entry arg with
    | (none, s) => some { y with sched := s }
    | (some i, s) =>
      some { y with sched := s, creating := update y.creating i (some .claimed) }
  | .prepareTaskStack i page =>
    if y.creating i = some .claimed then
      let phase := if (schedPrepareTaskStack y.sched i page).1 then .prepared else .failed
      some { y with
        sched := (schedPrepareTaskStack y.sched i page).2
        creating := update y.creating i (some phase) }
    else none
  | .createReady i =>
    if y.creating i = some .prepared then
      some { y with
        sched := (schedCreateReady y.sched i).2
        creating := update y.creating i none }
    else none
  | .createRollback i =>
    if y.creating i = some .failed then
      some { y with
        sched := schedCreateRollback y.sched i
        creating := update y.creating i none }
    else none
  | .waitQueueInit q =>
    if y.initialised q then none
    else some { y with
      sched := schedWaitQueueInit y.sched (some q)
      initialised := update y.initialised q true }
  | .waitQueueWait queue =>
    if y.usable queue then some { y with sched := (schedWaitQueueWait y.sched queue).2 } else none
  | .waitQueueWakeOne queue =>
    if y.usable queue then some { y with sched := (schedWaitQueueWakeOne y.sched queue).2 }
    else none
  | .waitQueueWakeAll queue =>
    if y.usable queue then some { y with sched := (schedWaitQueueWakeAll y.sched queue).2 }
    else none
  | .tick => some { y with sched := schedTick y.sched }
  | .requestResched => some { y with sched := schedRequestResched y.sched }
  | .preemptOnTick => some { y with sched := (schedPreemptOnTick y.sched).2 }
  | .run => some { y with sched := (schedRun y.sched).2 }
  | .yield => some { y with sched := schedYield y.sched }
  | .taskExit => (schedTaskExit y.sched).map fun s => { y with sched := s }

end SchedSystem

variable {Q : Type}

/-! ## The invariant -/

/-- The places that the system is in; the slots of creations in flight are the `creating` ones. -/
structure Placed (y : SchedSystem Q) (place : ℕ → Place Q) : Prop where
  represents : Represents y.sched (fun q => y.initialised q = true) place
  creating : ∀ i, (i < 128 ∧ place i = .creating) ↔ y.creating i ≠ none

/-- What a step can do to the places of the tasks: it moves at most one, except for waking all
the tasks of a queue. -/
inductive Move (y : SchedSystem Q) (place : ℕ → Place Q) : SchedOp Q → (ℕ → Place Q) → Prop
  | stay (op : SchedOp Q) : Move y place op place
  | claims {name entry arg : BitVec 64} {i : ℕ} (hi : i < 128) (hunused : place i = .unused) :
    Move y place (.createClaim name entry arg) (update place i .creating)
  | created {i : ℕ} (hi : i < 128) (hcreating : place i = .creating) :
    Move y place (.createReady i) (update place i .ready)
  | rolledBack {i : ℕ} (hi : i < 128) (hcreating : place i = .creating) :
    Move y place (.createRollback i) (update place i .unused)
  | waits {q : Q} {i : ℕ} (hcur : y.sched.currentTask = .slot i) :
    Move y place (.waitQueueWait (some q)) (update place i (.waiting q))
  | wakes {q : Q} {i : ℕ} {rest : List ℕ} (hlist : y.sched.waitList q = i :: rest)
    (hplace : place i = .waiting q) :
    Move y place (.waitQueueWakeOne (some q)) (update place i .ready)
  | wakesAll {q : Q} (hlive : y.initialised q = true) :
    Move y place (.waitQueueWakeAll (some q)) (readyAll (y.sched.waitList q) place)
  | leaves {op : SchedOp Q} {i : ℕ} (hop : op = .yield ∨ op = .preemptOnTick)
    (hcur : y.sched.currentTask = .slot i) : Move y place op (update place i .ready)
  | runs {i : ℕ} (hready : place i = .ready) :
    Move y place .run (update place i .running)
  | exits {i : ℕ} (hcur : y.sched.currentTask = .slot i) :
    Move y place .taskExit (update place i .exited)

/-- What a step can do to the place of task `i`. -/
inductive TaskMove (y : SchedSystem Q) (i : ℕ) : SchedOp Q → Place Q → Place Q → Prop
  | stays {op : SchedOp Q} {p : Place Q} : TaskMove y i op p p
  | claimed {name entry arg : BitVec 64} :
    TaskMove y i (.createClaim name entry arg) .unused .creating
  | created : TaskMove y i (.createReady i) .creating .ready
  | rolledBack : TaskMove y i (.createRollback i) .creating .unused
  | waits {q : Q} (hcur : y.sched.currentTask = .slot i) :
    TaskMove y i (.waitQueueWait (some q)) .running (.waiting q)
  | woken {q : Q} {rest : List ℕ} (hlist : y.sched.waitList q = i :: rest) :
    TaskMove y i (.waitQueueWakeOne (some q)) (.waiting q) .ready
  | wokenAll {q : Q} (hmem : i ∈ y.sched.waitList q) :
    TaskMove y i (.waitQueueWakeAll (some q)) (.waiting q) .ready
  | leaves {op : SchedOp Q} (hop : op = .yield ∨ op = .preemptOnTick)
    (hcur : y.sched.currentTask = .slot i) : TaskMove y i op .running .ready
  | runs : TaskMove y i .run .ready .running
  | exits (hcur : y.sched.currentTask = .slot i) : TaskMove y i .taskExit .running .exited

section Preservation

variable {y : SchedSystem Q} {place : ℕ → Place Q} {s' : SchedState Q} {i : ℕ} {p : Place Q}

section

variable (h : Placed y place)

include h

/-- A step that moves a task that is not being created. -/
theorem Placed.move
    (hrep : Represents s' (fun q => y.initialised q = true) (update place i p))
    (hi : place i ≠ .creating) (hp : p ≠ .creating) :
    Placed { y with sched := s' } (update place i p) where
  represents := hrep
  creating j := by
    rw [← h.creating j]
    by_cases hji : j = i
    · subst hji
      simp [hi, hp]
    · rw [update_of_ne hji]

/-- A step that moves nothing. -/
theorem Placed.stay (hrep : Represents s' (fun q => y.initialised q = true) place) :
    Placed { y with sched := s' } place :=
  ⟨hrep, h.creating⟩

/-- A step of a creation. -/
theorem Placed.create {c : Option CreatePhase}
    (hrep : Represents s' (fun q => y.initialised q = true) (update place i p))
    (hi : i < 128) (hp : p = .creating ↔ c ≠ none) :
    Placed { y with sched := s', creating := update y.creating i c }
      (update place i p) where
  represents := hrep
  creating j := by
    by_cases hji : j = i
    · subst hji
      simp [hi, hp]
    · simp only [update_of_ne hji]
      exact h.creating j

/-- A step that moves the running task. -/
theorem Placed.moveCurrent (hcur : y.sched.currentTask = .slot i)
    (hrep : Represents s' (fun q => y.initialised q = true) (update place i p))
    (hp : p ≠ .creating) : Placed { y with sched := s' } (update place i p) := by
  have hrun := (h.represents.of_current hcur).2.2.1
  exact h.move hrep (by simp [hrun]) hp

/-- A move is one of each task. -/
theorem Move.task {op : SchedOp Q} {place' : ℕ → Place Q} (hmove : Move y place op place')
    (i : ℕ) : TaskMove y i op (place i) (place' i) := by
  have hupdate : ∀ {k p p'}, place k = p → TaskMove y k op p p' →
      TaskMove y i op (place i) (update place k p' i) := by
    intro k p p' hk hmoved
    by_cases hik : i = k
    · subst hik
      rwa [update_self, hk]
    · rw [update_of_ne hik]
      exact .stays
  have hrunning : ∀ {k}, y.sched.currentTask = .slot k → place k = .running :=
    fun hcur => (h.represents.of_current hcur).2.2.1
  cases hmove with
  | stay => exact .stays
  | claims _ hunused => exact hupdate hunused .claimed
  | created _ hcr => exact hupdate hcr .created
  | rolledBack _ hcr => exact hupdate hcr .rolledBack
  | waits hcur => exact hupdate (hrunning hcur) (.waits hcur)
  | wakes hlist hplace => exact hupdate hplace (.woken hlist)
  | wakesAll hlive =>
    unfold readyAll
    split
    · rename_i hmem
      rw [(((h.represents.waiting _ hlive).mem_iff i).mp hmem).2]
      exact .wokenAll hmem
    · exact .stays
  | leaves hop hcur => exact hupdate (hrunning hcur) (.leaves hop hcur)
  | runs hready => exact hupdate hready .runs
  | exits hcur => exact hupdate (hrunning hcur) (.exits hcur)

end

theorem Placed.start (s : SchedState Q) :
    Placed (SchedSystem.start s) (fun _ => Place.unused) where
  represents :=
    { state := by
        intro i hi
        simp [SchedSystem.start, schedInit, schedMaxTasks, hi, schedResetTask, Place.state]
      readyValid := RingBuffer.reset_valid (by decide)
      ready := by
        refine ⟨?_, ?_⟩ <;> simp [SchedState.readyList, SchedSystem.start, schedInit]
      waitValid := by simp [SchedSystem.start]
      waiting := by simp [SchedSystem.start]
      waitingLive := by simp
      running := by simp [SchedSystem.start, schedInit]
      current := .inl ⟨rfl, rfl⟩ }
  creating i := by simp [SchedSystem.start]

variable [DecidableEq Q] {y' : SchedSystem Q}

/-- Only `sched_wait_queue_init` initialises a wait queue. -/
theorem SchedSystem.initialised_exec {op : SchedOp Q} (hexec : y.exec op = some y') :
    y'.initialised = y.initialised ∨
      ∃ q, op = .waitQueueInit q ∧ y'.initialised = update y.initialised q true := by
  cases op <;> simp only [SchedSystem.exec, Option.ite_none_right_eq_some,
    Option.ite_none_left_eq_some, Option.map_eq_some_iff, Option.some.injEq] at hexec
  case createClaim => split at hexec <;> rw [← Option.some.inj hexec] <;> exact .inl rfl
  case waitQueueInit q =>
    obtain ⟨-, rfl⟩ := hexec
    exact .inr ⟨q, rfl, rfl⟩
  case taskExit =>
    obtain ⟨_, -, rfl⟩ := hexec
    exact .inl rfl
  case prepareTaskStack | createReady | createRollback | waitQueueWait | waitQueueWakeOne |
      waitQueueWakeAll =>
    obtain ⟨-, rfl⟩ := hexec
    exact .inl rfl
  case tick | requestResched | preemptOnTick | run | yield =>
    subst hexec
    exact .inl rfl

/-- A wait queue stays initialised. -/
theorem SchedSystem.initialised_of_exec {op : SchedOp Q} (hexec : y.exec op = some y') {q : Q}
    (hq : y.initialised q = true) : y'.initialised q = true := by
  rcases SchedSystem.initialised_exec hexec with heq | ⟨q', _, heq⟩
  · rw [heq]
    exact hq
  · rw [heq, update_apply]
    split
    · rfl
    · exact hq

section

variable (h : Placed y place)

include h

/-- Waking one makes the first waiter ready, if there is one. -/
theorem Placed.wakeOne {q : Q} (hlive : y.initialised q = true)
    (hexec : y.exec (.waitQueueWakeOne (some q)) = some y') :
    (y.sched.waitList q = [] ∧ Placed y' place) ∨
      ∃ i rest, y.sched.waitList q = i :: rest ∧ place i = .waiting q ∧
        Placed y' (update place i .ready) := by
  simp only [SchedSystem.exec, SchedSystem.usable, hlive, if_true, Option.some.injEq] at hexec
  rw [← hexec, schedWaitQueueWakeOne]
  rcases schedWakeOneLocked_spec h.represents hlive
    with ⟨hnil, hwake⟩ | ⟨i, rest, s', hlist, hwake, _, hrep⟩
  · rw [hwake]
    exact .inl ⟨hnil, h⟩
  · rw [hwake]
    have hmem : i ∈ y.sched.waitList q := by rw [hlist]; exact List.mem_cons_self
    have hplace := (((h.represents.waiting q hlive).mem_iff i).mp hmem).2
    exact .inr ⟨i, rest, hlist, hplace, h.move hrep (by simp [hplace]) (by simp)⟩

/-- The running task goes to sleep; the bootstrap task does not. -/
theorem Placed.wait {q : Q} (hlive : y.initialised q = true)
    (hexec : y.exec (.waitQueueWait (some q)) = some y') :
    (y.sched.currentTask = .bootstrap ∧ (schedWaitQueueWait y.sched (some q)).1 = false ∧
        Placed y' place) ∨
      ∃ i, y.sched.currentTask = .slot i ∧ (schedWaitQueueWait y.sched (some q)).1 = true ∧
        Placed y' (update place i (.waiting q)) := by
  simp only [SchedSystem.exec, SchedSystem.usable, hlive, if_true, Option.some.injEq] at hexec
  rw [← hexec]
  rcases schedWaitQueueWait_spec h.represents hlive with ⟨hboot, hwait⟩ |
    ⟨i, s', hcur, hwait, _, _, hrep⟩
  · rw [hwait]
    exact .inl ⟨hboot, rfl, h⟩
  · rw [hwait]
    exact .inr ⟨i, hcur, rfl, h.moveCurrent hcur hrep (by simp)⟩

/-- Each step keeps the system in place, and moves tasks only in the ways of `Move`. -/
theorem Placed.exec_move (op : SchedOp Q) (hexec : y.exec op = some y') :
    ∃ place', Move y place op place' ∧ Placed y' place' := by
  cases op with
  | createClaim name entry arg =>
    simp only [SchedSystem.exec] at hexec
    rcases schedCreateClaim_spec h.represents name entry arg
      with hclaim | ⟨i, s', hclaim, hi, hunused, hrep⟩
    · rw [hclaim] at hexec
      rw [← Option.some.inj hexec]
      exact ⟨place, .stay _, h⟩
    · rw [hclaim] at hexec
      rw [← Option.some.inj hexec]
      exact ⟨_, .claims hi hunused, h.create hrep hi (by simp)⟩
  | prepareTaskStack i page =>
    obtain ⟨hclaimed, hexec⟩ := Option.ite_none_right_eq_some.mp hexec
    rw [← Option.some.inj hexec]
    rcases (h.creating i).mpr (by simp [hclaimed]) with ⟨hi, hcr⟩
    have hrep := schedPrepareTaskStack_spec h.represents i page
    rw [← update_eq_self i place, hcr] at hrep
    refine ⟨place, .stay _, ?_⟩
    rw [← update_eq_self i place, hcr]
    exact h.create hrep hi (by simp)
  | createReady i =>
    obtain ⟨hprepared, hexec⟩ := Option.ite_none_right_eq_some.mp hexec
    rw [← Option.some.inj hexec]
    rcases (h.creating i).mpr (by simp [hprepared]) with ⟨hi, hcr⟩
    rcases schedCreateReady_spec h.represents hi hcr with ⟨s', hready, hrep⟩
    rw [hready]
    exact ⟨_, .created hi hcr, h.create hrep hi (by simp)⟩
  | createRollback i =>
    obtain ⟨hfailed, hexec⟩ := Option.ite_none_right_eq_some.mp hexec
    rw [← Option.some.inj hexec]
    rcases (h.creating i).mpr (by simp [hfailed]) with ⟨hi, hcr⟩
    exact ⟨_, .rolledBack hi hcr,
      h.create (schedCreateRollback_spec h.represents hcr) hi (by simp)⟩
  | waitQueueInit q =>
    obtain ⟨hnot, hexec⟩ := Option.ite_none_left_eq_some.mp hexec
    rw [← Option.some.inj hexec]
    have hrep := h.represents.initQueue hnot
    have hlive : (fun q' => q' = q ∨ y.initialised q' = true) =
        fun q' => update y.initialised q true q' = true := by
      funext q'
      by_cases hqq : q' = q <;> simp [hqq]
    rw [hlive] at hrep
    exact ⟨place, .stay _, hrep, h.creating⟩
  | waitQueueWait queue =>
    cases queue with
    | none =>
      rw [← Option.some.inj hexec]
      exact ⟨place, .stay _, h⟩
    | some q =>
      have husable := (Option.ite_none_right_eq_some.mp hexec).1
      rcases h.wait husable hexec with ⟨_, _, h'⟩ | ⟨i, hcur, _, h'⟩
      · exact ⟨place, .stay _, h'⟩
      · exact ⟨_, .waits hcur, h'⟩
  | waitQueueWakeOne queue =>
    cases queue with
    | none =>
      rw [← Option.some.inj hexec]
      exact ⟨place, .stay _, h⟩
    | some q =>
      have husable := (Option.ite_none_right_eq_some.mp hexec).1
      rcases h.wakeOne husable hexec with ⟨_, h'⟩ | ⟨i, rest, hlist, hplace, h'⟩
      · exact ⟨place, .stay _, h'⟩
      · exact ⟨_, .wakes hlist hplace, h'⟩
  | waitQueueWakeAll queue =>
    obtain ⟨husable, hexec⟩ := Option.ite_none_right_eq_some.mp hexec
    rw [← Option.some.inj hexec]
    cases queue with
    | none => exact ⟨place, .stay _, h⟩
    | some q =>
      rcases schedWaitQueueWakeAll_spec h.represents husable with ⟨s', hwake, _, _, hrep⟩
      rw [hwake]
      refine ⟨_, .wakesAll husable, hrep, ?_⟩
      intro i
      -- a waiting task is not being created, and the others keep their places
      rw [← h.creating i]
      by_cases hmem : i ∈ y.sched.waitList q
      · have hplace := (((h.represents.waiting q husable).mem_iff i).mp hmem).2
        simp [readyAll, hmem, hplace]
      · simp [readyAll, hmem]
  | tick =>
    rw [← Option.some.inj hexec]
    exact ⟨place, .stay _, h.stay (schedTick_spec h.represents)⟩
  | requestResched =>
    rw [← Option.some.inj hexec]
    exact ⟨place, .stay _, h.stay (h.represents.congr (fun _ _ => rfl) rfl rfl rfl rfl)⟩
  | preemptOnTick =>
    rw [← Option.some.inj hexec]
    rcases schedPreemptOnTick_spec h.represents with ⟨_, hrep⟩ | ⟨i, hcur, hrep⟩
    · exact ⟨place, .stay _, h.stay hrep⟩
    · exact ⟨_, .leaves (.inr rfl) hcur, h.moveCurrent hcur hrep (by simp)⟩
  | run =>
    rw [← Option.some.inj hexec]
    rcases schedRun_spec h.represents with hrun | ⟨i, s', hrun, hready, hrep⟩
    · rw [hrun]
      exact ⟨place, .stay _, h⟩
    · rw [hrun]
      exact ⟨_, .runs hready, h.move hrep (by simp [hready]) (by simp)⟩
  | yield =>
    rw [← Option.some.inj hexec]
    rcases schedYield_spec h.represents with ⟨_, hyield⟩ | ⟨i, hcur, hrep⟩
    · rw [hyield]
      exact ⟨place, .stay _, h⟩
    · exact ⟨_, .leaves (.inl rfl) hcur, h.moveCurrent hcur hrep (by simp)⟩
  | taskExit =>
    obtain ⟨s', hexit, rfl⟩ := Option.map_eq_some_iff.mp hexec
    rcases schedTaskExit_spec h.represents hexit with ⟨i, hcur, hrep⟩
    exact ⟨_, .exits hcur, h.moveCurrent hcur hrep (by simp)⟩

theorem Placed.exec (op : SchedOp Q) (hexec : y.exec op = some y') :
    ∃ place', Placed y' place' := by
  rcases h.exec_move op hexec with ⟨place', _, hplaced⟩
  exact ⟨place', hplaced⟩

end

/-- Every reachable state places its tasks. -/
theorem placed_run (s : SchedState Q) {ops : List (SchedOp Q)}
    (hrun : ops.foldlM SchedSystem.exec (SchedSystem.start s) = some y) :
    ∃ place, Placed y place := by
  refine run_invariant (P := fun y => ∃ place, Placed y place) ?_ ⟨_, Placed.start s⟩ hrun
  intro y op y' hy hexec
  rcases hy with ⟨place, hplaced⟩
  exact hplaced.exec op hexec

end Preservation

/-! ## The invariant over the objects of the source -/

/-- The scheduler invariant. -/
structure SchedulerInvariant (y : SchedSystem Q) : Prop where
  /-- The ready ring contains every ready task index and nothing else, ... -/
  ready_mem : ∀ i, i ∈ y.sched.readyList ↔ i < 128 ∧ (y.sched.tasks i).state = .ready
  /-- ... each once. -/
  ready_nodup : y.sched.readyList.Nodup
  ready_tail : y.sched.readyQueue.tail = (y.sched.readyQueue.head + y.sched.readyQueue.size) % 128
  ready_size : y.sched.readyQueue.size =
    ((Finset.range 128).filter fun i => (y.sched.tasks i).state = .ready).card
  running_current : ∀ i, i < 128 → (y.sched.tasks i).state = .running →
    y.sched.currentIndex = i ∧ y.sched.currentTask = .slot i
  running_unique : ∀ i j, i < 128 → j < 128 → (y.sched.tasks i).state = .running →
    (y.sched.tasks j).state = .running → i = j
  bootstrap_idle : y.sched.currentTask = .bootstrap →
    ∀ i, i < 128 → (y.sched.tasks i).state ≠ .running
  /-- The entries of the wait queues are blocked tasks, ... -/
  wait_blocked : ∀ q, y.initialised q = true → ∀ i ∈ y.sched.waitList q,
    i < 128 ∧ (y.sched.tasks i).state = .blocked
  /-- ... none of them twice in one queue or in two queues. -/
  wait_nodup : ∀ q, y.initialised q = true → (y.sched.waitList q).Nodup
  wait_disjoint : ∀ q q', y.initialised q = true → y.initialised q' = true →
    ∀ i ∈ y.sched.waitList q, i ∈ y.sched.waitList q' → q = q'
  blocked_waits : ∀ i, i < 128 → (y.sched.tasks i).state = .blocked → y.creating i = none →
    ∃ q, y.initialised q = true ∧ i ∈ y.sched.waitList q

/-- The calls of `sched_enqueue_task` and `sched_waitq_enqueue` in the functions of `sched.c`
succeed, whichever of them runs next. -/
structure EnqueuesSucceed [DecidableEq Q] (y : SchedSystem Q) : Prop where
  createReady : ∀ i, y.creating i = some .prepared →
    (schedEnqueueTask (y.sched.setState i .ready) i).isSome
  yieldPreempt : ∀ i, y.sched.currentTask = .slot i →
    (schedEnqueueTask (y.sched.setState i .ready) y.sched.currentIndex).isSome
  wait : ∀ i q, y.sched.currentTask = .slot i → y.initialised q = true →
    (schedWaitqEnqueue (y.sched.waitQueues q) y.sched.currentIndex).isSome
  wake : ∀ q i r, y.initialised q = true →
    schedWaitqDequeue (y.sched.waitQueues q) = some (i, r) →
    (schedEnqueueTask ((y.sched.setQueue q r).setState i .ready) i).isSome
  /-- The rebuilt ring takes all the tasks it held. -/
  pick : (∃ i, i < 128 ∧ (y.sched.tasks i).state = .ready) →
    (schedPickNextReady y.sched).1.isSome
  /-- No round of `sched_wait_queue_wake_all` stops short of the last waiter. -/
  wakeAll : ∀ q, y.initialised q = true →
    (schedWaitQueueWakeAll y.sched (some q)).1 = (y.sched.waitList q).length

section

variable {y : SchedSystem Q} {place : ℕ → Place Q}

theorem Placed.ready_iff (h : Placed y place) {i : ℕ} (hi : i < 128) :
    (y.sched.tasks i).state = .ready ↔ place i = .ready := by
  rw [h.represents.state i hi, Place.state_eq_ready]

theorem Placed.running_iff (h : Placed y place) {i : ℕ} (hi : i < 128) :
    (y.sched.tasks i).state = .running ↔ place i = .running := by
  rw [h.represents.state i hi, Place.state_eq_running]

theorem Placed.schedulerInvariant (h : Placed y place) : SchedulerInvariant y := by
  have hrep := h.represents
  have hrunning : ∀ i, i < 128 → (y.sched.tasks i).state = .running →
      y.sched.currentTask = .slot i :=
    fun i hi hstate => (hrep.running i hi).mp ((h.running_iff hi).mp hstate)
  exact {
    ready_mem := by
      intro i
      rw [hrep.ready.mem_iff]
      exact and_congr_right fun hi => (h.ready_iff hi).symm
    ready_nodup := hrep.ready.nodup
    ready_tail := hrep.readyValid.tail_eq
    ready_size := by
      classical
      have hlen : y.sched.readyList.length = y.sched.readyQueue.size := RingBuffer.length_contents
      rw [← hlen, hrep.ready.length_eq_card]
      congr 1
      apply Finset.filter_congr
      intro i hi
      exact (h.ready_iff (Finset.mem_range.mp hi)).symm
    running_current := by
      intro i hi hstate
      have hcur := hrunning i hi hstate
      exact ⟨(hrep.of_current hcur).2.1, hcur⟩
    running_unique := by
      intro i j hi hj hsi hsj
      have hcur := (hrunning i hi hsi).symm.trans (hrunning j hj hsj)
      cases hcur
      rfl
    bootstrap_idle := by
      intro hboot i hi hstate
      have hcur := hrunning i hi hstate
      rw [hboot] at hcur
      exact absurd hcur (by simp)
    wait_blocked := by
      intro q hq i hi
      rcases ((hrep.waiting q hq).mem_iff i).mp hi with ⟨hlt, hplace⟩
      refine ⟨hlt, ?_⟩
      rw [hrep.state i hlt, hplace]
      rfl
    wait_nodup := fun q hq => (hrep.waiting q hq).nodup
    wait_disjoint := by
      intro q q' hq hq' i hi hi'
      have hplace := (((hrep.waiting q hq).mem_iff i).mp hi).2
      have hplace' := (((hrep.waiting q' hq').mem_iff i).mp hi').2
      rw [hplace] at hplace'
      cases hplace'
      rfl
    blocked_waits := by
      intro i hi hstate hcr
      rw [hrep.state i hi] at hstate
      -- the only other place of a blocked task is a creation in flight
      cases hplace : place i with
      | waiting q =>
        have hq := hrep.waitingLive i q hi hplace
        exact ⟨q, hq, ((hrep.waiting q hq).mem_iff i).mpr ⟨hi, hplace⟩⟩
      | creating => exact absurd hcr ((h.creating i).mp ⟨hi, hplace⟩)
      | unused => simp [hplace, Place.state] at hstate
      | ready => simp [hplace, Place.state] at hstate
      | running => simp [hplace, Place.state] at hstate
      | exited => simp [hplace, Place.state] at hstate }

variable [DecidableEq Q]

theorem Placed.enqueuesSucceed (h : Placed y place) : EnqueuesSucceed y := by
  have hrep := h.represents
  exact {
    createReady := by
      intro i hprepared
      rcases (h.creating i).mpr (by simp [hprepared]) with ⟨hi, hcr⟩
      rcases hrep.enqueue hi (by simp [hcr]) { y.sched.tasks i with state := .ready }
        with ⟨r, henq, _⟩
      simp only [SchedState.setState, henq, Option.isSome_some]
    yieldPreempt := by
      intro i hcur
      rcases hrep.enqueueCurrent hcur with ⟨r, henq, _⟩
      rw [henq]
      rfl
    wait := by
      intro i q hcur hq
      rcases hrep.of_current hcur with ⟨hi, hidx, hrun, _⟩
      rcases hrep.waitqEnqueue hq hi (by simp [hrun]) with ⟨r, henq, _⟩
      rw [hidx, henq]
      rfl
    wake := by
      intro q i r hq hdeq
      have hpop : (y.sched.waitQueues q).pop 128 = some (i, r) := hdeq
      have hlist := (RingBuffer.pop_contents (hrep.waitValid q hq) hpop).2
      have hmem : i ∈ y.sched.waitList q := by
        rw [show y.sched.waitList q = _ from hlist]
        exact List.mem_cons_self
      rcases ((hrep.waiting q hq).mem_iff i).mp hmem with ⟨hi, hplace⟩
      -- the ready ring is the one of `y`
      rcases hrep.enqueue hi (by simp [hplace]) (y.sched.tasks i) with ⟨r', henq, _⟩
      have hpush := congrArg Option.isSome henq
      rw [schedEnqueueTask, Option.isSome_map] at hpush ⊢
      exact hpush
    pick := by
      intro hex
      rcases hex with ⟨i, hi, hstate⟩
      rw [h.ready_iff hi] at hstate
      rcases schedPickNextReady_spec hrep with ⟨_, hnone⟩ | ⟨b, r, hpick, _⟩
      · exact absurd hstate (hnone i hi)
      · rw [hpick]
        rfl
    wakeAll := by
      intro q hq
      rcases schedWaitQueueWakeAll_spec hrep hq with ⟨s', hwake, _⟩
      rw [hwake] }

/-- In every run of the scheduler after `sched_init`, every state satisfies the invariant, and no
enqueue that follows from it can fail. -/
theorem sched_run_invariant (s : SchedState Q) (ops : List (SchedOp Q)) (y : SchedSystem Q)
    (hrun : ops.foldlM SchedSystem.exec (SchedSystem.start s) = some y) :
    SchedulerInvariant y ∧ EnqueuesSucceed y := by
  rcases placed_run s hrun with ⟨place, hplaced⟩
  exact ⟨hplaced.schedulerInvariant, hplaced.enqueuesSucceed⟩

end

/-- The globals before `sched_init`, with one wait queue. -/
def staleSched : SchedState Unit :=
  ⟨fun _ => 0#64, fun _ => schedResetTask, ⟨fun _ => 0, 0, 0, 0⟩, 0#64, 0#64, .null, 0, 0#64, false,
    0#64, 0#64, fun _ => ⟨fun _ => 0, 0, 0, 0⟩⟩

/-- Two creations, one of them rolled back; the other task runs, is preempted, runs again, sleeps
and is woken. -/
def sleepWake : List (SchedOp Unit) :=
  [.waitQueueInit (), .createClaim 0#64 1#64 0#64, .createClaim 0#64 1#64 0#64,
    .prepareTaskStack 0 0x5000#64, .prepareTaskStack 1 0#64, .createReady 0, .createRollback 1,
    .run, .tick, .preemptOnTick, .run, .waitQueueWait (some ()), .waitQueueWakeOne (some ())]

theorem sched_run_invariant_sleep_wake :
    ∃ y, sleepWake.foldlM SchedSystem.exec (.start staleSched) = some y ∧
      SchedulerInvariant y ∧ EnqueuesSucceed y := by
  have hsome : (sleepWake.foldlM SchedSystem.exec (.start staleSched)).isSome = true := by
    decide +kernel
  obtain ⟨y, hy⟩ := Option.isSome_iff_exists.mp hsome
  exact ⟨y, hy, sched_run_invariant _ _ y hy⟩

end GnuOS.Sched

import GnuOS.Sched.Accounts
import Mathlib.Algebra.Order.Group.Abs
import Mathlib.Algebra.Order.Ring.Int

/-!
# The clock of the scheduler

`g_cfs_min_vruntime` is overwritten with the runtime of the task that is charged.  In runs in
which every tick comes with its preemption, as in `isr_irq0_timer`, and no task becomes ready with
too little runtime, all runnable tasks stay within one tick of it (`Paced`).  This gives the
fairness of runs without blocking, and says when the clock does not go backwards.
-/

namespace GnuOS.Sched

open GnuOS.Lib Function

variable {Q : Type}

/-! ## Timer interrupts -/

/-- A step of a run in which `sched_tick` and `sched_preempt_on_tick` are called from the timer
interrupt only. -/
inductive TimedOp (Q : Type)
  | call (op : SchedOp Q)
  | isrIrq0Timer

section

variable [DecidableEq Q]

def SchedSystem.execTimed (y : SchedSystem Q) : TimedOp Q → Option (SchedSystem Q)
  | .call .tick => none
  | .call .preemptOnTick => none
  | .call op => y.exec op
  | .isrIrq0Timer => [.tick, .preemptOnTick].foldlM SchedSystem.exec y

theorem SchedSystem.execTimed_call {y y' : SchedSystem Q} {op : SchedOp Q}
    (h : y.execTimed (.call op) = some y') : op ≠ .tick ∧ y.exec op = some y' := by
  unfold SchedSystem.execTimed at h
  split at h
  · simp at h
  · simp at h
  · rename_i op' htick _ heq
    cases heq
    exact ⟨fun hop => htick (by rw [hop]), h⟩
  · rename_i heq
    simp at heq

end

/-- The counters of the running task do not wrap at a tick. -/
def NoWrap (y : SchedSystem Q) : TimedOp Q → Prop
  | .call _ => True
  | .isrIrq0Timer => ∀ i, i < 128 → y.sched.currentTask = .slot i →
      (y.sched.tasks i).vruntime.toNat + 1 < 2 ^ 64 ∧
        (y.sched.tasks i).runtimeTicks.toNat + 1 < 2 ^ 64

/-- The tasks that become ready in a step without having run just before. -/
def wokenTasks (y : SchedSystem Q) : SchedOp Q → List ℕ
  | .createReady i => [i]
  | .waitQueueWakeOne (some q) => (y.sched.waitList q).take 1
  | .waitQueueWakeAll (some q) => y.sched.waitList q
  | _ => []

/-- The task lags at most one tick behind the clock, and not behind the running task. -/
structure InStep (y : SchedSystem Q) (j : ℕ) : Prop where
  clock : y.sched.cfsMinVruntime.toNat ≤ (y.sched.tasks j).vruntime.toNat + 1
  running : ∀ i, i < 128 → y.sched.currentTask = .slot i →
    (y.sched.tasks i).vruntime.toNat ≤ (y.sched.tasks j).vruntime.toNat

/-- Every task that the step makes ready is in step. -/
def WakesInStep (y : SchedSystem Q) : TimedOp Q → Prop
  | .call op => ∀ j ∈ wokenTasks y op, InStep y j
  | .isrIrq0Timer => True

instance (y : SchedSystem Q) : ∀ op, Decidable (NoWrap y op)
  | .call _ => inferInstanceAs (Decidable True)
  | .isrIrq0Timer => inferInstanceAs (Decidable (∀ i, i < 128 → y.sched.currentTask = .slot i →
      (y.sched.tasks i).vruntime.toNat + 1 < 2 ^ 64 ∧
        (y.sched.tasks i).runtimeTicks.toNat + 1 < 2 ^ 64))

instance (y : SchedSystem Q) (j : ℕ) : Decidable (InStep y j) :=
  decidable_of_iff
    (y.sched.cfsMinVruntime.toNat ≤ (y.sched.tasks j).vruntime.toNat + 1 ∧
      ∀ i, i < 128 → y.sched.currentTask = .slot i →
        (y.sched.tasks i).vruntime.toNat ≤ (y.sched.tasks j).vruntime.toNat)
    ⟨fun h => ⟨h.1, h.2⟩, fun h => ⟨h.1, h.2⟩⟩

instance (y : SchedSystem Q) : ∀ op, Decidable (WakesInStep y op)
  | .call op => inferInstanceAs (Decidable (∀ j ∈ wokenTasks y op, InStep y j))
  | .isrIrq0Timer => inferInstanceAs (Decidable True)

def Runnable (y : SchedSystem Q) (i : ℕ) : Prop :=
  (y.sched.tasks i).state = .ready ∨ (y.sched.tasks i).state = .running

/-! ## Keeping pace with the clock -/

/-- All tasks have run at most as long as the clock says, the runnable ones at most one tick less,
and the running one no longer than those that are ready. -/
structure Paced (y : SchedSystem Q) : Prop where
  le_clock : ∀ i, i < 128 → (y.sched.tasks i).state ≠ .unused →
    (y.sched.tasks i).vruntime.toNat ≤ y.sched.cfsMinVruntime.toNat
  clock_le : ∀ i, i < 128 → Runnable y i →
    y.sched.cfsMinVruntime.toNat ≤ (y.sched.tasks i).vruntime.toNat + 1
  first : ∀ i j, i < 128 → j < 128 → (y.sched.tasks i).state = .running →
    (y.sched.tasks j).state = .ready →
    (y.sched.tasks i).vruntime.toNat ≤ (y.sched.tasks j).vruntime.toNat

section Moves

variable {y y' : SchedSystem Q} {place place' : ℕ → Place Q} {op : SchedOp Q} {i j : ℕ}

theorem Placed.runnable_iff (h : Placed y place) (hi : i < 128) :
    Runnable y i ↔ place i = .ready ∨ place i = .running := by
  rw [Runnable, h.ready_iff hi, h.running_iff hi]

/-- Where the runnable tasks come from. -/
theorem Move.runnable (h : Placed y place) (hmove : Move y place op place')
    (hrun : place' i = .ready ∨ place' i = .running) :
    (place i = .ready ∨ place i = .running) ∨ i ∈ wokenTasks y op := by
  have htask := hmove.task h i
  generalize place i = p at htask ⊢
  rcases hrun with hready | hrunning
  · rw [hready] at htask
    cases htask with
    | stays => exact .inl (.inl rfl)
    | created => exact .inr (by simp [wokenTasks])
    | woken hlist => exact .inr (by simp [wokenTasks, hlist])
    | wokenAll hmem => exact .inr hmem
    | leaves => exact .inl (.inr rfl)
  · rw [hrunning] at htask
    cases htask with
    | stays => exact .inl (.inr rfl)
    | runs => exact .inl (.inl rfl)

/-- How a task can be running while another one is ready. -/
theorem Move.running_ready (h : Placed y place) (hmove : Move y place op place') (hi : i < 128)
    (hrun : place' i = .running) (hready : place' j = .ready) :
    (place i = .running ∧ (place j = .ready ∨ j ∈ wokenTasks y op)) ∨
      (op = .run ∧ place i = .ready ∧ place j = .ready) := by
  have htask := hmove.task h i
  have hother := hmove.task h j
  rw [hrun] at htask
  rw [hready] at hother
  generalize hpi : place i = p at htask ⊢
  generalize place j = p' at hother ⊢
  cases htask with
  | stays =>
    refine .inl ⟨rfl, ?_⟩
    cases hother with
    | stays => exact .inl rfl
    | created => exact .inr (by simp [wokenTasks])
    | woken hlist => exact .inr (by simp [wokenTasks, hlist])
    | wokenAll hmem => exact .inr hmem
    | leaves _ hcur =>
      -- no task runs when the running one has left
      rw [h.running_unique hi hcur hpi, hready] at hrun
      cases hrun
  | runs =>
    cases hother with
    | stays => exact .inr ⟨rfl, rfl, rfl⟩
    | leaves hop => simp at hop

end Moves

section Step

variable [DecidableEq Q] {y y' : SchedSystem Q} {place place' : ℕ → Place Q} {op : SchedOp Q}

omit [DecidableEq Q] in
/-- A task that is runnable after a step is in use before it. -/
theorem Move.used_of_runnable (h : Placed y place) (hmove : Move y place op place')
    (h' : Placed y' place') {i : ℕ} (hi : i < 128) (hrun : Runnable y' i) :
    (y.sched.tasks i).state ≠ .unused ∧ (y'.sched.tasks i).state ≠ .unused := by
  refine ⟨fun hfree => ?_, ?_⟩
  · rw [h.unused_iff hi] at hfree
    rw [h'.runnable_iff hi] at hrun
    rcases hmove.unused h hfree with hplace | ⟨hplace, _⟩ <;> simp [hplace] at hrun
  · rcases hrun with hrun | hrun <;> simp [hrun]

/-- Every step but a tick keeps pace, if the tasks it wakes are in step. -/
theorem Paced.call (hp : Paced y) (h : Placed y place) (hexec : y.exec op = some y')
    (htick : op ≠ .tick) (hwakes : ∀ j ∈ wokenTasks y op, InStep y j) : Paced y' := by
  rcases h.exec_move op hexec with ⟨place', hmove, h'⟩
  have hcharge := h.uncharged hmove h' hexec htick
  have hv : ∀ i, i < 128 → Runnable y' i →
      (y'.sched.tasks i).vruntime = (y.sched.tasks i).vruntime := by
    intro i hi hrun
    rcases hmove.used_of_runnable h h' hi hrun with ⟨hused, hused'⟩
    exact (hcharge.kept i hi hused hused').1
  refine ⟨?_, ?_, ?_⟩
  · intro i hi hused
    rw [hcharge.clock]
    by_cases hfree : (y.sched.tasks i).state = .unused
    · rw [hcharge.opened i hi hfree hused]
    · rw [(hcharge.kept i hi hfree hused).1]
      exact hp.le_clock i hi hfree
  · intro i hi hrun
    rw [hcharge.clock, hv i hi hrun]
    rw [h'.runnable_iff hi] at hrun
    rcases hmove.runnable h hrun with hrun | hwake
    · exact hp.clock_le i hi ((h.runnable_iff hi).mpr hrun)
    · exact (hwakes i hwake).clock
  · intro i j hi hj hrun hready
    rw [hv i hi (.inr hrun), hv j hj (.inl hready)]
    rw [h'.running_iff hi] at hrun
    rw [h'.ready_iff hj] at hready
    have hcur := (h'.represents.running i hi).mp hrun
    rcases hmove.running_ready h hi hrun hready with
      ⟨hrun, hready | hwake⟩ | ⟨rfl, hnext, hready⟩
    · exact hp.first i j hi hj ((h.running_iff hi).mpr hrun) ((h.ready_iff hj).mpr hready)
    · exact (hwakes j hwake).running i hi ((h.represents.running i hi).mp hrun)
    · exact h.run_least hexec hnext hcur j hj ((h.ready_iff hj).mpr hready)

/-- A timer interrupt charges the running task and takes the processor from it. -/
theorem Placed.timer (h : Placed y place) (hexec : y.execTimed .isrIrq0Timer = some y') :
    y'.creating = y.creating ∧
      ((y.sched.currentTask = .bootstrap ∧ SameAccounts y.sched y'.sched ∧ Placed y' place) ∨
        ∃ i, y.sched.currentTask = .slot i ∧ Charged y.sched y'.sched i ∧
          Placed y' (update place i .ready)) := by
  have hy : { y with sched := (schedPreemptOnTick (schedTick y.sched)).2 } = y' :=
    Option.some.inj hexec
  rw [← hy]
  refine ⟨rfl, ?_⟩
  have htick := schedTick_spec h.represents
  have hsame := (Switched.preemptOnTick htick).toSameAccounts
  rcases h.represents.current with ⟨hboot, _⟩ | ⟨i, _, hcur, _⟩
  · rcases schedTick_bootstrap hboot with ⟨haccounts, hboot'⟩
    rcases schedPreemptOnTick_spec htick with ⟨_, hrep⟩ | ⟨j, hcur, _⟩
    · exact .inl ⟨hboot, haccounts.trans hsame, h.stay hrep⟩
    · rw [hboot'] at hcur
      exact absurd hcur (by simp)
  · have hstate := (h.represents.of_current hcur).2.2.2
    rcases schedTick_charged hcur hstate with ⟨hcharged, hneed, hcur'⟩
    rcases schedPreemptOnTick_spec htick with ⟨hno, _⟩ | ⟨j, hj, hrep⟩
    · rw [hneed, hcur'] at hno
      exact absurd hno (by simp)
    · rw [hcur', TaskRef.slot.injEq] at hj
      subst hj
      exact .inr ⟨i, hcur, hcharged.trans hsame, h.moveCurrent hcur hrep (by simp)⟩

/-- A timer interrupt keeps pace: the clock moves on by one or stays. -/
theorem Paced.timer (hp : Paced y) (h : Placed y place)
    (hexec : y.execTimed .isrIrq0Timer = some y') (hwrap : NoWrap y .isrIrq0Timer) :
    Paced y' ∧ y.sched.cfsMinVruntime.toNat ≤ y'.sched.cfsMinVruntime.toNat := by
  rcases (h.timer hexec).2 with ⟨_, hsame, h'⟩ | ⟨i, hcur, hcharged, h'⟩
  · refine ⟨⟨?_, ?_, ?_⟩, by rw [hsame.clock]⟩
    · intro j hj hused
      rw [ne_eq, h'.unused_iff hj, ← h.unused_iff hj] at hused
      rw [hsame.clock, hsame.vruntime]
      exact hp.le_clock j hj hused
    · intro j hj hrun
      rw [h'.runnable_iff hj, ← h.runnable_iff hj] at hrun
      rw [hsame.clock, hsame.vruntime]
      exact hp.clock_le j hj hrun
    · intro j k hj hk hrun hready
      rw [h'.running_iff hj, ← h.running_iff hj] at hrun
      rw [h'.ready_iff hk, ← h.ready_iff hk] at hready
      rw [hsame.vruntime, hsame.vruntime]
      exact hp.first j k hj hk hrun hready
  · rcases h.represents.of_current hcur with ⟨hi, _, hplace, hstate⟩
    have hi_wrap := (hwrap i hi hcur).1
    have hclock : y'.sched.cfsMinVruntime.toNat = (y.sched.tasks i).vruntime.toNat + 1 := by
      rw [hcharged.clock, BitVec.toNat_add]
      exact Nat.mod_eq_of_lt hi_wrap
    have hnear := hp.clock_le i hi (.inr hstate)
    refine ⟨⟨?_, ?_, ?_⟩, by omega⟩
    · intro j hj hused
      by_cases hji : j = i
      · subst hji
        rw [hcharged.vruntime, hcharged.clock]
      · rw [ne_eq, h'.unused_iff hj, update_of_ne hji, ← h.unused_iff hj] at hused
        have hle := hp.le_clock j hj hused
        rw [(hcharged.others j hji).1]
        omega
    · intro j hj hrun
      by_cases hji : j = i
      · subst hji
        rw [hcharged.vruntime, hcharged.clock]
        omega
      · -- the others are ready, and the running task was the first of them
        rw [h'.runnable_iff hj, update_of_ne hji] at hrun
        have hready : place j = .ready :=
          hrun.resolve_right fun hrun => hji (h.running_unique hj hcur hrun)
        have hfirst := hp.first i j hi hj hstate ((h.ready_iff hj).mpr hready)
        rw [(hcharged.others j hji).1]
        omega
    · -- no task runs after the interrupt
      intro j k hj _ hrun
      rw [h'.running_iff hj] at hrun
      by_cases hji : j = i
      · subst hji
        simp at hrun
      · rw [update_of_ne hji] at hrun
        exact absurd (h.running_unique hj hcur hrun) hji

theorem Paced.step {op : TimedOp Q} (hp : Paced y) (h : Placed y place)
    (hexec : y.execTimed op = some y') (hwakes : WakesInStep y op) (hwrap : NoWrap y op) :
    Paced y' ∧ y.sched.cfsMinVruntime.toNat ≤ y'.sched.cfsMinVruntime.toNat := by
  cases op with
  | isrIrq0Timer => exact hp.timer h hexec hwrap
  | call op =>
    rcases SchedSystem.execTimed_call hexec with ⟨htick, hexec⟩
    refine ⟨hp.call h hexec htick hwakes, ?_⟩
    rcases h.exec_move op hexec with ⟨place', hmove, h'⟩
    rw [(h.uncharged hmove h' hexec htick).clock]

theorem Placed.execTimed {op : TimedOp Q} (h : Placed y place)
    (hexec : y.execTimed op = some y') : ∃ place', Placed y' place' := by
  cases op with
  | isrIrq0Timer =>
    rcases (h.timer hexec).2 with ⟨_, _, h'⟩ | ⟨i, _, _, h'⟩
    · exact ⟨_, h'⟩
    · exact ⟨_, h'⟩
  | call op => exact h.exec op (SchedSystem.execTimed_call hexec).2

end Step

/-! ## The clock does not go backwards -/

section Clock

variable [DecidableEq Q]

/-- The step creates a task, with virtual runtime `v`. -/
def StartsWith (y : SchedSystem Q) (op : TimedOp Q) (v : BitVec 64) : Prop :=
  ∃ name entry arg i s', op = .call (.createClaim name entry arg) ∧
    schedCreateClaim y.sched name entry arg = (some i, s') ∧ (s'.tasks i).vruntime = v

/-- Over a run from `sched_init` the clock does not decrease, and no task starts with less runtime
than a task created before it. -/
structure ClockMonotone (s : SchedState Q) (ops : List (TimedOp Q)) : Prop where
  clock : ∀ pre mid post y₁ y₂, ops = pre ++ mid ++ post →
    pre.foldlM SchedSystem.execTimed (.start s) = some y₁ →
    mid.foldlM SchedSystem.execTimed y₁ = some y₂ →
    y₁.sched.cfsMinVruntime ≤ y₂.sched.cfsMinVruntime
  starts : ∀ pre op₁ mid op₂ post y₁ y₂ v₁ v₂, ops = pre ++ (op₁ :: mid) ++ op₂ :: post →
    pre.foldlM SchedSystem.execTimed (.start s) = some y₁ →
    (op₁ :: mid).foldlM SchedSystem.execTimed y₁ = some y₂ →
    StartsWith y₁ op₁ v₁ → StartsWith y₂ op₂ v₂ → v₁ ≤ v₂

omit [DecidableEq Q] in
theorem StartsWith.eq_clock {y : SchedSystem Q} {op : TimedOp Q} {v : BitVec 64}
    (h : StartsWith y op v) : v = y.sched.cfsMinVruntime := by
  rcases h with ⟨name, entry, arg, i, s', _, hclaim, hv⟩
  unfold schedCreateClaim at hclaim
  split at hclaim
  · simp at hclaim
  split at hclaim
  · simp at hclaim
  · rw [Prod.mk.injEq, Option.some.injEq] at hclaim
    rcases hclaim with ⟨rfl, rfl⟩
    simpa [SchedState.setTask] using hv.symm

/-- The tasks of a run keep pace with the clock, as long as they are woken in step. -/
theorem paced_run {y y' : SchedSystem Q} {place : ℕ → Place Q} {ops : List (TimedOp Q)}
    (h : Placed y place) (hp : Paced y)
    (hsteps : EachStep SchedSystem.execTimed (fun y op => WakesInStep y op ∧ NoWrap y op) y ops)
    (hrun : ops.foldlM SchedSystem.execTimed y = some y') :
    (∃ place', Placed y' place') ∧ Paced y' ∧
      y.sched.cfsMinVruntime.toNat ≤ y'.sched.cfsMinVruntime.toNat := by
  refine run_invariant_of (P := fun y' => (∃ place', Placed y' place') ∧ Paced y' ∧
    y.sched.cfsMinVruntime.toNat ≤ y'.sched.cfsMinVruntime.toNat) ?_ ⟨⟨place, h⟩, hp, le_rfl⟩
    hsteps hrun
  intro y₁ op y₂ hy₁ hcond hexec
  rcases hy₁ with ⟨⟨place₁, h₁⟩, hp₁, hle⟩
  rcases hp₁.step h₁ hexec hcond.1 hcond.2 with ⟨hp₂, hle'⟩
  exact ⟨h₁.execTimed hexec, hp₂, hle.trans hle'⟩

omit [DecidableEq Q] in
theorem Paced.start (s : SchedState Q) : Paced (SchedSystem.start s) := by
  have hunused : ∀ i, i < 128 → ((SchedSystem.start s).sched.tasks i).state = .unused := by
    intro i hi
    simp [SchedSystem.start, schedInit, schedMaxTasks, hi, schedResetTask]
  refine ⟨?_, ?_, ?_⟩
  · intro i hi hused
    exact absurd (hunused i hi) hused
  · intro i hi hrun
    rw [Runnable, hunused i hi] at hrun
    exact absurd hrun (by simp)
  · intro i j hi _ hrun
    rw [hunused i hi] at hrun
    exact absurd hrun (by simp)

/-- The clock never goes backwards in a run in which no counter wraps and every task that becomes
ready is in step. -/
theorem clock_monotone_of_wakes_in_step (s : SchedState Q) (ops : List (TimedOp Q))
    (hsteps : EachStep SchedSystem.execTimed (fun y op => WakesInStep y op ∧ NoWrap y op)
      (.start s) ops) :
    ClockMonotone s ops := by
  have hclock : ∀ pre mid post y₁ y₂, ops = pre ++ mid ++ post →
      pre.foldlM SchedSystem.execTimed (.start s) = some y₁ →
      mid.foldlM SchedSystem.execTimed y₁ = some y₂ →
      y₁.sched.cfsMinVruntime ≤ y₂.sched.cfsMinVruntime := by
    intro pre mid post y₁ y₂ hops hpre hmid
    rw [hops] at hsteps
    have hsteps' := hsteps.append_left
    rcases paced_run (Placed.start s) (Paced.start s) hsteps'.append_left hpre
      with ⟨⟨place₁, h₁⟩, hp₁, _⟩
    exact (paced_run h₁ hp₁ (hsteps'.append_right hpre) hmid).2.2
  refine ⟨hclock, ?_⟩
  intro pre op₁ mid op₂ post y₁ y₂ v₁ v₂ hops hpre hmid hv₁ hv₂
  rw [hv₁.eq_clock, hv₂.eq_clock]
  exact hclock pre (op₁ :: mid) (op₂ :: post) y₁ y₂ hops hpre hmid

end Clock

/-- Two tasks are created, the second one while the first one waits to run. -/
def twoCreations : List (TimedOp Unit) :=
  [.call (.waitQueueInit ()), .call (.createClaim 0#64 1#64 0#64),
    .call (.prepareTaskStack 0 0x5000#64), .call (.createReady 0),
    .call (.createClaim 0#64 1#64 0#64), .call (.prepareTaskStack 1 0x6000#64),
    .call (.createReady 1)]

/-- Task 0 sleeps until task 1 has started to run. -/
def shortSleep : List (TimedOp Unit) :=
  twoCreations ++ [.call .run, .call (.waitQueueWait (some ())), .call .run,
    .call (.waitQueueWakeOne (some ())), .isrIrq0Timer, .call .run, .isrIrq0Timer]

/-- Task 0 sleeps while task 1 is charged two ticks. -/
def longSleep : List (TimedOp Unit) :=
  twoCreations ++ [.call .run, .call (.waitQueueWait (some ())), .call .run, .isrIrq0Timer,
    .call .run, .isrIrq0Timer]

theorem clock_monotone_of_short_sleep : ClockMonotone staleSched shortSleep :=
  clock_monotone_of_wakes_in_step _ _ (by decide +kernel)

/-- The task that slept sets the clock back when it is charged its first tick. -/
theorem clock_goes_back_after_sleep :
    EachStep SchedSystem.execTimed NoWrap (.start staleSched)
        (longSleep ++ [.call (.waitQueueWakeOne (some ())), .call .run, .isrIrq0Timer]) ∧
      ¬ ClockMonotone staleSched
        (longSleep ++ [.call (.waitQueueWakeOne (some ())), .call .run, .isrIrq0Timer]) := by
  refine ⟨by decide +kernel, ?_⟩
  intro hmono
  have hle := hmono.clock longSleep
    [.call (.waitQueueWakeOne (some ())), .call .run, .isrIrq0Timer] [] _ _ rfl rfl rfl
  exact absurd hle (by decide +kernel)

/-! ## Fairness without blocking -/

def TimedOp.usesWaitQueue : TimedOp Q → Bool
  | .call (.waitQueueWait _) => true
  | .call (.waitQueueWakeOne _) => true
  | .call (.waitQueueWakeAll _) => true
  | _ => false

/-- No creation of a task is in flight at a tick. -/
def CreationsComplete (y : SchedSystem Q) : TimedOp Q → Prop
  | .call _ => True
  | .isrIrq0Timer => ∀ i, i < 128 → y.creating i = none

instance (y : SchedSystem Q) : ∀ op, Decidable (CreationsComplete y op)
  | .call _ => inferInstanceAs (Decidable True)
  | .isrIrq0Timer => inferInstanceAs (Decidable (∀ i, i < 128 → y.creating i = none))

/-- The steps of runs without blocking. -/
structure NonBlocking (y : SchedSystem Q) (op : TimedOp Q) : Prop where
  noWaitQueue : op.usesWaitQueue = false
  complete : CreationsComplete y op
  noWrap : NoWrap y op

instance (y : SchedSystem Q) (op : TimedOp Q) : Decidable (NonBlocking y op) :=
  decidable_of_iff (op.usesWaitQueue = false ∧ CreationsComplete y op ∧ NoWrap y op)
    ⟨fun h => ⟨h.1, h.2.1, h.2.2⟩, fun h => ⟨h.1, h.2, h.3⟩⟩

/-- The tasks that are being created start at the clock. -/
def FreshAtClock (y : SchedSystem Q) : Prop :=
  ∀ i, y.creating i ≠ none → (y.sched.tasks i).vruntime = y.sched.cfsMinVruntime

section Fair

variable [DecidableEq Q] {y y' : SchedSystem Q} {place : ℕ → Place Q} {op : TimedOp Q}

/-- Without blocking, the only tasks that a step wakes are new ones, and they are in step. -/
theorem NonBlocking.wakesInStep (hop : NonBlocking y op) (h : Placed y place) (hp : Paced y)
    (hfresh : FreshAtClock y) (hexec : y.execTimed op = some y') :
    WakesInStep y op := by
  cases op with
  | isrIrq0Timer => exact trivial
  | call op =>
    intro j hj
    have hexec' := (SchedSystem.execTimed_call hexec).2
    have hwait := hop.noWaitQueue
    cases op <;> simp [wokenTasks, TimedOp.usesWaitQueue] at hj hwait
    subst hj
    have hprepared := (Option.ite_none_right_eq_some.mp hexec').1
    have hclock := hfresh j (by simp [hprepared])
    refine ⟨by rw [hclock]; omega, ?_⟩
    intro i hi hcur
    rw [hclock]
    have hstate := (h.represents.of_current hcur).2.2.2
    exact hp.le_clock i hi (by simp [hstate])

theorem FreshAtClock.step (hfresh : FreshAtClock y) (h : Placed y place)
    (hop : CreationsComplete y op) (hexec : y.execTimed op = some y') : FreshAtClock y' := by
  intro i hcr
  cases op with
  | isrIrq0Timer =>
    rcases h.timer hexec with ⟨hcreating, _⟩
    rw [hcreating] at hcr
    have hi := ((h.creating i).mpr hcr).1
    exact absurd (hop i hi) hcr
  | call op =>
    rcases SchedSystem.execTimed_call hexec with ⟨htick, hexec⟩
    rcases h.exec_move op hexec with ⟨place', hmove, h'⟩
    have hcharge := h.uncharged hmove h' hexec htick
    rcases (h'.creating i).mpr hcr with ⟨hi, hplace'⟩
    have hused' : (y'.sched.tasks i).state ≠ .unused := by
      rw [ne_eq, h'.unused_iff hi, hplace']
      simp
    rw [hcharge.clock]
    have htask := hmove.task h i
    rw [hplace'] at htask
    generalize hplace : place i = p at htask
    cases htask with
    | stays =>
      have hused : (y.sched.tasks i).state ≠ .unused := by
        rw [ne_eq, h.unused_iff hi, hplace]
        simp
      rw [(hcharge.kept i hi hused hused').1]
      exact hfresh i ((h.creating i).mp ⟨hi, hplace⟩)
    | claimed => exact hcharge.opened i hi ((h.unused_iff hi).mpr hplace) hused'

/-- What every state of a run without blocking satisfies. -/
structure FairInv (y : SchedSystem Q) : Prop where
  placed : ∃ place, Placed y place
  paced : Paced y
  fresh : FreshAtClock y

theorem FairInv.step (h : FairInv y) (hop : NonBlocking y op) (hexec : y.execTimed op = some y') :
    FairInv y' := by
  rcases h.placed with ⟨place, hplaced⟩
  have hwakes := hop.wakesInStep hplaced h.paced h.fresh hexec
  exact ⟨hplaced.execTimed hexec, (h.paced.step hplaced hexec hwakes hop.noWrap).1,
    h.fresh.step hplaced hop.complete hexec⟩

omit [DecidableEq Q] in
theorem FairInv.start (s : SchedState Q) : FairInv (SchedSystem.start s) :=
  ⟨⟨_, Placed.start s⟩, Paced.start s, fun _ hcr => absurd rfl hcr⟩

omit [DecidableEq Q] in
theorem FairInv.near_clock (h : FairInv y) {i : ℕ} (hi : i < 128) (hrun : Runnable y i) :
    (y.sched.tasks i).vruntime.toNat = y.sched.cfsMinVruntime.toNat ∨
      (y.sched.tasks i).vruntime.toNat + 1 = y.sched.cfsMinVruntime.toNat := by
  have hused : (y.sched.tasks i).state ≠ .unused := by
    rcases hrun with hrun | hrun <;> simp [hrun]
  have hle := h.paced.le_clock i hi hused
  have hge := h.paced.clock_le i hi hrun
  omega

/-- While a task stays runnable, its virtual runtime grows with the ticks it is charged. -/
theorem FairInv.charged_step (h : FairInv y) (hwrap : NoWrap y op)
    (hexec : y.execTimed op = some y') {i : ℕ} (hi : i < 128) (hrun' : Runnable y' i) :
    (y'.sched.tasks i).vruntime.toNat + (y.sched.tasks i).runtimeTicks.toNat =
      (y'.sched.tasks i).runtimeTicks.toNat + (y.sched.tasks i).vruntime.toNat := by
  rcases h.placed with ⟨place, hplaced⟩
  cases op with
  | isrIrq0Timer =>
    rcases (hplaced.timer hexec).2 with ⟨_, hsame, _⟩ | ⟨k, hcur, hcharged, _⟩
    · rw [hsame.vruntime, hsame.runtimeTicks]
      omega
    · by_cases hik : i = k
      · subst hik
        rcases hwrap i hi hcur with ⟨hv, hr⟩
        rw [hcharged.vruntime, hcharged.runtimeTicks, BitVec.toNat_add, BitVec.toNat_add]
        simp only [BitVec.toNat_ofNat]
        omega
      · rw [(hcharged.others i hik).1, (hcharged.others i hik).2]
        omega
  | call op =>
    rcases SchedSystem.execTimed_call hexec with ⟨htick, hexec⟩
    rcases hplaced.exec_move op hexec with ⟨place', hmove, hplaced'⟩
    have hcharge := hplaced.uncharged hmove hplaced' hexec htick
    rcases hmove.used_of_runnable hplaced hplaced' hi hrun' with ⟨hused, hused'⟩
    rcases hcharge.kept i hi hused hused' with ⟨hv, hr⟩
    rw [hv, hr]
    omega

theorem FairInv.charged_run {ops : List (TimedOp Q)} (h : FairInv y)
    (hsteps : EachStep SchedSystem.execTimed NonBlocking y ops) {i : ℕ} (hi : i < 128)
    (hthrough : Throughout SchedSystem.execTimed (Runnable · i) y ops)
    (hrun : ops.foldlM SchedSystem.execTimed y = some y') :
    (y'.sched.tasks i).vruntime.toNat + (y.sched.tasks i).runtimeTicks.toNat =
      (y'.sched.tasks i).runtimeTicks.toNat + (y.sched.tasks i).vruntime.toNat := by
  have hboth := hthrough.eachStep.and hsteps
  have hall := run_invariant_of (P := fun y' => FairInv y' ∧
    (y'.sched.tasks i).vruntime.toNat + (y.sched.tasks i).runtimeTicks.toNat =
      (y'.sched.tasks i).runtimeTicks.toNat + (y.sched.tasks i).vruntime.toNat) ?_
    ⟨h, by omega⟩ hboth hrun
  · exact hall.2
  · intro y₁ op y₂ hy₁ hcond hexec
    rcases hcond with ⟨⟨_, hrun₂⟩, hop⟩
    have hstep := hy₁.1.charged_step hop.noWrap hexec hi (hrun₂ y₂ hexec)
    have hsum := hy₁.2
    exact ⟨hy₁.1.step hop hexec, by omega⟩

/-- The ticks that task `i` is charged between two states. -/
def ticksCharged (y y' : SchedSystem Q) (i : ℕ) : ℤ :=
  (y'.sched.tasks i).runtimeTicks.toNat - (y.sched.tasks i).runtimeTicks.toNat

/-- In every run without blocking, the runnable tasks are within one tick of the clock, and two
tasks that are runnable throughout an interval are charged the same number of ticks, up to two. -/
theorem non_blocking_run_fair (s : SchedState Q) (ops : List (TimedOp Q)) (y : SchedSystem Q)
    (hsteps : EachStep SchedSystem.execTimed NonBlocking (.start s) ops)
    (hrun : ops.foldlM SchedSystem.execTimed (.start s) = some y) :
    (∀ i, i < 128 → Runnable y i →
      (y.sched.tasks i).vruntime.toNat = y.sched.cfsMinVruntime.toNat ∨
        (y.sched.tasks i).vruntime.toNat + 1 = y.sched.cfsMinVruntime.toNat) ∧
    (∀ pre mid y₁, ops = pre ++ mid → pre.foldlM SchedSystem.execTimed (.start s) = some y₁ →
      ∀ i j, i < 128 → j < 128 → Throughout SchedSystem.execTimed (Runnable · i) y₁ mid →
        Throughout SchedSystem.execTimed (Runnable · j) y₁ mid →
        |ticksCharged y₁ y i - ticksCharged y₁ y j| ≤ 2) := by
  have hinv : ∀ {ops y}, EachStep SchedSystem.execTimed NonBlocking (.start s) ops →
      ops.foldlM SchedSystem.execTimed (.start s) = some y → FairInv y := by
    intro ops y hsteps hrun
    exact run_invariant_of (fun _ _ _ h hop hexec => h.step hop hexec) (FairInv.start s) hsteps hrun
  refine ⟨fun i hi hi_run => (hinv hsteps hrun).near_clock hi hi_run, ?_⟩
  intro pre mid y₁ hops hpre i j hi hj hti htj
  have hend := hinv hsteps hrun
  rw [hops] at hsteps hrun
  rcases run_append.mp hrun with ⟨y₁', hpre', hmid⟩
  rw [hpre, Option.some.injEq] at hpre'
  subst hpre'
  have hbegin := hinv hsteps.append_left hpre
  have hsteps' := hsteps.append_right hpre
  have hsum : ∀ k, k < 128 → Throughout SchedSystem.execTimed (Runnable · k) y₁ mid →
      (y.sched.tasks k).vruntime.toNat + (y₁.sched.tasks k).runtimeTicks.toNat =
          (y.sched.tasks k).runtimeTicks.toNat + (y₁.sched.tasks k).vruntime.toNat ∧
        ((y₁.sched.tasks k).vruntime.toNat = y₁.sched.cfsMinVruntime.toNat ∨
          (y₁.sched.tasks k).vruntime.toNat + 1 = y₁.sched.cfsMinVruntime.toNat) ∧
        ((y.sched.tasks k).vruntime.toNat = y.sched.cfsMinVruntime.toNat ∨
          (y.sched.tasks k).vruntime.toNat + 1 = y.sched.cfsMinVruntime.toNat) := by
    intro k hk hthrough
    exact ⟨hbegin.charged_run hsteps' hk hthrough hmid,
      hbegin.near_clock hk (hthrough [] mid y₁ rfl rfl),
      hend.near_clock hk (hthrough mid [] y (by simp) hmid)⟩
  have hsum_i := hsum i hi hti
  have hsum_j := hsum j hj htj
  unfold ticksCharged
  rw [abs_le]
  omega

end Fair

/-- Two tasks share the processor, and the first one yields once. -/
def takeTurns : List (TimedOp Unit) :=
  twoCreations ++ [.call .run, .isrIrq0Timer, .call .run, .isrIrq0Timer, .call .run, .call .yield,
    .call .run, .isrIrq0Timer]

theorem non_blocking_run_fair_take_turns :
    ∃ y : SchedSystem Unit,
      takeTurns.foldlM SchedSystem.execTimed (.start staleSched) = some y ∧ Runnable y 1 ∧
      ((y.sched.tasks 1).vruntime.toNat = y.sched.cfsMinVruntime.toNat ∨
        (y.sched.tasks 1).vruntime.toNat + 1 = y.sched.cfsMinVruntime.toNat) := by
  refine ⟨_, rfl, .inl (by decide +kernel), ?_⟩
  exact (non_blocking_run_fair staleSched takeTurns _ (by decide +kernel) rfl).1 1 (by decide)
    (.inl (by decide +kernel))

end GnuOS.Sched

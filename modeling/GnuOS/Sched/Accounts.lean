import GnuOS.Sched.Runs

/-!
# The accounts of the scheduler

What the steps of the scheduler do to the numbers that decide which task runs next: the runtimes
of the tasks and `g_cfs_min_vruntime`.  Only a tick changes them while a slot is in use, and
`sched_run` takes a ready task of least virtual runtime.
-/

namespace GnuOS.Sched

open GnuOS.Lib Function

variable {Q : Type} {s s' s'' : SchedState Q} {i : ℕ}

/-! ## Functions that charge nothing -/

/-- The runtimes of all tasks and the minimum are as before. -/
structure SameAccounts (s s' : SchedState Q) : Prop where
  clock : s'.cfsMinVruntime = s.cfsMinVruntime
  vruntime : ∀ i, (s'.tasks i).vruntime = (s.tasks i).vruntime
  runtimeTicks : ∀ i, (s'.tasks i).runtimeTicks = (s.tasks i).runtimeTicks

namespace SameAccounts

theorem refl (s : SchedState Q) : SameAccounts s s :=
  ⟨rfl, fun _ => rfl, fun _ => rfl⟩

theorem trans (h : SameAccounts s s') (h' : SameAccounts s' s'') : SameAccounts s s'' where
  clock := h'.clock.trans h.clock
  vruntime i := (h'.vruntime i).trans (h.vruntime i)
  runtimeTicks i := (h'.runtimeTicks i).trans (h.runtimeTicks i)

theorem of_tasks (hclock : s'.cfsMinVruntime = s.cfsMinVruntime) (htasks : s'.tasks = s.tasks) :
    SameAccounts s s' where
  clock := hclock
  vruntime i := by rw [htasks]
  runtimeTicks i := by rw [htasks]

/-- A store to one task that keeps its runtimes. -/
theorem of_setTask {t : Task} (hclock : s'.cfsMinVruntime = s.cfsMinVruntime)
    (htasks : s'.tasks = update s.tasks i t) (hv : t.vruntime = (s.tasks i).vruntime)
    (hr : t.runtimeTicks = (s.tasks i).runtimeTicks) : SameAccounts s s' where
  clock := hclock
  vruntime j := by
    rw [htasks]
    by_cases hji : j = i
    · subst hji
      simp [hv]
    · simp [hji]
  runtimeTicks j := by
    rw [htasks]
    by_cases hji : j = i
    · subst hji
      simp [hr]
    · simp [hji]

theorem setState (s : SchedState Q) (i : ℕ) (st : TaskState) : SameAccounts s (s.setState i st) :=
  of_setTask rfl rfl rfl rfl

theorem enqueueTask (h : schedEnqueueTask s i = some s') : SameAccounts s s' := by
  simp only [schedEnqueueTask, Option.map_eq_some_iff] at h
  rcases h with ⟨r, _, rfl⟩
  exact of_tasks rfl rfl

/-! ### Creating -/

theorem prepareTaskStack (s : SchedState Q) (i : ℕ) (page : BitVec 64) :
    SameAccounts s (schedPrepareTaskStack s i page).2 := by
  unfold schedPrepareTaskStack
  simp only
  split <;> exact of_setTask rfl rfl rfl rfl

theorem createReady (h : schedCreateReady s i = (true, s')) : SameAccounts s s' := by
  unfold schedCreateReady at h
  simp only at h
  split at h
  · simp at h
  · rename_i s₁ henq
    rw [Prod.mk.injEq] at h
    rw [← h.2]
    exact (setState s i .ready).trans (enqueueTask henq)

/-! ### Waiting and waking -/

section Queues

variable [DecidableEq Q]

theorem waitQueueInit (s : SchedState Q) (queue : Option Q) :
    SameAccounts s (schedWaitQueueInit s queue) := by
  cases queue with
  | none => exact refl s
  | some q => exact of_tasks rfl rfl

theorem waitQueueWait (s : SchedState Q) (queue : Option Q) :
    SameAccounts s (schedWaitQueueWait s queue).2 := by
  unfold schedWaitQueueWait
  split
  · exact refl s
  · split
    · split
      · exact refl s
      · split
        · exact refl s
        · exact of_setTask rfl rfl rfl rfl
    · exact refl s

theorem wakeOneLoop (q : Q) (n : ℕ) (s : SchedState Q) :
    SameAccounts s (Sched.wakeOneLoop q n s).2 := by
  induction n generalizing s with
  | zero => exact refl s
  | succ n ih =>
    unfold Sched.wakeOneLoop
    split
    · exact refl s
    · rename_i c r _
      have hqueue : SameAccounts s (s.setQueue q r) := of_tasks rfl rfl
      simp only
      split
      · exact hqueue.trans (ih _)
      · split
        · exact hqueue.trans (ih _)
        · have hready := hqueue.trans (setState _ c .ready)
          split
          · split
            · exact hready.trans (setState _ c .blocked)
            · exact hready.trans ((setState _ c .blocked).trans (of_tasks rfl rfl))
          · rename_i henq
            exact hready.trans ((enqueueTask henq).trans (of_tasks rfl rfl))

theorem wakeOneLocked (s : SchedState Q) (queue : Option Q) :
    SameAccounts s (schedWakeOneLocked s queue).2 := by
  cases queue with
  | none => exact refl s
  | some q => exact wakeOneLoop q _ s

theorem wakeAllLoop (queue : Option Q) (fuel woke : ℕ) (s : SchedState Q) :
    SameAccounts s (Sched.wakeAllLoop queue fuel s woke).2 := by
  induction fuel generalizing s woke with
  | zero => exact refl s
  | succ fuel ih =>
    have hwake := wakeOneLocked s queue
    unfold Sched.wakeAllLoop
    split <;> rename_i s₁ hs₁ <;> rw [hs₁] at hwake
    · exact hwake.trans (ih (woke + 1) s₁)
    · exact hwake

theorem waitQueueWakeAll (s : SchedState Q) (queue : Option Q) :
    SameAccounts s (schedWaitQueueWakeAll s queue).2 := by
  unfold schedWaitQueueWakeAll
  split <;> exact wakeAllLoop _ _ _ s

end Queues

end SameAccounts

/-! ### Switching -/

/-- What the functions that switch tasks keep. -/
structure Switched (s s' : SchedState Q) : Prop extends SameAccounts s s' where
  context : ∀ i, (s'.tasks i).context = (s.tasks i).context
  waitQueues : s'.waitQueues = s.waitQueues

namespace Switched

variable {live : Q → Prop} {place : ℕ → Place Q}

theorem of_tasks (haccounts : SameAccounts s s') (htasks : s'.tasks = s.tasks)
    (hqueues : s'.waitQueues = s.waitQueues) : Switched s s' :=
  ⟨haccounts, fun _ => by rw [htasks], hqueues⟩

theorem refl (s : SchedState Q) : Switched s s := of_tasks (.refl s) rfl rfl

theorem of_setTask {t : Task} (haccounts : SameAccounts s s')
    (htasks : s'.tasks = update s.tasks i t) (ht : t.context = (s.tasks i).context)
    (hqueues : s'.waitQueues = s.waitQueues) : Switched s s' := by
  refine ⟨haccounts, fun j => ?_, hqueues⟩
  rw [htasks]
  by_cases hji : j = i
  · rw [hji, update_self, ht]
  · rw [update_of_ne hji]

theorem run (h : ReadyAgrees s) : Switched s (schedRun s).2 := by
  unfold schedRun
  split
  · exact refl s
  rcases h.pickNextReady with ⟨hpick, _⟩ | ⟨b, r, hpick, _⟩
  · rw [hpick]
    exact refl s
  · rw [hpick]
    exact of_setTask (.of_setTask rfl rfl rfl rfl) rfl rfl rfl

theorem yield (h : Represents s live place) : Switched s (schedYield s) := by
  rcases h.current with ⟨hboot, _⟩ | ⟨i, _, hcur, _⟩
  · simp only [schedYield, hboot]
    exact refl s
  · obtain ⟨r, henq, _⟩ := h.enqueueCurrent hcur
    simp only [schedYield, hcur]
    rw [if_neg (h.guard hcur), henq]
    exact of_setTask (.of_setTask rfl rfl rfl rfl) rfl rfl rfl

theorem preemptOnTick (h : Represents s live place) : Switched s (schedPreemptOnTick s).2 := by
  unfold schedPreemptOnTick
  split
  · exact refl s
  rcases h.current with ⟨hboot, _⟩ | ⟨i, _, hcur, _⟩
  · rw [hboot]
    exact of_tasks (.of_tasks rfl rfl) rfl rfl
  · obtain ⟨r, henq, _⟩ := h.enqueueCurrent hcur
    simp only [hcur]
    rw [if_neg (h.guard hcur), henq]
    exact of_setTask (.of_setTask rfl rfl rfl rfl) rfl rfl rfl

theorem taskExit (h : schedTaskExit s = some s') : Switched s s' := by
  unfold schedTaskExit at h
  split at h
  · rw [← Option.some.inj h]
    exact of_setTask (.of_setTask rfl rfl rfl rfl) rfl rfl rfl
  · simp at h

end Switched

/-! ## The task that runs next -/

theorem Task.vruntime_le_of_key_le {t u : Task} (h : t.key ≤ u.key) :
    t.vruntime.toNat ≤ u.vruntime.toNat := by
  unfold Task.key at h
  rcases (Prod.Lex.toLex_le_toLex).mp h with hlt | heq
  · exact Nat.le_of_lt hlt
  · exact Nat.le_of_eq heq.1

/-- `sched_run` starts a ready task of least runtime. -/
theorem schedRun_least (h : schedRun s = (true, s')) (hcur : s'.currentTask = .slot i) :
    ∀ j, j < 128 → (s.tasks j).state = .ready →
      (s.tasks i).vruntime.toNat ≤ (s.tasks j).vruntime.toNat := by
  unfold schedRun at h
  split at h
  · simp at h
  split at h
  · simp at h
  · rename_i next s₁ hpick
    rw [Prod.mk.injEq] at h
    rw [← h.2] at hcur
    simp only [TaskRef.slot.injEq] at hcur
    subst hcur
    unfold schedPickNextReady at hpick
    split at hpick
    · simp at hpick
    · rename_i best hfold
      split at hpick
      split at hpick
      · simp at hpick
      · rw [Prod.mk.injEq, Option.some.injEq] at hpick
        rw [← hpick.1]
        intro j hj hready
        rw [scan_eq_argmin] at hfold
        have hmem := mem_readySlots.mpr ⟨List.mem_range.mpr hj, hready⟩
        exact Task.vruntime_le_of_key_le
          (List.le_of_mem_argmin (f := fun i => (s.tasks i).key) hmem hfold)

/-! ## Steps that charge nothing -/

/-- Every step but a tick: a slot in use keeps its accounts, and a slot that is taken starts at the
minimum. -/
structure Uncharged (s s' : SchedState Q) : Prop where
  clock : s'.cfsMinVruntime = s.cfsMinVruntime
  kept : ∀ i, i < 128 → (s.tasks i).state ≠ .unused → (s'.tasks i).state ≠ .unused →
    (s'.tasks i).vruntime = (s.tasks i).vruntime ∧
      (s'.tasks i).runtimeTicks = (s.tasks i).runtimeTicks
  opened : ∀ i, i < 128 → (s.tasks i).state = .unused → (s'.tasks i).state ≠ .unused →
    (s'.tasks i).vruntime = s.cfsMinVruntime

theorem schedCreateClaim_uncharged (name entry arg : BitVec 64) :
    Uncharged s (schedCreateClaim s name entry arg).2 := by
  have hsame : Uncharged s s := ⟨rfl, fun _ _ _ _ => ⟨rfl, rfl⟩, fun _ _ h h' => absurd h h'⟩
  unfold schedCreateClaim
  split
  · exact hsame
  split
  · exact hsame
  · rename_i index hslot
    have hunused := List.find?_some hslot
    rw [decide_eq_true_eq] at hunused
    refine ⟨rfl, ?_, ?_⟩
    · intro i _ hused _
      have hne : i ≠ index := fun h => hused (h ▸ hunused)
      simp [SchedState.setTask, hne]
    · intro i _ hfree hused
      by_cases hne : i = index
      · subst hne
        simp [SchedState.setTask]
      · simp only [SchedState.setTask, update_of_ne hne] at hused
        exact absurd hfree hused

theorem schedCreateRollback_uncharged (hi : (s.tasks i).state ≠ .unused) :
    Uncharged s (schedCreateRollback s i) := by
  refine ⟨rfl, ?_, ?_⟩
  · intro j _ _ hused
    have hne : j ≠ i := by
      rintro rfl
      simp [schedCreateRollback, SchedState.setTask, schedResetTask] at hused
    simp [schedCreateRollback, SchedState.setTask, hne]
  · intro j _ hfree hused
    have hne : j ≠ i := fun h => hi (h ▸ hfree)
    simp only [schedCreateRollback, SchedState.setTask, update_of_ne hne] at hused
    exact absurd hfree hused

section Steps

variable {y y' : SchedSystem Q} {place place' : ℕ → Place Q} {op : SchedOp Q}

section

variable (h : Placed y place)

include h

theorem Placed.unused_iff (hi : i < 128) :
    (y.sched.tasks i).state = .unused ↔ place i = .unused := by
  rw [h.represents.state i hi, Place.state_eq_unused]

/-- At most one task runs. -/
theorem Placed.running_unique {j : ℕ} (hi : i < 128) (hcur : y.sched.currentTask = .slot j)
    (hrun : place i = .running) : i = j := by
  have hslot := (h.represents.running i hi).mp hrun
  rw [hcur, TaskRef.slot.injEq] at hslot
  exact hslot.symm

/-- An unused slot stays unused, or the step claims it. -/
theorem Move.unused (hmove : Move y place op place') (hunused : place i = .unused) :
    place' i = .unused ∨
      (place' i = .creating ∧ ∃ name entry arg, op = .createClaim name entry arg) := by
  have htask := hmove.task h i
  rw [hunused] at htask
  generalize place' i = p at htask ⊢
  cases htask with
  | stays => exact .inl rfl
  | @claimed name entry arg => exact .inr ⟨rfl, name, entry, arg, rfl⟩

end

variable [DecidableEq Q]

theorem Placed.sameAccounts (h : Placed y place) (hexec : y.exec op = some y')
    (hclaim : ∀ name entry arg, op ≠ .createClaim name entry arg)
    (hrollback : ∀ i, op ≠ .createRollback i) (htick : op ≠ .tick) :
    SameAccounts y.sched y'.sched := by
  cases op with
  | createClaim => exact absurd rfl (hclaim _ _ _)
  | createRollback => exact absurd rfl (hrollback _)
  | tick => exact absurd rfl htick
  | prepareTaskStack i page =>
    obtain ⟨-, hexec⟩ := Option.ite_none_right_eq_some.mp hexec
    rw [← Option.some.inj hexec]
    exact .prepareTaskStack y.sched i page
  | createReady i =>
    obtain ⟨hprepared, hexec⟩ := Option.ite_none_right_eq_some.mp hexec
    rcases (h.creating i).mpr (by simp [hprepared]) with ⟨hi, hcr⟩
    rcases schedCreateReady_spec h.represents hi hcr with ⟨s', hready, _⟩
    rw [← Option.some.inj hexec, hready]
    exact .createReady hready
  | waitQueueInit q =>
    obtain ⟨-, hexec⟩ := Option.ite_none_left_eq_some.mp hexec
    rw [← Option.some.inj hexec]
    exact .waitQueueInit y.sched (some q)
  | waitQueueWait queue =>
    obtain ⟨-, hexec⟩ := Option.ite_none_right_eq_some.mp hexec
    rw [← Option.some.inj hexec]
    exact .waitQueueWait y.sched queue
  | waitQueueWakeOne queue =>
    obtain ⟨-, hexec⟩ := Option.ite_none_right_eq_some.mp hexec
    rw [← Option.some.inj hexec]
    exact .wakeOneLocked y.sched queue
  | waitQueueWakeAll queue =>
    obtain ⟨-, hexec⟩ := Option.ite_none_right_eq_some.mp hexec
    rw [← Option.some.inj hexec]
    exact .waitQueueWakeAll y.sched queue
  | requestResched =>
    rw [← Option.some.inj hexec]
    exact .of_tasks rfl rfl
  | preemptOnTick =>
    rw [← Option.some.inj hexec]
    exact (Switched.preemptOnTick h.represents).toSameAccounts
  | run =>
    rw [← Option.some.inj hexec]
    exact (Switched.run h.represents.readyAgrees).toSameAccounts
  | yield =>
    rw [← Option.some.inj hexec]
    exact (Switched.yield h.represents).toSameAccounts
  | taskExit =>
    obtain ⟨s', hexit, rfl⟩ := Option.map_eq_some_iff.mp hexec
    exact (Switched.taskExit hexit).toSameAccounts

/-- What every step but a tick does to the accounts. -/
theorem Placed.uncharged (h : Placed y place) (hmove : Move y place op place')
    (h' : Placed y' place') (hexec : y.exec op = some y') (htick : op ≠ .tick) :
    Uncharged y.sched y'.sched := by
  by_cases hclaim : ∃ name entry arg, op = .createClaim name entry arg
  · rcases hclaim with ⟨name, entry, arg, rfl⟩
    have hcharge := schedCreateClaim_uncharged (s := y.sched) name entry arg
    simp only [SchedSystem.exec] at hexec
    split at hexec <;> rename_i hs <;> rw [hs] at hcharge <;> rw [← Option.some.inj hexec] <;>
      exact hcharge
  by_cases hrollback : ∃ i, op = .createRollback i
  · rcases hrollback with ⟨i, rfl⟩
    obtain ⟨hfailed, hexec⟩ := Option.ite_none_right_eq_some.mp hexec
    rcases (h.creating i).mpr (by simp [hfailed]) with ⟨hi, hcr⟩
    rw [← Option.some.inj hexec]
    apply schedCreateRollback_uncharged
    rw [ne_eq, h.unused_iff hi, hcr]
    simp
  · have hsame := h.sameAccounts hexec (fun name entry arg heq => hclaim ⟨name, entry, arg, heq⟩)
      (fun i heq => hrollback ⟨i, heq⟩) htick
    refine ⟨hsame.clock, fun i _ _ _ => ⟨hsame.vruntime i, hsame.runtimeTicks i⟩, ?_⟩
    intro i hi hfree hused
    rw [h.unused_iff hi] at hfree
    rw [ne_eq, h'.unused_iff hi] at hused
    rcases hmove.unused h hfree with hsame' | ⟨_, hop⟩
    · exact absurd hsame' hused
    · exact absurd hop hclaim

/-- The task that starts to run has least runtime. -/
theorem Placed.run_least (h : Placed y place) (hexec : y.exec .run = some y')
    (hready : place i = .ready) (hcur : y'.sched.currentTask = .slot i) :
    ∀ j, j < 128 → (y.sched.tasks j).state = .ready →
      (y.sched.tasks i).vruntime.toNat ≤ (y.sched.tasks j).vruntime.toNat := by
  simp only [SchedSystem.exec, Option.some.injEq] at hexec
  rcases schedRun_spec h.represents with hrun | ⟨_, s', hrun, _, _⟩
  · rw [← hexec, hrun] at hcur
    have hplace := (h.represents.of_current hcur).2.2.1
    rw [hready] at hplace
    exact absurd hplace (by simp)
  · rw [← hexec, hrun] at hcur
    exact schedRun_least hrun hcur

end Steps

/-! ## Ticks -/

/-- Task `i` is charged a tick, and the clock is set to its runtime. -/
structure Charged (s s' : SchedState Q) (i : ℕ) : Prop where
  clock : s'.cfsMinVruntime = (s.tasks i).vruntime + 1#64
  vruntime : (s'.tasks i).vruntime = (s.tasks i).vruntime + 1#64
  runtimeTicks : (s'.tasks i).runtimeTicks = (s.tasks i).runtimeTicks + 1#64
  others : ∀ j, j ≠ i → (s'.tasks j).vruntime = (s.tasks j).vruntime ∧
    (s'.tasks j).runtimeTicks = (s.tasks j).runtimeTicks

theorem Charged.trans (h : Charged s s' i) (h' : SameAccounts s' s'') : Charged s s'' i where
  clock := h'.clock.trans h.clock
  vruntime := (h'.vruntime i).trans h.vruntime
  runtimeTicks := (h'.runtimeTicks i).trans h.runtimeTicks
  others j hj := by
    rw [h'.vruntime j, h'.runtimeTicks j]
    exact h.others j hj

/-- A tick charges the running task and asks for a switch. -/
theorem schedTick_charged (hcur : s.currentTask = .slot i) (hstate : (s.tasks i).state = .running) :
    Charged s (schedTick s) i ∧ (schedTick s).needResched = true ∧
      (schedTick s).currentTask = .slot i := by
  unfold schedTick
  simp only
  split
  · rename_i k hk
    rw [hcur, TaskRef.slot.injEq] at hk
    subst hk
    rw [if_pos hstate]
    refine ⟨⟨rfl, ?_, ?_, ?_⟩, rfl, hcur⟩
    · simp [SchedState.setTask]
    · simp [SchedState.setTask]
    · intro j hj
      simp [SchedState.setTask, hj]
  · rename_i hnot
    exact absurd hcur (hnot i)

theorem schedTick_bootstrap (hboot : s.currentTask = .bootstrap) :
    SameAccounts s (schedTick s) ∧ (schedTick s).currentTask = .bootstrap := by
  simp only [schedTick, hboot]
  exact ⟨.of_tasks rfl rfl, trivial⟩

end GnuOS.Sched

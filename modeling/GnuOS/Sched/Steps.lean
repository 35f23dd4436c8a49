import GnuOS.Sched.Invariant
import Mathlib.Data.List.MinMax
import Mathlib.Data.Prod.Lex

/-!
# The operations of the scheduler

What each function of `sched.c` does to the places of the tasks.  The specification of
`sched_pick_next_ready` comes first: it is the only one with loops over the ready ring.
-/

namespace GnuOS.Sched

open GnuOS.Lib Function List

variable {Q : Type} {s : SchedState Q} {live : Q → Prop} {place : ℕ → Place Q} {i : ℕ}

theorem setTask_same_state {t : Task} (ht : t.state = (s.tasks i).state) :
    ∀ j, j < 128 → ((s.setTask i t).tasks j).state = (s.tasks j).state := by
  intro j _
  by_cases hji : j = i
  · subst hji
    simp [SchedState.setTask, ht]
  · simp [SchedState.setTask, hji]

/-! ## Choosing the next task -/

/-- What the scan compares: the runtimes, and the numbers of the tasks if those are equal. -/
def Task.key (t : Task) : ℕ ×ₗ ℕ := toLex (t.vruntime.toNat, t.tid.toNat)

theorem Task.key_lt_iff {t u : Task} :
    t.key < u.key ↔ t.vruntime < u.vruntime ∨ (t.vruntime = u.vruntime ∧ t.tid < u.tid) := by
  unfold key
  rw [Prod.Lex.toLex_lt_toLex, BitVec.toNat_inj]
  rfl

/-- The ready tasks, in the order of the array. -/
def readySlots (tasks : ℕ → Task) (l : List ℕ) : List ℕ :=
  l.filter fun i => (tasks i).state = .ready

theorem mem_readySlots {tasks : ℕ → Task} {l : List ℕ} :
    i ∈ readySlots tasks l ↔ i ∈ l ∧ (tasks i).state = .ready := by
  unfold readySlots
  rw [mem_filter, decide_eq_true_eq]

/-- The scan finds the first of the ready tasks whose key is least. -/
theorem scan_eq_argmin (tasks : ℕ → Task) (l : List ℕ) :
    l.foldl (scanStep tasks) none = (readySlots tasks l).argmin fun i => (tasks i).key := by
  unfold readySlots
  induction l using reverseRecOn with
  | nil => rfl
  | append_singleton l i ih =>
    rw [foldl_concat, ih, filter_append]
    by_cases hi : (tasks i).state = .ready
    · have hone : ([i].filter fun i => (tasks i).state = .ready) = [i] := by simp [hi]
      rw [hone, argmin_concat]
      unfold scanStep
      rw [if_neg (not_not.mpr hi)]
      cases (l.filter fun i => (tasks i).state = .ready).argmin fun i => (tasks i).key with
      | none => rfl
      | some b => simp only [Task.key_lt_iff]
    · have hone : ([i].filter fun i => (tasks i).state = .ready) = [] := by simp [hi]
      rw [hone, append_nil]
      unfold scanStep
      rw [if_pos hi]

/-- Emptying a ring of ready tasks keeps all but the chosen one, in order. -/
theorem drainLoop_spec (best n : ℕ) (s : SchedState Q) (kept : List ℕ)
    (hvalid : s.readyQueue.Valid 128) (hn : n = s.readyList.length)
    (htasks : ∀ i ∈ s.readyList, i < 128 ∧ (s.tasks i).state = .ready)
    (hroom : kept.length + n ≤ 128) :
    ∃ r, drainLoop best n s kept =
      (kept ++ s.readyList.filter (fun j => decide (j ≠ best)), { s with readyQueue := r }) := by
  induction n generalizing s kept with
  | zero =>
    have hnil : s.readyList = [] := length_eq_zero_iff.mp hn.symm
    refine ⟨s.readyQueue, ?_⟩
    simp [drainLoop, hnil]
  | succ n ih =>
    cases hpop : s.readyQueue.pop 128 with
    | none =>
      rw [RingBuffer.pop_eq_none_iff] at hpop
      rw [SchedState.readyList, hpop] at hn
      simp at hn
    | some pair =>
      rcases pair with ⟨c, r⟩
      rcases RingBuffer.pop_contents hvalid hpop with ⟨hr, hcons⟩
      have hlist : s.readyList = c :: r.contents 128 := hcons
      rcases htasks c (by rw [hlist]; exact mem_cons_self) with ⟨hc, hcready⟩
      have hdeq : schedDequeueTask s = some (c, { s with readyQueue := r }) := by
        simp [schedDequeueTask, schedReadyQueueCapacity, schedMaxTasks, hpop]
      have hnext := ih { s with readyQueue := r }
      rw [hlist, length_cons, Nat.add_right_cancel_iff] at hn
      have hrest : ∀ i ∈ r.contents 128, i < 128 ∧ (s.tasks i).state = .ready := by
        intro i hi
        exact htasks i (by rw [hlist]; exact mem_cons_of_mem c hi)
      have hlt : ¬ schedMaxTasks ≤ c := by
        unfold schedMaxTasks
        omega
      have hkept : kept.length < schedReadyQueueCapacity := by
        unfold schedReadyQueueCapacity schedMaxTasks
        omega
      -- the checks of the loop all pass: the entry is a ready task and there is room to keep it
      simp only [drainLoop, hdeq, hlt, hcready, hkept, if_true, if_false, ne_eq, not_true]
      rw [hlist]
      by_cases hcb : c = best
      · rw [if_pos hcb]
        rcases hnext kept hr hn hrest (by omega) with ⟨r', hloop⟩
        refine ⟨r', hloop.trans ?_⟩
        simp [hcb, SchedState.readyList]
      · rw [if_neg hcb]
        rcases hnext (kept ++ [c]) hr hn hrest (by simp; omega) with ⟨r', hloop⟩
        refine ⟨r', hloop.trans ?_⟩
        simp [hcb, SchedState.readyList]

/-- Putting indices back appends them to the ring, if they fit. -/
theorem requeueLoop_spec (kept : List ℕ) (s : SchedState Q) (hvalid : s.readyQueue.Valid 128)
    (hroom : s.readyList.length + kept.length ≤ 128) :
    ∃ r, requeueLoop kept s = (true, { s with readyQueue := r }) ∧ r.Valid 128 ∧
      r.head = s.readyQueue.head ∧ r.contents 128 = s.readyList ++ kept := by
  induction kept generalizing s with
  | nil => exact ⟨s.readyQueue, rfl, hvalid, rfl, by simp [SchedState.readyList]⟩
  | cons i kept ih =>
    rw [length_cons] at hroom
    cases hpush : s.readyQueue.push 128 i with
    | none =>
      rw [RingBuffer.push_eq_none_iff] at hpush
      rw [SchedState.readyList, RingBuffer.length_contents] at hroom
      omega
    | some r =>
      rcases RingBuffer.push_contents hvalid hpush with ⟨hr, hcont⟩
      have henq : schedEnqueueTask s i = some { s with readyQueue := r } := by
        simp [schedEnqueueTask, schedReadyQueueCapacity, schedMaxTasks, hpush]
      have hlen : (r.contents 128).length + kept.length ≤ 128 := by
        rw [hcont, length_append, length_singleton]
        exact le_of_eq_of_le (by simp only [SchedState.readyList]; omega) hroom
      rcases ih { s with readyQueue := r } hr hlen with ⟨r', hloop, hr', hhead, hcont'⟩
      refine ⟨r', ?_, hr', hhead.trans (RingBuffer.push_head hpush), ?_⟩
      · simp only [requeueLoop, henq, hloop]
      · rw [hcont']
        show r.contents 128 ++ kept = _
        rw [hcont, append_assoc]
        rfl

/-- The ring and the array agree on which tasks are ready. -/
structure ReadyAgrees (s : SchedState Q) : Prop where
  valid : s.readyQueue.Valid 128
  nodup : s.readyList.Nodup
  mem_iff : ∀ i, i ∈ s.readyList ↔ i < 128 ∧ (s.tasks i).state = .ready

theorem Represents.readyAgrees (h : Represents s live place) : ReadyAgrees s where
  valid := h.readyValid
  nodup := h.ready.nodup
  mem_iff := by
    intro i
    rw [h.ready.mem_iff]
    apply and_congr_right
    intro hi
    rw [h.state i hi, Place.state_eq_ready]

/-- The ring has one slot for each task. -/
theorem ReadyAgrees.length_le (h : ReadyAgrees s) : s.readyList.length ≤ 128 := by
  rw [SchedState.readyList, RingBuffer.length_contents]
  exact h.valid.size_le

/-- `sched_pick_next_ready`: it fails exactly when no task is ready; else it returns the first one
with the least key and rebuilds the ring without it. -/
theorem ReadyAgrees.pickNextReady (h : ReadyAgrees s) :
    (schedPickNextReady s = (none, s) ∧ ∀ i, i < 128 → (s.tasks i).state ≠ .ready) ∨
      ∃ best r, schedPickNextReady s = (some best, { s with readyQueue := r }) ∧
        (readySlots s.tasks (range 128)).argmin (fun i => (s.tasks i).key) = some best ∧
        r.Valid 128 ∧ r.head = 0 ∧
        r.contents 128 = s.readyList.filter fun j => decide (j ≠ best) := by
  unfold schedPickNextReady
  rw [scan_eq_argmin]
  cases hbest : (readySlots s.tasks (range schedMaxTasks)).argmin fun i =>
      (s.tasks i).key with
  | none =>
    rw [argmin_eq_none] at hbest
    refine .inl ⟨rfl, ?_⟩
    intro i hi hready
    have hmem := mem_readySlots.mpr ⟨mem_range.mpr hi, hready⟩
    rw [show readySlots s.tasks (range 128) = [] from hbest] at hmem
    exact not_mem_nil hmem
  | some b =>
    have hsize : s.readyQueue.size = s.readyList.length := by
      simp [SchedState.readyList]
    have hle := h.length_le
    rcases drainLoop_spec b s.readyQueue.size s [] h.valid hsize
      (fun i hi => (h.mem_iff i).mp hi) (by simp; omega) with ⟨r, hdrain⟩
    have hkept : (s.readyList.filter fun j => decide (j ≠ b)).length ≤ 128 :=
      (length_filter_le _ _).trans hle
    rcases requeueLoop_spec (s.readyList.filter fun j => decide (j ≠ b))
      { s with readyQueue := r.reset } (RingBuffer.reset_valid (by decide))
      (by simpa [SchedState.readyList] using hkept) with ⟨r', hloop, hr', hhead, hcont⟩
    refine .inr ⟨b, r', ?_, hbest, hr', hhead, ?_⟩
    · simp only [hdrain, nil_append, hloop]
    · rw [hcont]
      simp [SchedState.readyList]

section

variable (h : Represents s live place)

include h

/-- The same, over the places. -/
theorem schedPickNextReady_spec :
    (schedPickNextReady s = (none, s) ∧ ∀ i, i < 128 → place i ≠ .ready) ∨
      ∃ best r, schedPickNextReady s = (some best, { s with readyQueue := r }) ∧
        best < 128 ∧ place best = .ready ∧ r.Valid 128 ∧
        r.contents 128 = s.readyList.filter fun j => decide (j ≠ best) := by
  rcases h.readyAgrees.pickNextReady with ⟨hpick, hnone⟩ | ⟨b, r, hpick, hbest, hr, _, hcont⟩
  · refine .inl ⟨hpick, ?_⟩
    intro i hi hready
    apply hnone i hi
    rw [h.state i hi, hready]
    rfl
  · obtain ⟨hmem, hready⟩ := mem_readySlots.mp (argmin_mem hbest)
    have hlt : b < 128 := mem_range.mp hmem
    rw [h.state b hlt, Place.state_eq_ready] at hready
    exact .inr ⟨b, r, hpick, hlt, hready, hr, hcont⟩

/-! ## Creating a task -/

theorem schedAllocTaskSlot_spec :
    schedAllocTaskSlot s = none ∨
      ∃ i, schedAllocTaskSlot s = some i ∧ i < 128 ∧ place i = .unused := by
  cases hfind : schedAllocTaskSlot s with
  | none => exact .inl rfl
  | some i =>
    have hstate := find?_some hfind
    have hi : i < 128 := mem_range.mp (mem_of_find?_eq_some hfind)
    rw [decide_eq_true_eq, h.state i hi] at hstate
    exact .inr ⟨i, rfl, hi, Place.state_eq_unused.mp hstate⟩

/-- The claim changes nothing, or takes an unused slot. -/
theorem schedCreateClaim_spec (name entry arg : BitVec 64) :
    schedCreateClaim s name entry arg = (none, s) ∨
      ∃ i s', schedCreateClaim s name entry arg = (some i, s') ∧ i < 128 ∧ place i = .unused ∧
        Represents s' live (update place i .creating) := by
  unfold schedCreateClaim
  split
  · exact .inl rfl
  rcases schedAllocTaskSlot_spec h with hslot | ⟨i, hslot, hi, hunused⟩
  · rw [hslot]
    exact .inl rfl
  · rw [hslot]
    refine .inr ⟨i, _, rfl, hi, hunused, ?_⟩
    have hmove := h.moveUnlisted (p := .creating) (t := { schedResetTask with
      tid := s.nextTid, state := .blocked, name := name, process := some i, entry := entry
      arg := arg, vruntime := s.cfsMinVruntime }) (.inl hunused) (.inr rfl) rfl
    exact hmove.congr (fun _ _ => rfl) rfl rfl rfl rfl

/-- Preparing the stack moves no task. -/
theorem schedPrepareTaskStack_spec (i : ℕ) (page : BitVec 64) :
    Represents (schedPrepareTaskStack s i page).2 live place := by
  unfold schedPrepareTaskStack
  simp only
  split <;> exact h.congr (setTask_same_state rfl) rfl rfl rfl rfl

theorem schedCreateReady_spec (hi : i < 128) (hcr : place i = .creating) :
    ∃ s', schedCreateReady s i = (true, s') ∧
      Represents s' live (update place i .ready) := by
  rcases h.enqueue hi (by simp [hcr]) { s.tasks i with state := .ready }
    with ⟨r, henq, hr, hcont⟩
  refine ⟨_, ?_, h.createdReady (t := { s.tasks i with state := .ready }) hi hcr rfl hr hcont⟩
  simp only [schedCreateReady, SchedState.setState, henq]

theorem schedCreateRollback_spec (hcr : place i = .creating) :
    Represents (schedCreateRollback s i) live (update place i .unused) := by
  have hmove := h.moveUnlisted (p := .unused) (t := schedResetTask) (.inr hcr) (.inl rfl) rfl
  exact hmove.congr (fun _ _ => rfl) rfl rfl rfl rfl

/-! ## Ticks and switches -/

theorem schedTick_spec : Represents (schedTick s) live place := by
  unfold schedTick
  simp only
  split
  · split
    · refine h.congr ?_ rfl rfl rfl rfl
      rename_i i _ _
      exact setTask_same_state (s := s) (t := { s.tasks i with
        runtimeTicks := (s.tasks i).runtimeTicks + 1#64
        vruntime := (s.tasks i).vruntime + 1#64 }) rfl
    · exact h.congr (fun _ _ => rfl) rfl rfl rfl rfl
  · exact h.congr (fun _ _ => rfl) rfl rfl rfl rfl

/-- The guard of the functions that take the processor from the running task. -/
theorem Represents.guard (hcur : s.currentTask = .slot i) :
    ¬ ((s.tasks i).state ≠ .running ∨ s.currentIndex = schedTaskIndexNone) := by
  rcases h.of_current hcur with ⟨hi, hidx, _, hstate⟩
  rw [hidx, hstate]
  unfold schedTaskIndexNone
  simp only [ne_eq, not_true, false_or]
  omega

/-- The ready ring has room for the running task. -/
theorem Represents.enqueueCurrent (hcur : s.currentTask = .slot i) :
    ∃ r, schedEnqueueTask (s.setState i .ready) s.currentIndex =
        some { s.setState i .ready with readyQueue := r } ∧
      r.Valid 128 ∧ r.contents 128 = s.readyList ++ [i] := by
  rcases h.of_current hcur with ⟨hi, hidx, hrun, _⟩
  rw [hidx]
  exact h.enqueue hi (by simp [hrun]) { s.tasks i with state := .ready }

theorem schedYield_spec :
    (s.currentTask = .bootstrap ∧ schedYield s = s) ∨
      ∃ i, s.currentTask = .slot i ∧
        Represents (schedYield s) live (update place i .ready) := by
  rcases h.current with ⟨hboot, _⟩ | ⟨i, _, hcur, _⟩
  · refine .inl ⟨hboot, ?_⟩
    simp only [schedYield, hboot]
  · rcases h.enqueueCurrent hcur with ⟨r, henq, hr, hcont⟩
    refine .inr ⟨i, hcur, ?_⟩
    simp only [schedYield, hcur]
    rw [if_neg (h.guard hcur), henq]
    exact h.runningReady (t := { s.tasks i with state := .ready }) hcur rfl hr hcont rfl rfl rfl
      rfl rfl

/-- The running task keeps the processor only if no switch was asked for. -/
theorem schedPreemptOnTick_spec :
    ((s.needResched = false ∨ s.currentTask = .bootstrap) ∧
        Represents (schedPreemptOnTick s).2 live place) ∨
      ∃ i, s.currentTask = .slot i ∧
        Represents (schedPreemptOnTick s).2 live (update place i .ready) := by
  unfold schedPreemptOnTick
  split
  · rename_i hneed
    exact .inl ⟨.inl hneed, h⟩
  rcases h.current with ⟨hboot, _⟩ | ⟨i, _, hcur, _⟩
  · rw [hboot]
    exact .inl ⟨.inr rfl, h.congr (fun _ _ => rfl) rfl rfl hboot.symm rfl⟩
  · rcases h.enqueueCurrent hcur with ⟨r, henq, hr, hcont⟩
    refine .inr ⟨i, hcur, ?_⟩
    simp only [hcur]
    rw [if_neg (h.guard hcur), henq]
    exact h.runningReady (t := { s.tasks i with state := .ready }) hcur rfl hr hcont rfl rfl rfl
      rfl rfl

theorem schedRun_spec :
    schedRun s = (false, s) ∨
      ∃ i s', schedRun s = (true, s') ∧ place i = .ready ∧
        Represents s' live (update place i .running) := by
  unfold schedRun
  by_cases hboot : s.currentTask = .bootstrap
  · rw [if_neg (not_not.mpr hboot)]
    rcases schedPickNextReady_spec h with ⟨hpick, _⟩ | ⟨b, r, hpick, hb, hready, hr, hcont⟩
    · rw [hpick]
      exact .inl rfl
    · rw [hpick]
      refine .inr ⟨b, _, rfl, hready, ?_⟩
      exact h.readyRuns (t := { s.tasks b with
        state := .running
        contextSwitches := (s.tasks b).contextSwitches + 1#64 }) hboot hb hready rfl hr hcont false
  · rw [if_pos hboot]
    exact .inl rfl

theorem schedTaskExit_spec {s' : SchedState Q} (hexit : schedTaskExit s = some s') :
    ∃ i, s.currentTask = .slot i ∧
      Represents s' live (update place i .exited) := by
  unfold schedTaskExit at hexit
  split at hexit
  · rename_i i hcur
    refine ⟨i, hcur, ?_⟩
    rw [← Option.some.inj hexit]
    exact h.runningExits (t := { s.tasks i with state := .exited, entry := 0#64, arg := 0#64 })
      hcur rfl
  · simp at hexit

end

/-! ## Waiting and waking -/

section Queues

variable [DecidableEq Q] {q : Q}

omit [DecidableEq Q] in
/-- The queue has room for a task that is not in it. -/
theorem Represents.waitqEnqueue (h : Represents s live place) (hq : live q) (hi : i < 128)
    (hp : place i ≠ .waiting q) :
    ∃ r, schedWaitqEnqueue (s.waitQueues q) i = some r ∧ r.Valid 128 ∧
      r.contents 128 = s.waitList q ++ [i] := by
  have hroom := (h.waiting q hq).length_lt hi hp
  rw [SchedState.waitList, RingBuffer.length_contents] at hroom
  cases hpush : (s.waitQueues q).push 128 i with
  | none =>
    rw [RingBuffer.push_eq_none_iff] at hpush
    omega
  | some r => exact ⟨r, hpush, RingBuffer.push_contents (h.waitValid q hq) hpush⟩

/-- The wait lists after one of the queues has changed. -/
theorem waitList_of_update {f : Q → RingBuffer ℕ} {r : RingBuffer ℕ} {q' : Q}
    (h : s.waitQueues = update f q r) :
    s.waitList q' = if q' = q then r.contents 128 else (f q').contents 128 := by
  unfold SchedState.waitList
  rw [h, update_apply]
  split <;> rfl

theorem schedWaitQueueWait_spec (h : Represents s live place) (hq : live q) :
    (s.currentTask = .bootstrap ∧ schedWaitQueueWait s (some q) = (false, s)) ∨
      ∃ i s', s.currentTask = .slot i ∧ schedWaitQueueWait s (some q) = (true, s') ∧
        s'.waitList q = s.waitList q ++ [i] ∧ (∀ q', q' ≠ q → s'.waitList q' = s.waitList q') ∧
        Represents s' live (update place i (.waiting q)) := by
  rcases h.current with ⟨hboot, _⟩ | ⟨i, hi, hcur, hidx⟩
  · refine .inl ⟨hboot, ?_⟩
    simp only [schedWaitQueueWait, hboot]
  · rcases h.of_current hcur with ⟨_, _, hrun, _⟩
    rcases h.waitqEnqueue hq hi (by simp [hrun]) with ⟨r, henq, hr, hcont⟩
    refine .inr ⟨i, ((s.setQueue q r).setState i .blocked).toBootstrap, hcur, ?_, ?_, ?_,
      h.runningWaits (t := { s.tasks i with state := .blocked }) hcur hq rfl hr hcont⟩
    · simp only [schedWaitQueueWait, hcur]
      rw [if_neg (h.guard hcur), hidx, henq]
    · rw [waitList_of_update (f := s.waitQueues) (r := r) rfl, if_pos rfl, hcont]
    · intro q' hq'
      rw [waitList_of_update (f := s.waitQueues) (r := r) rfl, if_neg hq']
      rfl

/-- The tasks of `l` were waiting first on `q`, and have become ready in this order. -/
structure Woken (s s' : SchedState Q) (q : Q) (l : List ℕ) : Prop where
  tasks : ∀ j, s'.tasks j = if j ∈ l then { s.tasks j with state := .ready } else s.tasks j
  readyList : s'.readyList = s.readyList ++ l
  waitList : s.waitList q = l ++ s'.waitList q
  others : ∀ q', q' ≠ q → s'.waitList q' = s.waitList q'

omit [DecidableEq Q] in
theorem Woken.refl (s : SchedState Q) (q : Q) : Woken s s q [] where
  tasks j := by rw [if_neg not_mem_nil]
  readyList := (append_nil _).symm
  waitList := rfl
  others _ _ := rfl

omit [DecidableEq Q] in
theorem Woken.trans {s' s'' : SchedState Q} {l l' : List ℕ} (h : Woken s s' q l)
    (h' : Woken s' s'' q l') : Woken s s'' q (l ++ l') where
  tasks j := by
    rw [h'.tasks, h.tasks]
    by_cases hj' : j ∈ l'
    · rw [if_pos hj', if_pos (mem_append_right l hj')]
      split <;> rfl
    · rw [if_neg hj']
      by_cases hj : j ∈ l
      · rw [if_pos hj, if_pos (mem_append_left l' hj)]
      · rw [if_neg hj, if_neg]
        rw [mem_append]
        exact not_or.mpr ⟨hj, hj'⟩
  readyList := by rw [h'.readyList, h.readyList, append_assoc]
  waitList := by rw [h.waitList, h'.waitList, append_assoc]
  others q' hq' := (h'.others q' hq').trans (h.others q' hq')

/-- A wake makes the first waiter ready, if there is one. -/
theorem schedWakeOneLocked_spec (h : Represents s live place) (hq : live q) :
    (s.waitList q = [] ∧ schedWakeOneLocked s (some q) = (false, s)) ∨
      ∃ i rest s', s.waitList q = i :: rest ∧ schedWakeOneLocked s (some q) = (true, s') ∧
        Woken s s' q [i] ∧ Represents s' live (update place i .ready) := by
  cases hpop : (s.waitQueues q).pop 128 with
  | none =>
    have hnil : s.waitList q = [] := RingBuffer.pop_eq_none_iff.mp hpop
    refine .inl ⟨hnil, ?_⟩
    have hsize : (s.waitQueues q).size = 0 := by
      have hlen : (s.waitList q).length = (s.waitQueues q).size := RingBuffer.length_contents
      rw [← hlen, hnil]
      rfl
    rw [schedWakeOneLocked, hsize]
    rfl
  | some pair =>
    rcases pair with ⟨i, w⟩
    rcases RingBuffer.pop_contents (h.waitValid q hq) hpop with ⟨hw, hcons⟩
    have hlist : s.waitList q = i :: w.contents 128 := hcons
    have hmem : i ∈ s.waitList q := by rw [hlist]; exact mem_cons_self
    rcases ((h.waiting q hq).mem_iff i).mp hmem with ⟨hi, hplace⟩
    have hblocked : (s.tasks i).state = .blocked := by
      rw [h.state i hi, hplace]
      rfl
    rcases h.enqueue hi (by simp [hplace]) { s.tasks i with state := .ready }
      with ⟨r, henq, hr, hcont⟩
    -- the ready ring does not depend on the wait queues
    have henq' : schedEnqueueTask ((s.setQueue q w).setState i .ready) i =
        some { (s.setQueue q w).setState i .ready with readyQueue := r } := by
      simp only [schedEnqueueTask, Option.map_eq_some_iff] at henq ⊢
      rcases henq with ⟨r', hpush, hstate⟩
      refine ⟨r', hpush, ?_⟩
      have hrr : r' = r := congrArg SchedState.readyQueue hstate
      rw [hrr]
    have hsize : (s.waitQueues q).size = w.size + 1 := by
      have hlen : (s.waitList q).length = (s.waitQueues q).size := RingBuffer.length_contents
      rw [← hlen, hlist, length_cons, RingBuffer.length_contents]
    have hlt : ¬ schedMaxTasks ≤ i := by
      unfold schedMaxTasks
      omega
    refine .inr ⟨i, w.contents 128, { (s.setQueue q w).setState i .ready with
        readyQueue := r, needResched := true }, hlist, ?_, ?_,
      h.waitingReady (t := { s.tasks i with state := .ready }) hq rfl hw hlist hr hcont true⟩
    · have hdeq : schedWaitqDequeue (s.waitQueues q) = some (i, w) := hpop
      simp only [schedWakeOneLocked, hsize, wakeOneLoop, hdeq]
      have hblocked' : ¬ ((s.setQueue q w).tasks i).state ≠ .blocked := not_not.mpr hblocked
      rw [if_neg hlt, if_neg hblocked', henq']
    · refine ⟨?_, hcont, ?_, ?_⟩
      · intro j
        simp only [mem_singleton]
        by_cases hj : j = i
        · subst hj
          rw [if_pos rfl]
          exact update_self _ _ _
        · rw [if_neg hj]
          exact update_of_ne hj _ _
      · rw [hlist, waitList_of_update (f := s.waitQueues) (r := w) rfl, if_pos rfl]
        rfl
      · intro q' hq'
        rw [waitList_of_update (f := s.waitQueues) (r := w) rfl, if_neg hq']
        rfl

/-- The places after all tasks of a list have become ready. -/
def readyAll (l : List ℕ) (place : ℕ → Place Q) : ℕ → Place Q :=
  fun i => if i ∈ l then .ready else place i

omit [DecidableEq Q] in
theorem readyAll_cons (i : ℕ) (l : List ℕ) (place : ℕ → Place Q) :
    readyAll (i :: l) place = readyAll l (update place i .ready) := by
  funext j
  by_cases hji : j = i
  · subst hji
    simp [readyAll]
  · simp [readyAll, hji]

/-- Waking all makes every waiter ready; one round more than there are waiters is enough. -/
theorem wakeAllLoop_spec (l : List ℕ) (woke : ℕ) (h : Represents s live place)
    (hq : live q) (hl : s.waitList q = l) :
    ∃ s', (∀ fuel, l.length < fuel →
        wakeAllLoop (some q) fuel s woke = (woke + l.length, s')) ∧ Woken s s' q l ∧
      Represents s' live (readyAll l place) := by
  induction l generalizing s place woke with
  | nil =>
    rcases schedWakeOneLocked_spec h hq with ⟨_, hwake⟩ | ⟨i, rest, _, hcons, _⟩
    · refine ⟨s, ?_, Woken.refl s q, ?_⟩
      · intro fuel hfuel
        cases fuel with
        | zero => simp at hfuel
        | succ fuel => simp only [wakeAllLoop, hwake, length_nil, Nat.add_zero]
      · have hsame : readyAll [] place = place := by
          funext j
          simp [readyAll]
        rw [hsame]
        exact h
    · rw [hl] at hcons
      simp at hcons
  | cons i l ih =>
    rcases schedWakeOneLocked_spec h hq with ⟨hnil, _⟩ | ⟨i', rest, s₁, hcons, hwake, hwoken, hrep⟩
    · rw [hl] at hnil
      simp at hnil
    · -- the first waiter is woken, and the loop goes on with the others
      rw [hl, cons.injEq] at hcons
      rcases hcons with ⟨rfl, rfl⟩
      have hrest : s₁.waitList q = l := by
        have hwait := hwoken.waitList
        rw [hl, singleton_append, cons.injEq] at hwait
        exact hwait.2.symm
      rcases ih (woke + 1) hrep hrest with ⟨s', hloop, hwoken', hrep'⟩
      refine ⟨s', ?_, hwoken.trans hwoken', ?_⟩
      · intro fuel hfuel
        rw [length_cons] at hfuel
        cases fuel with
        | zero => omega
        | succ fuel =>
          simp only [wakeAllLoop, hwake, hloop fuel (by omega), length_cons]
          congr 1
          omega
      · rw [readyAll_cons]
        exact hrep'

theorem schedWaitQueueWakeAll_spec (h : Represents s live place) (hq : live q) :
    ∃ s', schedWaitQueueWakeAll s (some q) = ((s.waitList q).length, s') ∧
      (∀ fuel, (s.waitList q).length < fuel →
        wakeAllLoop (some q) fuel s 0 = ((s.waitList q).length, s')) ∧
      Woken s s' q (s.waitList q) ∧ Represents s' live (readyAll (s.waitList q) place) := by
  have hfuel : (s.waitList q).length < (s.waitQueues q).size + 1 := by
    simp [SchedState.waitList]
  rcases wakeAllLoop_spec (s.waitList q) 0 h hq rfl with ⟨s', hloop, hwoken, hrep⟩
  rw [Nat.zero_add] at hloop
  exact ⟨s', hloop _ hfuel, hloop, hwoken, hrep⟩

end Queues

end GnuOS.Sched

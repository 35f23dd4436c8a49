import GnuOS.Sched.Accounts
import GnuOS.Syscall.Entry

/-!
# Returning from system calls

User tasks that make system calls, on the scheduler of `sched.c`: a handler may call `sched_yield`,
and the tasks that run meanwhile may make system calls themselves.  All of them use one kernel stack
and one shadow of the user stack pointer, so a call returns with the context of the call that was
entered last.
-/

namespace GnuOS.Syscall

open GnuOS.Lib GnuOS.Lib.Memory GnuOS.Sched Function

variable {Q : Type}

/-! ## The system -/

/-- Where a task is; in a system call, with the number of words that the C code has on the stack. -/
inductive Mode
  | user
  | kernel (depth : ℕ)
  | suspended (depth : ℕ)
  deriving DecidableEq, Repr

/-- The scheduler and the processor, with a history: the registers with which each task made its
last system call, and the task that made the last one of all. -/
structure SyscallSystem (Q : Type) where
  sched : SchedState Q
  cpu : Cpu
  bootstrapContext : TaskContext
  mode : ℕ → Mode
  entered : ℕ → Reg → BitVec 64
  latest : Option ℕ

inductive SyscallOp
  /-- The current task executes `syscall`; these are its registers then, with the return address in
  `rcx` and the flags in `r11`. -/
  | syscall (regs : Reg → BitVec 64)
  /-- The handler calls `sched_yield`. -/
  | yield (clobbered : Reg → BitVec 64) (words : List (BitVec 64))
  /-- The bootstrap task calls `sched_run`. -/
  | run (clobbered : Reg → BitVec 64)
  /-- The handler returns, and the entry code goes on to `sysretq`. -/
  | sysret (clobbered : Reg → BitVec 64) (words : List (BitVec 64))
  /-- The timer interrupt: `sched_tick`, ... -/
  | tick
  /-- ... and `sched_preempt_on_tick`; interrupts are off in system calls. -/
  | preempt (clobbered : Reg → BitVec 64)

/-- The saved registers, the frame and the words of the C code fit on the stack. -/
def FitsStack (words : List (BitVec 64)) : Prop := 8 * (24 + words.length) ≤ syscallStackSize

instance (words : List (BitVec 64)) : Decidable (FitsStack words) := Nat.decLe _ _

/-- `x86_64_context_switch` from task `i` to the bootstrap task. -/
def SyscallSystem.switchOut (y : SyscallSystem Q) (i : ℕ) : SyscallSystem Q :=
  { y with
    sched := y.sched.setTask i { y.sched.tasks i with context := saveContext y.cpu.regs }
    cpu := { y.cpu with regs := loadContext y.cpu.regs y.bootstrapContext } }

/-- `x86_64_context_switch` from the bootstrap task to task `i`. -/
def SyscallSystem.switchIn (y : SyscallSystem Q) (i : ℕ) : SyscallSystem Q :=
  { y with
    bootstrapContext := saveContext y.cpu.regs
    cpu := { y.cpu with regs := loadContext y.cpu.regs (y.sched.tasks i).context } }

/-- A suspended handler goes on with the C frames that it had, as if no other task's call had used
their part of the stack; of the stack, only the frame of the entry is followed. -/
def Mode.resumed : Mode → Mode
  | .suspended depth => .kernel depth
  | mode => mode

namespace SyscallSystem

/-- All tasks are in user mode. -/
def start (s : SchedState Q) (c : Cpu) (syscallStack : BitVec 64) (bootstrapContext : TaskContext)
    (entered : ℕ → Reg → BitVec 64) : SyscallSystem Q :=
  ⟨s, c.fastpathInit syscallStack, bootstrapContext, fun _ => .user, entered, none⟩

/-- The call of `sched_yield` by the handler of task `i`. -/
def execYield (y : SyscallSystem Q) (i depth : ℕ) (clobbered : Reg → BitVec 64)
    (words : List (BitVec 64)) : SyscallSystem Q :=
  let y := { y with sched := schedYield y.sched, cpu := y.cpu.runC depth clobbered words }
  if y.sched.currentTask = .slot i then
    { y with mode := update y.mode i (.kernel words.length) }
  else
    { y.switchOut i with mode := update y.mode i (.suspended words.length) }

/-- The call of `sched_run` by the bootstrap task. -/
def execRun (y : SyscallSystem Q) (clobbered : Reg → BitVec 64) : SyscallSystem Q :=
  let y := { y with sched := (schedRun y.sched).2, cpu := { y.cpu with regs := clobbered } }
  match y.sched.currentTask with
  | .slot i => { y.switchIn i with mode := update y.mode i (y.mode i).resumed }
  | _ => y

/-- The return from the handler of task `i`. -/
def execSysret (y : SyscallSystem Q) (i depth : ℕ) (clobbered : Reg → BitVec 64)
    (words : List (BitVec 64)) : SyscallSystem Q :=
  let c := y.cpu.runC depth clobbered words
  let c := c.setReg .rsp (c.regs .rsp + BitVec.ofNat 64 (8 * words.length))
  { y with cpu := syscallExit c, mode := update y.mode i .user }

/-- The call of `sched_preempt_on_tick` while task `i` is in user mode. -/
def execPreempt (y : SyscallSystem Q) (i : ℕ) (clobbered : Reg → BitVec 64) : SyscallSystem Q :=
  let y := { y with
    sched := (schedPreemptOnTick y.sched).2
    cpu := { y.cpu with regs := clobbered } }
  if y.sched.currentTask = .slot i then y else y.switchOut i

/-- One step; `none` where it is not possible. -/
def exec (y : SyscallSystem Q) : SyscallOp → Option (SyscallSystem Q)
  | .syscall regs =>
    match y.sched.currentTask with
    | .slot i =>
      if y.mode i = .user then
        some { y with
          cpu := syscallEntry { y.cpu with regs := regs }
          mode := update y.mode i (.kernel 0)
          entered := update y.entered i regs
          latest := some i }
      else none
    | _ => none
  | .yield clobbered words =>
    match y.sched.currentTask with
    | .slot i =>
      match y.mode i with
      | .kernel depth =>
        if FitsStack words then some (y.execYield i depth clobbered words) else none
      | _ => none
    | _ => none
  | .run clobbered =>
    if y.sched.currentTask = .bootstrap then some (y.execRun clobbered) else none
  | .sysret clobbered words =>
    match y.sched.currentTask with
    | .slot i =>
      match y.mode i with
      | .kernel depth =>
        if FitsStack words then some (y.execSysret i depth clobbered words) else none
      | _ => none
    | _ => none
  | .tick => some { y with sched := schedTick y.sched }
  | .preempt clobbered =>
    match y.sched.currentTask with
    | .slot i => if y.mode i = .user then some (y.execPreempt i clobbered) else none
    | _ => none

end SyscallSystem

/-! ## The return context -/

/-- The registers that a task must find as they were: the stack pointer, the return address and
flags for `sysretq`, and the callee-saved registers. -/
def contextRegs : List Reg := [.rsp, .rcx, .r11, .rbx, .rbp, .r12, .r13, .r14, .r15]

def SameContext (regs regs' : Reg → BitVec 64) : Prop := ∀ r ∈ contextRegs, regs r = regs' r

instance (regs regs' : Reg → BitVec 64) : Decidable (SameContext regs regs') :=
  inferInstanceAs (Decidable (∀ r ∈ contextRegs, _))

/-! ## The scheduler -/

section
variable {s s' : SchedState Q} {live : Q → Prop} {place : ℕ → Place Q} {i : ℕ}

/-- The functions that are called here keep the contexts of all tasks. -/
def SameContexts (s s' : SchedState Q) : Prop := ∀ i, (s'.tasks i).context = (s.tasks i).context

theorem sameContexts_setTask {t : Task} (h : s'.tasks = update s.tasks i t)
    (ht : t.context = (s.tasks i).context) : SameContexts s s' := by
  intro j
  rw [h]
  by_cases hji : j = i
  · rw [hji, update_self, ht]
  · rw [update_of_ne hji]

theorem schedTick_contexts (s : SchedState Q) : SameContexts s (schedTick s) := by
  unfold schedTick
  simp only
  split
  · split
    · exact sameContexts_setTask rfl rfl
    · exact fun _ => rfl
  · exact fun _ => rfl

section

variable (h : Represents s live place)

include h

/-- A task that stops running leaves the processor to the bootstrap task. -/
theorem currentTask_of_leave {p : Place Q} (hcur : s.currentTask = .slot i)
    (h' : Represents s' live (update place i p)) (hp : p ≠ .running) :
    s'.currentTask = .bootstrap := by
  rcases h'.current with ⟨hboot, _⟩ | ⟨j, hj, hcur', _⟩
  · exact hboot
  · have hrun := (h'.running j hj).mpr hcur'
    by_cases hji : j = i
    · rw [hji, update_self] at hrun
      exact absurd hrun hp
    · rw [update_of_ne hji, h.running j hj, hcur, TaskRef.slot.injEq] at hrun
      exact absurd hrun.symm hji

end

end

/-! ## The invariant -/

/-- The stack and the shadow hold the context of the last system call; the stack pointer of every
task in a system call is where the C code has left it. -/
structure EntryInv (y : SyscallSystem Q) (top : BitVec 64) : Prop where
  represents : ∃ live place, Represents y.sched live place
  stackTop : y.cpu.kernelStackTop = top
  saved : ∀ t, y.latest = some t →
    (∀ k r, pushedRegs[k]? = some r → stackWord y.cpu.mem top k = y.entered t r) ∧
      y.cpu.userRspShadow = y.entered t .rsp
  inside : ∀ i, y.mode i ≠ .user → y.latest ≠ none
  kernel : ∀ i depth, y.mode i = .kernel depth →
    y.sched.currentTask = .slot i ∧ y.cpu.regs .rsp = stackPtr top (24 + depth)
  suspended : ∀ i depth, y.mode i = .suspended depth →
    y.sched.currentTask ≠ .slot i ∧ (y.sched.tasks i).context.rsp = stackPtr top (24 + depth)

section
variable {y y' : SyscallSystem Q} {top : BitVec 64} {i depth : ℕ} {clobbered : Reg → BitVec 64}
  {words : List (BitVec 64)}

theorem EntryInv.start {s : SchedState Q} {live : Q → Prop} {place : ℕ → Place Q}
    (hs : Represents s live place) (c : Cpu) (syscallStack : BitVec 64)
    (bootstrapContext : TaskContext) (entered : ℕ → Reg → BitVec 64) :
    EntryInv (SyscallSystem.start s c syscallStack bootstrapContext entered)
      (syscallStack + BitVec.ofNat 64 syscallStackSize) where
  represents := ⟨live, place, hs⟩
  stackTop := rfl
  saved t ht := absurd ht (by simp [SyscallSystem.start])
  inside i hi := absurd rfl hi
  kernel i depth hi := absurd hi (by simp [SyscallSystem.start])
  suspended i depth hi := absurd hi (by simp [SyscallSystem.start])

/-- The C code leaves the saved registers and the frame alone. -/
theorem runC_spec {c : Cpu} (clobbered : Reg → BitVec 64)
    (hsp : c.regs .rsp = stackPtr top (24 + depth)) (hfits : FitsStack words) :
    (c.runC depth clobbered words).regs .rsp = stackPtr top (24 + words.length) ∧
    ∀ k, k < 24 → stackWord (c.runC depth clobbered words).mem top k = stackWord c.mem top k := by
  have hframe : c.regs .rsp + BitVec.ofNat 64 (8 * depth) = stackPtr top 24 := by
    rw [hsp, stackPtr_add]
  unfold FitsStack syscallStackSize at hfits
  rw [Cpu.runC, hframe]
  constructor
  · simp [stackPtr_stackPtr]
  · intro k hk
    show stackWord (pushWords c.mem (stackPtr top 24) 0 words) top k = _
    rw [pushWords_stackPtr, stackWord_pushWords_of_lt (by omega) (by omega)]

theorem lt_of_pushedRegs {k : ℕ} {r : Reg} (hk : pushedRegs[k]? = some r) : k < 14 :=
  (List.getElem?_eq_some_iff.mp hk).1

section

variable (h : EntryInv y top)

include h

/-- So they are there for the code after the call. -/
theorem EntryInv.saved_runC (clobbered : Reg → BitVec 64) (hi : y.mode i = .kernel depth)
    (hfits : FitsStack words) {t : ℕ} (ht : y.latest = some t) {k : ℕ} {r : Reg}
    (hk : pushedRegs[k]? = some r) :
    stackWord (y.cpu.runC depth clobbered words).mem top k = y.entered t r := by
  have hlt := lt_of_pushedRegs hk
  rw [(runC_spec clobbered (h.kernel i depth hi).2 hfits).2 k (by omega)]
  exact (h.saved t ht).1 k r hk

/-- Only the current task is in the kernel. -/
theorem EntryInv.other_not_kernel (hcur : y.sched.currentTask = .slot i) {j : ℕ} (hji : j ≠ i)
    (d : ℕ) : y.mode j ≠ .kernel d := by
  intro hj
  have hslot := (h.kernel j d hj).1
  rw [hcur, TaskRef.slot.injEq] at hslot
  exact hji hslot.symm

/-- A step that concerns task `i` only: what is to be shown about the other tasks. -/
theorem EntryInv.step_task (i : ℕ) (hrep : ∃ live place, Represents y'.sched live place)
    (htop : y'.cpu.kernelStackTop = top)
    (hsaved : ∀ t, y'.latest = some t → (∀ k r, pushedRegs[k]? = some r →
      stackWord y'.cpu.mem top k = y'.entered t r) ∧ y'.cpu.userRspShadow = y'.entered t .rsp)
    (hlatest : y.latest ≠ none → y'.latest ≠ none)
    (hothers : ∀ j, j ≠ i → y'.mode j = y.mode j ∧ (∀ d, y.mode j ≠ .kernel d) ∧
      (y.sched.currentTask ≠ .slot j → y'.sched.currentTask ≠ .slot j) ∧
      (y'.sched.tasks j).context = (y.sched.tasks j).context)
    (hinside : y'.mode i ≠ .user → y'.latest ≠ none)
    (hkernel : ∀ d, y'.mode i = .kernel d →
      y'.sched.currentTask = .slot i ∧ y'.cpu.regs .rsp = stackPtr top (24 + d))
    (hsuspended : ∀ d, y'.mode i = .suspended d →
      y'.sched.currentTask ≠ .slot i ∧ (y'.sched.tasks i).context.rsp = stackPtr top (24 + d)) :
    EntryInv y' top := by
  refine ⟨hrep, htop, hsaved, ?_, ?_, ?_⟩
  · intro j hj
    by_cases hji : j = i
    · subst hji
      exact hinside hj
    · rw [(hothers j hji).1] at hj
      exact hlatest (h.inside j hj)
  · intro j d hj
    by_cases hji : j = i
    · subst hji
      exact hkernel d hj
    · rw [(hothers j hji).1] at hj
      exact absurd hj ((hothers j hji).2.1 d)
  · intro j d hj
    by_cases hji : j = i
    · subst hji
      exact hsuspended d hj
    · obtain ⟨hmode, _, hcurrent, hcontext⟩ := hothers j hji
      rw [hmode] at hj
      rw [hcontext]
      exact ⟨hcurrent (h.suspended j d hj).1, (h.suspended j d hj).2⟩

theorem EntryInv.syscall (hcur : y.sched.currentTask = .slot i) (regs : Reg → BitVec 64) :
    EntryInv { y with
      cpu := syscallEntry { y.cpu with regs := regs }
      mode := update y.mode i (.kernel 0)
      entered := update y.entered i regs
      latest := some i } top := by
  obtain ⟨hwords, hshadow, htop, hsp⟩ := syscallEntry_spec { y.cpu with regs := regs }
  generalize syscallEntry { y.cpu with regs := regs } = c at hwords hshadow htop hsp ⊢
  simp only [h.stackTop] at hwords hshadow htop hsp
  refine h.step_task i h.represents htop ?_ ?_ ?_ ?_ ?_ ?_
  · intro t ht
    rw [Option.some.injEq] at ht
    subst ht
    simp only [update_self]
    exact ⟨hwords, hshadow⟩
  · exact fun _ => by simp
  · intro j hji
    exact ⟨update_of_ne hji _ _, h.other_not_kernel hcur hji, id, rfl⟩
  · exact fun _ => by simp
  · intro d hd
    simp only [update_self, Mode.kernel.injEq] at hd
    rw [← hd]
    exact ⟨hcur, hsp⟩
  · intro d hd
    simp at hd

theorem EntryInv.yield (hcur : y.sched.currentTask = .slot i) (hi : y.mode i = .kernel depth)
    (hfits : FitsStack words) :
    EntryInv (y.execYield i depth clobbered words) top := by
  obtain ⟨live, place, hrep⟩ := h.represents
  have hrep' : Represents (schedYield y.sched) live (update place i .ready) := by
    rcases schedYield_spec hrep with ⟨hboot, _⟩ | ⟨j, hj, hrep'⟩
    · rw [hcur] at hboot
      exact absurd hboot (by simp)
    · rw [hcur, TaskRef.slot.injEq] at hj
      rw [hj]
      exact hrep'
  have hboot := currentTask_of_leave hrep hcur hrep' (by simp)
  have hcontexts := (Switched.yield hrep).context
  have hsp := (runC_spec clobbered (h.kernel i depth hi).2 hfits).1
  rw [SyscallSystem.execYield]
  simp only
  rw [if_neg (by rw [hboot]; simp)]
  have hgone : ∀ j, (schedYield y.sched).currentTask ≠ .slot j := by
    intro j
    rw [hboot]
    simp
  refine h.step_task i ⟨live, _, hrep'.congr (setTask_same_state rfl) rfl rfl rfl rfl⟩ h.stackTop
    ?_ ?_ ?_ ?_ ?_ ?_
  · intro t ht
    exact ⟨fun k r hk => h.saved_runC clobbered hi hfits ht hk, (h.saved t ht).2⟩
  · exact id
  · intro j hji
    refine ⟨update_of_ne hji _ _, h.other_not_kernel hcur hji, fun _ => hgone j, ?_⟩
    simp only [SyscallSystem.switchOut, SchedState.setTask, update_of_ne hji]
    exact hcontexts j
  · exact fun _ => h.inside i (by simp [hi])
  · intro d hd
    simp at hd
  · intro d hd
    refine ⟨hgone i, ?_⟩
    simp only [update_self, Mode.suspended.injEq] at hd
    rw [← hd, ← hsp]
    simp [SyscallSystem.switchOut, SchedState.setTask, saveContext]

theorem EntryInv.run (hboot : y.sched.currentTask = .bootstrap) (clobbered : Reg → BitVec 64) :
    EntryInv (y.execRun clobbered) top := by
  obtain ⟨live, place, hrep⟩ := h.represents
  have hcontexts := (Switched.run hrep.readyAgrees).context
  have hnone : ∀ j d, y.mode j ≠ .kernel d := by
    intro j d hj
    have hslot := (h.kernel j d hj).1
    rw [hboot] at hslot
    exact absurd hslot (by simp)
  obtain ⟨place', hrep'⟩ : ∃ place', Represents (schedRun y.sched).2 live place' := by
    rcases schedRun_spec hrep with hrun | ⟨i, s', hrun, _, hrep'⟩
    · rw [hrun]
      exact ⟨place, hrep⟩
    · rw [hrun]
      exact ⟨_, hrep'⟩
  rw [SyscallSystem.execRun]
  generalize (schedRun y.sched).2 = s at hrep' hcontexts ⊢
  rcases hrep'.current with ⟨hcur, _⟩ | ⟨i, _, hcur, _⟩
  · -- no task was ready
    simp only [hcur]
    refine ⟨⟨live, place', hrep'⟩, h.stackTop, h.saved, h.inside, ?_, ?_⟩
    · intro j d hj
      exact absurd hj (hnone j d)
    · intro j d hj
      refine ⟨by simp [hcur], ?_⟩
      rw [hcontexts j]
      exact (h.suspended j d hj).2
  · simp only [hcur]
    refine h.step_task i ⟨live, place', hrep'⟩ h.stackTop h.saved id ?_ ?_ ?_ ?_
    · intro j hji
      refine ⟨update_of_ne hji _ _, hnone j, ?_, hcontexts j⟩
      intro _
      show s.currentTask ≠ _
      rw [hcur, ne_eq, TaskRef.slot.injEq]
      exact fun hij => hji hij.symm
    · intro hmode
      apply h.inside i
      intro huser
      simp [huser, Mode.resumed] at hmode
    · -- a task that was suspended finds its stack pointer in its context
      intro d hd
      simp only [update_self] at hd
      cases hmode : y.mode i with
      | user => simp [hmode, Mode.resumed] at hd
      | kernel d' => exact absurd hmode (hnone i d')
      | suspended d' =>
        simp only [hmode, Mode.resumed, Mode.kernel.injEq] at hd
        refine ⟨hcur, ?_⟩
        show (s.tasks i).context.rsp = _
        rw [hcontexts i, ← hd]
        exact (h.suspended i d' hmode).2
    · intro d hd
      simp only [update_self] at hd
      cases hmode : y.mode i <;> simp [hmode, Mode.resumed] at hd

/-- The code after the call gives back the context of the last system call. -/
theorem EntryInv.sysret_regs (clobbered : Reg → BitVec 64) (hi : y.mode i = .kernel depth)
    (hfits : FitsStack words) {t : ℕ} (ht : y.latest = some t) :
    (y.execSysret i depth clobbered words).cpu.mem = (y.cpu.runC depth clobbered words).mem ∧
    (y.execSysret i depth clobbered words).cpu.userRspShadow = y.cpu.userRspShadow ∧
    (y.execSysret i depth clobbered words).cpu.kernelStackTop = top ∧
    SameContext (y.execSysret i depth clobbered words).cpu.regs (y.entered t) := by
  have hsp : (y.cpu.runC depth clobbered words).regs .rsp + BitVec.ofNat 64 (8 * words.length) =
      stackPtr top 24 := by
    rw [(runC_spec clobbered (h.kernel i depth hi).2 hfits).1, stackPtr_add]
  obtain ⟨hmem, hshadow, htop, hrsp, hregs⟩ := @syscallExit_spec
    ((y.cpu.runC depth clobbered words).setReg .rsp
      ((y.cpu.runC depth clobbered words).regs .rsp + BitVec.ofNat 64 (8 * words.length)))
    top (y.entered t) (by simp [Cpu.setReg, hsp])
    (fun k r hk => h.saved_runC clobbered hi hfits ht hk)
  refine ⟨hmem, hshadow, htop.trans h.stackTop, ?_⟩
  intro r hr
  have hcases : r = .rsp ∨ r ∈ pushedRegs := by
    revert r
    decide
  rcases hcases with rfl | hpushed
  · exact hrsp.trans (h.saved t ht).2
  · exact hregs r hpushed

theorem EntryInv.sysret (hcur : y.sched.currentTask = .slot i) (hi : y.mode i = .kernel depth)
    (hfits : FitsStack words) :
    EntryInv (y.execSysret i depth clobbered words) top := by
  obtain ⟨t₀, ht₀⟩ := Option.ne_none_iff_exists'.mp (h.inside i (by simp [hi]))
  obtain ⟨hmem, hshadow, htop, _⟩ := h.sysret_regs clobbered hi hfits ht₀
  refine h.step_task i h.represents htop ?_ ?_ ?_ ?_ ?_ ?_
  · intro t ht
    rw [hmem, hshadow]
    exact ⟨fun k r hk => h.saved_runC clobbered hi hfits ht hk, (h.saved t ht).2⟩
  · exact id
  · intro j hji
    exact ⟨update_of_ne hji _ _, h.other_not_kernel hcur hji, id, rfl⟩
  · exact fun _ => h.inside i (by simp [hi])
  · intro d hd
    simp [SyscallSystem.execSysret] at hd
  · intro d hd
    simp [SyscallSystem.execSysret] at hd

theorem EntryInv.tick :
    EntryInv { y with sched := schedTick y.sched } top := by
  obtain ⟨live, place, hrep⟩ := h.represents
  have hcontexts := schedTick_contexts y.sched
  have hcurrent : (schedTick y.sched).currentTask = y.sched.currentTask := by
    unfold schedTick
    simp only
    split
    · split <;> rfl
    · rfl
  refine ⟨⟨live, place, schedTick_spec hrep⟩, h.stackTop, h.saved, h.inside, ?_, ?_⟩
  · intro j d hj
    simp only [hcurrent]
    exact h.kernel j d hj
  · intro j d hj
    simp only [hcurrent]
    rw [hcontexts j]
    exact h.suspended j d hj

theorem EntryInv.preempt (hcur : y.sched.currentTask = .slot i) (huser : y.mode i = .user)
    (clobbered : Reg → BitVec 64) :
    EntryInv (y.execPreempt i clobbered) top := by
  obtain ⟨live, place, hrep⟩ := h.represents
  have hcontexts := (Switched.preemptOnTick hrep).context
  obtain ⟨place', hrep', hcurrent⟩ : ∃ place',
      Represents (schedPreemptOnTick y.sched).2 live place' ∧
      ((schedPreemptOnTick y.sched).2.currentTask = .slot i ∨
        (schedPreemptOnTick y.sched).2.currentTask = .bootstrap) := by
    rcases schedPreemptOnTick_spec hrep with ⟨_, hrep'⟩ | ⟨j, hj, hrep'⟩
    · obtain ⟨hlt, _, hrunning, _⟩ := hrep.of_current hcur
      exact ⟨place, hrep', .inl ((hrep'.running i hlt).mp hrunning)⟩
    · rw [hcur, TaskRef.slot.injEq] at hj
      subst hj
      exact ⟨_, hrep', .inr (currentTask_of_leave hrep hcur hrep' (by simp))⟩
  rw [SyscallSystem.execPreempt]
  generalize (schedPreemptOnTick y.sched).2 = s at hrep' hcontexts hcurrent ⊢
  have hstays : ∀ j, y.sched.currentTask ≠ .slot j → s.currentTask ≠ .slot j := by
    intro j hne
    rcases hcurrent with hslot | hboot
    · rw [hslot, ← hcur]
      exact hne
    · rw [hboot]
      simp
  simp only
  split
  · refine h.step_task i ⟨live, place', hrep'⟩ h.stackTop h.saved id ?_ ?_ ?_ ?_
    · exact fun j hji => ⟨rfl, h.other_not_kernel hcur hji, hstays j, hcontexts j⟩
    · exact fun hmode => absurd huser hmode
    · exact fun d hd => absurd (huser.symm.trans hd) (by simp)
    · exact fun d hd => absurd (huser.symm.trans hd) (by simp)
  · refine h.step_task i ⟨live, place', hrep'.congr (setTask_same_state rfl) rfl rfl rfl rfl⟩
      h.stackTop h.saved id ?_ ?_ ?_ ?_
    · intro j hji
      refine ⟨rfl, h.other_not_kernel hcur hji, hstays j, ?_⟩
      simp only [SyscallSystem.switchOut, SchedState.setTask, update_of_ne hji]
      exact hcontexts j
    · exact fun hmode => absurd huser hmode
    · exact fun d hd => absurd (huser.symm.trans hd) (by simp)
    · exact fun d hd => absurd (huser.symm.trans hd) (by simp)

/-- Every step keeps the invariant. -/
theorem EntryInv.exec (op : SyscallOp) (hexec : y.exec op = some y') :
    EntryInv y' top := by
  rw [SyscallSystem.exec.eq_def] at hexec
  cases op with
  | syscall regs =>
    cases hcur : y.sched.currentTask with
    | slot i =>
      simp only [hcur, Option.ite_none_right_eq_some, Option.some.injEq] at hexec
      rw [← hexec.2]
      exact h.syscall hcur regs
    | _ => simp [hcur] at hexec
  | yield clobbered words =>
    cases hcur : y.sched.currentTask with
    | slot i =>
      cases hi : y.mode i with
      | kernel depth =>
        simp only [hcur, hi, Option.ite_none_right_eq_some, Option.some.injEq] at hexec
        rw [← hexec.2]
        exact h.yield hcur hi hexec.1
      | _ => simp [hcur, hi] at hexec
    | _ => simp [hcur] at hexec
  | run clobbered =>
    simp only [Option.ite_none_right_eq_some, Option.some.injEq] at hexec
    rw [← hexec.2]
    exact h.run hexec.1 clobbered
  | sysret clobbered words =>
    cases hcur : y.sched.currentTask with
    | slot i =>
      cases hi : y.mode i with
      | kernel depth =>
        simp only [hcur, hi, Option.ite_none_right_eq_some, Option.some.injEq] at hexec
        rw [← hexec.2]
        exact h.sysret hcur hi hexec.1
      | _ => simp [hcur, hi] at hexec
    | _ => simp [hcur] at hexec
  | tick =>
    simp only [Option.some.injEq] at hexec
    rw [← hexec]
    exact h.tick
  | preempt clobbered =>
    cases hcur : y.sched.currentTask with
    | slot i =>
      simp only [hcur, Option.ite_none_right_eq_some, Option.some.injEq] at hexec
      rw [← hexec.2]
      exact h.preempt hcur hexec.1 clobbered
    | _ => simp [hcur] at hexec

/-- So every run does. -/
theorem EntryInv.run_exec {ops : List SyscallOp}
    (hrun : ops.foldlM SyscallSystem.exec y = some y') :
    EntryInv y' top :=
  run_invariant (P := fun y => EntryInv y top) (fun _ op _ h hexec => h.exec op hexec) h hrun

end

/-- A return is possible in a system call only. -/
theorem exec_sysret_eq (hcur : y.sched.currentTask = .slot i)
    (hret : y.exec (.sysret clobbered words) = some y') :
    ∃ depth, y.mode i = .kernel depth ∧ FitsStack words ∧
      y.execSysret i depth clobbered words = y' := by
  simp only [SyscallSystem.exec, hcur] at hret
  cases hi : y.mode i with
  | kernel depth =>
    simp only [hi, Option.ite_none_right_eq_some, Option.some.injEq] at hret
    exact ⟨depth, rfl, hret⟩
  | _ => simp [hi] at hret

end

theorem SameContext.congr_left {regs regs₁ regs₂ : Reg → BitVec 64} (h : SameContext regs regs₁) :
    SameContext regs regs₂ ↔ SameContext regs₁ regs₂ := by
  constructor
  · intro h' r hr
    rw [← h r hr]
    exact h' r hr
  · intro h' r hr
    rw [h r hr]
    exact h' r hr

/-- **System calls return to their callers.**  In every run of tasks that make system calls, yield
in them and are preempted outside of them: the task that returns finds the context with which it
has made its call exactly if the last system call of all was made with that context. -/
theorem syscall_returns_own_iff [DecidableEq Q] (s : SchedState Q) (schedOps : List (SchedOp Q))
    (z : SchedSystem Q) (hsched : schedOps.foldlM SchedSystem.exec (.start s) = some z)
    (c : Cpu) (syscallStack : BitVec 64) (bootstrapContext : TaskContext)
    (entered : ℕ → Reg → BitVec 64) (ops : List SyscallOp) (y : SyscallSystem Q)
    (hrun : ops.foldlM SyscallSystem.exec
      (.start z.sched c syscallStack bootstrapContext entered) = some y)
    (i : ℕ) (hcur : y.sched.currentTask = .slot i) (clobbered : Reg → BitVec 64)
    (words : List (BitVec 64)) (y' : SyscallSystem Q)
    (hret : y.exec (.sysret clobbered words) = some y') :
    ∃ t, y.latest = some t ∧
      (SameContext y'.cpu.regs (y.entered i) ↔ SameContext (y.entered t) (y.entered i)) := by
  obtain ⟨place, hplaced⟩ := placed_run s hsched
  have hstart := EntryInv.start hplaced.represents c syscallStack bootstrapContext entered
  have h := hstart.run_exec hrun
  obtain ⟨depth, hi, hfits, hy'⟩ := exec_sysret_eq hcur hret
  obtain ⟨t, ht⟩ := Option.ne_none_iff_exists'.mp (h.inside i (by simp [hi]))
  obtain ⟨_, _, _, hregs⟩ := h.sysret_regs clobbered hi hfits ht
  rw [hy'] at hregs
  exact ⟨t, ht, hregs.congr_left⟩

/-- Two tasks are created, and the second one has slept on a wait queue while the first one ran. -/
def sleeperWoken : List (SchedOp Unit) :=
  [.waitQueueInit (), .createClaim 0#64 1#64 0#64, .prepareTaskStack 0 0x5000#64, .createReady 0,
    .createClaim 0#64 1#64 0#64, .prepareTaskStack 1 0x6000#64, .createReady 1,
    .run, .tick, .preemptOnTick, .run, .waitQueueWait (some ()), .run, .waitQueueWakeOne (some ())]

/-- The registers of task `n` when it makes a system call. -/
def callRegs (n : ℕ) : Reg → BitVec 64
  | .rsp => BitVec.ofNat 64 (0x7000 + n)
  | .rbx => BitVec.ofNat 64 n
  | .rcx => BitVec.ofNat 64 (0x400000 + n)
  | _ => 0#64

def zeroRegs : Reg → BitVec 64 := fun _ => 0#64

/-- A system call whose handler yields; the C code has two words on the stack then. -/
def yieldingCall (n : ℕ) : List SyscallOp :=
  [.syscall (callRegs n), .yield zeroRegs [0x100#64, 0x200#64], .run zeroRegs]

def zeroCpu : Cpu := ⟨zeroRegs, fun _ => 0#8, 0#64, 0#64⟩

/-- The scheduler after `sleeperWoken`, and no system call so far. -/
def woken (z : SchedSystem Unit) : SyscallSystem Unit :=
  .start z.sched zeroCpu 0x20000#64 ⟨0#64, 0#64, 0#64, 0#64, 0#64, 0#64, 0#64⟩ fun _ => zeroRegs

/-- The states before and after the return that follows the steps. -/
def returnAfter (ops : List SyscallOp) : Option (SyscallSystem Unit × SyscallSystem Unit) :=
  (sleeperWoken.foldlM SchedSystem.exec (.start staleSched)).bind fun z =>
    (ops.foldlM SyscallSystem.exec (woken z)).bind fun y =>
      (y.exec (.sysret zeroRegs [])).map fun y' => (y, y')

/-- Task 0 is suspended in its call; task 1 has made a call since and returns from it. -/
theorem syscall_returns_own_iff_last_caller :
    ∃ y y', returnAfter (yieldingCall 0 ++ yieldingCall 1) = some (y, y') ∧
      y.sched.currentTask = .slot 1 ∧ y.mode 0 = .suspended 2 ∧
      SameContext y'.cpu.regs (y.entered 1) := by
  have heval : (returnAfter (yieldingCall 0 ++ yieldingCall 1)).map
      (fun w => (w.1.sched.currentTask, w.1.mode 0, w.1.latest)) =
        some (.slot 1, .suspended 2, some 1) := by
    decide +kernel
  obtain ⟨⟨y, y'⟩, hafter, hstate⟩ := Option.map_eq_some_iff.mp heval
  simp only [Prod.mk.injEq] at hstate
  obtain ⟨hcur, hmode, hlatest⟩ := hstate
  obtain ⟨z, hsched, hz⟩ := Option.bind_eq_some_iff.mp hafter
  obtain ⟨y₁, hrun, hy₁⟩ := Option.bind_eq_some_iff.mp hz
  obtain ⟨y₁', hret, hpair⟩ := Option.map_eq_some_iff.mp hy₁
  rw [Prod.mk.injEq] at hpair
  obtain ⟨rfl, rfl⟩ := hpair
  obtain ⟨t, ht, hiff⟩ := syscall_returns_own_iff staleSched sleeperWoken z hsched zeroCpu
    0x20000#64 ⟨0#64, 0#64, 0#64, 0#64, 0#64, 0#64, 0#64⟩ (fun _ => zeroRegs)
    (yieldingCall 0 ++ yieldingCall 1) y₁ hrun 1 hcur zeroRegs [] y₁' hret
  rw [hlatest, Option.some.injEq] at ht
  subst ht
  exact ⟨y₁, y₁', hafter, hcur, hmode, hiff.mpr fun _ _ => rfl⟩

/-- Task 1 returns, is preempted, and task 0 returns: to the address and on the stack of task 1. -/
theorem yielding_call_returns_to_other_context :
    ∃ y y', returnAfter (yieldingCall 0 ++ yieldingCall 1 ++
        [.sysret zeroRegs [], .tick, .preempt zeroRegs, .run zeroRegs]) = some (y, y') ∧
      y.sched.currentTask = .slot 0 ∧
      [.rsp, .rcx, .rbx].map (y.entered 0) = [0x7000#64, 0x400000#64, 0#64] ∧
      [.rsp, .rcx, .rbx].map y'.cpu.regs = [0x7001#64, 0x400001#64, 1#64] := by
  have heval : (returnAfter (yieldingCall 0 ++ yieldingCall 1 ++
      [.sysret zeroRegs [], .tick, .preempt zeroRegs, .run zeroRegs])).map
      (fun w => (w.1.sched.currentTask, [.rsp, .rcx, .rbx].map (w.1.entered 0),
        [.rsp, .rcx, .rbx].map w.2.cpu.regs)) =
      some (.slot 0, [0x7000#64, 0x400000#64, 0#64], [0x7001#64, 0x400001#64, 1#64]) := by
    decide +kernel
  obtain ⟨⟨y, y'⟩, hafter, hstate⟩ := Option.map_eq_some_iff.mp heval
  simp only [Prod.mk.injEq] at hstate
  exact ⟨y, y', hafter, hstate⟩

end GnuOS.Syscall

import GnuOS.Syscall.Seccomp

/-!
# Dispatching syscalls

A model of `kernel/syscall/syscall.c`.  A handler is an address; what the code at an address does
to the kernel is a parameter, so that a handler may do anything, to the filter and to the table of
handlers too.

The dispatcher asks the filter after its own test of the number, so the filter decides about the
numbers of the table only.  For a number outside the table the filter reports its default action,
and the dispatcher does not act on it.
-/

namespace GnuOS.Syscall

def syscallEnosys : BitVec 64 := -38#64
def syscallEperm : BitVec 64 := -1#64

/-! ## The functions -/

/-- The kernel as far as the dispatcher reads it, and the rest `σ`.  `currentTask` is the `tid` of
the running task, `none` for `NULL`. -/
structure Kernel (σ : Type*) where
  seccomp : SeccompState
  syscallTable : ℕ → BitVec 64
  currentTask : Option (BitVec 64)
  rest : σ

structure SyscallArgs where
  arg0 : BitVec 64
  arg1 : BitVec 64
  arg2 : BitVec 64
  arg3 : BitVec 64
  arg4 : BitVec 64
  arg5 : BitVec 64
  deriving DecidableEq, Repr

structure SyscallFastpathFrame where
  number : BitVec 64
  args : SyscallArgs
  userRip : BitVec 64
  userRflags : BitVec 64
  userRsp : BitVec 64
  deriving DecidableEq, Repr

/-- What a call of the handler at an address does. -/
abbrev Code (σ : Type*) := BitVec 64 → SyscallArgs → Kernel σ → BitVec 64 × Kernel σ

section

variable {σ : Type*} (code : Code σ)

/-- The registered handler is called, if there is one. -/
def callHandler (k : Kernel σ) (number : BitVec 64) (args : SyscallArgs) :
    BitVec 64 × Kernel σ :=
  if k.syscallTable number.toNat = 0#64 then (syscallEnosys, k)
  else code (k.syscallTable number.toNat) args k

def syscallDispatch (k : Kernel σ) (number : BitVec 64) (args : SyscallArgs) :
    BitVec 64 × Kernel σ :=
  if syscallMaxEntries ≤ number.toNat then (syscallEnosys, k)
  else
    let tid := k.currentTask.getD 0#64
    let action := seccompGetSyscallAction k.seccomp number
    if action = seccompActionErrno then
      (syscallEperm,
        { k with seccomp := seccompAuditRecord k.seccomp tid number action syscallEperm })
    else
      match callHandler code k number args with
      | (result, k) =>
        if action = seccompActionLog then
          (result, { k with seccomp := seccompAuditRecord k.seccomp tid number action result })
        else (result, k)

def syscallDispatchFastpath (k : Kernel σ) : Option SyscallFastpathFrame → BitVec 64 × Kernel σ
  | none => (syscallEnosys, k)
  | some frame => syscallDispatch code k frame.number frame.args

/-- The table has 512 entries: a number outside has no handler. -/
def runHandler (k : Kernel σ) (number : BitVec 64) (args : SyscallArgs) : BitVec 64 × Kernel σ :=
  if syscallMaxEntries ≤ number.toNat then (syscallEnosys, k) else callHandler code k number args

end

/-! ## What the filter asks for -/

section

variable {σ : Type*} (code : Code σ) (k : Kernel σ) (number : BitVec 64) (args : SyscallArgs)

/-- The outcome `r` of a syscall is the one that the reported action asks for. -/
structure Filtered (r : BitVec 64 × Kernel σ) : Prop where
  /-- No handler runs: the kernel differs in the log of the filter only. -/
  errno : seccompGetSyscallAction k.seccomp number = seccompActionErrno →
    r.1 = syscallEperm ∧ r.2 = { k with seccomp := r.2.seccomp } ∧
      Appended k.seccomp r.2.seccomp (k.currentTask.getD 0#64) number seccompActionErrno
        syscallEperm
  /-- The handler runs once, and its result is logged. -/
  log : seccompGetSyscallAction k.seccomp number = seccompActionLog →
    r.1 = (runHandler code k number args).1 ∧
      r.2 = { (runHandler code k number args).2 with seccomp := r.2.seccomp } ∧
      Appended (runHandler code k number args).2.seccomp r.2.seccomp (k.currentTask.getD 0#64)
        number seccompActionLog r.1
  /-- The handler runs once, and nothing else happens. -/
  allow : seccompGetSyscallAction k.seccomp number = seccompActionAllow →
    r = runHandler code k number args

variable {code k number args}

theorem filtered_of_lt (hlt : number.toNat < syscallMaxEntries) :
    Filtered code k number args (syscallDispatch code k number args) := by
  have hnot : ¬ syscallMaxEntries ≤ number.toNat := Nat.not_le.mpr hlt
  have hrun : runHandler code k number args = callHandler code k number args := if_neg hnot
  unfold syscallDispatch
  rw [if_neg hnot]
  simp only
  constructor
  · intro haction
    rw [haction, if_pos rfl]
    have hvalid : seccompActionValid seccompActionErrno = true := by decide
    exact ⟨rfl, rfl, appended_record hvalid _ _ _ _⟩
  · intro haction
    have hne : seccompActionLog ≠ seccompActionErrno := by decide
    have hvalid : seccompActionValid seccompActionLog = true := by decide
    rw [haction, if_neg hne, hrun, if_pos rfl]
    exact ⟨rfl, rfl, appended_record hvalid _ _ _ _⟩
  · intro haction
    have hne : seccompActionAllow ≠ seccompActionErrno := by decide
    have hne' : seccompActionAllow ≠ seccompActionLog := by decide
    rw [haction, if_neg hne, hrun]
    simp only [hne', if_false]

/-- Outside the table the dispatcher returns at once. -/
theorem filtered_of_ge (hge : syscallMaxEntries ≤ number.toNat) :
    Filtered code k number args (syscallDispatch code k number args) ↔
      k.seccomp.defaultAction ≠ seccompActionErrno ∧
        k.seccomp.defaultAction ≠ seccompActionLog := by
  have hdispatch : syscallDispatch code k number args = (syscallEnosys, k) := if_pos hge
  have hrun : runHandler code k number args = (syscallEnosys, k) := if_pos hge
  have haction : seccompGetSyscallAction k.seccomp number = k.seccomp.defaultAction :=
    if_neg fun h => Nat.not_lt.mpr hge h.1
  rw [hdispatch]
  constructor
  · intro hfiltered
    constructor
    · intro herrno
      have hevent := (hfiltered.errno (haction.trans herrno)).2.2
      exact hevent.ne rfl
    · intro hlog
      have hevent := (hfiltered.log (haction.trans hlog)).2.2
      rw [hrun] at hevent
      exact hevent.ne rfl
  · intro hdefault
    refine ⟨?_, ?_, fun _ => hrun.symm⟩
    · intro herrno
      exact absurd (haction.symm.trans herrno) hdefault.1
    · intro hlog
      exact absurd (haction.symm.trans hlog) hdefault.2

end

/-- The filter is applied and audited as it reports exactly for the numbers of the table, and for
all other numbers as long as the default is to allow them. -/
theorem syscall_filter_uniform_iff {σ : Type*} (code : Code σ) (k : Kernel σ)
    (frame : SyscallFastpathFrame) :
    (Filtered code k frame.number frame.args
        (syscallDispatch code k frame.number frame.args) ∧
      Filtered code k frame.number frame.args
        (syscallDispatchFastpath code k (some frame))) ↔
      frame.number.toNat < 512 ∨ (k.seccomp.defaultAction ≠ seccompActionErrno ∧
        k.seccomp.defaultAction ≠ seccompActionLog) := by
  have hfast : syscallDispatchFastpath code k (some frame) =
      syscallDispatch code k frame.number frame.args := rfl
  rw [hfast, and_self]
  by_cases hlt : frame.number.toNat < syscallMaxEntries
  · simp only [filtered_of_lt hlt, true_iff]
    exact .inl hlt
  · have hnot : ¬ frame.number.toNat < 512 := hlt
    rw [filtered_of_ge (Nat.le_of_not_lt hlt)]
    simp only [hnot, false_or]

/-- A kernel in which every syscall is refused unless the filter says otherwise, without
handlers. -/
def errnoKernel : Kernel Unit where
  seccomp := seccompSetDefaultAction seccompInit seccompActionErrno
  syscallTable := fun _ => 0#64
  currentTask := some 7#64
  rest := ()

def frameOf (number : BitVec 64) : SyscallFastpathFrame :=
  ⟨number, ⟨0#64, 0#64, 0#64, 0#64, 0#64, 0#64⟩, 0#64, 0#64, 0#64⟩

theorem syscall_filter_uniform_iff_in_table :
    (syscallDispatch (fun _ _ k => (0#64, k)) errnoKernel 511#64 (frameOf 511#64).args).1 =
      syscallEperm := by
  have hfiltered := ((syscall_filter_uniform_iff (fun _ _ k => (0#64, k)) errnoKernel
    (frameOf 511#64)).mpr (.inl (by decide))).1
  exact (hfiltered.errno (by decide)).1

/-- Syscall 512 under a default of `ERRNO`: the result is `ENOSYS`, and nothing is logged. -/
theorem number_outside_table_not_filtered :
    seccompGetSyscallAction errnoKernel.seccomp 512#64 = seccompActionErrno ∧
    (syscallDispatch (fun _ _ k => (0#64, k)) errnoKernel 512#64 (frameOf 512#64).args).1 =
      syscallEnosys ∧
    (syscallDispatch (fun _ _ k => (0#64, k)) errnoKernel 512#64
      (frameOf 512#64).args).2.seccomp.auditTotal = 0#64 ∧
    ¬ Filtered (fun _ _ k => (0#64, k)) errnoKernel 512#64 (frameOf 512#64).args
      (syscallDispatch (fun _ _ k => (0#64, k)) errnoKernel 512#64 (frameOf 512#64).args) := by
  refine ⟨by decide, by decide, by decide, ?_⟩
  intro hfiltered
  have hresult := (hfiltered.errno (by decide)).1
  exact absurd hresult (by decide)

end GnuOS.Syscall

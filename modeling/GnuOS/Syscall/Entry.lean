import GnuOS.Lib.Stack
import GnuOS.Sched.Basic

/-!
# The system call entry

A model of `kernel/arch/x86_64/syscall/entry.S`, `x86_64_context_switch` and the two globals of
`fastpath.c`: the instructions as functions on the registers and the memory.  The saved registers
are on the kernel stack when the C code is called, and the code after the call takes the return
context from that stack and from `g_x86_64_syscall_user_rsp_shadow`, whatever put it there.
-/

namespace GnuOS.Syscall

open GnuOS.Lib GnuOS.Lib.Memory GnuOS.Sched Function List

/-! ## Model -/

inductive Reg
  | rax | rbx | rcx | rdx | rsi | rdi | rbp | rsp | r8 | r9 | r10 | r11 | r12 | r13 | r14 | r15
  deriving DecidableEq, Repr

structure Cpu where
  regs : Reg → BitVec 64
  mem : Memory
  /-- `g_x86_64_syscall_kernel_stack_top` -/
  kernelStackTop : BitVec 64
  /-- `g_x86_64_syscall_user_rsp_shadow` -/
  userRspShadow : BitVec 64

/-- `X86_SYSCALL_STACK_SIZE` -/
def syscallStackSize : ℕ := 16384

namespace Cpu

def setReg (c : Cpu) (r : Reg) (v : BitVec 64) : Cpu :=
  { c with regs := update c.regs r v }

def pushq (c : Cpu) (r : Reg) : Cpu :=
  { c with
    regs := update c.regs .rsp (c.regs .rsp - 8#64)
    mem := c.mem.store (c.regs .rsp - 8#64) 8 (c.regs r).toNat }

def popq (c : Cpu) (r : Reg) : Cpu :=
  let value := BitVec.ofNat 64 (c.mem.load (c.regs .rsp) 8)
  { c with regs := update (update c.regs r value) .rsp (c.regs .rsp + 8#64) }

/-- `movq r, offset(%rsp)` -/
def movqToStack (c : Cpu) (offset : ℕ) (r : Reg) : Cpu :=
  { c with mem := c.mem.store (c.regs .rsp + BitVec.ofNat 64 offset) 8 (c.regs r).toNat }

/-- The assignments of `x86_64_syscall_fastpath_init` to the two globals. -/
def fastpathInit (c : Cpu) (syscallStack : BitVec 64) : Cpu :=
  { c with
    kernelStackTop := syscallStack + BitVec.ofNat 64 syscallStackSize
    userRspShadow := 0#64 }

end Cpu

/-- The registers pushed by `x86_64_syscall_entry`, in order. -/
def pushedRegs : List Reg :=
  [.rcx, .r11, .rbx, .rbp, .r12, .r13, .r14, .r15, .rdi, .rsi, .rdx, .r8, .r9, .r10]

/-- The registers popped, in order. -/
def poppedRegs : List Reg :=
  [.r10, .r9, .r8, .rdx, .rsi, .rdi, .r15, .r14, .r13, .r12, .rbp, .rbx, .r11, .rcx]

/-- The fields of `syscall_fastpath_frame_t` that are stored from registers. -/
def frameFields : List (ℕ × Reg) :=
  [(0, .rax), (8, .rdi), (16, .rsi), (24, .rdx), (32, .r10), (40, .r8), (48, .r9), (56, .rcx),
    (64, .r11)]

/-- `x86_64_syscall_entry`, up to the call. -/
def syscallEntry (c : Cpu) : Cpu :=
  let c := { c with userRspShadow := c.regs .rsp }
  let c := c.setReg .rsp c.kernelStackTop
  let c := pushedRegs.foldl Cpu.pushq c
  let c := c.setReg .rsp (c.regs .rsp - 80#64)
  let c := frameFields.foldl (fun c field => c.movqToStack field.1 field.2) c
  let c := c.setReg .rax c.userRspShadow
  let c := c.movqToStack 72 .rax
  c.setReg .rdi (c.regs .rsp)

/-- `x86_64_syscall_entry`, from the return of the call to `sysretq`. -/
def syscallExit (c : Cpu) : Cpu :=
  let c := c.setReg .rsp (c.regs .rsp + 80#64)
  let c := poppedRegs.foldl Cpu.popq c
  c.setReg .rsp c.userRspShadow

/-- The stores of `x86_64_context_switch`. -/
def saveContext (regs : Reg → BitVec 64) : TaskContext :=
  ⟨regs .rsp, regs .rbx, regs .rbp, regs .r12, regs .r13, regs .r14, regs .r15⟩

/-- The loads of `x86_64_context_switch`. -/
def loadContext (regs : Reg → BitVec 64) (context : TaskContext) : Reg → BitVec 64
  | .rsp => context.rsp
  | .rbx => context.rbx
  | .rbp => context.rbp
  | .r12 => context.r12
  | .r13 => context.r13
  | .r14 => context.r14
  | .r15 => context.r15
  | r => regs r

/-- Compiled C code called by the entry: it has `depth` words on the stack, and goes on until it has
pushed the given words instead.  It leaves the stack above it alone, and may change every
register.  Its own words below are taken as intact even if another task's call has overwritten them
since it last ran. -/
def Cpu.runC (c : Cpu) (depth : ℕ) (clobbered : Reg → BitVec 64) (words : List (BitVec 64)) : Cpu :=
  let frame := c.regs .rsp + BitVec.ofNat 64 (8 * depth)
  { c with
    regs := update clobbered .rsp (stackPtr frame words.length)
    mem := pushWords c.mem frame 0 words }

/-! ## The registers on the stack -/

theorem poppedRegs_eq : poppedRegs = pushedRegs.reverse := rfl

section
variable {c : Cpu} {top : BitVec 64} {k : ℕ} {regs : List Reg} {value : Reg → BitVec 64}

theorem foldl_pushq (hsp : c.regs .rsp = stackPtr top k) (hregs : .rsp ∉ regs) :
    regs.foldl Cpu.pushq c =
      { c with
        regs := update c.regs .rsp (stackPtr top (k + regs.length))
        mem := pushWords c.mem top k (regs.map c.regs) } := by
  induction regs generalizing c k with
  | nil =>
    rw [length_nil, Nat.add_zero, ← hsp, update_eq_self]
    rfl
  | cons r regs ih =>
    rw [mem_cons, not_or] at hregs
    have hnext : stackPtr top k - 8#64 = stackPtr top (k + 1) := stackPtr_sub top k 1
    have hpush : c.pushq r = { c with
        regs := update c.regs .rsp (stackPtr top (k + 1))
        mem := c.mem.store (stackPtr top (k + 1)) 8 (c.regs r).toNat } := by
      rw [Cpu.pushq, hsp, hnext]
    have hmap : regs.map (update c.regs .rsp (stackPtr top (k + 1))) =
        regs.map c.regs := by
      apply map_congr_left
      intro r' hr'
      rw [update_of_ne]
      rintro rfl
      exact hregs.2 hr'
    have hrest := @ih { c with
      regs := update c.regs .rsp (stackPtr top (k + 1))
      mem := c.mem.store (stackPtr top (k + 1)) 8 (c.regs r).toNat } (k + 1)
      (by simp) hregs.2
    simp only [hmap, update_idem] at hrest
    rw [foldl_cons, hpush, hrest, length_cons,
      show k + 1 + regs.length = k + (regs.length + 1) by omega]
    rfl

/-- Popping in the reverse order gives each register its word. -/
theorem foldl_popq (hsp : c.regs .rsp = stackPtr top (k + regs.length)) (hrsp : .rsp ∉ regs)
    (hnodup : regs.Nodup)
    (hwords : ∀ j r, regs[j]? = some r → stackWord c.mem top (k + j) = value r) :
    ∃ regs', regs.reverse.foldl Cpu.popq c = { c with regs := regs' } ∧
      regs' .rsp = stackPtr top k ∧ ∀ r ∈ regs, regs' r = value r := by
  induction regs generalizing k with
  | nil => exact ⟨c.regs, rfl, hsp, fun r hr => absurd hr not_mem_nil⟩
  | cons r regs ih =>
    rw [mem_cons, not_or] at hrsp
    rw [nodup_cons] at hnodup
    obtain ⟨regs', hfold, hsp', hvalues⟩ := ih (k := k + 1)
      (by rw [hsp, length_cons]; congr 1; omega) hrsp.2 hnodup.2 (by
        intro j r' hj
        rw [show k + 1 + j = k + (j + 1) by omega]
        exact hwords (j + 1) r' hj)
    have hword : BitVec.ofNat 64 (c.mem.load (stackPtr top (k + 1)) 8) = value r := hwords 0 r rfl
    have hpop : ({ c with regs := regs' } : Cpu).popq r = { c with
        regs := update (update regs' r (value r)) .rsp (stackPtr top k) } := by
      simp only [Cpu.popq, hsp', hword]
      rw [show stackPtr top (k + 1) + 8#64 = stackPtr top k from stackPtr_add top k 1]
    refine ⟨update (update regs' r (value r)) .rsp (stackPtr top k), ?_,
      by simp, ?_⟩
    · rw [reverse_cons, foldl_append, hfold, foldl_cons, foldl_nil, hpop]
    · intro r' hr'
      have hne : r' ≠ .rsp := by
        rintro rfl
        exact (mem_cons.mp hr').elim hrsp.1 hrsp.2
      rw [update_of_ne hne]
      by_cases heq : r' = r
      · rw [heq, update_self]
      · rw [update_of_ne heq]
        exact hvalues r' ((mem_cons.mp hr').resolve_left heq)

/-- The frame lies below the saved registers. -/
theorem foldl_movqToStack {fields : List (ℕ × Reg)} (hsp : c.regs .rsp = stackPtr top 24)
    (hfields : ∀ field ∈ fields, ∃ j, j < 10 ∧ field.1 = 8 * j) :
    ∃ mem', fields.foldl (fun c field => c.movqToStack field.1 field.2) c = { c with mem := mem' } ∧
      ∀ k, k < 14 → stackWord mem' top k = stackWord c.mem top k := by
  induction fields generalizing c with
  | nil => exact ⟨c.mem, rfl, fun _ _ => rfl⟩
  | cons field fields ih =>
    rw [forall_mem_cons] at hfields
    obtain ⟨⟨j, hj, hoffset⟩, hrest⟩ := hfields
    obtain ⟨mem', hfold, hwords⟩ := @ih (c.movqToStack field.1 field.2) hsp hrest
    refine ⟨mem', hfold, ?_⟩
    intro k hk
    have haddr : c.regs .rsp + BitVec.ofNat 64 field.1 = stackPtr top (23 - j + 1) := by
      rw [hsp, hoffset, ← stackPtr_add top (23 - j + 1) j,
        show 23 - j + 1 + j = 24 by omega]
    have hmem : (c.movqToStack field.1 field.2).mem =
        c.mem.store (c.regs .rsp + BitVec.ofNat 64 field.1) 8 (c.regs field.2).toNat := rfl
    rw [hwords k hk, hmem, haddr, stackWord_store_of_ne _ (by omega) (by omega) (by omega)]

/-- What the code before the call leaves on the stack and in the shadow. -/
theorem syscallEntry_spec (c : Cpu) :
    (∀ k r, pushedRegs[k]? = some r →
      stackWord (syscallEntry c).mem c.kernelStackTop k = c.regs r) ∧
    (syscallEntry c).userRspShadow = c.regs .rsp ∧
    (syscallEntry c).kernelStackTop = c.kernelStackTop ∧
    (syscallEntry c).regs .rsp = stackPtr c.kernelStackTop 24 := by
  have hpush := @foldl_pushq
    ({ c with userRspShadow := c.regs .rsp }.setReg .rsp c.kernelStackTop) c.kernelStackTop 0
    pushedRegs (by simp [Cpu.setReg, stackPtr_zero]) (by decide)
  have hmap : pushedRegs.map (update c.regs .rsp c.kernelStackTop) =
      pushedRegs.map c.regs := by
    apply map_congr_left
    intro r hr
    rw [update_of_ne]
    rintro rfl
    exact absurd hr (by decide)
  simp only [Cpu.setReg, hmap, update_idem] at hpush
  have hframe : stackPtr c.kernelStackTop 14 - 80#64 = stackPtr c.kernelStackTop 24 :=
    stackPtr_sub c.kernelStackTop 14 10
  -- the registers are pushed; now the frame is filled
  obtain ⟨mem₁, hfields, hwords₁⟩ := @foldl_movqToStack
    ⟨update c.regs .rsp (stackPtr c.kernelStackTop 24),
      pushWords c.mem c.kernelStackTop 0 (pushedRegs.map c.regs), c.kernelStackTop, c.regs .rsp⟩
    c.kernelStackTop frameFields (by simp) (by decide)
  obtain ⟨mem₂, hshadow, hwords₂⟩ := @foldl_movqToStack
    ⟨update (update c.regs .rsp (stackPtr c.kernelStackTop 24)) .rax
        (c.regs .rsp),
      mem₁, c.kernelStackTop, c.regs .rsp⟩
    c.kernelStackTop [(72, .rax)] (by simp) (by decide)
  have hentry : syscallEntry c = ⟨update (update (update c.regs .rsp
      (stackPtr c.kernelStackTop 24)) .rax (c.regs .rsp)) .rdi (stackPtr c.kernelStackTop 24),
      mem₂, c.kernelStackTop, c.regs .rsp⟩ := by
    simp only [foldl_cons, foldl_nil] at hshadow
    simp only [syscallEntry, Cpu.setReg, hpush, update_self, update_idem,
      show 0 + pushedRegs.length = 14 from rfl, hframe, hfields, hshadow]
    simp
  rw [hentry]
  refine ⟨?_, rfl, rfl, by simp⟩
  intro k r hk
  have hlt : k < 14 := (List.getElem?_eq_some_iff.mp hk).1
  have hpushed : stackWord (pushWords c.mem c.kernelStackTop 0 (pushedRegs.map c.regs))
      c.kernelStackTop (0 + k) = c.regs r := by
    apply stackWord_pushWords (by rw [length_map]; decide)
    rw [getElem?_map, hk]
    rfl
  rw [Nat.zero_add] at hpushed
  show stackWord mem₂ c.kernelStackTop k = c.regs r
  rw [hwords₂ k hlt, hwords₁ k hlt, hpushed]

/-- What the code after the call gives back. -/
theorem syscallExit_spec (hsp : c.regs .rsp = stackPtr top 24)
    (hwords : ∀ k r, pushedRegs[k]? = some r → stackWord c.mem top k = value r) :
    (syscallExit c).mem = c.mem ∧ (syscallExit c).userRspShadow = c.userRspShadow ∧
    (syscallExit c).kernelStackTop = c.kernelStackTop ∧
    (syscallExit c).regs .rsp = c.userRspShadow ∧
    ∀ r ∈ pushedRegs, (syscallExit c).regs r = value r := by
  have hframe : stackPtr top 24 + 80#64 = stackPtr top 14 := stackPtr_add top 14 10
  obtain ⟨regs', hfold, _, hvalues⟩ := @foldl_popq
    (c.setReg .rsp (c.regs .rsp + 80#64)) top 0 pushedRegs value
    (by simp [Cpu.setReg, hsp, hframe, pushedRegs]) (by decide) (by decide) (by
      intro j r hj
      rw [Nat.zero_add]
      exact hwords j r hj)
  rw [← poppedRegs_eq] at hfold
  have hexit : syscallExit c = { c with
      regs := update regs' .rsp c.userRspShadow } := by
    rw [syscallExit, hfold]
    rfl
  rw [hexit]
  refine ⟨rfl, rfl, rfl, by simp, ?_⟩
  intro r hr
  have hne : r ≠ .rsp := by
    rintro rfl
    exact absurd hr (by decide)
  show update regs' .rsp c.userRspShadow r = _
  rw [update_of_ne hne, hvalues r hr]

end

end GnuOS.Syscall

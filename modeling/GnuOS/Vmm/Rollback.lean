import GnuOS.Vmm.KernelHeap

/-!
# A failed heap allocation

When `vmm_alloc_kernel_pages` fails half way, it unmaps the pages it has mapped and gives their
frames back.  The heap window may lie anywhere, and pages in it may be mapped already.
-/

namespace GnuOS.Vmm

open GnuOS.Lib GnuOS.Pmm List

/-- Where the heap is: nowhere before `vmm_init`, not at address 0 after it.  A heap at address 0
could hand out the address 0, which is `NULL`. -/
def HeapPlaced {σ : Type} (s : VmmState σ) : Prop :=
  s.pml4 ≠ 0#64 → s.kernelLayout.kernelHeapBase ≠ 0#64

theorem heapPlaced_vmmInit {σ : Type} {s : VmmState σ} {cr3 : BitVec 64}
    (h : (vmmInit s cr3).1 = true) : HeapPlaced (vmmInit s cr3).2 := by
  intro _
  rw [(vmmInit_heap h).1]
  decide

/-- The failed call from `s` to `s'` has left nothing behind but page tables. -/
structure RolledBack (s s' : VmmState PmmState) : Prop where
  wellFormed : WellFormed pmmAllocator s' ∧ Good s'.pmm
  next : s'.kernelHeapNext = s.kernelHeapNext
  mappings : ∀ x, vmmQueryMapping s' x = vmmQueryMapping s x
  frames : ∀ p, IsFree s'.pmm p ↔ IsFree s.pmm p ∧ ¬ s'.tables p

section Call

variable {s : VmmState PmmState} {base : BitVec 64}

theorem HalfWay.rolledBack {s' : VmmState PmmState} (h : HalfWay base [] s s' [] []) :
    RolledBack s s' where
  wellFormed := ⟨h.wellFormed, h.loan.stock.good⟩
  next := (Prod.mk.inj (Prod.mk.inj h.heap).2).1
  mappings x := h.other x fun _ _ hi => absurd hi not_mem_nil
  frames p := by
    rw [h.loan.account]
    simp

/-- A call of `vmm_alloc_kernel_pages` that returns `NULL` leaves `g_kernel_heap_next` and every
mapping as they were, and has given back every frame that it does not use for a page table. -/
theorem failed_heap_alloc_rolls_back (hwf : WellFormed pmmAllocator s) (hG : Good s.pmm)
    (hheap : HeapPlaced s) (pageCount flags : BitVec 64)
    (hnull : (vmmAllocKernelPages pmmAllocator s pageCount flags).1 = 0#64) :
    RolledBack s (vmmAllocKernelPages pmmAllocator s pageCount flags).2 := by
  have hsame : RolledBack s s := (HalfWay.start 0#64 hwf (hwf.stock hG)).rolledBack
  unfold vmmAllocKernelPages at hnull ⊢
  simp only at hnull ⊢
  split_ifs at hnull ⊢ with hcount hpml4 hsize hsum hrange hcurrent
  iterate 5
    · exact hsame
  · exact (loops_halfWay hwf (hwf.stock hG) s.kernelHeapNext flags
      (requestedBytes_check.mp (not_not.mp hsize))).rolledBack
  · -- a call that succeeds returns an address of the heap, which is not 0
    have hplaced := hheap hpml4
    rw [not_or, BitVec.not_lt, show s.kernelHeapNext = 0#64 from hnull] at hrange
    exact absurd (BitVec.le_zero_iff.mp hrange.1) hplaced

end Call

/-- The small machine has seven free pages: ten pages are too many, and two of the seven are page
tables afterwards. -/
theorem failed_heap_alloc_rolls_back_smallMachine :
    (vmmAllocKernelPages pmmAllocator (bootState smallMachine 0x200000#64) 10#64 0#64).1 = 0#64 ∧
    RolledBack (bootState smallMachine 0x200000#64)
      (vmmAllocKernelPages pmmAllocator (bootState smallMachine 0x200000#64) 10#64 0#64).2 := by
  have hnull : (vmmAllocKernelPages pmmAllocator (bootState smallMachine 0x200000#64)
      10#64 0#64).1 = 0#64 := by decide +kernel
  refine ⟨hnull, failed_heap_alloc_rolls_back
    (bootState_wellFormed smallMachine_base smallMachine_supplies) ?_ ?_ _ _ hnull⟩
  · exact good_pmmInit 0x1000000#64 0x8000#64
  · exact heapPlaced_vmmInit rfl

end GnuOS.Vmm

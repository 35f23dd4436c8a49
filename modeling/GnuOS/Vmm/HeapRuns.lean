import GnuOS.Vmm.KernelHeap

/-!
# The kernel heap over runs

After `vmm_init`, the calls of `vmm_alloc_kernel_pages` in any order, with calls of
`pmm_alloc_page` by others between them.  The ranges that were returned lie one behind the other in
the heap, and no two of their pages share a frame.
-/

namespace GnuOS.Vmm

open GnuOS.Pmm List

/-! ## Runs -/

/-- What a successful call was asked for and has returned. -/
structure KernelRange where
  start : BitVec 64
  pageCount : BitVec 64
  deriving DecidableEq, Repr

namespace KernelRange

/-- The address behind the range, as a number: it does not wrap. -/
def stop (r : KernelRange) : ℕ := r.start.toNat + r.pageCount.toNat * 4096

def page (r : KernelRange) (i : ℕ) : BitVec 64 := heapPage r.start i

end KernelRange

/-- The memory manager, and the ranges returned so far, oldest first. -/
structure HeapSystem where
  vmm : VmmState PmmState
  ranges : List KernelRange

inductive HeapOp
  | allocKernelPages (pageCount flags : BitVec 64)
  /-- Someone else calls `pmm_alloc_page`. -/
  | allocPage

namespace HeapSystem

def start (vmm : VmmState PmmState) : HeapSystem := ⟨vmm, []⟩

def step (y : HeapSystem) : HeapOp → HeapSystem
  | .allocKernelPages pageCount flags =>
    match vmmAllocKernelPages pmmAllocator y.vmm pageCount flags with
    | (start, vmm) =>
      if start = 0#64 then { y with vmm := vmm }
      else { vmm := vmm, ranges := y.ranges ++ [⟨start, pageCount⟩] }
  | .allocPage => { y with vmm := { y.vmm with pmm := (pmmAllocPage y.vmm.pmm).2 } }

def run (y : HeapSystem) (ops : List HeapOp) : HeapSystem := ops.foldl step y

theorem run_append (y : HeapSystem) (pre post : List HeapOp) :
    y.run (pre ++ post) = (y.run pre).run post :=
  foldl_append

end HeapSystem

/-- The ranges are aligned, inside the heap and apart; their pages are mapped writable to frames
that are distinct and not tables. -/
structure RangesApart (y : HeapSystem) : Prop where
  aligned : ∀ r ∈ y.ranges, r.start.toNat % 4096 = 0
  inside : ∀ r ∈ y.ranges, y.vmm.kernelLayout.kernelHeapBase.toNat ≤ r.start.toNat ∧
    r.stop ≤ y.vmm.kernelLayout.kernelHeapBase.toNat + y.vmm.kernelLayout.kernelHeapSize.toNat
  disjoint : y.ranges.Pairwise fun r r' => r.stop ≤ r'.start.toNat
  mapped : ∀ r ∈ y.ranges, ∀ i < r.pageCount.toNat, ∃ p flags,
    vmmQueryMapping y.vmm (r.page i) = some (p, flags) ∧ flags &&& vmmMapWritable ≠ 0#64 ∧
      IsFrame p ∧ ¬ y.vmm.tables p
  distinct : ∀ r ∈ y.ranges, ∀ i < r.pageCount.toNat, ∀ r' ∈ y.ranges, ∀ j < r'.pageCount.toNat,
    vmmTranslate y.vmm (r.page i) = vmmTranslate y.vmm (r'.page j) → r.page i = r'.page j

/-! ## The invariant -/

/-- The ranges are made of pages of the heap, `frames` are the frames of these pages. -/
structure HeapRun (y : HeapSystem) (frames : List (BitVec 64)) : Prop where
  heap : KernelHeap y.vmm frames
  placed : ∀ r ∈ y.ranges, ∃ k, r.start = heapPage y.vmm.kernelLayout.kernelHeapBase k ∧
    k + r.pageCount.toNat ≤ frames.length
  disjoint : y.ranges.Pairwise fun r r' => r.stop ≤ r'.start.toNat

theorem kernelHeap_vmmInit {s : VmmState PmmState} {cr3 : BitVec 64}
    (hinit : (vmmInit s cr3).1 = true) (htree : WellFormed pmmAllocator (vmmInit s cr3).2)
    (hG : Good s.pmm) : KernelHeap (vmmInit s cr3).2 [] := by
  rcases vmmInit_heap hinit with ⟨hbase, hsize, hlimit, hnext⟩
  rw [← vmmInit_pmm s cr3] at hG
  refine ⟨htree, htree.stock hG, by simp, ?_, ?_, ?_, ?_, ?_, ?_⟩
  · rw [hbase]
    rfl
  · rw [hbase]
    decide
  · rw [hnext, hbase, length_nil, heapPage_zero]
  · rw [hbase, hlimit]
    decide
  · rw [hbase, hsize, hlimit]
    rfl
  · rw [hlimit]
    decide

namespace HeapRun

variable {y : HeapSystem} {frames : List (BitVec 64)} {vmm : VmmState PmmState}

theorem start (h : KernelHeap vmm []) :
    HeapRun (HeapSystem.start vmm) [] :=
  ⟨h, by simp [HeapSystem.start], List.Pairwise.nil⟩

section

variable (h : HeapRun y frames)

include h

theorem start_toNat {r : KernelRange} (hr : r ∈ y.ranges) :
    ∃ k, r.start = heapPage y.vmm.kernelLayout.kernelHeapBase k ∧
      k + r.pageCount.toNat ≤ frames.length ∧
      r.start.toNat = y.vmm.kernelLayout.kernelHeapBase.toNat + k * 4096 := by
  rcases h.placed r hr with ⟨k, hstart, hk⟩
  refine ⟨k, hstart, hk, ?_⟩
  rw [hstart]
  exact h.heap.page_toNat (Nat.le_of_add_right_le hk)

theorem stop_le {r : KernelRange} (hr : r ∈ y.ranges) :
    r.stop ≤ y.vmm.kernelHeapNext.toNat := by
  rcases h.start_toNat hr with ⟨k, _, hk, hstart⟩
  rw [KernelRange.stop, hstart, h.heap.next_toNat, Nat.add_assoc, ← Nat.add_mul]
  exact Nat.add_le_add_left (Nat.mul_le_mul_right _ hk) _

/-- A step that leaves the pages and the globals. -/
theorem keep (hkept : KernelHeap vmm frames) (hsame : vmm.heap = y.vmm.heap) :
    HeapRun { y with vmm := vmm } frames ∧ y.vmm.kernelHeapNext ≤ vmm.kernelHeapNext := by
  simp only [VmmState.heap, Prod.mk.injEq] at hsame
  refine ⟨⟨hkept, ?_, h.disjoint⟩, ?_⟩
  · rw [hsame.1]
    exact h.placed
  · rw [hsame.2.1]
    exact BitVec.le_refl _

/-- A step that adds a range behind the others. -/
theorem add {pageCount : BitVec 64} {new : List (BitVec 64)}
    (hheap : KernelHeap vmm (frames ++ new)) (hlayout : vmm.kernelLayout = y.vmm.kernelLayout)
    (hnew : new.length = pageCount.toNat) :
    HeapRun ⟨vmm, y.ranges ++ [⟨y.vmm.kernelHeapNext, pageCount⟩]⟩ (frames ++ new) ∧
      y.vmm.kernelHeapNext ≤ vmm.kernelHeapNext := by
  refine ⟨⟨hheap, ?_, ?_⟩, ?_⟩
  · intro r hr
    rw [hlayout, length_append, hnew]
    rcases mem_append.mp hr with hr | hr
    · rcases h.placed r hr with ⟨k, hstart, hk⟩
      exact ⟨k, hstart, hk.trans (Nat.le_add_right _ _)⟩
    · rw [mem_singleton] at hr
      subst hr
      exact ⟨frames.length, h.heap.next, Nat.le_refl _⟩
  · rw [pairwise_append]
    refine ⟨h.disjoint, pairwise_singleton _ _, ?_⟩
    intro r hr r' hr'
    rw [mem_singleton] at hr'
    rw [hr']
    exact h.stop_le hr
  · rw [BitVec.le_def, h.heap.next_toNat, hheap.next_toNat, hlayout, length_append]
    exact Nat.add_le_add_left (Nat.mul_le_mul_right _ (Nat.le_add_right _ _)) _

theorem step (op : HeapOp) :
    ∃ frames', HeapRun (y.step op) frames' ∧
      y.vmm.kernelHeapNext ≤ (y.step op).vmm.kernelHeapNext := by
  cases op with
  | allocKernelPages pageCount flags =>
    match hr : vmmAllocKernelPages pmmAllocator y.vmm pageCount flags with
    | (start, vmm) =>
      rw [HeapSystem.step, hr]
      simp only
      rcases h.heap.alloc pageCount flags start vmm hr with
        ⟨rfl, hkept, hsame⟩ | ⟨rfl, hlayout, new, hnew, hheap⟩
      · rw [if_pos rfl]
        exact ⟨frames, h.keep hkept hsame⟩
      · simp only [h.heap.next_ne_zero, if_false]
        exact ⟨frames ++ new, h.add hheap hlayout hnew⟩
  | allocPage => exact ⟨frames, h.keep h.heap.request rfl⟩

theorem run (ops : List HeapOp) :
    ∃ frames', HeapRun (y.run ops) frames' ∧
      y.vmm.kernelHeapNext ≤ (y.run ops).vmm.kernelHeapNext := by
  induction ops generalizing y frames with
  | nil => exact ⟨frames, h, BitVec.le_refl _⟩
  | cons op ops ih =>
    rcases h.step op with ⟨frames₁, hstep, hle⟩
    rcases ih hstep with ⟨frames₂, hrun, hle'⟩
    exact ⟨frames₂, hrun, BitVec.le_trans hle hle'⟩

/-- Page `i` of a range is a page of the heap, with its own frame. -/
theorem page {r : KernelRange} (hr : r ∈ y.ranges) {i : ℕ} (hi : i < r.pageCount.toNat) :
    ∃ k p, r.page i = heapPage y.vmm.kernelLayout.kernelHeapBase k ∧ frames[k]? = some p ∧
      MapsWritable y.vmm (r.page i) p := by
  rcases h.placed r hr with ⟨k, hstart, hk⟩
  have hlt : k + i < frames.length := Nat.lt_of_lt_of_le (Nat.add_lt_add_left hi k) hk
  have hpage : r.page i = heapPage y.vmm.kernelLayout.kernelHeapBase (k + i) := by
    rw [KernelRange.page, hstart, ← heapPage_add]
    rfl
  have hget : frames[k + i]? = some frames[k + i] := getElem?_eq_getElem hlt
  refine ⟨k + i, frames[k + i], hpage, hget, ?_⟩
  rw [hpage]
  exact h.heap.mapped (k + i) _ hget

theorem rangesApart : RangesApart y := by
  have hstock := h.heap.stock
  refine ⟨?_, ?_, h.disjoint, ?_, ?_⟩
  · intro r hr
    rcases h.start_toNat hr with ⟨k, _, _, hstart⟩
    rw [hstart, Nat.add_mul_mod_self_right]
    exact h.heap.aligned
  · intro r hr
    rcases h.start_toNat hr with ⟨k, _, _, hstart⟩
    refine ⟨hstart ▸ Nat.le_add_right _ _, ?_⟩
    calc r.stop ≤ y.vmm.kernelHeapNext.toNat := h.stop_le hr
      _ = _ := h.heap.next_toNat
      _ ≤ y.vmm.kernelHeapLimit.toNat := h.heap.inside
      _ = _ := h.heap.limit
  · intro r hr i hi
    rcases h.page hr hi with ⟨k, p, _, hget, flags, hquery, hwritable⟩
    have hmem : p ∈ frames := mem_of_getElem? hget
    exact ⟨p, flags, hquery, hwritable, hstock.frame p hmem, hstock.noTable p hmem⟩
  · intro r hr i hi r' hr' j hj heq
    rcases h.page hr hi with ⟨k, p, hpage, hget, hmaps⟩
    rcases h.page hr' hj with ⟨k', p', hpage', hget', hmaps'⟩
    rw [hmaps.translate, hmaps'.translate, Option.some.injEq] at heq
    have hlt : k < frames.length := (List.getElem?_eq_some_iff.mp hget).1
    have hk : k = k' := (getElem?_inj hlt hstock.nodup).mp (hget.trans (heq ▸ hget'.symm))
    rw [hpage, hpage', hk]

end

end HeapRun

/-! ## The kernel heap never hands out a page or a frame twice -/

/-- A request whose size in bytes or whose end does not fit in 64 bits is refused. -/
def RefusesWrap (vmm : VmmState PmmState) : Prop :=
  ∀ pageCount flags : BitVec 64, 2 ^ 64 ≤ pageCount.toNat * 4096 ∨
      2 ^ 64 ≤ vmm.kernelHeapNext.toNat + pageCount.toNat * 4096 →
    vmmAllocKernelPages pmmAllocator vmm pageCount flags = (0#64, vmm)

/-- In every run after `vmm_init` the ranges are apart and their pages have their own frames, no
size wraps without the request being refused, and `g_kernel_heap_next` never decreases. -/
theorem heap_run_never_aliases (s : VmmState PmmState) (cr3 base memorySize : BitVec 64)
    (pmmOps : List PmmOp) (ops : List HeapOp)
    (hpmm : s.pmm = Pmm.runOps (pmmInit base memorySize) pmmOps)
    (hinit : (vmmInit s cr3).1 = true) (htree : WellFormed pmmAllocator (vmmInit s cr3).2) :
    RangesApart ((HeapSystem.start (vmmInit s cr3).2).run ops) ∧
      RefusesWrap ((HeapSystem.start (vmmInit s cr3).2).run ops).vmm ∧
      ∀ pre post, ops = pre ++ post →
        ((HeapSystem.start (vmmInit s cr3).2).run pre).vmm.kernelHeapNext ≤
          ((HeapSystem.start (vmmInit s cr3).2).run ops).vmm.kernelHeapNext := by
  have hG : Good s.pmm := by
    rw [hpmm]
    exact (good_runOps (good_pmmInit base memorySize) pmmOps).1
  have hstart := HeapRun.start (kernelHeap_vmmInit hinit htree hG)
  refine ⟨?_, fun pageCount flags hwrap => vmmAllocKernelPages_wrap hwrap, ?_⟩
  · rcases hstart.run ops with ⟨frames, hrun, _⟩
    exact hrun.rangesApart
  · rintro pre post rfl
    rcases hstart.run pre with ⟨frames, hrun, _⟩
    rcases hrun.run post with ⟨_, _, hle⟩
    rw [HeapSystem.run_append]
    exact hle

/-- The small machine runs out of pages in the third call, which gives back what it took. -/
def rollbackRun : List HeapOp :=
  [.allocKernelPages 2#64 0#64, .allocPage, .allocKernelPages 10#64 vmmMapUser,
    .allocKernelPages 1#64 0#64]

theorem heap_run_never_aliases_rollback :
    ((HeapSystem.start (bootState smallMachine 0x200000#64)).run rollbackRun).ranges =
      [⟨0x44200000#64, 2#64⟩, ⟨0x44202000#64, 1#64⟩] ∧
    RangesApart ((HeapSystem.start (bootState smallMachine 0x200000#64)).run rollbackRun) := by
  have htree := bootState_wellFormed smallMachine_base smallMachine_supplies
  rw [bootState] at htree ⊢
  have hapart := heap_run_never_aliases _ _ 0x1000000#64 0x8000#64 [] rollbackRun rfl rfl htree
  exact ⟨by decide +kernel, hapart.1⟩

end GnuOS.Vmm

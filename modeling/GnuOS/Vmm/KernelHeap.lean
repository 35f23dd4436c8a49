import GnuOS.Vmm.HeapPages

/-!
# One call of `vmm_alloc_kernel_pages`

The heap grows in one direction: between two calls its pages are those from the heap base up to
`g_kernel_heap_next`, each with a frame of its own.  A call adds all the pages it was asked for, or
takes back those it had added; a request whose size does not fit in 64 bits is refused.
-/

namespace GnuOS.Vmm

open GnuOS.Pmm List
open BitVec hiding not_or

/-! ## The size of a request -/

section Size

variable {count : BitVec 64}

/-- The division finds out whether the product wrapped. -/
theorem requestedBytes_check : count * mmPageSize / mmPageSize = count ↔
    count.toNat * 4096 < 2 ^ 64 := by
  have hcount := count.isLt
  rw [← toNat_inj, toNat_udiv, toNat_mul]
  have hsize : mmPageSize.toNat = 4096 := rfl
  rw [hsize]
  omega

theorem requestedBytes_toNat (h : count.toNat * 4096 < 2 ^ 64) :
    (count * mmPageSize).toNat = count.toNat * 4096 := by
  rw [toNat_mul]
  exact Nat.mod_eq_of_lt h

theorem requestedBytes_eq : count * mmPageSize = BitVec.ofNat 64 (count.toNat * 4096) := by
  apply eq_of_toNat_eq
  rw [toNat_mul, toNat_ofNat]
  rfl

/-- The comparison finds out whether the sum would wrap. -/
theorem heapEnd_check {start bytes : BitVec 64} :
    allOnes 64 - bytes < start ↔ 2 ^ 64 ≤ start.toNat + bytes.toNat := by
  have hstart := start.isLt
  have hbytes := bytes.isLt
  have hall : (allOnes 64).toNat = 2 ^ 64 - 1 := by decide
  have hle : bytes ≤ allOnes 64 := by
    rw [le_def, hall]
    omega
  rw [lt_def, toNat_sub_of_le hle, hall]
  omega

/-- A request whose size or end does not fit in 64 bits is refused and changes nothing. -/
theorem vmmAllocKernelPages_wrap {σ : Type} {A : PageAllocator σ} {s : VmmState σ}
    {flags : BitVec 64} (h : 2 ^ 64 ≤ count.toNat * 4096 ∨
      2 ^ 64 ≤ s.kernelHeapNext.toNat + count.toNat * 4096) :
    vmmAllocKernelPages A s count flags = (0#64, s) := by
  unfold vmmAllocKernelPages
  split
  · rfl
  split
  · rfl
  simp only
  by_cases hfit : count.toNat * 4096 < 2 ^ 64
  · rw [if_neg (not_not.mpr (requestedBytes_check.mpr hfit)), if_pos]
    rw [heapEnd_check, requestedBytes_toNat hfit]
    omega
  · rw [if_pos (fun heq => hfit (requestedBytes_check.mp heq))]

end Size

/-! ## The heap between two calls -/

/-- What holds between two calls: the pages of the heap are those up to `g_kernel_heap_next`, and
`frames` are their frames, which are distinct, not free and not tables. -/
structure KernelHeap (s : VmmState PmmState) (frames : List (BitVec 64)) : Prop where
  wellFormed : WellFormed pmmAllocator s
  stock : Stock s.pmm s.tables frames
  mapped : ∀ k p, frames[k]? = some p →
    MapsWritable s (heapPage s.kernelLayout.kernelHeapBase k) p
  aligned : s.kernelLayout.kernelHeapBase.toNat % 4096 = 0
  nonzero : s.kernelLayout.kernelHeapBase ≠ 0#64
  next : s.kernelHeapNext = heapPage s.kernelLayout.kernelHeapBase frames.length
  inside : s.kernelLayout.kernelHeapBase.toNat + frames.length * 4096 ≤ s.kernelHeapLimit.toNat
  limit : s.kernelHeapLimit.toNat =
    s.kernelLayout.kernelHeapBase.toNat + s.kernelLayout.kernelHeapSize.toNat
  low : s.kernelHeapLimit.toNat ≤ 2 ^ 48

theorem vmmInit_heap {σ : Type} {s : VmmState σ} {cr3 : BitVec 64}
    (h : (vmmInit s cr3).1 = true) :
    (vmmInit s cr3).2.kernelLayout.kernelHeapBase = 0x44200000#64 ∧
      (vmmInit s cr3).2.kernelLayout.kernelHeapSize = 0x10000000#64 ∧
      (vmmInit s cr3).2.kernelHeapLimit = 0x54200000#64 ∧
      (vmmInit s cr3).2.kernelHeapNext = 0x44200000#64 := by
  unfold vmmInit at h ⊢
  by_cases hpml4 : cr3 &&& vmmPhysMask = 0#64
  · simp [hpml4] at h
  · simp only [hpml4, if_false]
    exact ⟨rfl, rfl, rfl, rfl⟩

namespace KernelHeap

variable {s s' : VmmState PmmState} {frames : List (BitVec 64)} {base pageCount : BitVec 64}

section

variable (h : KernelHeap s frames)

include h

theorem page_toNat {k : ℕ} (hk : k ≤ frames.length) :
    (heapPage s.kernelLayout.kernelHeapBase k).toNat =
      s.kernelLayout.kernelHeapBase.toNat + k * 4096 := by
  apply heapPage_toNat
  refine Nat.lt_of_le_of_lt ?_ (Nat.lt_of_le_of_lt (h.inside.trans h.low) (by decide))
  exact Nat.add_le_add_left (Nat.mul_le_mul_right _ hk) _

theorem next_toNat :
    s.kernelHeapNext.toNat = s.kernelLayout.kernelHeapBase.toNat + frames.length * 4096 := by
  rw [h.next]
  exact h.page_toNat (Nat.le_refl _)

theorem next_ne_zero : s.kernelHeapNext ≠ 0#64 := by
  intro hzero
  have hnext := h.next_toNat
  rw [hzero] at hnext
  exact h.nonzero (eq_of_toNat_eq (Nat.eq_zero_of_add_eq_zero_right hnext.symm))

/-- Someone else takes a frame. -/
theorem request : KernelHeap { s with pmm := (pmmAllocPage s.pmm).2 } frames where
  wellFormed := ⟨h.wellFormed.unshared, h.wellFormed.aligned, h.stock.request.supplies⟩
  stock := h.stock.request
  mapped := h.mapped
  aligned := h.aligned
  nonzero := h.nonzero
  next := h.next
  inside := h.inside
  limit := h.limit
  low := h.low

/-- The pages that the mapping loop has added. -/
theorem grow {new : List (BitVec 64)}
    (hloop : HalfWay s.kernelLayout.kernelHeapBase frames s s' (pagesFrom frames.length new) [])
    (hinside : s.kernelLayout.kernelHeapBase.toNat + (frames.length + new.length) * 4096 ≤
      s.kernelHeapLimit.toNat) :
    KernelHeap { s' with
      kernelHeapNext := heapPage s.kernelLayout.kernelHeapBase (frames.length + new.length) }
      (frames ++ new) := by
  have hheap := hloop.heap
  simp only [VmmState.heap, Prod.mk.injEq] at hheap
  rcases hheap with ⟨hlayout, _, hlimit⟩
  have hstock := hloop.loan.stock
  rw [pagesFrom_snd, append_nil] at hstock
  refine ⟨⟨hloop.wellFormed.unshared, hloop.wellFormed.aligned, hloop.wellFormed.supply⟩,
    hstock.perm perm_append_comm, ?_, ?_, ?_, ?_, ?_, ?_, ?_⟩
  all_goals simp only [hlayout, hlimit, length_append]
  · intro k p hk
    rw [getElem?_append] at hk
    split at hk
    · -- a page that was mapped before is none of those that could be mapped
      obtain ⟨flags, hquery, hwritable⟩ := h.mapped k p hk
      refine ⟨flags, (hloop.other _ fun i q hi hsame => ?_).trans hquery, hwritable⟩
      rw [hloop.fresh i q hi _ hsame] at hquery
      cases hquery
    · exact hloop.mapped k p (mem_pagesFrom.mpr ⟨by omega, hk⟩)
  · exact h.aligned
  · exact h.nonzero
  · exact hinside
  · exact h.limit
  · exact h.low

/-- A call that fails leaves the pages and the globals as they were. -/
theorem rolledBack (hloops : HalfWay base frames s s' [] []) :
    KernelHeap s' frames ∧ s'.heap = s.heap := by
  have hheap := hloops.heap
  simp only [VmmState.heap, Prod.mk.injEq] at hheap
  rcases hheap with ⟨hlayout, hnext, hlimit⟩
  refine ⟨⟨hloops.wellFormed, hloops.loan.stock, ?_, ?_, ?_, ?_, ?_, ?_, ?_⟩, hloops.heap⟩
  all_goals simp only [hlayout, hlimit, hnext]
  · intro k p hk
    rw [MapsWritable, hloops.other _ fun _ _ hi => absurd hi not_mem_nil]
    exact h.mapped k p hk
  · exact h.aligned
  · exact h.nonzero
  · exact h.next
  · exact h.inside
  · exact h.limit
  · exact h.low

/-- The end of the request, when the checks of the size have passed. -/
theorem request_fits (hsize : pageCount * mmPageSize / mmPageSize = pageCount)
    (hsum : ¬ allOnes 64 - pageCount * mmPageSize < s.kernelHeapNext)
    (hlimit : ¬ s.kernelHeapLimit < s.kernelHeapNext + pageCount * mmPageSize) :
    s.kernelLayout.kernelHeapBase.toNat + (frames.length + pageCount.toNat) * 4096 ≤
      s.kernelHeapLimit.toNat := by
  have hbytes := requestedBytes_toNat (requestedBytes_check.mp hsize)
  rw [heapEnd_check, hbytes, h.next_toNat, Nat.not_le] at hsum
  rw [lt_def, toNat_add, hbytes, h.next_toNat, Nat.mod_eq_of_lt hsum,
    Nat.not_lt] at hlimit
  rw [Nat.add_mul, ← Nat.add_assoc]
  exact hlimit

/-- The mapping loop has reached the end of a request that fits. -/
theorem mapped_all
    (hfits : s.kernelLayout.kernelHeapBase.toNat + (frames.length + pageCount.toNat) * 4096 ≤
      s.kernelHeapLimit.toNat) (flags current : BitVec 64)
    (hr : allocKernelPagesLoop pmmAllocator flags pageCount.toNat s.kernelHeapNext s =
      (current, s'))
    (hcurrent : current = s.kernelHeapNext + pageCount * mmPageSize) :
    s'.kernelLayout = s.kernelLayout ∧ ∃ new : List (BitVec 64), new.length = pageCount.toNat ∧
      KernelHeap { s' with kernelHeapNext := current } (frames ++ new) := by
  have hloop := allocKernelPagesLoop_halfWay flags pageCount.toNat frames.length
    (HalfWay.start s.kernelLayout.kernelHeapBase h.wellFormed h.stock)
  rw [← h.next, hr] at hloop
  rcases hloop with ⟨new, hlength, rfl, hloop⟩
  have hfits' : ∀ n ≤ pageCount.toNat,
      s.kernelLayout.kernelHeapBase.toNat + (frames.length + n) * 4096 < 2 ^ 64 := by
    intro n hn
    refine Nat.lt_of_le_of_lt ?_ (Nat.lt_of_le_of_lt (hfits.trans h.low) (by decide))
    exact Nat.add_le_add_left (Nat.mul_le_mul_right _ (Nat.add_le_add_left hn _)) _
  rw [h.next, requestedBytes_eq, heapPage_add] at hcurrent
  have hcount : new.length = pageCount.toNat := Nat.add_left_cancel
    (heapPage_injective (hfits' _ hlength) (hfits' _ (Nat.le_refl _)) hcurrent)
  refine ⟨(Prod.mk.inj hloop.heap).1, new, hcount, h.grow hloop ?_⟩
  rw [hcount]
  exact hfits

/-- A call fails and changes nothing but the tables and the page allocator, or it adds as many
pages as it was asked for. -/
theorem alloc (pageCount flags start : BitVec 64) (s' : VmmState PmmState)
    (hr : vmmAllocKernelPages pmmAllocator s pageCount flags = (start, s')) :
    (start = 0#64 ∧ KernelHeap s' frames ∧ s'.heap = s.heap) ∨
      (start = s.kernelHeapNext ∧ s'.kernelLayout = s.kernelLayout ∧
        ∃ new : List (BitVec 64),
          new.length = pageCount.toNat ∧ KernelHeap s' (frames ++ new)) := by
  unfold vmmAllocKernelPages at hr
  simp only at hr
  split_ifs at hr with hcount hpml4 hsize hsum hrange hcurrent
  iterate 5
    · cases hr
      exact .inl ⟨rfl, h, rfl⟩
  all_goals
    rw [not_ne_iff] at hsize
    rw [not_or] at hrange
    cases hr
  · exact .inl ⟨rfl, h.rolledBack (loops_halfWay h.wellFormed h.stock s.kernelHeapNext flags
      (requestedBytes_check.mp hsize))⟩
  · have hall := h.mapped_all (h.request_fits hsize hsum hrange.2) flags _ rfl
      (not_ne_iff.mp hcurrent)
    exact .inr ⟨rfl, hall⟩

end

end KernelHeap

end GnuOS.Vmm

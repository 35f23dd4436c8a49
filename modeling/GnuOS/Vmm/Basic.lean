import GnuOS.Pmm.Basic

/-!
# The virtual memory manager

A model of `kernel/mm/vmm.c`.  Physical memory is seen as the code sees it, through the
identity mapping: a table is named by its physical address and has 512 entries.  The page
allocator is a parameter, since the code uses it only through `pmm_alloc_page` and
`pmm_free_page`; `pmmAllocator` is the one the kernel links.

A function that returns 0 or 1 and fills in an out parameter returns an `Option` here, together
with the state it leaves.  The TLB invalidation and the serial log change nothing that the
functions of this file read, and are left out.
-/

namespace GnuOS.Vmm

/-! ## Constants -/

def vmmIndexMask : BitVec 64 := 0x1FF#64
def vmmPagePresent : BitVec 64 := 0x001#64
def vmmPageWritable : BitVec 64 := 0x002#64
def vmmPageUser : BitVec 64 := 0x004#64
def vmmPageSize : BitVec 64 := 0x080#64
def vmmPhysMask : BitVec 64 := 0x000FFFFFFFFFF000#64
def vmmPageOffsetMask : BitVec 64 := 0xFFF#64
def vmmHuge2mSize : BitVec 64 := 0x200000#64
def vmmHuge2mOffsetMask : BitVec 64 := vmmHuge2mSize - 1#64
def vmmHuge2mBaseMask : BitVec 64 := vmmPhysMask &&& ~~~vmmHuge2mOffsetMask

def vmmMapWritable : BitVec 64 := 1#64 <<< 1
def vmmMapUser : BitVec 64 := 1#64 <<< 2
def vmmMapNx : BitVec 64 := 1#64 <<< 63

def vmmKaslrWindowBase : BitVec 64 := 0x40000000#64
def vmmKaslrWindowSize : BitVec 64 := 0x20000000#64
def vmmKernelImageMaxSize : BitVec 64 := 0x4000000#64
def vmmKernelHeapGuardSize : BitVec 64 := vmmHuge2mSize
def vmmKernelHeapSize : BitVec 64 := 0x10000000#64

def mmPageSize : BitVec 64 := 4096#64

/-! ## State -/

/-- The page allocator, as far as this file uses it; the address 0 is `NULL`. -/
structure PageAllocator (σ : Type) where
  allocPage : σ → BitVec 64 × σ
  freePage : σ → BitVec 64 → σ

/-- The kernel's own page allocator. -/
def pmmAllocator : PageAllocator Pmm.PmmState where
  allocPage := Pmm.pmmAllocPage
  freePage := Pmm.pmmFreePage

/-- Tables in memory: address of the table, index, entry. -/
abbrev Tables := BitVec 64 → Fin 512 → BitVec 64

/-- `vmm_kernel_layout_t` -/
structure KernelLayout where
  kaslrWindowBase : BitVec 64
  kaslrWindowSize : BitVec 64
  kaslrSlide : BitVec 64
  kernelImageBase : BitVec 64
  kernelImageSize : BitVec 64
  kernelHeapBase : BitVec 64
  kernelHeapSize : BitVec 64

/-- The globals of `vmm.c`, the memory behind them and the state of the page allocator. -/
structure VmmState (σ : Type) where
  mem : Tables
  pml4 : BitVec 64
  kernelLayout : KernelLayout
  kernelHeapNext : BitVec 64
  kernelHeapLimit : BitVec 64
  pmm : σ

/-- The store `table[index] = entry`. -/
def write (mem : Tables) (table : BitVec 64) (index : Fin 512) (entry : BitVec 64) : Tables :=
  fun t i => if t = table ∧ i = index then entry else mem t i

/-- The loop `for (i = 0; i < 512; i++) table[i] = entry(i)`. -/
def writeAll (mem : Tables) (table : BitVec 64) (entry : Fin 512 → BitVec 64) : Tables :=
  (List.finRange 512).foldl (fun m i => write m table i (entry i)) mem

/-! ## Indices and entries -/

/-- Nine bits of an address, from bit `shift` on. -/
def tableIndex (shift : ℕ) (virtAddr : BitVec 64) : Fin 512 :=
  ⟨((virtAddr >>> shift) &&& vmmIndexMask).toNat, by
    have h : ((virtAddr >>> shift) &&& vmmIndexMask).toNat ≤ 511 := by
      rw [BitVec.toNat_and]
      exact Nat.and_le_right
    omega⟩

def vmmPml4Index : BitVec 64 → Fin 512 := tableIndex 39
def vmmPdptIndex : BitVec 64 → Fin 512 := tableIndex 30
def vmmPdIndex : BitVec 64 → Fin 512 := tableIndex 21
def vmmPtIndex : BitVec 64 → Fin 512 := tableIndex 12

def vmmEntryToTable (entry : BitVec 64) : BitVec 64 := entry &&& vmmPhysMask

def vmmEntryToMapFlags (entry : BitVec 64) : BitVec 64 :=
  let flags := 0#64
  let flags := if entry &&& vmmPageWritable ≠ 0#64 then flags ||| vmmMapWritable else flags
  let flags := if entry &&& vmmPageUser ≠ 0#64 then flags ||| vmmMapUser else flags
  if entry &&& vmmMapNx ≠ 0#64 then flags ||| vmmMapNx else flags

def vmmZeroPage (mem : Tables) (table : BitVec 64) : Tables :=
  writeAll mem table fun _ => 0#64

/-- `PRESENT`, then the bits of `flags` (an entry or map flags) for writable, user and NX: the
flags of the entries that `vmm_split_large_pd_entry` and `vmm_map_page` store in a page table. -/
def leafFlags (flags : BitVec 64) : BitVec 64 :=
  let f := vmmPagePresent
  let f := if flags &&& vmmPageWritable ≠ 0#64 then f ||| vmmPageWritable else f
  let f := if flags &&& vmmPageUser ≠ 0#64 then f ||| vmmPageUser else f
  if flags &&& vmmMapNx ≠ 0#64 then f ||| vmmMapNx else f

/-! ## Walking and changing the tables -/

section

variable {σ : Type} (A : PageAllocator σ)

def vmmSplitLargePdEntry (s : VmmState σ) (pd : BitVec 64) (index : Fin 512) :
    Bool × VmmState σ :=
  let pde := s.mem pd index
  if pde &&& vmmPagePresent = 0#64 ∨ pde &&& vmmPageSize = 0#64 then (false, s)
  else
    let pt := (A.allocPage s.pmm).1
    let s := { s with pmm := (A.allocPage s.pmm).2 }
    if pt = 0#64 then (false, s)
    else
      let mem := vmmZeroPage s.mem pt
      let hugeBase := pde &&& vmmHuge2mBaseMask
      let mem := writeAll mem pt fun i =>
        ((hugeBase + BitVec.ofNat 64 i * mmPageSize) &&& vmmPhysMask) ||| leafFlags pde
      let pdFlags := vmmPagePresent ||| vmmPageWritable
      let pdFlags := if pde &&& vmmPageUser ≠ 0#64 then pdFlags ||| vmmPageUser else pdFlags
      (true, { s with mem := write mem pd index ((pt &&& vmmPhysMask) ||| pdFlags) })

def vmmGetOrCreateNextTable (s : VmmState σ) (table : BitVec 64) (index : Fin 512) :
    Option (BitVec 64) × VmmState σ :=
  let entry := s.mem table index
  if entry &&& vmmPagePresent ≠ 0#64 then
    if entry &&& vmmPageSize ≠ 0#64 then (none, s) else (some (vmmEntryToTable entry), s)
  else
    let next := (A.allocPage s.pmm).1
    let s := { s with pmm := (A.allocPage s.pmm).2 }
    if next = 0#64 then (none, s)
    else
      let mem := vmmZeroPage s.mem next
      let entry := (next &&& vmmPhysMask) ||| vmmPagePresent ||| vmmPageWritable
      (some next, { s with mem := write mem table index entry })

/-- One of the two upper levels of `vmm_walk_to_pt`. -/
def vmmWalkLevel (s : VmmState σ) (create : Bool) (table : BitVec 64) (index : Fin 512) :
    Option (BitVec 64) × VmmState σ :=
  if create then vmmGetOrCreateNextTable A s table index
  else if s.mem table index &&& vmmPagePresent = 0#64 ∨
      s.mem table index &&& vmmPageSize ≠ 0#64 then (none, s)
  else (some (vmmEntryToTable (s.mem table index)), s)

/-- The last level of `vmm_walk_to_pt`, which splits a 2 MiB entry. -/
def vmmWalkLastLevel (s : VmmState σ) (create : Bool) (pd : BitVec 64) (l2 : Fin 512) :
    Option (BitVec 64) × VmmState σ :=
  if create then
    match vmmGetOrCreateNextTable A s pd l2 with
    | (some pt, s) => (some pt, s)
    | (none, s) =>
      if s.mem pd l2 &&& vmmPagePresent ≠ 0#64 ∧ s.mem pd l2 &&& vmmPageSize ≠ 0#64 then
        match vmmSplitLargePdEntry A s pd l2 with
        | (true, s) => vmmGetOrCreateNextTable A s pd l2
        | (false, s) => (none, s)
      else (none, s)
  else if s.mem pd l2 &&& vmmPagePresent = 0#64 then (none, s)
  else if s.mem pd l2 &&& vmmPageSize ≠ 0#64 then
    match vmmSplitLargePdEntry A s pd l2 with
    | (true, s) => (some (vmmEntryToTable (s.mem pd l2)), s)
    | (false, s) => (none, s)
  else (some (vmmEntryToTable (s.mem pd l2)), s)

/-- The page table of `virt_addr` and the index in it. -/
def vmmWalkToPt (s : VmmState σ) (virtAddr : BitVec 64) (create : Bool) :
    Option (BitVec 64 × Fin 512) × VmmState σ :=
  if s.pml4 = 0#64 then (none, s)
  else
    match vmmWalkLevel A s create s.pml4 (vmmPml4Index virtAddr) with
    | (none, s) => (none, s)
    | (some pdpt, s) =>
      match vmmWalkLevel A s create pdpt (vmmPdptIndex virtAddr) with
      | (none, s) => (none, s)
      | (some pd, s) =>
        match vmmWalkLastLevel A s create pd (vmmPdIndex virtAddr) with
        | (none, s) => (none, s)
        | (some pt, s) => (some (pt, vmmPtIndex virtAddr), s)

def vmmMapPage (s : VmmState σ) (virtAddr physAddr flags : BitVec 64) : Bool × VmmState σ :=
  if virtAddr &&& vmmPageOffsetMask ≠ 0#64 ∨ physAddr &&& vmmPageOffsetMask ≠ 0#64 then (false, s)
  else
    match vmmWalkToPt A s virtAddr true with
    | (none, s) => (false, s)
    | (some (pt, ptIndex), s) =>
      if s.mem pt ptIndex &&& vmmPagePresent ≠ 0#64 then (false, s)
      else
        let entry := (physAddr &&& vmmPhysMask) ||| leafFlags flags
        (true, { s with mem := write s.mem pt ptIndex entry })

def vmmUnmapPage (s : VmmState σ) (virtAddr : BitVec 64) : Bool × VmmState σ :=
  if virtAddr &&& vmmPageOffsetMask ≠ 0#64 then (false, s)
  else
    match vmmWalkToPt A s virtAddr false with
    | (none, s) => (false, s)
    | (some (pt, ptIndex), s) =>
      if s.mem pt ptIndex &&& vmmPagePresent = 0#64 then (false, s)
      else (true, { s with mem := write s.mem pt ptIndex 0#64 })

end

/-! ## Reading the tables -/

section

variable {σ : Type}

def vmmTranslate (s : VmmState σ) (virtAddr : BitVec 64) : Option (BitVec 64) :=
  if s.pml4 = 0#64 then none
  else
    let pml4e := s.mem s.pml4 (vmmPml4Index virtAddr)
    if pml4e &&& vmmPagePresent = 0#64 then none
    else
      let pdpte := s.mem (vmmEntryToTable pml4e) (vmmPdptIndex virtAddr)
      if pdpte &&& vmmPagePresent = 0#64 then none
      else if pdpte &&& vmmPageSize ≠ 0#64 then
        some ((pdpte &&& vmmPhysMask) ||| (virtAddr &&& ((1#64 <<< 30) - 1#64)))
      else
        let pde := s.mem (vmmEntryToTable pdpte) (vmmPdIndex virtAddr)
        if pde &&& vmmPagePresent = 0#64 then none
        else if pde &&& vmmPageSize ≠ 0#64 then
          some ((pde &&& vmmPhysMask) ||| (virtAddr &&& ((1#64 <<< 21) - 1#64)))
        else
          let pte := s.mem (vmmEntryToTable pde) (vmmPtIndex virtAddr)
          if pte &&& vmmPagePresent = 0#64 then none
          else some ((pte &&& vmmPhysMask) ||| (virtAddr &&& vmmPageOffsetMask))

/-- The physical address and the map flags of `virt_addr`, if it is mapped. -/
def vmmQueryMapping (s : VmmState σ) (virtAddr : BitVec 64) : Option (BitVec 64 × BitVec 64) :=
  if s.pml4 = 0#64 then none
  else
    let pml4e := s.mem s.pml4 (vmmPml4Index virtAddr)
    if pml4e &&& vmmPagePresent = 0#64 then none
    else
      let pdpte := s.mem (vmmEntryToTable pml4e) (vmmPdptIndex virtAddr)
      if pdpte &&& vmmPagePresent = 0#64 then none
      else if pdpte &&& vmmPageSize ≠ 0#64 then
        some ((pdpte &&& vmmPhysMask) ||| (virtAddr &&& ((1#64 <<< 30) - 1#64)),
          vmmEntryToMapFlags pdpte)
      else
        let pde := s.mem (vmmEntryToTable pdpte) (vmmPdIndex virtAddr)
        if pde &&& vmmPagePresent = 0#64 then none
        else if pde &&& vmmPageSize ≠ 0#64 then
          some ((pde &&& vmmPhysMask) ||| (virtAddr &&& ((1#64 <<< 21) - 1#64)),
            vmmEntryToMapFlags pde)
        else
          let pte := s.mem (vmmEntryToTable pde) (vmmPtIndex virtAddr)
          if pte &&& vmmPagePresent = 0#64 then none
          else some ((pte &&& vmmPhysMask) ||| (virtAddr &&& vmmPageOffsetMask),
            vmmEntryToMapFlags pte)

end

/-! ## Initialisation and the kernel heap -/

def vmmRangeEnd (base size : BitVec 64) : Option (BitVec 64) :=
  if BitVec.allOnes 64 - size < base then none else some (base + size)

section

variable {σ : Type} (A : PageAllocator σ)

def vmmInit (s : VmmState σ) (cr3 : BitVec 64) : Bool × VmmState σ :=
  let s := { s with pml4 := cr3 &&& vmmPhysMask }
  if s.pml4 = 0#64 then (false, s)
  else
    let layout := { s.kernelLayout with
      kaslrWindowBase := vmmKaslrWindowBase
      kaslrWindowSize := vmmKaslrWindowSize
      kaslrSlide := 0#64
      kernelImageBase := vmmKaslrWindowBase + 0#64
      kernelImageSize := vmmKernelImageMaxSize }
    let s := { s with kernelLayout := layout }
    match vmmRangeEnd layout.kernelImageBase layout.kernelImageSize with
    | none => (false, s)
    | some heapBase =>
      match vmmRangeEnd heapBase vmmKernelHeapGuardSize with
      | none => (false, s)
      | some heapBase =>
        let layout := { layout with
          kernelHeapBase := heapBase
          kernelHeapSize := vmmKernelHeapSize }
        let s := { s with kernelLayout := layout }
        match vmmRangeEnd layout.kernelHeapBase layout.kernelHeapSize with
        | none => (false, s)
        | some limit => (true, { s with kernelHeapLimit := limit, kernelHeapNext := heapBase })

/-- The mapping loop of `vmm_alloc_kernel_pages`: at most `n` more pages from `current` on; the
address it stops at. -/
def allocKernelPagesLoop (flags : BitVec 64) :
    ℕ → BitVec 64 → VmmState σ → BitVec 64 × VmmState σ
  | 0, current, s => (current, s)
  | n + 1, current, s =>
    let physPage := (A.allocPage s.pmm).1
    let s := { s with pmm := (A.allocPage s.pmm).2 }
    if physPage = 0#64 then (current, s)
    else
      match vmmMapPage A s current physPage (flags ||| vmmMapWritable) with
      | (false, s) => (current, { s with pmm := A.freePage s.pmm physPage })
      | (true, s) => allocKernelPagesLoop flags n (current + mmPageSize) s

/-- The rollback loop of `vmm_alloc_kernel_pages`, over the `n` pages from `addr` on. -/
def releaseKernelPagesLoop : ℕ → BitVec 64 → VmmState σ → VmmState σ
  | 0, _, s => s
  | n + 1, addr, s =>
    match vmmTranslate s addr with
    | none => releaseKernelPagesLoop n (addr + mmPageSize) s
    | some phys =>
      let s := (vmmUnmapPage A s addr).2
      let s := { s with pmm := A.freePage s.pmm (phys &&& vmmPhysMask) }
      releaseKernelPagesLoop n (addr + mmPageSize) s

/-- The start of the pages, 0 for `NULL`. -/
def vmmAllocKernelPages (s : VmmState σ) (pageCount flags : BitVec 64) :
    BitVec 64 × VmmState σ :=
  if pageCount = 0#64 then (0#64, s)
  else if s.pml4 = 0#64 then (0#64, s)
  else
    let start := s.kernelHeapNext
    let requestedBytes := pageCount * mmPageSize
    if requestedBytes / mmPageSize ≠ pageCount then (0#64, s)
    else if BitVec.allOnes 64 - requestedBytes < start then (0#64, s)
    else
      let expectedEnd := start + requestedBytes
      if start < s.kernelLayout.kernelHeapBase ∨ s.kernelHeapLimit < expectedEnd then (0#64, s)
      else
        match allocKernelPagesLoop A flags pageCount.toNat start s with
        | (current, s) =>
          if current ≠ expectedEnd then
            let mapped := ((current - start) / mmPageSize).toNat
            (0#64, releaseKernelPagesLoop A mapped start s)
          else (start, { s with kernelHeapNext := current })

end

end GnuOS.Vmm

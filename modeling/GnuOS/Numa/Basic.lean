import GnuOS.Lib.Memory
import GnuOS.Lib.Search
import GnuOS.Vmm.Basic

/-!
# Memory nodes

A model of `kernel/mm/numa.c`: the affinity table (SRAT) of the firmware is mapped and read, and the
ranges of each proximity domain become one node.  The bytes of the table are what the kernel reads
at its addresses once they are mapped.
-/

namespace GnuOS.Numa

open GnuOS.Lib GnuOS.Vmm

def numaMaxNodes : ℕ := 8

/-- `numa_node_info_t` -/
structure Node where
  nodeId : BitVec 32
  base : BitVec 64
  size : BitVec 64
  deriving DecidableEq, Repr

/-- The static variables. -/
structure NumaState where
  nodes : ℕ → Node
  nodeCount : ℕ
  ready : Bool
  fromSrat : Bool

def numaResetState : NumaState := ⟨fun _ => ⟨0#32, 0#64, 0#64⟩, 0, false, false⟩

/-! ## Mapping -/

section

variable {σ : Type} (A : PageAllocator σ)

/-- The loop of `map_identity_range`, over `n` pages. -/
def mapIdentityLoop : ℕ → BitVec 64 → VmmState σ → Bool × VmmState σ
  | 0, _, s => (true, s)
  | n + 1, page, s =>
    match vmmQueryMapping s page with
    | some _ => mapIdentityLoop n (page + mmPageSize) s
    | none =>
      match vmmMapPage A s page page vmmMapWritable with
      | (false, s) => (false, s)
      | (true, s) => mapIdentityLoop n (page + mmPageSize) s

def mapIdentityRange (s : VmmState σ) (base length : BitVec 64) : Bool × VmmState σ :=
  let pageMask := mmPageSize - 1#64
  if base = 0#64 ∨ length = 0#64 then (false, s)
  else if BitVec.allOnes 64 - length < base then (false, s)
  else if BitVec.allOnes 64 - pageMask < base + length then (false, s)
  else
    let start := base &&& ~~~pageMask
    let rangeEnd := (base + length + pageMask) &&& ~~~pageMask
    mapIdentityLoop A ((rangeEnd - start) / mmPageSize).toNat start s

end

/-! ## Nodes -/

/-- The node that holds both its range and the new one. -/
def extendNode (node : Node) (base rangeEnd : BitVec 64) : Node :=
  let nodeEnd := node.base + node.size
  let nodeEnd := if nodeEnd < node.base then BitVec.allOnes 64 else nodeEnd
  let nodeBase := if base < node.base then base else node.base
  let nodeEnd := if nodeEnd < rangeEnd then rangeEnd else nodeEnd
  { node with base := nodeBase, size := nodeEnd - nodeBase }

def numaAddOrExtendNode (s : NumaState) (nodeId : BitVec 32) (base size : BitVec 64) :
    NumaState :=
  if size = 0#64 ∨ BitVec.allOnes 64 - size < base then s
  else
    match (List.range s.nodeCount).find? fun i => (s.nodes i).nodeId = nodeId with
    | some i =>
      { s with nodes := Function.update s.nodes i (extendNode (s.nodes i) base (base + size)) }
    | none =>
      if numaMaxNodes ≤ s.nodeCount then s
      else
        { s with
          nodes := Function.update s.nodes s.nodeCount ⟨nodeId, base, size⟩
          nodeCount := s.nodeCount + 1 }

/-! ## The table -/

def acpiSdtHeaderSize : ℕ := 36
def acpiSratSize : ℕ := 48
def acpiSratEntryHeaderSize : ℕ := 2
def acpiSratMemoryAffinitySize : ℕ := 40

def acpiSratTypeMemoryAffinity : ℕ := 1
def acpiSratMemEnabled : BitVec 32 := 1#32

/-- The field of `n` bytes at an offset of the table. -/
def field (mem : Memory) (srat : BitVec 64) (offset n : ℕ) : ℕ :=
  mem.load (srat + BitVec.ofNat 64 offset) n

/-- The characters `SRAT`. -/
def acpiSigMatch (mem : Memory) (srat : BitVec 64) : Bool :=
  (List.range 4).all fun i =>
    mem (srat + BitVec.ofNat 64 i) = [0x53#8, 0x52#8, 0x41#8, 0x54#8].getD i 0#8

def sratLength (mem : Memory) (srat : BitVec 64) : ℕ := field mem srat 4 4

def acpiChecksumOk (mem : Memory) (base : BitVec 64) (length : ℕ) : Bool :=
  if base = 0#64 ∨ length = 0 then false
  else
    (List.range length).foldl (fun sum i => sum + mem (base + BitVec.ofNat 64 i)) 0#8 = 0#8

/-- The fields of `acpi_srat_memory_affinity_t` that are read. -/
structure Affinity where
  proximityDomain : BitVec 32
  baseAddress : BitVec 64
  length : BitVec 64
  flags : BitVec 32
  deriving DecidableEq, Repr

def readAffinity (mem : Memory) (srat : BitVec 64) (offset : ℕ) : Affinity where
  proximityDomain := BitVec.ofNat 32 (field mem srat (offset + 2) 4)
  baseAddress := BitVec.ofNat 64 (field mem srat (offset + 8) 8)
  length := BitVec.ofNat 64 (field mem srat (offset + 16) 8)
  flags := BitVec.ofNat 32 (field mem srat (offset + 28) 4)

/-- The body of the loop, for the entry at an offset. -/
def parseEntry (mem : Memory) (srat : BitVec 64) (s : NumaState) (offset : ℕ) : NumaState :=
  if field mem srat offset 1 = acpiSratTypeMemoryAffinity ∧
      acpiSratMemoryAffinitySize ≤ field mem srat (offset + 1) 1 then
    let entry := readAffinity mem srat offset
    if entry.flags &&& acpiSratMemEnabled ≠ 0#32 ∧ 0#64 < entry.length then
      numaAddOrExtendNode s entry.proximityDomain entry.baseAddress entry.length
    else s
  else s

/-- The loop, with the cursor at an offset.  Each round moves it by two bytes at least, so `length`
rounds are enough. -/
def parseLoop (mem : Memory) (srat : BitVec 64) (length : ℕ) : ℕ → ℕ → NumaState → NumaState
  | 0, _, s => s
  | n + 1, offset, s =>
    let entryLength := field mem srat (offset + 1) 1
    if length < offset + acpiSratEntryHeaderSize then s
    else if entryLength < acpiSratEntryHeaderSize then s
    else if length < offset + entryLength then s
    else parseLoop mem srat length n (offset + entryLength) (parseEntry mem srat s offset)

section

variable {σ : Type} (A : PageAllocator σ)

def numaParseSrat (mem : Memory) (vmm : VmmState σ) (s : NumaState) (sratPhysAddr : BitVec 64) :
    Bool × VmmState σ × NumaState :=
  if sratPhysAddr = 0#64 then (false, vmm, s)
  else
    match mapIdentityRange A vmm sratPhysAddr (BitVec.ofNat 64 acpiSdtHeaderSize) with
    | (false, vmm) => (false, vmm, s)
    | (true, vmm) =>
      if !acpiSigMatch mem sratPhysAddr then (false, vmm, s)
      else
        let length := sratLength mem sratPhysAddr
        if length < acpiSratSize then (false, vmm, s)
        else
          match mapIdentityRange A vmm sratPhysAddr (BitVec.ofNat 64 length) with
          | (false, vmm) => (false, vmm, s)
          | (true, vmm) =>
            if !acpiChecksumOk mem sratPhysAddr length then (false, vmm, s)
            else
              let s := parseLoop mem sratPhysAddr length length acpiSratSize s
              (0 < s.nodeCount, vmm, s)

/-- `srat` is the address that the ACPI tables give, `none` if there are none. -/
def numaInit (mem : Memory) (vmm : VmmState σ) (srat : Option (BitVec 64))
    (fallbackBase fallbackSize : BitVec 64) : VmmState σ × NumaState :=
  let parsed : Bool × VmmState σ × NumaState :=
    match srat with
    | none => (false, vmm, numaResetState)
    | some address =>
      if address = 0#64 then (false, vmm, numaResetState)
      else numaParseSrat A mem vmm numaResetState address
  let s : NumaState := { parsed.2.2 with fromSrat := parsed.1 }
  let s : NumaState :=
    if s.nodeCount = 0 ∧ 0#64 < fallbackSize then
      { numaAddOrExtendNode s 0#32 fallbackBase fallbackSize with fromSrat := false }
    else s
  (parsed.2.1, if s.nodeCount = 0 then s else { s with ready := true })

end

/-- The node of an address, `none` for the return value 0. -/
def numaPhysToNode (s : NumaState) (physAddr : BitVec 64) : Option (BitVec 32) :=
  if !s.ready then none
  else
    firstSome (fun i =>
      let start := (s.nodes i).base
      let nodeEnd := start + (s.nodes i).size
      let nodeEnd := if nodeEnd < start then BitVec.allOnes 64 else nodeEnd
      if start ≤ physAddr ∧ physAddr < nodeEnd then some (s.nodes i).nodeId else none)
      s.nodeCount 0

end GnuOS.Numa

import GnuOS.Lib.Memory

/-!
# Writing the boot information

A model of `gnuos_build_multiboot2_info` in `boot/efi/x86_64/uefi_stub.c`.  The packed structures
of the source are lists of fields, stored in the order of the source.  The memory map is in a
buffer of its own, which the stores to the boot information do not reach.
-/

namespace GnuOS.Boot

open GnuOS.Lib

/-! ## Data -/

/-- The fields of `EFI_MEMORY_DESCRIPTOR` that are read. -/
structure EfiMemoryDescriptor where
  type : BitVec 32
  physicalStart : BitVec 64
  numberOfPages : BitVec 64
  deriving DecidableEq, Repr

/-- The descriptor at an offset of a memory map. -/
def descriptorAt (memoryMap : Memory) (offset : BitVec 64) : EfiMemoryDescriptor where
  type := BitVec.ofNat 32 (memoryMap.load offset 4)
  physicalStart := BitVec.ofNat 64 (memoryMap.load (offset + 8#64) 8)
  numberOfPages := BitVec.ofNat 64 (memoryMap.load (offset + 24#64) 8)

/-- `gnuos_efi_buffer_t` -/
structure EfiBuffer where
  base : BitVec 64
  sizeBytes : BitVec 64
  deriving DecidableEq, Repr

/-- `gnuos_efi_framebuffer_info_t` -/
structure EfiFramebufferInfo where
  present : BitVec 8
  framebufferAddr : BitVec 64
  pitch : BitVec 32
  width : BitVec 32
  height : BitVec 32
  bpp : BitVec 8
  redFieldPosition : BitVec 8
  redMaskSize : BitVec 8
  greenFieldPosition : BitVec 8
  greenMaskSize : BitVec 8
  blueFieldPosition : BitVec 8
  blueMaskSize : BitVec 8
  deriving DecidableEq, Repr

def efiLoaderCode : BitVec 32 := 1#32
def efiLoaderData : BitVec 32 := 2#32
def efiBootServicesCode : BitVec 32 := 3#32
def efiBootServicesData : BitVec 32 := 4#32
def efiConventionalMemory : BitVec 32 := 7#32
def efiUnusableMemory : BitVec 32 := 8#32
def efiAcpiReclaimMemory : BitVec 32 := 9#32
def efiAcpiMemoryNvs : BitVec 32 := 10#32

def multiboot2MemoryAvailable : BitVec 32 := 1#32
def multiboot2MemoryReserved : BitVec 32 := 2#32
def multiboot2MemoryAcpiReclaimable : BitVec 32 := 3#32
def multiboot2MemoryAcpiNvs : BitVec 32 := 4#32
def multiboot2MemoryBadram : BitVec 32 := 5#32

def gnuosEfiMemoryTypeToMultiboot (efiMemoryType : BitVec 32) : BitVec 32 :=
  if efiMemoryType = efiLoaderCode ∨ efiMemoryType = efiLoaderData ∨
      efiMemoryType = efiBootServicesCode ∨ efiMemoryType = efiBootServicesData ∨
      efiMemoryType = efiConventionalMemory then multiboot2MemoryAvailable
  else if efiMemoryType = efiAcpiReclaimMemory then multiboot2MemoryAcpiReclaimable
  else if efiMemoryType = efiAcpiMemoryNvs then multiboot2MemoryAcpiNvs
  else if efiMemoryType = efiUnusableMemory then multiboot2MemoryBadram
  else multiboot2MemoryReserved

def efiPageSize : BitVec 64 := 4096#64

/-- The length of a region in bytes, in 64 bits. -/
def EfiMemoryDescriptor.length (d : EfiMemoryDescriptor) : BitVec 64 :=
  d.numberOfPages * efiPageSize

/-! ## Sizes -/

def gnuosAlignUp (value alignment : BitVec 64) : BitVec 64 :=
  (value + (alignment - 1#64)) &&& ~~~(alignment - 1#64)

/-- A framebuffer that is passed and present. -/
def presentFramebuffer (framebufferInfo : Option EfiFramebufferInfo) :
    Option EfiFramebufferInfo :=
  framebufferInfo.filter fun info => info.present ≠ 0#8

def mmapTagSize (descriptorCount : BitVec 64) : BitVec 64 := 16#64 + descriptorCount * 24#64

def framebufferTagSize : BitVec 64 := 32#64 + 6#64

def infoSize (descriptorCount : BitVec 64) (framebuffer : Option EfiFramebufferInfo) :
    BitVec 64 :=
  let size := 8#64 + gnuosAlignUp (mmapTagSize descriptorCount) 8#64
  let size :=
    match framebuffer with
    | some _ => size + gnuosAlignUp framebufferTagSize 8#64
    | none => size
  size + gnuosAlignUp 8#64 8#64

/-! ## Stores -/

/-- The loop of `gnuos_memset`, with `n` bytes left. -/
def gnuosMemset (mem : Memory) (dst : BitVec 64) (value : BitVec 8) : ℕ → Memory
  | 0 => mem
  | n + 1 => gnuosMemset (Function.update mem dst value) (dst + 1#64) value n

def entryFields (index : ℕ) (descriptor : EfiMemoryDescriptor) : List Memory.Field :=
  let entry := 24 + 24 * index
  [⟨entry, 8, descriptor.physicalStart.toNat⟩, ⟨entry + 8, 8, descriptor.length.toNat⟩,
    ⟨entry + 16, 4, (gnuosEfiMemoryTypeToMultiboot descriptor.type).toNat⟩, ⟨entry + 20, 4, 0⟩]

def mmapTagFields (size : BitVec 64) : List Memory.Field :=
  [⟨8, 4, 6⟩, ⟨12, 4, size.toNat⟩, ⟨16, 4, 24⟩, ⟨20, 4, 0⟩]

def framebufferTagFields (cursor : ℕ) (info : EfiFramebufferInfo) : List Memory.Field :=
  [⟨cursor, 4, 8⟩, ⟨cursor + 4, 4, framebufferTagSize.toNat⟩,
    ⟨cursor + 8, 8, info.framebufferAddr.toNat⟩, ⟨cursor + 16, 4, info.pitch.toNat⟩,
    ⟨cursor + 20, 4, info.width.toNat⟩, ⟨cursor + 24, 4, info.height.toNat⟩,
    ⟨cursor + 28, 1, info.bpp.toNat⟩, ⟨cursor + 29, 1, 1⟩, ⟨cursor + 30, 2, 0⟩,
    ⟨cursor + 32, 1, info.redFieldPosition.toNat⟩, ⟨cursor + 33, 1, info.redMaskSize.toNat⟩,
    ⟨cursor + 34, 1, info.greenFieldPosition.toNat⟩, ⟨cursor + 35, 1, info.greenMaskSize.toNat⟩,
    ⟨cursor + 36, 1, info.blueFieldPosition.toNat⟩, ⟨cursor + 37, 1, info.blueMaskSize.toNat⟩]

def endTagFields (cursor : ℕ) : List Memory.Field := [⟨cursor, 4, 0⟩, ⟨cursor + 4, 4, 8⟩]

def headerFields (totalSize : BitVec 64) : List Memory.Field :=
  [⟨0, 4, totalSize.toNat⟩, ⟨4, 4, 0⟩]

/-- The part of `gnuos_build_multiboot2_info` that fills the buffer. -/
def fillInfo (mem memoryMap : Memory) (descriptorSize descriptorCount : BitVec 64)
    (buffer : EfiBuffer) (framebuffer : Option EfiFramebufferInfo) : Memory :=
  let mem := gnuosMemset mem buffer.base 0#8 buffer.sizeBytes.toNat
  let mem := (List.range descriptorCount.toNat).foldl (fun mem index =>
    mem.storeFields buffer.base
      (entryFields index (descriptorAt memoryMap (BitVec.ofNat 64 index * descriptorSize)))) mem
  let mem := mem.storeFields buffer.base (mmapTagFields (mmapTagSize descriptorCount))
  let cursor := 8#64 + gnuosAlignUp (mmapTagSize descriptorCount) 8#64
  match framebuffer with
  | some info =>
    let mem := mem.storeFields buffer.base (framebufferTagFields cursor.toNat info)
    let cursor := cursor + gnuosAlignUp framebufferTagSize 8#64
    let mem := mem.storeFields buffer.base (endTagFields cursor.toNat)
    mem.storeFields buffer.base (headerFields (infoSize descriptorCount framebuffer))
  | none =>
    let mem := mem.storeFields buffer.base (endTagFields cursor.toNat)
    mem.storeFields buffer.base (headerFields (infoSize descriptorCount framebuffer))

/-- The status, or the address of the boot information; `none` is a null pointer. -/
def gnuosBuildMultiboot2Info (mem : Memory) (memoryMap : Option Memory)
    (memoryMapSize descriptorSize : BitVec 64) (bootInfoBuffer : Option EfiBuffer)
    (framebufferInfo : Option EfiFramebufferInfo) (outPresent : Bool) :
    Except ℕ (BitVec 64) × Memory :=
  match memoryMap, bootInfoBuffer with
  | some memoryMap, some buffer =>
    if descriptorSize = 0#64 ∨ outPresent = false then (.error 6, mem)
    else
      let descriptorCount := memoryMapSize / descriptorSize
      let framebuffer := presentFramebuffer framebufferInfo
      if descriptorCount = 0#64 then (.error 7, mem)
      else if 0xFFFFFFFF#64 < mmapTagSize descriptorCount then (.error 8, mem)
      else if 0xFFFFFFFF#64 < infoSize descriptorCount framebuffer ∨
          buffer.sizeBytes < infoSize descriptorCount framebuffer then (.error 8, mem)
      else
        (.ok buffer.base,
          fillInfo mem memoryMap descriptorSize descriptorCount buffer framebuffer)
  | _, _ => (.error 6, mem)

end GnuOS.Boot

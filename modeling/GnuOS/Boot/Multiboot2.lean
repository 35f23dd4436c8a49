import GnuOS.Lib.Memory

/-!
# Reading the boot information

A model of `kernel/arch/x86_64/boot/multiboot2.c`.  The three functions walk over the tags of a
block of memory in the same loop, which is written once; each of them has its own loop body.
Every read goes through `BootInfo.read`, which checks that it stays inside the block, and the
loops are given a number of rounds: the outcome tells whether a function returns.
-/

namespace GnuOS.Boot

open GnuOS.Lib

/-! ## The block -/

/-- The memory, and the address of the block in it. -/
structure BootInfo where
  memory : Memory
  addr : BitVec 64

namespace BootInfo

/-- The field `total_size` of the header. -/
def totalSize (b : BootInfo) : ℕ := b.memory.load b.addr 4

def region (b : BootInfo) : Region := ⟨b.addr, b.totalSize⟩

def read (b : BootInfo) (a : BitVec 64) (n : ℕ) : Outcome ℕ := b.region.read b.memory a n

def read8 (b : BootInfo) (a : BitVec 64) : Outcome (BitVec 8) :=
  return BitVec.ofNat 8 (← b.read a 1)

def read32 (b : BootInfo) (a : BitVec 64) : Outcome (BitVec 32) :=
  return BitVec.ofNat 32 (← b.read a 4)

def read64 (b : BootInfo) (a : BitVec 64) : Outcome (BitVec 64) :=
  return BitVec.ofNat 64 (← b.read a 8)

end BootInfo

/-! ## The loop over the tags -/

def multibootTagTypeEnd : BitVec 32 := 0#32
def multibootTagTypeMmap : BitVec 32 := 6#32
def multibootTagTypeFramebuffer : BitVec 32 := 8#32
def multibootTagTypeAcpiOld : BitVec 32 := 14#32
def multibootTagTypeAcpiNew : BitVec 32 := 15#32
def multibootMemoryAvailable : BitVec 32 := 1#32
def multibootFramebufferTypeRgb : BitVec 8 := 1#8

def align8 (value : BitVec 32) : BitVec 32 := (value + 7#32) &&& ~~~7#32

/-- How a round of a loop ends: with new values of the variables, or with a return value. -/
inductive Flow (σ ρ : Type)
  | next (s : σ)
  | ret (r : ρ)

section

variable {σ ρ : Type}

def Flow.proceed (k : σ → Outcome ρ) : Flow σ ρ → Outcome ρ
  | .next s => k s
  | .ret r => .value r

/-- The loop of the three functions.  `body` is what they do with a tag, given its address, type
and size; `finish` is what follows the loop, and `reject` the return value 0. -/
def walkTags (b : BootInfo) (body : BitVec 64 → BitVec 32 → BitVec 32 → σ → Outcome (Flow σ ρ))
    (finish reject : σ → ρ) (endAddr : BitVec 64) : ℕ → BitVec 64 → σ → Outcome ρ
  | 0, _, _ => .unfinished
  | fuel + 1, cursor, s =>
    if cursor + 8#64 ≤ endAddr then do
      let size ← b.read32 (cursor + 4#64)
      if size < 8#32 then .value (reject s)
      else if endAddr < cursor + (align8 size).setWidth 64 then .value (reject s)
      else do
        let type ← b.read32 cursor
        if type = multibootTagTypeEnd then .value (finish s)
        else do
          let flow ← body cursor type size s
          flow.proceed fun s =>
            walkTags b body finish reject endAddr fuel (cursor + (align8 size).setWidth 64) s
    else .value (finish s)

/-- The checks before the loop. -/
def walkBlock (b : BootInfo) (body : BitVec 64 → BitVec 32 → BitVec 32 → σ → Outcome (Flow σ ρ))
    (finish reject : σ → ρ) (fuel : ℕ) (s : σ) : Outcome ρ := do
  let totalSize ← b.read32 b.addr
  if totalSize < 8#32 then .value (reject s)
  else
    walkTags b body finish reject (b.addr + totalSize.setWidth 64) fuel (b.addr + 8#64) s

end

/-! ## The largest available region -/

/-- `best_base` and `best_size` -/
structure Available where
  base : BitVec 64
  size : BitVec 64
  deriving DecidableEq, Repr

/-- The body of the loop over the entries of a memory map. -/
def considerEntry (b : BootInfo) (p : BitVec 64) (best : Available) : Outcome Available := do
  let type ← b.read32 (p + 16#64)
  if type = multibootMemoryAvailable then do
    let len ← b.read64 (p + 8#64)
    if best.size < len then do
      let addr ← b.read64 p
      .value ⟨addr, len⟩
    else .value best
  else .value best

def walkEntries (b : BootInfo) (entrySize : BitVec 32) (entriesEnd : BitVec 64) :
    ℕ → BitVec 64 → Available → Outcome Available
  | 0, _, _ => .unfinished
  | fuel + 1, p, best =>
    if p + entrySize.setWidth 64 ≤ entriesEnd then do
      let best ← considerEntry b p best
      walkEntries b entrySize entriesEnd fuel (p + entrySize.setWidth 64) best
    else .value best

def mmapBody (b : BootInfo) (fuel : ℕ) (cursor : BitVec 64) (type size : BitVec 32)
    (best : Available) : Outcome (Flow Available (Option Available)) :=
  if type = multibootTagTypeMmap ∧ 16#32 ≤ size then do
    let entrySize ← b.read32 (cursor + 8#64)
    if entrySize < 24#32 then .value (.ret none)
    else do
      let best ← walkEntries b entrySize (cursor + size.setWidth 64) fuel (cursor + 16#64) best
      .value (.next best)
  else .value (.next best)

/-- `none` is the return value 0, with the out parameters as they were; `outsPresent` says that
they are not `NULL`. -/
def multiboot2FindLargestAvailableRegion (b : BootInfo) (outsPresent : Bool) (fuel : ℕ) :
    Outcome (Option Available) :=
  if outsPresent = false ∨ b.addr = 0#64 then .value none
  else
    walkBlock b (mmapBody b fuel)
      (fun best => if best.size = 0#64 then none else some best) (fun _ => none) fuel
      ⟨0#64, 0#64⟩

/-! ## The framebuffer -/

/-- `multiboot2_framebuffer_info_t` -/
structure FramebufferInfo where
  address : BitVec 64
  pitch : BitVec 32
  width : BitVec 32
  height : BitVec 32
  bpp : BitVec 8
  type : BitVec 8
  redFieldPosition : BitVec 8
  redMaskSize : BitVec 8
  greenFieldPosition : BitVec 8
  greenMaskSize : BitVec 8
  blueFieldPosition : BitVec 8
  blueMaskSize : BitVec 8
  deriving DecidableEq, Repr

/-- `framebuffer_info`, as `kmain` initializes it. -/
def noFramebuffer : FramebufferInfo := ⟨0, 0, 0, 0, 0, 0, 0, 0, 0, 0, 0, 0⟩

/-- The fields of the tag itself; the colours are cleared. -/
def readFramebuffer (b : BootInfo) (cursor : BitVec 64) : Outcome FramebufferInfo := do
  let address ← b.read64 (cursor + 8#64)
  let pitch ← b.read32 (cursor + 16#64)
  let width ← b.read32 (cursor + 20#64)
  let height ← b.read32 (cursor + 24#64)
  let bpp ← b.read8 (cursor + 28#64)
  let type ← b.read8 (cursor + 29#64)
  .value ⟨address, pitch, width, height, bpp, type, 0#8, 0#8, 0#8, 0#8, 0#8, 0#8⟩

/-- The colours, which stand behind the tag of an RGB framebuffer. -/
def readColours (b : BootInfo) (rgb : BitVec 64) (info : FramebufferInfo) :
    Outcome FramebufferInfo := do
  let redFieldPosition ← b.read8 rgb
  let redMaskSize ← b.read8 (rgb + 1#64)
  let greenFieldPosition ← b.read8 (rgb + 2#64)
  let greenMaskSize ← b.read8 (rgb + 3#64)
  let blueFieldPosition ← b.read8 (rgb + 4#64)
  let blueMaskSize ← b.read8 (rgb + 5#64)
  .value { info with
    redFieldPosition := redFieldPosition
    redMaskSize := redMaskSize
    greenFieldPosition := greenFieldPosition
    greenMaskSize := greenMaskSize
    blueFieldPosition := blueFieldPosition
    blueMaskSize := blueMaskSize }

/-- The variable of the loop is what `out_info` points to; it is filled even where the function
returns 0 because the colours do not fit into the tag. -/
def framebufferBody (b : BootInfo) (cursor : BitVec 64) (type size : BitVec 32)
    (info : FramebufferInfo) : Outcome (Flow FramebufferInfo (Bool × FramebufferInfo)) :=
  if type = multibootTagTypeFramebuffer ∧ 32#32 ≤ size then do
    let info ← readFramebuffer b cursor
    if info.type = multibootFramebufferTypeRgb then
      if cursor + size.setWidth 64 < cursor + 32#64 + 6#64 then .value (.ret (false, info))
      else do
        let info ← readColours b (cursor + 32#64) info
        .value (.ret (true, info))
    else .value (.ret (true, info))
  else .value (.next info)

/-- `none` is a null `out_info`; otherwise the result has the return value and what `out_info`
points to afterwards. -/
def multiboot2FindFramebuffer (b : BootInfo) (outInfo : Option FramebufferInfo) (fuel : ℕ) :
    Outcome (Bool × Option FramebufferInfo) :=
  match outInfo with
  | none => .value (false, none)
  | some info =>
    if b.addr = 0#64 then .value (false, some info)
    else do
      let result ← walkBlock b (framebufferBody b) (fun info => (false, info))
        (fun info => (false, info)) fuel info
      .value (result.1, some result.2)

/-! ## The ACPI root pointer -/

structure Rsdp where
  oldRsdp : BitVec 64
  newRsdp : BitVec 64
  newRevision : BitVec 8
  deriving DecidableEq, Repr

def rsdpBody (b : BootInfo) (cursor : BitVec 64) (type size : BitVec 32) (r : Rsdp) :
    Outcome (Flow Rsdp (Option (BitVec 64 × BitVec 8))) :=
  if type = multibootTagTypeAcpiOld then
    if 28#32 ≤ size then .value (.next { r with oldRsdp := cursor + 8#64 })
    else .value (.next r)
  else if type = multibootTagTypeAcpiNew ∧ 44#32 ≤ size then do
    let revision ← b.read8 (cursor + 8#64 + 15#64)
    .value (.next { r with newRsdp := cursor + 8#64, newRevision := revision })
  else .value (.next r)

/-- The address and the revision; the caller gets the revision if it asks for it. -/
def rsdpResult (r : Rsdp) : Option (BitVec 64 × BitVec 8) :=
  if r.newRsdp ≠ 0#64 then some (r.newRsdp, r.newRevision)
  else if r.oldRsdp ≠ 0#64 then some (r.oldRsdp, 0#8)
  else none

def multiboot2FindAcpiRsdp (b : BootInfo) (outPresent : Bool) (fuel : ℕ) :
    Outcome (Option (BitVec 64 × BitVec 8)) :=
  if outPresent = false ∨ b.addr = 0#64 then .value none
  else walkBlock b (rsdpBody b) rsdpResult (fun _ => none) fuel ⟨0#64, 0#64, 0#8⟩

end GnuOS.Boot

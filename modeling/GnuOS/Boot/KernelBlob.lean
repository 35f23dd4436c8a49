import GnuOS.Boot.Uefi
import GnuOS.Lib.Rounds

/-!
# Loading the kernel blob

A model of the functions of `boot/efi/x86_64/uefi_stub.c` that read the kernel from the blob in the
loader: the header checks of `efi_main`, `gnuos_load_kernel_segments` and `gnuos_find_kmain_symbol`.

A pointer into the blob is given by its offset from the start of the blob, in 64 bits.  Program
headers, segment contents, section headers, symbols and names are read through the region of the
blob.  The ELF header is not: `efi_main` has compared the size of the blob with it.  Loading a
segment writes to the memory, and what is read later is read from the memory as it is then.
-/

namespace GnuOS.Boot

open GnuOS.Lib

/-- `gnuos_kernel_blob_start`, and its distance to `gnuos_kernel_blob_end`. -/
structure KernelBlob where
  start : BitVec 64
  size : BitVec 64

namespace KernelBlob

def region (blob : KernelBlob) : Region := ⟨blob.start, blob.size.toNat⟩

/-- The number of `w` bits at an offset, if it lies in the blob. -/
def read (blob : KernelBlob) (mem : Memory) (w : ℕ) (offset : BitVec 64) : Outcome (BitVec w) :=
  blob.region.read mem (blob.start + offset) (w / 8) >>= fun v => .value (BitVec.ofNat w v)

/-- The same, and 0 if it does not. -/
def field (blob : KernelBlob) (mem : Memory) (w : ℕ) (offset : BitVec 64) : BitVec w :=
  match blob.read mem w offset with
  | .value v => v
  | _ => 0#w

end KernelBlob

/-! ## The ELF header -/

/-- The fields of `elf64_ehdr_t` that are read. -/
structure Elf64Ehdr where
  eIdent : List (BitVec 8)
  ePhoff : BitVec 64
  eShoff : BitVec 64
  ePhentsize : BitVec 16
  ePhnum : BitVec 16
  eShentsize : BitVec 16
  eShnum : BitVec 16

def KernelBlob.ehdr (blob : KernelBlob) (mem : Memory) : Elf64Ehdr where
  eIdent := (List.range 4).map fun i => blob.field mem 8 (BitVec.ofNat 64 i)
  ePhoff := blob.field mem 64 32#64
  eShoff := blob.field mem 64 40#64
  ePhentsize := blob.field mem 16 54#64
  ePhnum := blob.field mem 16 56#64
  eShentsize := blob.field mem 16 58#64
  eShnum := blob.field mem 16 60#64

/-- The status with which `efi_main` rejects the blob before it loads anything. -/
def efiMainRejects (blob : KernelBlob) (mem : Memory) : Option ℕ :=
  if blob.start = 0#64 ∨ blob.size < 64#64 then some 1
  else if (blob.ehdr mem).eIdent ≠ [0x7F#8, 0x45#8, 0x4C#8, 0x46#8] then some 2
  else if (blob.ehdr mem).ePhentsize < 56#16 ∨ (blob.ehdr mem).ePhnum = 0#16 then some 3
  else none

/-! ## Segments -/

def elf64PtLoad : BitVec 32 := 1#32

def efiSuccess : ℕ := 0

/-- `AllocatePages` of the boot services, if there is one: whether it succeeds in a round of the
loop, for a number of pages at an address. -/
abbrev AllocatePages := Option (ℕ → BitVec 64 → BitVec 64 → Bool)

def AllocatePages.refuses (allocatePages : AllocatePages) (index : ℕ)
    (pages allocAddr : BitVec 64) : Bool :=
  match allocatePages with
  | some succeeds => !succeeds index pages allocAddr
  | none => false

/-- The number of pages that are asked for. -/
def segmentPages (paddr memsz : BitVec 64) : BitVec 64 :=
  (gnuosAlignUp (paddr + memsz) 0x1000#64 - (paddr &&& ~~~0xFFF#64)) / 0x1000#64

/-- The loop of `gnuos_memcpy`, with `n` bytes left; the source is in the blob. -/
def gnuosMemcpy (blob : KernelBlob) (mem : Memory) (dst src : BitVec 64) : ℕ → Outcome Memory
  | 0 => .value mem
  | n + 1 => blob.read mem 8 src >>= fun byte =>
    gnuosMemcpy blob (Function.update mem dst byte) (dst + 1#64) (src + 1#64) n

/-- The segment is cleared and copied.  The header is read again after it is cleared. -/
def copySegment (blob : KernelBlob) (phdr paddr memsz : BitVec 64) (mem : Memory) :
    Outcome Memory := do
  let mem := gnuosMemset mem paddr 0#8 memsz.toNat
  let offset ← blob.read mem 64 (phdr + 8#64)
  let filesz ← blob.read mem 64 (phdr + 32#64)
  gnuosMemcpy blob mem paddr offset filesz.toNat

/-- The body of the loop for the header at `phdr`: the status if it returns one. -/
def loadSegment (allocatePages : AllocatePages) (blob : KernelBlob) (index : ℕ)
    (phdr : BitVec 64) (mem : Memory) : Outcome (Option ℕ × Memory) := do
  let pType ← blob.read mem 32 phdr
  if pType ≠ elf64PtLoad then return (none, mem)
  else
    let filesz ← blob.read mem 64 (phdr + 32#64)
    let memsz ← blob.read mem 64 (phdr + 40#64)
    if memsz < filesz then return (some 2, mem)
    else
      let offset ← blob.read mem 64 (phdr + 8#64)
      if blob.size < offset + filesz then return (some 3, mem)
      else
        let paddr ← blob.read mem 64 (phdr + 24#64)
        if allocatePages.refuses index (segmentPages paddr memsz) (paddr &&& ~~~0xFFF#64) then
          return (some 4, mem)
        else
          let mem ← copySegment blob phdr paddr memsz mem
          return (none, mem)

/-- A round of the loop.  The number of headers and their size are read from the header again. -/
def loadRound (allocatePages : AllocatePages) (blob : KernelBlob) (phdrBase : BitVec 64)
    (index : ℕ) (mem : Memory) : Outcome (Option ℕ × Memory) :=
  if (blob.ehdr mem).ePhnum.toNat ≤ index then .value (some efiSuccess, mem)
  else
    loadSegment allocatePages blob index
      (phdrBase + BitVec.ofNat 64 index * (blob.ehdr mem).ePhentsize.setWidth 64) mem

/-- The status, and the memory.  Whatever the number of headers is, it is at most 65535. -/
def gnuosLoadKernelSegments (allocatePages : AllocatePages) (blob : KernelBlob) (mem : Memory) :
    Outcome (ℕ × Memory) :=
  let ehdr := blob.ehdr mem
  if blob.size < ehdr.ePhoff + ehdr.ePhnum.setWidth 64 * ehdr.ePhentsize.setWidth 64 then
    .value (1, mem)
  else
    Outcome.rounds (loadRound allocatePages blob ehdr.ePhoff) 65535 0 mem >>= fun r =>
      .value (r.1.getD efiSuccess, r.2)

/-! ## Symbols -/

def elf64ShtSymtab : BitVec 32 := 2#32

/-- The string `kmain`. -/
def kmainName : List (BitVec 8) := [0x6B#8, 0x6D#8, 0x61#8, 0x69#8, 0x6E#8]

/-- The loop of `gnuos_str_equal`; the left string is in the blob, the right one has no zero before
its end. -/
def strEqualLoop (blob : KernelBlob) (mem : Memory) : BitVec 64 → List (BitVec 8) → Outcome Bool
  | lhs, [] => blob.read mem 8 lhs >>= fun c => .value (c = 0#8)
  | lhs, r :: rhs => blob.read mem 8 lhs >>= fun c =>
    if c = 0#8 then .value false
    else if c ≠ r then .value false
    else strEqualLoop blob mem (lhs + 1#64) rhs

def gnuosStrEqual (blob : KernelBlob) (mem : Memory) (lhs : BitVec 64) (rhs : List (BitVec 8)) :
    Outcome Bool :=
  if blob.start + lhs = 0#64 then .value false else strEqualLoop blob mem lhs rhs

/-- The fields of a symbol table and of its string table that the symbols are looked up with. -/
structure SymbolTable where
  symtab : BitVec 64
  entsize : BitVec 64
  strtab : BitVec 64
  strsize : BitVec 64

/-- The body of the loop over the symbols: the value of `kmain`. -/
def matchSymbol (blob : KernelBlob) (mem : Memory) (t : SymbolTable) (index : ℕ) :
    Outcome (Option (BitVec 64)) := do
  let sym := t.symtab + BitVec.ofNat 64 index * t.entsize
  let stName ← blob.read mem 32 sym
  if t.strsize ≤ stName.setWidth 64 then return none
  else
    let equal ← gnuosStrEqual blob mem (t.strtab + stName.setWidth 64) kmainName
    if equal then
      let stValue ← blob.read mem 64 (sym + 8#64)
      return some stValue
    else return none

/-- The string table of the section at `shdr`, which is a symbol table with the given fields. -/
def searchSymbols (blob : KernelBlob) (mem : Memory) (shdr shOffset shSize entsize : BitVec 64) :
    Outcome (Option (BitVec 64)) := do
  let strOffset ← blob.read mem 64 (shdr + 24#64)
  let strSize ← blob.read mem 64 (shdr + 32#64)
  if blob.size < strOffset + strSize then return none
  else
    Outcome.search (matchSymbol blob mem ⟨shOffset, entsize, strOffset, strSize⟩)
      (shSize / entsize).toNat

/-- The offset of a section header. -/
def Elf64Ehdr.shdr (ehdr : Elf64Ehdr) (index : ℕ) : BitVec 64 :=
  ehdr.eShoff + BitVec.ofNat 64 index * ehdr.eShentsize.setWidth 64

/-- The body of the loop over the sections. -/
def searchSection (blob : KernelBlob) (mem : Memory) (ehdr : Elf64Ehdr) (index : ℕ) :
    Outcome (Option (BitVec 64)) := do
  let shdr := ehdr.shdr index
  let shType ← blob.read mem 32 (shdr + 4#64)
  if shType ≠ elf64ShtSymtab then return none
  else
    let entsize ← blob.read mem 64 (shdr + 56#64)
    if entsize < 24#64 then return none
    else
      let link ← blob.read mem 32 (shdr + 40#64)
      if ehdr.eShnum.toNat ≤ link.toNat then return none
      else
        let shOffset ← blob.read mem 64 (shdr + 24#64)
        let shSize ← blob.read mem 64 (shdr + 32#64)
        if blob.size < shOffset + shSize then return none
        else searchSymbols blob mem (ehdr.shdr link.toNat) shOffset shSize entsize

/-- The entry point, or 0. -/
def gnuosFindKmainSymbol (blob : KernelBlob) (mem : Memory) : Outcome (BitVec 64) :=
  let ehdr := blob.ehdr mem
  if ehdr.eShoff = 0#64 ∨ ehdr.eShentsize = 0#16 ∨ ehdr.eShnum = 0#16 then .value 0#64
  else if blob.size < ehdr.eShoff + ehdr.eShnum.setWidth 64 * ehdr.eShentsize.setWidth 64 then
    .value 0#64
  else
    Outcome.search (searchSection blob mem ehdr) ehdr.eShnum.toNat >>= fun r =>
      .value (r.getD 0#64)

end GnuOS.Boot

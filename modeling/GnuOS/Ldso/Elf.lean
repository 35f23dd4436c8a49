import GnuOS.Lib.Memory

/-!
# The dynamic section and its relocations

A model of `ldso_elf_parse_dynamic` and `ldso_elf_apply_relocations` in
`userspace/libc/ldso/ldso_elf.c`.  The tables are in memory and are read there entry by entry; the
structures that the caller passes (the layout, the dynamic information and the result) are values.
A pointer is its address, and the address 0 is the null pointer.
-/

namespace GnuOS.Ldso

open GnuOS.Lib

/-! ## Memory -/

def word64 (mem : Memory) (a : BitVec 64) : BitVec 64 := BitVec.ofNat 64 (mem.load a 8)
def word32 (mem : Memory) (a : BitVec 64) : BitVec 32 := BitVec.ofNat 32 (mem.load a 4)
def word16 (mem : Memory) (a : BitVec 64) : BitVec 16 := BitVec.ofNat 16 (mem.load a 2)

/-- The address of `table[index]`, for entries of `size` bytes. -/
def entryAddr (table : BitVec 64) (size index : ℕ) : BitVec 64 :=
  table + BitVec.ofNat 64 (size * index)

/-! ## Constants -/

def ldsoDtNull : BitVec 64 := 0#64
def ldsoDtPltrelsz : BitVec 64 := 2#64
def ldsoDtHash : BitVec 64 := 4#64
def ldsoDtStrtab : BitVec 64 := 5#64
def ldsoDtSymtab : BitVec 64 := 6#64
def ldsoDtRela : BitVec 64 := 7#64
def ldsoDtRelasz : BitVec 64 := 8#64
def ldsoDtRelaent : BitVec 64 := 9#64
def ldsoDtStrsz : BitVec 64 := 10#64
def ldsoDtSyment : BitVec 64 := 11#64
def ldsoDtInit : BitVec 64 := 12#64
def ldsoDtPltrel : BitVec 64 := 20#64
def ldsoDtJmprel : BitVec 64 := 23#64
def ldsoDtInitArray : BitVec 64 := 25#64
def ldsoDtInitArraysz : BitVec 64 := 27#64

def ldsoDtPltrelRela : BitVec 64 := ldsoDtRela

def ldsoRX8664None : BitVec 32 := 0#32
def ldsoRX866464 : BitVec 32 := 1#32
def ldsoRX8664GlobDat : BitVec 32 := 6#32
def ldsoRX8664JumpSlot : BitVec 32 := 7#32
def ldsoRX8664Relative : BitVec 32 := 8#32

def ldsoShnUndef : BitVec 16 := 0#16

/-! ## Entries -/

/-- `ldso_elf_dyn_t`, 16 bytes. -/
structure Dyn where
  dTag : BitVec 64
  dUn : BitVec 64
  deriving DecidableEq, Repr

def readDyn (mem : Memory) (table : BitVec 64) (index : ℕ) : Dyn :=
  let a := entryAddr table 16 index
  ⟨word64 mem a, word64 mem (a + 8#64)⟩

/-- The fields of `ldso_elf_sym_t` that are read, of 24 bytes. -/
structure Sym where
  stName : BitVec 32
  stShndx : BitVec 16
  stValue : BitVec 64
  deriving DecidableEq, Repr

def readSym (mem : Memory) (table : BitVec 64) (index : ℕ) : Sym :=
  let a := entryAddr table 24 index
  ⟨word32 mem a, word16 mem (a + 6#64), word64 mem (a + 8#64)⟩

/-- `ldso_elf_rela_t`, 24 bytes. -/
structure Rela where
  rOffset : BitVec 64
  rInfo : BitVec 64
  rAddend : BitVec 64
  deriving DecidableEq, Repr

def readRela (mem : Memory) (table : BitVec 64) (index : ℕ) : Rela :=
  let a := entryAddr table 24 index
  ⟨word64 mem a, word64 mem (a + 8#64), word64 mem (a + 16#64)⟩

def ldsoElf64RSym (info : BitVec 64) : BitVec 32 := (info >>> 32).setWidth 32
def ldsoElf64RType (info : BitVec 64) : BitVec 32 := (info &&& 0xFFFFFFFF#64).setWidth 32

/-! ## The dynamic section -/

/-- `ldso_elf_dynamic_info_t` -/
structure DynamicInfo where
  dynamicEntries : BitVec 64
  dynamicCount : BitVec 64
  hashTable : BitVec 64
  hashNchain : BitVec 64
  strtab : BitVec 64
  strsz : BitVec 64
  symtab : BitVec 64
  syment : BitVec 64
  rela : BitVec 64
  relaCount : BitVec 64
  relaEnt : BitVec 64
  jmprel : BitVec 64
  jmprelCount : BitVec 64
  pltrelType : BitVec 64
  initFunc : BitVec 64
  initArray : BitVec 64
  initArrayCount : BitVec 64
  deriving DecidableEq, Repr

def ldsoElfDynamicReset : DynamicInfo :=
  ⟨0#64, 0#64, 0#64, 0#64, 0#64, 0#64, 0#64, 0#64, 0#64, 0#64, 0#64, 0#64, 0#64, 0#64, 0#64,
    0#64, 0#64⟩

/-- The variables of the loop of `ldso_elf_parse_dynamic`. -/
structure ParseState where
  info : DynamicInfo
  relaSize : BitVec 64
  pltrelSize : BitVec 64
  initArraySize : BitVec 64
  deriving DecidableEq, Repr

/-- The body of the loop, for an entry other than `DT_NULL`. -/
def parseEntry (loadBias : BitVec 64) (s : ParseState) (entry : Dyn) : ParseState :=
  if entry.dTag = ldsoDtStrtab then
    { s with info := { s.info with strtab := loadBias + entry.dUn } }
  else if entry.dTag = ldsoDtHash then
    { s with info := { s.info with hashTable := loadBias + entry.dUn } }
  else if entry.dTag = ldsoDtStrsz then { s with info := { s.info with strsz := entry.dUn } }
  else if entry.dTag = ldsoDtSymtab then
    { s with info := { s.info with symtab := loadBias + entry.dUn } }
  else if entry.dTag = ldsoDtSyment then { s with info := { s.info with syment := entry.dUn } }
  else if entry.dTag = ldsoDtRela then
    { s with info := { s.info with rela := loadBias + entry.dUn } }
  else if entry.dTag = ldsoDtRelasz then { s with relaSize := entry.dUn }
  else if entry.dTag = ldsoDtRelaent then { s with info := { s.info with relaEnt := entry.dUn } }
  else if entry.dTag = ldsoDtJmprel then
    { s with info := { s.info with jmprel := loadBias + entry.dUn } }
  else if entry.dTag = ldsoDtPltrelsz then { s with pltrelSize := entry.dUn }
  else if entry.dTag = ldsoDtPltrel then
    { s with info := { s.info with pltrelType := entry.dUn } }
  else if entry.dTag = ldsoDtInit then
    { s with info := { s.info with initFunc := loadBias + entry.dUn } }
  else if entry.dTag = ldsoDtInitArray then
    { s with info := { s.info with initArray := loadBias + entry.dUn } }
  else if entry.dTag = ldsoDtInitArraysz then { s with initArraySize := entry.dUn }
  else s

/-- The loop, from entry `index` on with `n` rounds left. -/
def parseLoop (mem : Memory) (dynEntries loadBias : BitVec 64) :
    ℕ → ℕ → ParseState → ParseState
  | 0, _, s => s
  | n + 1, index, s =>
    let entry := readDyn mem dynEntries index
    if entry.dTag = ldsoDtNull then s
    else parseLoop mem dynEntries loadBias n (index + 1) (parseEntry loadBias s entry)

/-- The fields of the dynamic segment's program header that are read. -/
structure DynamicSegment where
  pVaddr : BitVec 64
  pFilesz : BitVec 64
  deriving DecidableEq, Repr

def DynamicSegment.count (segment : DynamicSegment) : BitVec 64 := segment.pFilesz / 16#64

/-- What the loop starts with. -/
def parseStart (segment : DynamicSegment) (loadBias : BitVec 64) : ParseState :=
  ⟨{ ldsoElfDynamicReset with
      dynamicEntries := loadBias + segment.pVaddr
      dynamicCount := segment.count }, 0#64, 0#64, 0#64⟩

/-- The counts, which are computed after the loop. -/
def parseFinish (mem : Memory) (s : ParseState) : DynamicInfo :=
  { s.info with
    hashNchain := if s.info.hashTable ≠ 0#64 then
      (word32 mem (s.info.hashTable + 4#64)).setWidth 64 else s.info.hashNchain
    relaCount := if s.info.rela ≠ 0#64 ∧ s.info.relaEnt = 24#64 then
      s.relaSize / s.info.relaEnt else s.info.relaCount
    jmprelCount := if s.info.jmprel ≠ 0#64 ∧ s.info.pltrelType = ldsoDtPltrelRela then
      s.pltrelSize / 24#64 else s.info.jmprelCount
    initArrayCount := if s.info.initArray ≠ 0#64 then
      s.initArraySize / 8#64 else s.info.initArrayCount }

/-- `none` is the return value -1; there is no segment if the layout has none. -/
def ldsoElfParseDynamic (mem : Memory) (segment : Option DynamicSegment) (loadBias : BitVec 64) :
    Option DynamicInfo :=
  match segment with
  | none => none
  | some segment =>
    if segment.pFilesz = 0#64 then none
    else
      let s := parseLoop mem (loadBias + segment.pVaddr) loadBias segment.count.toNat 0
        (parseStart segment loadBias)
      if s.info.symtab = 0#64 ∨ s.info.strtab = 0#64 ∨ s.info.syment ≠ 24#64 then none
      else some (parseFinish mem s)

/-! ## Symbols -/

/-- Two strings agree up to the end of the first. -/
def SameString (f g : ℕ → BitVec 8) : Prop := ∀ i, (∀ j < i, f j ≠ 0#8) → f i = g i

/-- A resolver whose answer depends on the name only: on the bytes up to the first zero. -/
structure Resolver where
  resolve : (ℕ → BitVec 8) → Option (BitVec 64)
  pure : ∀ f g, SameString f g → resolve f = resolve g

/-- The bytes from an address on. -/
def stringAt (mem : Memory) (a : BitVec 64) (i : ℕ) : BitVec 8 := mem (a + BitVec.ofNat 64 i)

/-- The address of the name, `none` for a null pointer. -/
def symbolName (info : DynamicInfo) (symbol : Sym) : Option (BitVec 64) :=
  if symbol.stName.setWidth 64 < info.strsz ∧ info.strtab ≠ 0#64 then
    some (info.strtab + symbol.stName.setWidth 64)
  else none

/-- The value, `none` for the return value -1. -/
def ldsoElfSymbolValue (info : DynamicInfo) (loadBias : BitVec 64) (symIndex : BitVec 32)
    (resolver : Option Resolver) (mem : Memory) : Option (BitVec 64) :=
  if info.symtab = 0#64 then none
  else
    let symbol := readSym mem info.symtab symIndex.toNat
    if symbol.stShndx ≠ ldsoShnUndef then some (loadBias + symbol.stValue)
    else
      match resolver, symbolName info symbol with
      | some resolver, some name =>
        if mem name = 0#8 then none else resolver.resolve (stringAt mem name)
      | _, _ => none

/-! ## Relocations -/

/-- `ldso_elf_reloc_result_t` -/
structure RelocResult where
  appliedCount : BitVec 64
  unresolvedCount : BitVec 64
  unsupportedCount : BitVec 64
  deriving DecidableEq, Repr

structure RelocState where
  mem : Memory
  result : RelocResult

def RelocState.start (mem : Memory) : RelocState := ⟨mem, ⟨0#64, 0#64, 0#64⟩⟩

def RelocState.write (s : RelocState) (target value : BitVec 64) : RelocState :=
  { s with
    mem := s.mem.store target 8 value.toNat
    result := { s.result with appliedCount := s.result.appliedCount + 1#64 } }

/-- The body of the loop of `ldso_elf_apply_rela_range`. -/
def applyRela (info : DynamicInfo) (loadBias : BitVec 64) (resolver : Option Resolver)
    (s : RelocState) (rela : Rela) : RelocState :=
  let target := loadBias + rela.rOffset
  let relaType := ldsoElf64RType rela.rInfo
  if relaType = ldsoRX8664None then s
  else if relaType = ldsoRX8664Relative then s.write target (loadBias + rela.rAddend)
  else if relaType = ldsoRX866464 ∨ relaType = ldsoRX8664GlobDat ∨
      relaType = ldsoRX8664JumpSlot then
    match ldsoElfSymbolValue info loadBias (ldsoElf64RSym rela.rInfo) resolver s.mem with
    | none =>
      { s with result := { s.result with unresolvedCount := s.result.unresolvedCount + 1#64 } }
    | some value => s.write target (value + rela.rAddend)
  else
    { s with result := { s.result with unsupportedCount := s.result.unsupportedCount + 1#64 } }

/-- The loop reads each entry from the memory that the entries before it have left. -/
def ldsoElfApplyRelaRange (info : DynamicInfo) (loadBias relaEntries : BitVec 64) (relaCount : ℕ)
    (resolver : Option Resolver) (s : RelocState) : Bool × RelocState :=
  if relaEntries = 0#64 then (false, s)
  else
    (true, (List.range relaCount).foldl
      (fun s index => applyRela info loadBias resolver s (readRela s.mem relaEntries index)) s)

/-- The table of the procedure linkage table. -/
def applyJmprel (info : DynamicInfo) (loadBias : BitVec 64) (resolver : Option Resolver)
    (s : RelocState) : Bool × RelocState :=
  if info.jmprel ≠ 0#64 ∧ 0#64 < info.jmprelCount then
    if info.pltrelType ≠ ldsoDtPltrelRela then
      (true, { s with result := { s.result with
        unsupportedCount := s.result.unsupportedCount + info.jmprelCount } })
    else
      ldsoElfApplyRelaRange info loadBias info.jmprel info.jmprelCount.toNat resolver s
  else (true, s)

/-- The return value is true for 0 and false for -1. -/
def ldsoElfApplyRelocations (info : DynamicInfo) (loadBias : BitVec 64)
    (resolver : Option Resolver) (mem : Memory) : Bool × RelocState :=
  let s := RelocState.start mem
  if info.rela ≠ 0#64 ∧ 0#64 < info.relaCount then
    match ldsoElfApplyRelaRange info loadBias info.rela info.relaCount.toNat resolver s with
    | (false, s) => (false, s)
    | (true, s) => applyJmprel info loadBias resolver s
  else applyJmprel info loadBias resolver s

end GnuOS.Ldso

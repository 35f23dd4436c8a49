import GnuOS.Lib.Patches
import GnuOS.Lib.Tokens
import GnuOS.Ldso.Dlfcn

/-!
# The bootstrap of the loader

A model of `ldso_stage0_bootstrap` in `userspace/libc/ldso/x86_64/ldso_bootstrap.c`, with the
functions that read the initial stack, and of `ldso_elf_classify_phdrs` in `ldso_elf.c`.  The stack,
its strings and the program headers are read in memory, and the address 0 is the null pointer.

Loops without a bound are given a number of rounds.  What the relocations and the initialisation
functions do to the memory is given by a `Linker`, since the latter are code of the program.  Both
can write to `g_ldso_stage0_state`, which is a part of the memory from there on; what the loader
reads before lies apart from it, and so do its code and its stack frames.
-/

namespace GnuOS.Ldso

open GnuOS.Lib

/-! ## The initial stack -/

def ldsoAuxvScanLimit : ℕ := 256
def ldsoStackScanLimit : ℕ := 4096

def ldsoAtNull : BitVec 64 := 0#64
def ldsoAtPhdr : BitVec 64 := 3#64
def ldsoAtPhent : BitVec 64 := 4#64
def ldsoAtPhnum : BitVec 64 := 5#64
def ldsoAtBase : BitVec 64 := 7#64
def ldsoAtEntry : BitVec 64 := 9#64

/-- The loop of `ldso_stack_skip_argv`: `none` if one of the `n` words is zero. -/
def skipArgvLoop (mem : Memory) : ℕ → BitVec 64 → Option (BitVec 64)
  | 0, cursor => some cursor
  | n + 1, cursor =>
    if word64 mem cursor = 0#64 then none else skipArgvLoop mem n (cursor + 8#64)

def ldsoStackSkipArgv (mem : Memory) (cursor argc : BitVec 64) : BitVec 64 :=
  if cursor = 0#64 then 0#64
  else
    match skipArgvLoop mem argc.toNat cursor with
    | none => 0#64
    | some cursor => if word64 mem cursor ≠ 0#64 then 0#64 else cursor + 8#64

/-- The loop of `ldso_stack_skip_envp`, with `n` rounds left. -/
def skipEnvpLoop (mem : Memory) : ℕ → BitVec 64 → BitVec 64
  | 0, _ => 0#64
  | n + 1, cursor =>
    if word64 mem cursor = 0#64 then cursor + 8#64 else skipEnvpLoop mem n (cursor + 8#64)

def ldsoStackSkipEnvp (mem : Memory) (cursor : BitVec 64) : BitVec 64 :=
  if cursor = 0#64 then 0#64 else skipEnvpLoop mem ldsoStackScanLimit cursor

def ldsoFindEnvp (mem : Memory) (initialStack : BitVec 64) : BitVec 64 :=
  if initialStack = 0#64 then 0#64
  else ldsoStackSkipArgv mem (initialStack + 8#64) (word64 mem initialStack)

def ldsoFindAuxv (mem : Memory) (initialStack : BitVec 64) : BitVec 64 :=
  if initialStack = 0#64 then 0#64
  else
    let cursor := ldsoStackSkipArgv mem (initialStack + 8#64) (word64 mem initialStack)
    if cursor = 0#64 then 0#64 else ldsoStackSkipEnvp mem cursor

/-- The loop of `ldso_auxv_lookup`, from entry `index` on with `n` rounds left. -/
def auxvLookupLoop (mem : Memory) (auxv key : BitVec 64) : ℕ → ℕ → BitVec 64
  | 0, _ => 0#64
  | n + 1, index =>
    let entry := entryAddr auxv 16 index
    if word64 mem entry = ldsoAtNull then 0#64
    else if word64 mem entry = key then word64 mem (entry + 8#64)
    else auxvLookupLoop mem auxv key n (index + 1)

def ldsoAuxvLookup (mem : Memory) (auxv key : BitVec 64) : BitVec 64 :=
  if auxv = 0#64 then 0#64 else auxvLookupLoop mem auxv key ldsoAuxvScanLimit 0

/-! ## The environment -/

/-- The loop of `ldso_str_starts_with`. -/
def startsWithLoop (mem : Memory) : BitVec 64 → List (BitVec 8) → Bool
  | _, [] => true
  | value, c :: key => if mem value ≠ c then false else startsWithLoop mem (value + 1#64) key

def ldsoStrStartsWith (mem : Memory) (value : BitVec 64) (key : List (BitVec 8)) : Bool :=
  if value = 0#64 then false else startsWithLoop mem value key

/-- The loop of `ldso_find_env_value`, over the words from `envp[index]` on. -/
def findEnvLoop (mem : Memory) (envp : BitVec 64) (key : List (BitVec 8)) :
    ℕ → ℕ → Outcome (BitVec 64)
  | 0, _ => .unfinished
  | fuel + 1, index =>
    let entry := word64 mem (entryAddr envp 8 index)
    if entry = 0#64 then .value 0#64
    else if ldsoStrStartsWith mem entry key then .value (entry + BitVec.ofNat 64 key.length)
    else findEnvLoop mem envp key fuel (index + 1)

def ldsoFindEnvValue (fuel : ℕ) (mem : Memory) (initialStack : BitVec 64)
    (key : List (BitVec 8)) : Outcome (BitVec 64) :=
  let envp := ldsoFindEnvp mem initialStack
  if envp = 0#64 ∨ key.length = 0 then .value 0#64 else findEnvLoop mem envp key fuel 0

/-! ## State -/

/-- `ldso_stage0_state_t` -/
structure Stage0State where
  ready : BitVec 64
  atBase : BitVec 64
  atEntry : BitVec 64
  atPhdr : BitVec 64
  atPhent : BitVec 64
  atPhnum : BitVec 64
  loadBias : BitVec 64
  loadCount : BitVec 64
  hasDynamicSegment : BitVec 64
  hasGnuRelro : BitVec 64
  dynamicReady : BitVec 64
  relocationsAttempted : BitVec 64
  relocationsApplied : BitVec 64
  relocationsUnresolved : BitVec 64
  relocationsUnsupported : BitVec 64
  initSequenceAttempted : BitVec 64
  initSequenceCompleted : BitVec 64
  dlfcnReady : BitVec 64
  builtinObjectRegistered : BitVec 64
  ldPreloadSeen : BitVec 64
  ldPreloadAttempted : BitVec 64
  ldPreloadLoaded : BitVec 64
  ldPreloadFailed : BitVec 64
  deriving DecidableEq, Repr

def ldsoStage0StateReset : Stage0State :=
  ⟨0#64, 0#64, 0#64, 0#64, 0#64, 0#64, 0#64, 0#64, 0#64, 0#64, 0#64, 0#64, 0#64, 0#64, 0#64, 0#64,
    0#64, 0#64, 0#64, 0#64, 0#64, 0#64, 0#64⟩

/-- The words of the state, in the order of the source. -/
def Stage0State.words (s : Stage0State) : List (BitVec 64) :=
  [s.ready, s.atBase, s.atEntry, s.atPhdr, s.atPhent, s.atPhnum, s.loadBias, s.loadCount,
    s.hasDynamicSegment, s.hasGnuRelro, s.dynamicReady, s.relocationsAttempted,
    s.relocationsApplied, s.relocationsUnresolved, s.relocationsUnsupported,
    s.initSequenceAttempted, s.initSequenceCompleted, s.dlfcnReady, s.builtinObjectRegistered,
    s.ldPreloadSeen, s.ldPreloadAttempted, s.ldPreloadLoaded, s.ldPreloadFailed]

def Stage0State.store (s : Stage0State) (a : BitVec 64) (mem : Memory) : Memory :=
  mem.storeWords a s.words

def Stage0State.load (mem : Memory) (a : BitVec 64) : Stage0State :=
  let word := fun i => word64 mem (entryAddr a 8 i)
  ⟨word 0, word 1, word 2, word 3, word 4, word 5, word 6, word 7, word 8, word 9, word 10, word 11,
    word 12, word 13, word 14, word 15, word 16, word 17, word 18, word 19, word 20, word 21,
    word 22⟩

/-- The state of the loader and its registry, and the names that were given to `ldso_dlopen` for
`LD_PRELOAD`, in order. -/
structure Stage0 where
  state : Stage0State
  dlfcn : Dlfcn
  opened : List CString

/-! ## `LD_PRELOAD` -/

/-- The string `LD_PRELOAD=`. -/
def ldsoLdPreloadKey : List (BitVec 8) :=
  [0x4C#8, 0x44#8, 0x5F#8, 0x50#8, 0x52#8, 0x45#8, 0x4C#8, 0x4F#8, 0x41#8, 0x44#8, 0x3D#8]

def ldsoPreloadTokenMax : ℕ := 128

/-- A space or a colon. -/
def ldsoIsPreloadDelimiter (c : BitVec 8) : Bool := c = 0x20#8 ∨ c = 0x3A#8

/-- `token` and `token_len`. -/
structure TokenBuffer where
  bytes : ℕ → BitVec 8
  len : ℕ

/-- `token[index] = c`, which is outside of the buffer if the index is too large. -/
def TokenBuffer.write (token : TokenBuffer) (index : ℕ) (c : BitVec 8) : Outcome TokenBuffer :=
  if index < ldsoPreloadTokenMax then
    .value { token with bytes := Function.update token.bytes index c }
  else .outside

/-- The string at the start of the buffer. -/
def TokenBuffer.string (token : TokenBuffer) : CString :=
  ⟨((List.range ldsoPreloadTokenMax).map token.bytes).takeWhile fun c => c ≠ 0#8, fun hzero => by
    simpa using List.mem_takeWhile_imp hzero⟩

/-- The loop that copies a token. -/
def collectToken (mem : Memory) : ℕ → BitVec 64 → TokenBuffer → Outcome (BitVec 64 × TokenBuffer)
  | 0, _, _ => .unfinished
  | fuel + 1, cursor, token =>
    if mem cursor ≠ 0#8 ∧ ldsoIsPreloadDelimiter (mem cursor) = false then do
      let token ← if token.len < ldsoPreloadTokenMax - 1 then do
          let token ← token.write token.len (mem cursor)
          pure { token with len := token.len + 1 }
        else pure token
      collectToken mem fuel (cursor + 1#64) token
    else .value (cursor, token)

/-- Open one token. -/
def Stage0.attempt (s : Stage0) (token : CString) : Stage0 :=
  let attempted := s.state.ldPreloadAttempted + 1#64
  match ldsoDlopen s.dlfcn (some token) with
  | (dlfcn, some _) =>
    { state := { s.state with
        ldPreloadAttempted := attempted
        ldPreloadLoaded := s.state.ldPreloadLoaded + 1#64 }
      dlfcn := dlfcn
      opened := s.opened ++ [token] }
  | (dlfcn, none) =>
    { state := { s.state with
        ldPreloadAttempted := attempted
        ldPreloadFailed := s.state.ldPreloadFailed + 1#64 }
      dlfcn := dlfcn
      opened := s.opened ++ [token] }

/-- The loop over the value.  The buffer is not initialised: `garbage` is what it holds. -/
def preloadLoop (mem : Memory) (garbage : ℕ → BitVec 8) : ℕ → BitVec 64 → Stage0 → Outcome Stage0
  | 0, _, _ => .unfinished
  | fuel + 1, cursor, s =>
    if mem cursor = 0#8 then .value s
    else do
      let cursor ← scanWhile mem ldsoIsPreloadDelimiter fuel cursor
      if mem cursor = 0#8 then .value s
      else do
        let (cursor, token) ← collectToken mem fuel cursor ⟨garbage, 0⟩
        let token ← token.write token.len 0#8
        if token.len = 0 then preloadLoop mem garbage fuel cursor s
        else preloadLoop mem garbage fuel cursor (s.attempt token.string)

def ldsoStage0ApplyLdPreload (fuel : ℕ) (mem : Memory) (garbage : ℕ → BitVec 8)
    (initialStack : BitVec 64) (s : Stage0) : Outcome Stage0 := do
  let value ← ldsoFindEnvValue fuel mem initialStack ldsoLdPreloadKey
  if value = 0#64 ∨ mem value = 0#8 then .value s
  else
    let seen := { s.state with ldPreloadSeen := 1#64 }
    preloadLoop mem garbage fuel value { s with state := seen }

/-! ## Program headers -/

def ldsoPtLoad : BitVec 32 := 1#32
def ldsoPtDynamic : BitVec 32 := 2#32
def ldsoPtPhdr : BitVec 32 := 6#32
def ldsoPtGnuRelro : BitVec 32 := 0x6474E552#32

/-- `sizeof(ldso_elf_phdr_t)` -/
def ldsoElfPhdrSize : ℕ := 56

def pType (mem : Memory) (phdr : BitVec 64) : BitVec 32 := word32 mem phdr
def pVaddr (mem : Memory) (phdr : BitVec 64) : BitVec 64 := word64 mem (phdr + 16#64)
def pFilesz (mem : Memory) (phdr : BitVec 64) : BitVec 64 := word64 mem (phdr + 32#64)

/-- `ldso_elf_layout_t` -/
structure Layout where
  phdrTable : BitVec 64
  phdrCount : BitVec 64
  loadCount : BitVec 64
  phdrSegment : BitVec 64
  dynamicSegment : BitVec 64
  relroSegment : BitVec 64
  deriving DecidableEq, Repr

/-- The body of the loop of `ldso_elf_classify_phdrs`. -/
def classifyPhdr (mem : Memory) (layout : Layout) (phdr : BitVec 64) : Layout :=
  if pType mem phdr = ldsoPtLoad then { layout with loadCount := layout.loadCount + 1#64 }
  else if pType mem phdr = ldsoPtPhdr then
    if layout.phdrSegment = 0#64 then { layout with phdrSegment := phdr } else layout
  else if pType mem phdr = ldsoPtDynamic then
    if layout.dynamicSegment = 0#64 then { layout with dynamicSegment := phdr } else layout
  else if pType mem phdr = ldsoPtGnuRelro then
    if layout.relroSegment = 0#64 then { layout with relroSegment := phdr } else layout
  else layout

/-- `none` is the return value -1. -/
def ldsoElfClassifyPhdrs (mem : Memory) (phdrs phnum phentsize : BitVec 64) : Option Layout :=
  if phdrs = 0#64 ∨ phnum = 0#64 ∨ phentsize ≠ BitVec.ofNat 64 ldsoElfPhdrSize then none
  else
    some ((List.range phnum.toNat).foldl
      (fun layout index => classifyPhdr mem layout (entryAddr phdrs ldsoElfPhdrSize index))
      ⟨phdrs, phnum, 0#64, 0#64, 0#64, 0#64⟩)

def ldsoComputeLoadBias (mem : Memory) (layout : Layout) (atPhdr : BitVec 64) : BitVec 64 :=
  if layout.phdrSegment = 0#64 then 0#64
  else if atPhdr < pVaddr mem layout.phdrSegment then 0#64
  else atPhdr - pVaddr mem layout.phdrSegment

/-- The dynamic segment of the layout, if it has one. -/
def Layout.dynamic (mem : Memory) (layout : Layout) : Option DynamicSegment :=
  if layout.dynamicSegment = 0#64 then none
  else some ⟨pVaddr mem layout.dynamicSegment, pFilesz mem layout.dynamicSegment⟩

/-! ## Bootstrap -/

def ldsoStage0BuiltinSymbolCount : BitVec 64 := 77#64

/-- The string `stage0-builtins`. -/
def builtinsName : CString :=
  ⟨[0x73#8, 0x74#8, 0x61#8, 0x67#8, 0x65#8, 0x30#8, 0x2D#8, 0x62#8, 0x75#8, 0x69#8, 0x6C#8, 0x74#8,
    0x69#8, 0x6E#8, 0x73#8], by decide⟩

/-- The string `libc.so.6`. -/
def libcName : CString :=
  ⟨[0x6C#8, 0x69#8, 0x62#8, 0x63#8, 0x2E#8, 0x73#8, 0x6F#8, 0x2E#8, 0x36#8], by decide⟩

/-- The address of `g_ldso_stage0_state`, the table of builtin symbols, and what the program makes
of the memory: its relocations, as `ldso_elf_apply_relocations` applies them with symbols of the
registry, and its initialisation functions, `none` if they do not return. -/
structure Linker where
  stateAddr : BitVec 64
  builtinSymbols : ℕ → BuiltinSymbol
  relocate : DynamicInfo → BitVec 64 → Dlfcn → Memory → Bool × RelocState
  runInit : DynamicInfo → Memory → Option Memory

/-- The return value is true for 0 and false for -1. -/
def ldsoStage0RegisterBuiltinSymbols (L : Linker) (s : Dlfcn) : Dlfcn × Bool :=
  let (s, registeredPrimary) := ldsoDlfcnRegisterBuiltinObject s (some builtinsName)
    (some L.builtinSymbols) ldsoStage0BuiltinSymbolCount
  let (s, registeredAlias) := ldsoDlfcnRegisterBuiltinObject s (some libcName)
    (some L.builtinSymbols) ldsoStage0BuiltinSymbolCount
  (s, registeredPrimary && registeredAlias)

/-- The relocations, and the initialisation functions if they were applied. -/
def stage0Relocate (L : Linker) (mem : Memory) (loadBias : BitVec 64) (info : DynamicInfo)
    (s : Stage0) : Outcome Memory :=
  let state := { s.state with dynamicReady := 1#64, relocationsAttempted := 1#64 }
  let word := fun i => entryAddr L.stateAddr 8 i
  match L.relocate info loadBias s.dlfcn (state.store L.stateAddr mem) with
  | (false, r) => .value r.mem
  | (true, r) =>
    -- the three counts, and `init_sequence_attempted`
    match L.runInit info (r.mem.patch [(word 12, r.result.appliedCount),
      (word 13, r.result.unresolvedCount), (word 14, r.result.unsupportedCount),
      (word 15, 1#64)]) with
    | none => .unfinished
    | some mem => .value (mem.patch [(word 16, 1#64)])

/-- `LD_PRELOAD`, if the builtin symbols were registered. -/
def stage0Preload (fuel : ℕ) (mem : Memory) (garbage : ℕ → BitVec 8) (initialStack : BitVec 64)
    (registered : Bool) (s : Stage0) : Outcome Stage0 :=
  if registered then
    ldsoStage0ApplyLdPreload fuel mem garbage initialStack
      { s with state := { s.state with builtinObjectRegistered := 1#64 } }
  else .value s

/-- What follows a dynamic section that was parsed: the registry and the memory. -/
def stage0Link (L : Linker) (fuel : ℕ) (mem : Memory) (garbage : ℕ → BitVec 8)
    (initialStack loadBias : BitVec 64) (info : DynamicInfo) (s : Stage0) :
    Outcome (Dlfcn × Memory) := do
  let (dlfcn, registered) :=
    ldsoStage0RegisterBuiltinSymbols L (ldsoDlfcnInit s.dlfcn (some info) loadBias)
  let s ← stage0Preload fuel mem garbage initialStack registered
    { s with dlfcn := dlfcn, state := { s.state with dlfcnReady := 1#64 } }
  let mem ← stage0Relocate L mem loadBias info s
  pure (s.dlfcn, mem)

/-- The values of the auxiliary vector that are kept. -/
def stage0Auxv (mem : Memory) (auxv : BitVec 64) : Stage0State :=
  { ldsoStage0StateReset with
    atBase := ldsoAuxvLookup mem auxv ldsoAtBase
    atEntry := ldsoAuxvLookup mem auxv ldsoAtEntry
    atPhdr := ldsoAuxvLookup mem auxv ldsoAtPhdr
    atPhent := ldsoAuxvLookup mem auxv ldsoAtPhent
    atPhnum := ldsoAuxvLookup mem auxv ldsoAtPhnum }

/-- What the program headers add. -/
def stage0Layout (mem : Memory) (layout : Layout) (state : Stage0State) : Stage0State :=
  { state with
    loadBias := ldsoComputeLoadBias mem layout state.atPhdr
    loadCount := layout.loadCount
    hasDynamicSegment := if layout.dynamicSegment ≠ 0#64 then 1#64 else 0#64
    hasGnuRelro := if layout.relroSegment ≠ 0#64 then 1#64 else 0#64 }

/-- What the loader knows when it comes to the dynamic section: its state, and the layout if it does
not return before. -/
def stage0Headers (mem : Memory) (initialStack : BitVec 64) : Stage0State × Option Layout :=
  let auxv := ldsoFindAuxv mem initialStack
  if auxv = 0#64 then (ldsoStage0StateReset, none)
  else
    let state := stage0Auxv mem auxv
    if state.atPhdr = 0#64 ∨ state.atPhnum = 0#64 then (state, none)
    else
      match ldsoElfClassifyPhdrs mem state.atPhdr state.atPhnum state.atPhent with
      | none => (state, none)
      | some layout => (stage0Layout mem layout state, some layout)

/-- The registry and the memory that the loader leaves. -/
def ldsoStage0Bootstrap (L : Linker) (fuel : ℕ) (mem : Memory) (garbage : ℕ → BitVec 8)
    (dlfcn : Dlfcn) (initialStack : BitVec 64) : Outcome (Dlfcn × Memory) :=
  match stage0Headers mem initialStack with
  | (state, none) => .value (dlfcn, state.store L.stateAddr mem)
  | (state, some layout) => do
    let (dlfcn, mem) ← match ldsoElfParseDynamic mem (layout.dynamic mem) state.loadBias with
      | none => .value (dlfcn, state.store L.stateAddr mem)
      | some info =>
        stage0Link L fuel mem garbage initialStack state.loadBias info ⟨state, dlfcn, []⟩
    -- `ready` is the first word of the state
    pure (dlfcn, mem.patch [(L.stateAddr, 1#64)])

/-! ## The program image -/

/-- What `dl_iterate_phdr` passes to its callback, apart from the empty name. -/
structure PhdrInfo where
  dlpiAddr : BitVec 64
  dlpiPhdr : BitVec 64
  dlpiPhnum : BitVec 16
  deriving DecidableEq, Repr

/-- `none` if the callback is not called and -1 is returned; `callback` says whether the pointer is
not null. -/
def ldsoDlIteratePhdr (s : Stage0State) (callback : Bool) : Option PhdrInfo :=
  if !callback then none
  else if s.atPhdr = 0#64 ∨ s.atPhnum = 0#64 ∨ s.atPhent ≠ BitVec.ofNat 64 ldsoElfPhdrSize then
    none
  else some ⟨s.loadBias, s.atPhdr, s.atPhnum.setWidth 16⟩

end GnuOS.Ldso

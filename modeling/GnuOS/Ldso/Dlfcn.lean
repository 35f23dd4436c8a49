import GnuOS.Lib.Search
import GnuOS.Ldso.Elf

/-!
# The registry of shared objects

A model of `userspace/libc/ldso/ldso_dlfcn.c`: eight slots with objects of two kinds, which are
found by their names, and whose symbols are found by theirs.
-/

namespace GnuOS.Ldso

open GnuOS.Lib

/-! ## Strings -/

/-- A string that ends: the bytes before the terminating zero. -/
structure CString where
  bytes : List (BitVec 8)
  nonzero : 0#8 ∉ bytes
  deriving DecidableEq

theorem CString.eq_of_bytes {s t : CString} (h : s.bytes = t.bytes) : s = t := by
  obtain ⟨_, _⟩ := s
  obtain ⟨_, _⟩ := t
  subst h
  rfl

/-- The bytes from its start on, the terminating zero included. -/
def CString.byte (s : CString) (i : ℕ) : BitVec 8 := s.bytes.getD i 0#8

/-- The loop of `ldso_str_equal`, which ends with the second string at the latest. -/
def strEqualLoop : (ℕ → BitVec 8) → List (BitVec 8) → Bool
  | lhs, [] => lhs 0 = 0#8
  | lhs, c :: rhs =>
    if lhs 0 = 0#8 then false
    else if lhs 0 ≠ c then false
    else strEqualLoop (fun i => lhs (i + 1)) rhs

/-- `none` is a null pointer. -/
def ldsoStrEqual (lhs : Option (ℕ → BitVec 8)) (rhs : Option CString) : Bool :=
  match lhs, rhs with
  | some lhs, some rhs => strEqualLoop lhs rhs.bytes
  | _, _ => false

/-! ## State -/

def ldsoDlfcnMaxObjects : ℕ := 8

def ldsoDlfcnDynamicScanFallback : BitVec 64 := 256#64

inductive ObjectKind
  | none
  | dynamic
  | builtin
  deriving DecidableEq, Repr

/-- `ldso_dlfcn_builtin_symbol_t` -/
structure BuiltinSymbol where
  name : Option CString
  address : BitVec 64
  deriving DecidableEq

/-- `ldso_dlfcn_object_t` -/
structure Object where
  inUse : Bool
  kind : ObjectKind
  name : Option CString
  refcount : BitVec 64
  dynamicInfo : Option DynamicInfo
  loadBias : BitVec 64
  builtinSymbols : Option (ℕ → BuiltinSymbol)
  builtinSymbolCount : BitVec 64

/-- The static variables. -/
structure Dlfcn where
  objects : ℕ → Object
  initialized : Bool
  errorReady : Bool
  error : String

/-- What a caller can pass as a handle: the two reserved pointers, a pointer to an object of the
table, or a pointer to somewhere else. -/
inductive Handle
  | rtldDefault
  | rtldNext
  | object (index : ℕ)
  | elsewhere
  deriving DecidableEq, Repr

def ldsoErrorClear (s : Dlfcn) : Dlfcn := { s with errorReady := false, error := "" }

/-- Every message fits into the buffer of 160 bytes. -/
def ldsoErrorSet (s : Dlfcn) (message : String) : Dlfcn :=
  { s with errorReady := true, error := message }

def Dlfcn.setObject (s : Dlfcn) (index : ℕ) (object : Object) : Dlfcn :=
  { s with objects := Function.update s.objects index object }

@[simp] theorem setObject_self (s : Dlfcn) (index : ℕ) (object : Object) :
    (s.setObject index object).objects index = object :=
  Function.update_self _ _ _

theorem setObject_of_ne {index i : ℕ} (h : i ≠ index) (s : Dlfcn) (object : Object) :
    (s.setObject index object).objects i = s.objects i :=
  Function.update_of_ne h _ _

def freeObject : Object :=
  ⟨false, .none, none, 0#64, none, 0#64, none, 0#64⟩

def ldsoObjectsReset (s : Dlfcn) : Dlfcn := { s with objects := fun _ => freeObject }

def ldsoObjectFindFreeSlot (s : Dlfcn) : Option ℕ :=
  (List.range ldsoDlfcnMaxObjects).find? fun i => !(s.objects i).inUse

def ldsoObjectFindByName (s : Dlfcn) (name : Option CString) : Option ℕ :=
  match name with
  | none => none
  | some name => (List.range ldsoDlfcnMaxObjects).find? fun i =>
      (s.objects i).inUse && ldsoStrEqual ((s.objects i).name.map CString.byte) (some name)

def ldsoObjectHandleValid (s : Dlfcn) : Handle → Bool
  | .object index => decide (index < ldsoDlfcnMaxObjects) && (s.objects index).inUse
  | _ => false

/-! ## Symbols -/

def symbolCount (info : DynamicInfo) : BitVec 64 :=
  if info.hashNchain = 0#64 then ldsoDlfcnDynamicScanFallback else info.hashNchain

/-- The body of the loop: `none` goes on, and `some` returns, with an address or without one. -/
def dynamicEntry (mem : Memory) (info : DynamicInfo) (loadBias : BitVec 64) (symbolName : CString)
    (index : ℕ) : Option (Option (BitVec 64)) :=
  let symbol := readSym mem info.symtab index
  if info.strsz ≤ symbol.stName.setWidth 64 then none
  else if !ldsoStrEqual (some (stringAt mem (info.strtab + symbol.stName.setWidth 64)))
      (some symbolName) then none
  else if symbol.stShndx = ldsoShnUndef then some none
  else some (some (loadBias + symbol.stValue))

def ldsoDynamicObjectResolveSymbol (mem : Memory) (object : Object) (symbolName : CString) :
    Option (BitVec 64) :=
  match object.dynamicInfo with
  | none => none
  | some info =>
    if info.symtab = 0#64 ∨ info.strtab = 0#64 ∨ info.strsz = 0#64 then none
    else
      (firstSome (dynamicEntry mem info object.loadBias symbolName)
        ((symbolCount info).toNat - 1) 1).join

def ldsoBuiltinObjectResolveSymbol (object : Object) (symbolName : CString) :
    Option (BitVec 64) :=
  match object.builtinSymbols with
  | none => none
  | some symbols =>
    firstSome (fun index =>
      if ldsoStrEqual ((symbols index).name.map CString.byte) (some symbolName) then
        some (symbols index).address
      else none) object.builtinSymbolCount.toNat 0

def ldsoObjectResolveSymbol (mem : Memory) (object : Object) (symbolName : CString) :
    Option (BitVec 64) :=
  match object.kind with
  | .dynamic => ldsoDynamicObjectResolveSymbol mem object symbolName
  | .builtin => ldsoBuiltinObjectResolveSymbol object symbolName
  | .none => none

/-! ## Operations -/

/-- The string `<main>`. -/
def mainName : CString := ⟨[0x3C#8, 0x6D#8, 0x61#8, 0x69#8, 0x6E#8, 0x3E#8], by decide⟩

def ldsoDlfcnInit (s : Dlfcn) (mainObject : Option DynamicInfo) (mainLoadBias : BitVec 64) :
    Dlfcn :=
  let s := ldsoObjectsReset (ldsoErrorClear { s with initialized := true })
  match mainObject with
  | none => s
  | some info =>
    match ldsoObjectFindFreeSlot s with
    | none => s
    | some index =>
      s.setObject index { s.objects index with
        inUse := true
        kind := .dynamic
        name := some mainName
        refcount := 1#64
        dynamicInfo := some info
        loadBias := mainLoadBias }

/-- The return value is true for 0 and false for -1. -/
def ldsoDlfcnRegisterBuiltinObject (s : Dlfcn) (name : Option CString)
    (symbols : Option (ℕ → BuiltinSymbol)) (count : BitVec 64) : Dlfcn × Bool :=
  if !s.initialized then (s, false)
  else if name = none ∨ symbols.isNone ∨ count = 0#64 then (s, false)
  else
    match (ldsoObjectFindByName s name).or (ldsoObjectFindFreeSlot s) with
    | none => (s, false)
    | some index =>
      (s.setObject index {
        inUse := true
        kind := .builtin
        name := name
        refcount := 1#64
        dynamicInfo := none
        loadBias := 0#64
        builtinSymbols := symbols
        builtinSymbolCount := count }, true)

/-- A null pointer is the address 0. -/
def ldsoDlfcnResolveGlobal (mem : Memory) (s : Dlfcn) (symbolName : Option CString) : BitVec 64 :=
  match symbolName with
  | none => 0#64
  | some symbolName =>
    if !s.initialized then 0#64
    else
      (firstSome (fun index =>
        if (s.objects index).inUse then ldsoObjectResolveSymbol mem (s.objects index) symbolName
        else none) ldsoDlfcnMaxObjects 0).getD 0#64

/-- Count one more reference to an object that was found. -/
def openObject (s : Dlfcn) (index : ℕ) : Dlfcn :=
  ldsoErrorClear (s.setObject index { s.objects index with
    refcount := (s.objects index).refcount + 1#64 })

/-- The result is the index of the object whose address is returned, `none` for a null pointer. -/
def ldsoDlopen (s : Dlfcn) (file : Option CString) : Dlfcn × Option ℕ :=
  if !s.initialized then (ldsoErrorSet s "ldso dlfcn state is not initialized", none)
  else
    match file with
    | none =>
      match ldsoObjectFindByName s (some mainName) with
      | none => (ldsoErrorSet s "main object is not registered", none)
      | some index => (openObject s index, some index)
    | some file =>
      match ldsoObjectFindByName s (some file) with
      | none =>
        (ldsoErrorSet s "dlopen in stage0 supports only pre-registered objects", none)
      | some index => (openObject s index, some index)

def ldsoDlsym (mem : Memory) (s : Dlfcn) (handle : Handle) (symbolName : Option CString) :
    Dlfcn × BitVec 64 :=
  match symbolName with
  | none => (ldsoErrorSet s "dlsym invalid arguments", 0#64)
  | some name =>
    if !s.initialized then (ldsoErrorSet s "dlsym invalid arguments", 0#64)
    else
      match handle with
      | .rtldNext => (ldsoErrorSet s "RTLD_NEXT is not implemented in stage0", 0#64)
      | .rtldDefault =>
        let resolved := ldsoDlfcnResolveGlobal mem s (some name)
        if resolved = 0#64 then (ldsoErrorSet s "symbol not found", 0#64)
        else (ldsoErrorClear s, resolved)
      | .elsewhere => (ldsoErrorSet s "dlsym invalid handle", 0#64)
      | .object index =>
        if !ldsoObjectHandleValid s (.object index) then
          (ldsoErrorSet s "dlsym invalid handle", 0#64)
        else
          match ldsoObjectResolveSymbol mem (s.objects index) name with
          | some address => (ldsoErrorClear s, address)
          | none => (ldsoErrorSet s "symbol not found in object", 0#64)

/-- The return value is true for 0 and false for -1. -/
def ldsoDlclose (s : Dlfcn) (handle : Handle) : Dlfcn × Bool :=
  match handle with
  | .object index =>
    if !s.initialized || !ldsoObjectHandleValid s (.object index) then
      (ldsoErrorSet s "dlclose invalid handle", false)
    else if (s.objects index).refcount = 0#64 then
      (ldsoErrorSet s "dlclose invalid object state", false)
    else
      (ldsoErrorClear (s.setObject index { s.objects index with
        refcount := (s.objects index).refcount - 1#64 }), true)
  | _ => (ldsoErrorSet s "dlclose invalid handle", false)

/-- The text behind the pointer that is returned, `none` for a null pointer. -/
def ldsoDlerror (s : Dlfcn) : Dlfcn × Option String :=
  if !s.errorReady then (s, none)
  else ({ s with errorReady := false }, some s.error)

/-! ## Runs -/

/-- A lookup reads the tables of the objects in the memory of that moment. -/
inductive DlfcnOp
  | register (name : Option CString) (symbols : Option (ℕ → BuiltinSymbol)) (count : BitVec 64)
  | dlopen (file : Option CString)
  | dlsym (mem : Memory) (handle : Handle) (symbolName : Option CString)
  | dlclose (handle : Handle)
  | dlerror

def dlfcnStep (s : Dlfcn) : DlfcnOp → Dlfcn
  | .register name symbols count => (ldsoDlfcnRegisterBuiltinObject s name symbols count).1
  | .dlopen file => (ldsoDlopen s file).1
  | .dlsym mem handle symbolName => (ldsoDlsym mem s handle symbolName).1
  | .dlclose handle => (ldsoDlclose s handle).1
  | .dlerror => (ldsoDlerror s).1

def dlfcnRun (s : Dlfcn) (ops : List DlfcnOp) : Dlfcn := ops.foldl dlfcnStep s

theorem dlfcnRun_concat (s : Dlfcn) (ops : List DlfcnOp) (op : DlfcnOp) :
    dlfcnRun s (ops ++ [op]) = dlfcnStep (dlfcnRun s ops) op := by
  simp only [dlfcnRun, List.foldl_append, List.foldl_cons, List.foldl_nil]

end GnuOS.Ldso

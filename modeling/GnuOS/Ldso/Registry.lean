import GnuOS.Ldso.Dlfcn
import Mathlib.Data.List.GetD

/-!
# Symbol resolution

The registry is a list of names, in the order in which they were first registered: the object with
the `i`-th name has slot `i`, and the slots behind the list are free.  On this list registration
appends, and the other calls do nothing.  A lookup by handle and the global lookup both come down to
which objects define a symbol.

The loader looks at a symbol table up to the end that its hash table gives.  Without a hash table it
looks at 256 entries, and a symbol behind them is not found.
-/

namespace GnuOS.Ldso

open GnuOS.Lib List

/-! ## Strings -/

/-- The bytes spell the string, its terminating zero included. -/
def Spells (bytes : ℕ → BitVec 8) (s : CString) : Prop :=
  ∀ i ≤ s.bytes.length, bytes i = s.byte i

theorem strEqualLoop_iff {rhs : List (BitVec 8)} (hrhs : 0#8 ∉ rhs) (lhs : ℕ → BitVec 8) :
    strEqualLoop lhs rhs = true ↔ ∀ i ≤ rhs.length, lhs i = rhs.getD i 0#8 := by
  induction rhs generalizing lhs with
  | nil => simp [strEqualLoop]
  | cons c rhs ih =>
    rw [mem_cons, not_or] at hrhs
    unfold strEqualLoop
    constructor
    · intro h
      split at h
      · cases h
      split at h
      · cases h
      · next hfirst =>
        rw [ih hrhs.2] at h
        intro i hi
        cases i with
        | zero => exact not_not.mp hfirst
        | succ i => exact h i (Nat.le_of_succ_le_succ hi)
    · intro h
      have hfirst : lhs 0 = c := h 0 (Nat.zero_le _)
      rw [if_neg (by rw [hfirst]; exact Ne.symm hrhs.1), if_neg (not_not.mpr hfirst),
        ih hrhs.2]
      intro i hi
      exact h (i + 1) (Nat.succ_le_succ hi)

theorem ldsoStrEqual_some_iff {lhs : ℕ → BitVec 8} {rhs : CString} :
    ldsoStrEqual (some lhs) (some rhs) = true ↔ Spells lhs rhs :=
  strEqualLoop_iff rhs.nonzero lhs

theorem CString.byte_eq_zero_iff {s : CString} {i : ℕ} :
    s.byte i = 0#8 ↔ s.bytes.length ≤ i := by
  unfold CString.byte
  constructor
  · intro h
    by_contra hlt
    rw [getD_eq_getElem _ _ (by omega)] at h
    exact s.nonzero (h ▸ getElem_mem _)
  · exact getD_eq_default _ _

/-- Only the string itself spells it. -/
theorem spells_byte_iff {s t : CString} : Spells s.byte t ↔ s = t := by
  constructor
  · intro h
    have hle : s.bytes.length ≤ t.bytes.length := by
      rw [← CString.byte_eq_zero_iff, h _ (Nat.le_refl _), CString.byte_eq_zero_iff]
    have hge : t.bytes.length ≤ s.bytes.length := by
      rw [← CString.byte_eq_zero_iff, ← h _ hle, CString.byte_eq_zero_iff]
    apply CString.eq_of_bytes
    apply ext_getElem (by omega)
    intro i hs ht
    have hi := h i (by omega)
    unfold CString.byte at hi
    rwa [getD_eq_getElem _ _ hs, getD_eq_getElem _ _ ht] at hi
  · rintro rfl i _
    rfl

/-- Names are compared as strings. -/
theorem ldsoStrEqual_name_iff {name : Option CString} {t : CString} :
    ldsoStrEqual (name.map CString.byte) (some t) = true ↔ name = some t := by
  cases name with
  | none => simp [ldsoStrEqual]
  | some s =>
    rw [Option.map_some, ldsoStrEqual_some_iff, spells_byte_iff, Option.some_inj]

/-! ## The list of names -/

/-- The list after an operation.  A registration with valid arguments appends its name, unless it is
there already or all slots are taken. -/
def registerName (names : List CString) : DlfcnOp → List CString
  | .register (some name) (some _) count =>
    if count = 0#64 ∨ name ∈ names ∨ ldsoDlfcnMaxObjects ≤ names.length then names
    else names ++ [name]
  | _ => names

/-- The names that a run from the initial state registers. -/
def registeredNames (mainObject : Option DynamicInfo) (ops : List DlfcnOp) : List CString :=
  ops.foldl registerName (if mainObject.isSome then [mainName] else [])

/-- The slots hold the objects of the list, in its order. -/
structure Registry (s : Dlfcn) (names : List CString) : Prop where
  initialized : s.initialized = true
  length_le : names.length ≤ ldsoDlfcnMaxObjects
  nodup : names.Nodup
  used : ∀ i name, names[i]? = some name →
    (s.objects i).inUse = true ∧ (s.objects i).name = some name
  free : ∀ i, names.length ≤ i → i < ldsoDlfcnMaxObjects → (s.objects i).inUse = false

section Names

variable {s s' : Dlfcn} {names : List CString} {name : CString} {i : ℕ}

section

variable (h : Registry s names)

include h

theorem Registry.inUse_iff (hi : i < ldsoDlfcnMaxObjects) :
    (s.objects i).inUse = true ↔ i < names.length := by
  constructor
  · intro huse
    by_contra hge
    rw [h.free i (by omega) hi] at huse
    cases huse
  · intro hlt
    exact (h.used i _ (getElem?_eq_getElem hlt)).1

theorem Registry.name_eq_iff (hi : i < ldsoDlfcnMaxObjects) :
    ((s.objects i).inUse = true ∧ (s.objects i).name = some name) ↔ names[i]? = some name := by
  constructor
  · rintro ⟨huse, hname⟩
    have hlt := (h.inUse_iff hi).mp huse
    have hget := getElem?_eq_getElem hlt
    have hname' := (h.used i _ hget).2
    rw [hname, Option.some_inj] at hname'
    rw [hget, hname']
  · exact h.used i name

theorem Registry.findByName_eq_some_iff :
    ldsoObjectFindByName s (some name) = some i ↔ names[i]? = some name := by
  unfold ldsoObjectFindByName
  simp only
  constructor
  · intro hfind
    have hi : i < ldsoDlfcnMaxObjects := mem_range.mp (mem_of_find?_eq_some hfind)
    have hboth := find?_some hfind
    rw [Bool.and_eq_true, ldsoStrEqual_name_iff] at hboth
    exact (h.name_eq_iff hi).mp hboth
  · intro hget
    have hlt : i < names.length := (List.getElem?_eq_some_iff.mp hget).1
    have hle := h.length_le
    rw [find?_range_eq_some]
    have hused := h.used i name hget
    refine ⟨?_, mem_range.mpr (by omega), ?_⟩
    · rw [Bool.and_eq_true, ldsoStrEqual_name_iff]
      exact hused
    · intro j hj
      rw [Bool.not_eq_true', Bool.eq_false_iff]
      intro hboth
      rw [Bool.and_eq_true, ldsoStrEqual_name_iff, h.name_eq_iff (by omega)] at hboth
      have hij : j = i := (getElem?_inj (by omega) h.nodup).mp (hboth.trans hget.symm)
      omega

theorem Registry.findByName_eq_none (hname : name ∉ names) :
    ldsoObjectFindByName s (some name) = none := by
  cases hfind : ldsoObjectFindByName s (some name) with
  | none => rfl
  | some i =>
    rw [h.findByName_eq_some_iff] at hfind
    exact absurd (mem_of_getElem? hfind) hname

theorem Registry.findFreeSlot :
    ldsoObjectFindFreeSlot s =
      if names.length < ldsoDlfcnMaxObjects then some names.length else none := by
  unfold ldsoObjectFindFreeSlot
  split
  · next hlt =>
    rw [find?_range_eq_some]
    refine ⟨?_, mem_range.mpr hlt, ?_⟩
    · rw [h.free _ (Nat.le_refl _) hlt]
      rfl
    · intro j hj
      rw [(h.inUse_iff (by omega)).mpr hj]
      rfl
  · next hge =>
    rw [find?_eq_none]
    intro j hj
    rw [(h.inUse_iff (mem_range.mp hj)).mpr (by have := mem_range.mp hj; omega)]
    decide

end

/-- The slots in use and their names are the same. -/
structure SameNames (s s' : Dlfcn) : Prop where
  initialized : s'.initialized = s.initialized
  inUse : ∀ i, (s'.objects i).inUse = (s.objects i).inUse
  name : ∀ i, (s'.objects i).name = (s.objects i).name

theorem SameNames.registry (hsame : SameNames s s') (h : Registry s names) :
    Registry s' names where
  initialized := hsame.initialized.trans h.initialized
  length_le := h.length_le
  nodup := h.nodup
  used i name hget := by
    rw [hsame.inUse, hsame.name]
    exact h.used i name hget
  free i hle hlt := by
    rw [hsame.inUse]
    exact h.free i hle hlt

theorem sameNames_setObject {object : Object} (huse : object.inUse = (s.objects i).inUse)
    (hname : object.name = (s.objects i).name) : SameNames s (s.setObject i object) where
  initialized := rfl
  inUse j := by
    by_cases hj : j = i
    · subst hj
      rw [setObject_self, huse]
    · rw [setObject_of_ne hj]
  name j := by
    by_cases hj : j = i
    · subst hj
      rw [setObject_self, hname]
    · rw [setObject_of_ne hj]

theorem sameNames_errorSet (message : String) : SameNames s (ldsoErrorSet s message) :=
  ⟨rfl, fun _ => rfl, fun _ => rfl⟩

theorem SameNames.errorClear (h : SameNames s s') : SameNames s (ldsoErrorClear s') :=
  ⟨h.initialized, h.inUse, h.name⟩

/-- What `dlopen` can do: leave a message, or count one more reference to an object in use. -/
theorem dlopen_cases (s : Dlfcn) (file : Option CString) :
    (∃ message, ldsoDlopen s file = (ldsoErrorSet s message, none)) ∨
      ∃ i < ldsoDlfcnMaxObjects, (s.objects i).inUse = true ∧
        ldsoDlopen s file = (openObject s i, some i) := by
  unfold ldsoDlopen
  split
  · exact .inl ⟨_, rfl⟩
  -- by name, for the main object too
  split
  all_goals
    split
    · exact .inl ⟨_, rfl⟩
    · next i hfind =>
      unfold ldsoObjectFindByName at hfind
      have hboth := find?_some hfind
      rw [Bool.and_eq_true] at hboth
      exact .inr ⟨i, mem_range.mp (mem_of_find?_eq_some hfind), hboth.1, rfl⟩

/-- Count one reference less. -/
def closeObject (s : Dlfcn) (index : ℕ) : Dlfcn :=
  ldsoErrorClear (s.setObject index { s.objects index with
    refcount := (s.objects index).refcount - 1#64 })

/-- Lookups and `dlerror` do not touch the objects. -/
theorem dlsym_keeps (mem : Memory) (s : Dlfcn) (handle : Handle) (symbolName : Option CString) :
    (ldsoDlsym mem s handle symbolName).1.objects = s.objects ∧
      (ldsoDlsym mem s handle symbolName).1.initialized = s.initialized := by
  simp only [ldsoDlsym]
  repeat' split
  all_goals exact ⟨rfl, rfl⟩

theorem dlerror_keeps (s : Dlfcn) :
    (ldsoDlerror s).1.objects = s.objects ∧ (ldsoDlerror s).1.initialized = s.initialized := by
  unfold ldsoDlerror
  split <;> exact ⟨rfl, rfl⟩

theorem SameNames.of_objects (h : s'.objects = s.objects ∧ s'.initialized = s.initialized) :
    SameNames s s' :=
  ⟨h.2, fun i => by rw [h.1], fun i => by rw [h.1]⟩

/-- What `dlclose` can do: leave a message, or count one reference less to an object that has a
reference. -/
theorem dlclose_cases (s : Dlfcn) (handle : Handle) :
    (∃ message, ldsoDlclose s handle = (ldsoErrorSet s message, false)) ∨
      ∃ i < ldsoDlfcnMaxObjects, handle = .object i ∧ (s.objects i).inUse = true ∧
        (s.objects i).refcount ≠ 0#64 ∧ ldsoDlclose s handle = (closeObject s i, true) := by
  unfold ldsoDlclose
  split
  · next i =>
    split
    · exact .inl ⟨_, rfl⟩
    next hvalid =>
    split
    · exact .inl ⟨_, rfl⟩
    next hcount =>
    have hboth : i < ldsoDlfcnMaxObjects ∧ (s.objects i).inUse = true := by
      have hinit : s.initialized = true ∧ ldsoObjectHandleValid s (.object i) = true := by
        simpa using hvalid
      simpa [ldsoObjectHandleValid] using hinit.2
    exact .inr ⟨i, hboth.1, rfl, hboth.2, hcount, rfl⟩
  · exact .inl ⟨_, rfl⟩

theorem sameNames_dlopen (file : Option CString) : SameNames s (ldsoDlopen s file).1 := by
  rcases dlopen_cases s file with ⟨message, h⟩ | ⟨i, _, _, h⟩
  · rw [h]
    exact sameNames_errorSet _
  · rw [h]
    apply SameNames.errorClear
    exact sameNames_setObject rfl rfl

theorem sameNames_dlclose (handle : Handle) : SameNames s (ldsoDlclose s handle).1 := by
  rcases dlclose_cases s handle with ⟨message, h⟩ | ⟨i, _, _, _, _, h⟩
  · rw [h]
    exact sameNames_errorSet _
  · rw [h]
    apply SameNames.errorClear
    exact sameNames_setObject rfl rfl

/-- A new name gets the first slot behind the list. -/
theorem Registry.append (h : Registry s names) (hname : name ∉ names)
    (hlt : names.length < ldsoDlfcnMaxObjects) {object : Object} (huse : object.inUse = true)
    (hobject : object.name = some name) :
    Registry (s.setObject names.length object) (names ++ [name]) where
  initialized := h.initialized
  length_le := by
    rw [length_append]
    exact hlt
  nodup := by
    rw [← concat_eq_append]
    exact List.Nodup.concat hname h.nodup
  used i n hget := by
    by_cases hi : i = names.length
    · subst hi
      rw [getElem?_append_right (Nat.le_refl _), Nat.sub_self] at hget
      cases hget
      rw [setObject_self]
      exact ⟨huse, hobject⟩
    · have hlt' : i < names.length := by
        have := (List.getElem?_eq_some_iff.mp hget).1
        rw [length_append, length_singleton] at this
        omega
      rw [getElem?_append_left hlt'] at hget
      rw [setObject_of_ne hi]
      exact h.used i n hget
  free i hle hi := by
    rw [length_append, length_singleton] at hle
    rw [setObject_of_ne (by omega)]
    exact h.free i (by omega) hi

/-- The object that a registration stores. -/
def builtinObject (name : CString) (symbols : ℕ → BuiltinSymbol) (count : BitVec 64) : Object where
  inUse := true
  kind := .builtin
  name := some name
  refcount := 1#64
  dynamicInfo := none
  loadBias := 0#64
  builtinSymbols := some symbols
  builtinSymbolCount := count

/-- What a registration can do: nothing, replace the object of its name, or take the first slot
behind the list. -/
inductive Registered (s : Dlfcn) (names : List CString) (name : Option CString)
    (symbols : Option (ℕ → BuiltinSymbol)) (count : BitVec 64) : Dlfcn → List CString → Prop
  | refused : Registered s names name symbols count s names
  | replaced {n : CString} {table : ℕ → BuiltinSymbol} {i : ℕ} (hname : name = some n)
    (hsymbols : symbols = some table) (hcount : count ≠ 0#64) (hget : names[i]? = some n) :
    Registered s names name symbols count (s.setObject i (builtinObject n table count)) names
  | appended {n : CString} {table : ℕ → BuiltinSymbol} (hname : name = some n)
    (hnew : n ∉ names) (hlt : names.length < ldsoDlfcnMaxObjects) :
    Registered s names name symbols count
      (s.setObject names.length (builtinObject n table count)) (names ++ [n])

section

variable (h : Registry s names)

include h

theorem Registry.registered (name : Option CString) (symbols : Option (ℕ → BuiltinSymbol))
    (count : BitVec 64) :
    Registered s names name symbols count
      (ldsoDlfcnRegisterBuiltinObject s name symbols count).1
      (registerName names (.register name symbols count)) := by
  unfold ldsoDlfcnRegisterBuiltinObject
  rw [h.initialized]
  cases name with
  | none => exact .refused
  | some name =>
    cases symbols with
    | none =>
      rw [if_neg (by decide), if_pos (by simp)]
      exact .refused
    | some symbols =>
      by_cases hcount : count = 0#64
      · rw [if_neg (by decide), if_pos (.inr (.inr hcount)), registerName,
          if_pos (.inl hcount)]
        exact .refused
      rw [if_neg (by decide), if_neg (by simp [hcount])]
      by_cases hname : name ∈ names
      · obtain ⟨i, hget⟩ := getElem?_of_mem hname
        rw [h.findByName_eq_some_iff.mpr hget, registerName, if_pos (.inr (.inl hname))]
        exact .replaced rfl rfl hcount hget
      · rw [h.findByName_eq_none hname, h.findFreeSlot, registerName]
        by_cases hlt : names.length < ldsoDlfcnMaxObjects
        · rw [if_pos hlt, if_neg (by simp only [hcount, hname, false_or]; omega)]
          exact .appended rfl hname hlt
        · rw [if_neg hlt, if_pos (.inr (.inr (by omega)))]
          exact .refused

theorem Registry.register (name : Option CString) (symbols : Option (ℕ → BuiltinSymbol))
    (count : BitVec 64) :
    Registry (ldsoDlfcnRegisterBuiltinObject s name symbols count).1
      (registerName names (.register name symbols count)) := by
  have hregistered := h.registered name symbols count
  generalize (ldsoDlfcnRegisterBuiltinObject s name symbols count).1 = s' at hregistered ⊢
  generalize registerName names (.register name symbols count) = names' at hregistered ⊢
  cases hregistered with
  | refused => exact h
  | replaced _ _ _ hget =>
    -- the object of that name is replaced in its slot
    have hused := h.used _ _ hget
    exact (sameNames_setObject hused.1.symm hused.2.symm).registry h
  | appended _ hnew hlt => exact h.append hnew hlt rfl rfl

theorem Registry.step (op : DlfcnOp) :
    Registry (dlfcnStep s op) (registerName names op) := by
  cases op with
  | register name symbols count => exact h.register name symbols count
  | dlopen file => exact (sameNames_dlopen file).registry h
  | dlsym mem handle symbolName =>
    exact (SameNames.of_objects (dlsym_keeps mem s handle symbolName)).registry h
  | dlclose handle => exact (sameNames_dlclose handle).registry h
  | dlerror => exact (SameNames.of_objects (dlerror_keeps s)).registry h

theorem Registry.run (ops : List DlfcnOp) :
    Registry (dlfcnRun s ops) (ops.foldl registerName names) := by
  induction ops generalizing s names with
  | nil => exact h
  | cons op ops ih => exact ih (h.step op)

end

theorem registry_init (s : Dlfcn) (mainObject : Option DynamicInfo) (loadBias : BitVec 64) :
    Registry (ldsoDlfcnInit s mainObject loadBias)
      (if mainObject.isSome then [mainName] else []) := by
  have hempty : Registry (ldsoObjectsReset (ldsoErrorClear { s with initialized := true })) [] :=
    ⟨rfl, Nat.zero_le _, nodup_nil, fun i name hget => by simp at hget, fun i _ _ => rfl⟩
  unfold ldsoDlfcnInit
  cases mainObject with
  | none => exact hempty
  | some info =>
    simp only
    rw [hempty.findFreeSlot, if_pos (by decide)]
    exact hempty.append (by simp) (by decide) rfl rfl

/-- Names stay where they are in the list. -/
theorem registerName_extends (names : List CString) (op : DlfcnOp) :
    names <+: registerName names op := by
  unfold registerName
  split
  · split
    · exact prefix_rfl
    · exact prefix_append _ _
  · exact prefix_rfl

theorem foldl_registerName_extends (names : List CString) (ops : List DlfcnOp) :
    names <+: ops.foldl registerName names := by
  induction ops generalizing names with
  | nil => exact prefix_rfl
  | cons op ops ih => exact (registerName_extends names op).trans (ih _)

end Names

/-! ## Symbols -/

/-- The entry `index` of the symbol table has the name. -/
def Named (mem : Memory) (info : DynamicInfo) (name : CString) (index : ℕ) : Prop :=
  info.symtab ≠ 0#64 ∧ info.strtab ≠ 0#64 ∧ 1 ≤ index ∧
    (readSym mem info.symtab index).stName.setWidth 64 < info.strsz ∧
      Spells (stringAt mem (info.strtab + (readSym mem info.symtab index).stName.setWidth 64)) name

/-- The first entry with the name is entry `index`, and is not undefined. -/
def FirstNamed (mem : Memory) (info : DynamicInfo) (name : CString) (index : ℕ) : Prop :=
  Named mem info name index ∧ (∀ k < index, ¬ Named mem info name k) ∧
    (readSym mem info.symtab index).stShndx ≠ ldsoShnUndef

/-- A dynamic object defines a symbol if the first entry with its name is not undefined, a builtin
object if one of its symbols has the name. -/
def DefinesSymbol (mem : Memory) (object : Object) (name : CString) : Prop :=
  match object.kind with
  | .dynamic => ∃ info, object.dynamicInfo = some info ∧ ∃ index, FirstNamed mem info name index
  | .builtin => ∃ symbols, object.builtinSymbols = some symbols ∧
      ∃ index < object.builtinSymbolCount.toNat, (symbols index).name = some name
  | .none => False

/-- The object defines the symbol, with this address and where the loader looks for it: among the
entries that the hash table counts, or the first 256 if there is none. -/
def DefinesAt (mem : Memory) (object : Object) (name : CString) (address : BitVec 64) : Prop :=
  match object.kind with
  | .dynamic => ∃ info, object.dynamicInfo = some info ∧ ∃ index < (symbolCount info).toNat,
      FirstNamed mem info name index ∧
        address = object.loadBias + (readSym mem info.symtab index).stValue
  | .builtin => ∃ symbols, object.builtinSymbols = some symbols ∧
      ∃ index < object.builtinSymbolCount.toNat, (symbols index).name = some name ∧
        (∀ k < index, (symbols k).name ≠ some name) ∧ address = (symbols index).address
  | .none => False

/-- The first object in use that defines the symbol gives it the address. -/
def FirstDefinesAt (mem : Memory) (s : Dlfcn) (name : CString) (address : BitVec 64) : Prop :=
  ∃ i < ldsoDlfcnMaxObjects, (s.objects i).inUse = true ∧
    DefinesAt mem (s.objects i) name address ∧
      ∀ j < i, (s.objects j).inUse = true → ∀ a, ¬ DefinesAt mem (s.objects j) name a

section Symbols

variable {mem : Memory} {info : DynamicInfo} {loadBias : BitVec 64} {name : CString} {index : ℕ}
  {object : Object} {s : Dlfcn}

theorem dynamicEntry_eq_none_iff :
    dynamicEntry mem info loadBias name index = none ↔
      ¬ ((readSym mem info.symtab index).stName.setWidth 64 < info.strsz ∧
        Spells (stringAt mem (info.strtab +
          (readSym mem info.symtab index).stName.setWidth 64)) name) := by
  unfold dynamicEntry
  simp only
  generalize readSym mem info.symtab index = symbol
  rw [← ldsoStrEqual_some_iff]
  by_cases hbound : info.strsz ≤ symbol.stName.setWidth 64
  · rw [if_pos hbound]
    exact iff_of_true rfl fun h => absurd h.1 (BitVec.not_lt.mpr hbound)
  rw [if_neg hbound]
  have hlt := BitVec.not_le.mp hbound
  by_cases hequal : ldsoStrEqual
      (some (stringAt mem (info.strtab + symbol.stName.setWidth 64))) (some name) = true
  · rw [if_neg (by rw [hequal]; decide)]
    constructor
    · intro h
      split at h <;> cases h
    · intro h
      exact absurd ⟨hlt, hequal⟩ h
  · rw [if_pos (by simpa using hequal)]
    exact iff_of_true rfl fun h => hequal h.2

/-- The loop stops at an entry with the name, and then it is the section index that decides. -/
theorem dynamicEntry_of_ne_none (h : dynamicEntry mem info loadBias name index ≠ none) :
    dynamicEntry mem info loadBias name index =
      some (if (readSym mem info.symtab index).stShndx = ldsoShnUndef then none
        else some (loadBias + (readSym mem info.symtab index).stValue)) := by
  unfold dynamicEntry at h ⊢
  simp only at h ⊢
  split at h
  · exact absurd rfl h
  next hbound =>
  split at h
  · exact absurd rfl h
  next hequal =>
  rw [if_neg hbound, if_neg hequal]
  split <;> rfl

theorem named_iff (hsymtab : info.symtab ≠ 0#64) (hstrtab : info.strtab ≠ 0#64) (hlow : 1 ≤ index) :
    Named mem info name index ↔ dynamicEntry mem info loadBias name index ≠ none := by
  rw [Ne, dynamicEntry_eq_none_iff, not_not, Named]
  constructor
  · intro h
    exact h.2.2.2
  · intro h
    exact ⟨hsymtab, hstrtab, hlow, h⟩

variable {address : BitVec 64}

theorem dynamic_eq_some_iff (hkind : object.kind = .dynamic) :
    ldsoDynamicObjectResolveSymbol mem object name = some address ↔
      DefinesAt mem object name address := by
  unfold ldsoDynamicObjectResolveSymbol DefinesAt
  rw [hkind]
  cases object.dynamicInfo with
  | none => simp
  | some info =>
    simp only [Option.some_inj, exists_eq_left']
    by_cases hnull : info.symtab = 0#64 ∨ info.strtab = 0#64 ∨ info.strsz = 0#64
    · rw [if_pos hnull]
      refine iff_of_false (by simp) ?_
      rintro ⟨index, _, ⟨⟨hsymtab, hstrtab, _, hlt, _⟩, _⟩, _⟩
      rcases hnull with h | h | h
      · exact hsymtab h
      · exact hstrtab h
      · rw [h] at hlt
        exact absurd hlt (Nat.not_lt_zero _)
    rw [not_or, not_or] at hnull
    rw [if_neg (by tauto), Option.join_eq_some_iff, firstSome_eq_some_iff]
    have hnamed {k : ℕ} (hk : 1 ≤ k) : Named mem info name k ↔
        dynamicEntry mem info object.loadBias name k ≠ none := named_iff hnull.1 hnull.2.1 hk
    constructor
    · rintro ⟨index, hlow, hhigh, hentry, hbefore⟩
      have hne : dynamicEntry mem info object.loadBias name index ≠ none := by
        rw [hentry]
        simp
      rw [dynamicEntry_of_ne_none hne, Option.some_inj] at hentry
      split at hentry
      · cases hentry
      next hdefined =>
      refine ⟨index, by omega, ⟨(hnamed hlow).mpr hne, ?_, hdefined⟩,
        (Option.some_inj.mp hentry).symm⟩
      intro k hk hnamedk
      exact (hnamed hnamedk.2.2.1).mp hnamedk (hbefore k hnamedk.2.2.1 hk)
    · rintro ⟨index, hhigh, ⟨hfound, hfirst, hdefined⟩, rfl⟩
      have hlow := hfound.2.2.1
      refine ⟨index, hlow, by omega, ?_, ?_⟩
      · rw [dynamicEntry_of_ne_none ((hnamed hlow).mp hfound), if_neg hdefined]
      · intro k hk hlt
        by_contra hne
        exact hfirst k hlt ((hnamed hk).mpr hne)

theorem builtin_eq_some_iff (hkind : object.kind = .builtin) :
    ldsoBuiltinObjectResolveSymbol object name = some address ↔
      DefinesAt mem object name address := by
  unfold ldsoBuiltinObjectResolveSymbol DefinesAt
  rw [hkind]
  cases object.builtinSymbols with
  | none => simp
  | some symbols =>
    simp only [Option.some_inj, exists_eq_left', firstSome_eq_some_iff, ldsoStrEqual_name_iff,
      Nat.zero_le, true_and, Nat.zero_add, Option.ite_none_right_eq_some, ite_eq_right_iff,
      reduceCtorEq, imp_false, forall_const]
    constructor
    · rintro ⟨index, hlt, ⟨hname, rfl⟩, hbefore⟩
      exact ⟨index, hlt, hname, hbefore, rfl⟩
    · rintro ⟨index, hlt, hname, hbefore, rfl⟩
      exact ⟨index, hlt, ⟨hname, rfl⟩, hbefore⟩

/-- The object resolves a symbol exactly as it defines it. -/
theorem resolveSymbol_eq_some_iff :
    ldsoObjectResolveSymbol mem object name = some address ↔
      DefinesAt mem object name address := by
  unfold ldsoObjectResolveSymbol
  cases hkind : object.kind with
  | none => simp [DefinesAt, hkind]
  | dynamic => exact dynamic_eq_some_iff hkind
  | builtin => exact builtin_eq_some_iff hkind

theorem resolveSymbol_eq_none_iff :
    ldsoObjectResolveSymbol mem object name = none ↔ ∀ a, ¬ DefinesAt mem object name a := by
  simp only [← resolveSymbol_eq_some_iff, Option.eq_none_iff_forall_ne_some, Ne]

/-- The search of the global lookup. -/
def firstObject (mem : Memory) (s : Dlfcn) (name : CString) : Option (BitVec 64) :=
  firstSome (fun i =>
    if (s.objects i).inUse then ldsoObjectResolveSymbol mem (s.objects i) name else none)
    ldsoDlfcnMaxObjects 0

theorem firstObject_eq_some_iff :
    firstObject mem s name = some address ↔ FirstDefinesAt mem s name address := by
  simp only [firstObject, firstSome_eq_some_iff, FirstDefinesAt, Nat.zero_le, true_and,
    Nat.zero_add, Option.ite_none_right_eq_some, resolveSymbol_eq_some_iff, ite_eq_right_iff,
    resolveSymbol_eq_none_iff, and_assoc, forall_const]

theorem firstObject_eq_none_iff :
    firstObject mem s name = none ↔ ∀ i < ldsoDlfcnMaxObjects, (s.objects i).inUse = true →
      ∀ a, ¬ DefinesAt mem (s.objects i) name a := by
  simp only [firstObject, firstSome_eq_none_iff, Nat.zero_le, Nat.zero_add, ite_eq_right_iff,
    resolveSymbol_eq_none_iff, forall_const]

section

variable (hinit : s.initialized = true)

include hinit

theorem resolveGlobal_eq :
    ldsoDlfcnResolveGlobal mem s (some name) = (firstObject mem s name).getD 0#64 := by
  simp only [ldsoDlfcnResolveGlobal, hinit, Bool.not_true, Bool.false_eq_true, if_false]
  rfl

theorem dlsym_default :
    (ldsoDlsym mem s .rtldDefault (some name)).2 = (firstObject mem s name).getD 0#64 := by
  rw [← resolveGlobal_eq hinit]
  unfold ldsoDlsym
  simp only [hinit, Bool.not_true, Bool.false_eq_true, if_false]
  split
  · next hzero => exact hzero.symm
  · rfl

theorem dlsym_object (hindex : index < ldsoDlfcnMaxObjects)
    (huse : (s.objects index).inUse = true) (h : DefinesAt mem (s.objects index) name address) :
    (ldsoDlsym mem s (.object index) (some name)).2 = address := by
  unfold ldsoDlsym ldsoObjectHandleValid
  simp only [hinit, hindex, huse, resolveSymbol_eq_some_iff.mpr h, Bool.not_true,
    Bool.false_eq_true, if_false, decide_true, Bool.and_true]

end

end Symbols

/-! ## Runs -/

/-- A program without tables. -/
def emptyDynamicInfo : DynamicInfo :=
  ⟨0#64, 0#64, 0#64, 0#64, 0#64, 0#64, 0#64, 0#64, 0#64, 0#64, 0#64, 0#64, 0#64, 0#64, 0#64, 0#64,
    0#64⟩

/-- The state before `ldso_dlfcn_init`. -/
def uninitialized : Dlfcn := ⟨fun _ => freeObject, false, false, ""⟩

/-- The string `c`. -/
def counterName : CString := ⟨[0x63#8], by decide⟩

/-- A program with one symbol, whose name is at `0x200` and whose entry is at `0x118`. -/
def oneSymbolInfo : DynamicInfo :=
  { emptyDynamicInfo with
    symtab := 0x100#64
    strtab := 0x200#64
    strsz := 2#64
    hashNchain := 2#64 }

/-- The symbol is called `c`, is in section 1 and has the value 0. -/
def oneSymbolMemory : Memory := fun a =>
  if a = 0x11E#64 then 1#8 else if a = 0x200#64 then 0x63#8 else 0#8

/-- A builtin object of the name `c` that has a symbol `c` at `0x20`. -/
def registerCounter : List DlfcnOp :=
  [.register (some counterName) (some fun _ => ⟨some counterName, 0x20#64⟩) 1#64]

/-- A program without a hash table, and with 257 symbols. -/
def farSymbolInfo : DynamicInfo :=
  { emptyDynamicInfo with
    symtab := 0x100#64
    strtab := 0x4000#64
    strsz := 3#64 }

/-- The last symbol, whose entry is at `0x1900`, is called `c` and is in section 1; the others have
no name. -/
def farSymbolMemory : Memory := fun a =>
  if a = 0x1900#64 ∨ a = 0x1906#64 then 1#8 else if a = 0x4001#64 then 0x63#8 else 0#8

end GnuOS.Ldso

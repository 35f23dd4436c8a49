import GnuOS.Ldso.Preload

/-!
# The program image, as the loader and as libc see it

Both the loader and the libc stub have a `dl_iterate_phdr`.  The loader's reports what
`ldso_stage0_bootstrap` has stored: it skips the arguments and the environment from the bottom of
the stack, looks at 256 entries of the auxiliary vector at most, and takes the first `PT_PHDR`
entry.  The stub's starts from the environment that `__gnuos_store_startup` was given, looks for the
end of the vector, and takes the first `PT_PHDR` entry that does not lie above the table.

Both come down to the same image of the program if the stack and the table are as they were when the
loader read them, and the loader's own state as it was then.  The loader itself may change them: it
applies the relocations of the program, and these can be anywhere.
-/

namespace GnuOS.Ldso

open GnuOS.Lib List
open BitVec hiding not_or

/-! ## The libc stub -/

/-- The loop of `gnuos_startup_auxv`. -/
def startupAuxvLoop (mem : Memory) : ℕ → BitVec 64 → Outcome (BitVec 64)
  | 0, _ => .unfinished
  | fuel + 1, envp =>
    if word64 mem envp = 0#64 then .value (envp + 8#64) else startupAuxvLoop mem fuel (envp + 8#64)

/-- `startupEnvp` is `g_startup_envp`, which `__gnuos_store_startup` sets to its `envp`. -/
def gnuosStartupAuxv (fuel : ℕ) (mem : Memory) (startupEnvp : BitVec 64) : Outcome (BitVec 64) :=
  if startupEnvp = 0#64 then .value 0#64 else startupAuxvLoop mem fuel startupEnvp

/-- The loop of `gnuos_auxv_lookup`, from entry `index` on. -/
def gnuosAuxvLoop (mem : Memory) (auxv key : BitVec 64) : ℕ → ℕ → Outcome (BitVec 64)
  | 0, _ => .unfinished
  | fuel + 1, index =>
    let entry := entryAddr auxv 16 index
    if word64 mem entry = ldsoAtNull then .value 0#64
    else if word64 mem entry = key then .value (word64 mem (entry + 8#64))
    else gnuosAuxvLoop mem auxv key fuel (index + 1)

def gnuosAuxvLookup (fuel : ℕ) (mem : Memory) (startupEnvp key : BitVec 64) :
    Outcome (BitVec 64) := do
  let auxv ← gnuosStartupAuxv fuel mem startupEnvp
  if auxv = 0#64 then .value 0#64 else gnuosAuxvLoop mem auxv key fuel 0

def gnuosComputeDlpiAddr (mem : Memory) (phdr phnum atPhdr : BitVec 64) : BitVec 64 :=
  if phdr = 0#64 ∨ atPhdr = 0#64 then 0#64
  else
    (firstSome (fun index =>
      let entry := entryAddr phdr ldsoElfPhdrSize index
      if pType mem entry = ldsoPtPhdr ∧ pVaddr mem entry ≤ atPhdr then
        some (atPhdr - pVaddr mem entry)
      else none) phnum.toNat 0).getD 0#64

/-- `dl_iterate_phdr` of the stub; `none` and `callback` are as for the loader's. -/
def gnuosDlIteratePhdr (fuel : ℕ) (mem : Memory) (startupEnvp : BitVec 64) (callback : Bool) :
    Outcome (Option PhdrInfo) :=
  if !callback then .value none
  else do
    let atPhdr ← gnuosAuxvLookup fuel mem startupEnvp ldsoAtPhdr
    let atPhnum ← gnuosAuxvLookup fuel mem startupEnvp ldsoAtPhnum
    let atPhent ← gnuosAuxvLookup fuel mem startupEnvp ldsoAtPhent
    if atPhdr = 0#64 ∨ atPhnum = 0#64 ∨ atPhent ≠ BitVec.ofNat 64 ldsoElfPhdrSize then .value none
    else
      .value (some ⟨gnuosComputeDlpiAddr mem atPhdr atPhnum atPhdr, atPhdr, atPhnum.setWidth 16⟩)

/-! ## The image -/

/-- The address of the auxiliary vector. -/
def auxvOf (stack : BitVec 64) (args env : List (BitVec 64)) : BitVec 64 :=
  entryAddr stack 8 (args.length + env.length + 3)

/-- A stack with an auxiliary vector behind the environment. -/
structure ProcessStack (mem : Memory) (stack : BitVec 64) (args env : List (BitVec 64))
    (auxv : List (BitVec 64 × BitVec 64)) : Prop extends StartStack mem stack args env where
  auxvInSpace : stack.toNat + 8 * (args.length + env.length + 3 + 2 * auxv.length + 1) ≤ 2 ^ 64
  env_le : env.length ≤ 4095
  auxv_le : auxv.length ≤ 255
  auxv_ne : ∀ e ∈ auxv, e.1 ≠ ldsoAtNull
  auxvEntry : ∀ i e, auxv[i]? = some e →
    word64 mem (entryAddr (auxvOf stack args env) 16 i) = e.1 ∧
      word64 mem (entryAddr (auxvOf stack args env) 16 i + 8#64) = e.2
  auxvEnd : word64 mem (entryAddr (auxvOf stack args env) 16 auxv.length) = ldsoAtNull

/-- The value of the first entry with the key, 0 if there is none. -/
def auxvValue (auxv : List (BitVec 64 × BitVec 64)) (key : BitVec 64) : BitVec 64 :=
  ((auxv.find? fun e => e.1 = key).map Prod.snd).getD 0#64

/-- The program header `index` of a table is the table's own. -/
def IsPhdr (mem : Memory) (phdrs : BitVec 64) (index : ℕ) : Prop :=
  pType mem (entryAddr phdrs ldsoElfPhdrSize index) = ldsoPtPhdr

instance (mem : Memory) (phdrs : BitVec 64) (index : ℕ) : Decidable (IsPhdr mem phdrs index) :=
  inferInstanceAs (Decidable (_ = _))

/-- A table of program headers with at most one `PT_PHDR` entry, inside of the address space. -/
structure PhdrTable (mem : Memory) (phdrs phnum : BitVec 64) : Prop where
  inSpace : phdrs.toNat + ldsoElfPhdrSize * phnum.toNat ≤ 2 ^ 64
  unique : ∀ i < phnum.toNat, ∀ j < phnum.toNat, IsPhdr mem phdrs i → IsPhdr mem phdrs j → i = j

/-- The image that the auxiliary vector and the table describe. -/
def imageOf (mem : Memory) (auxv : List (BitVec 64 × BitVec 64)) (callback : Bool) :
    Option PhdrInfo :=
  let phdrs := auxvValue auxv ldsoAtPhdr
  let phnum := auxvValue auxv ldsoAtPhnum
  if !callback then none
  else if phdrs = 0#64 ∨ phnum = 0#64 ∨
      auxvValue auxv ldsoAtPhent ≠ BitVec.ofNat 64 ldsoElfPhdrSize then none
  else some ⟨gnuosComputeDlpiAddr mem phdrs phnum phdrs, phdrs, phnum.setWidth 16⟩

/-! ## The auxiliary vector -/

section Auxv

variable {mem : Memory} {stack : BitVec 64} {args env : List (BitVec 64)}
  {auxv : List (BitVec 64 × BitVec 64)}

/-- The two loops over the vector find the same value, the one with a limit if the vector is
shorter than that. -/
theorem auxvLoops_eq {table key : BitVec 64} {index n : ℕ}
    (hentry : ∀ i e, auxv[i]? = some e → word64 mem (entryAddr table 16 (index + i)) = e.1 ∧
      word64 mem (entryAddr table 16 (index + i) + 8#64) = e.2)
    (hne : ∀ e ∈ auxv, e.1 ≠ ldsoAtNull)
    (hend : word64 mem (entryAddr table 16 (index + auxv.length)) = ldsoAtNull)
    (hn : auxv.length < n) :
    auxvLookupLoop mem table key n index = auxvValue auxv key ∧
      gnuosAuxvLoop mem table key n index = .value (auxvValue auxv key) := by
  induction auxv generalizing index n with
  | nil =>
    obtain ⟨n, rfl⟩ := Nat.exists_eq_add_of_lt hn
    simp only [length_nil, Nat.add_zero] at hend
    constructor
    · rw [auxvLookupLoop, hend, if_pos rfl]
      rfl
    · rw [gnuosAuxvLoop, hend, if_pos rfl]
      rfl
  | cons e auxv ih =>
    obtain ⟨n, rfl⟩ : ∃ m, n = m + 1 := ⟨n - 1, by omega⟩
    obtain ⟨htype, hvalue⟩ := hentry 0 e rfl
    rw [Nat.add_zero] at htype hvalue
    have hfirst : e.1 ≠ ldsoAtNull := hne e mem_cons_self
    rw [auxvLookupLoop, gnuosAuxvLoop, htype, hvalue]
    simp only [if_neg hfirst]
    by_cases hkey : e.1 = key
    · have hfound : auxvValue (e :: auxv) key = e.2 := by
        rw [auxvValue, find?_cons_of_pos (by simpa using hkey)]
        rfl
      rw [if_pos hkey, if_pos hkey, hfound]
      exact ⟨rfl, rfl⟩
    · have hskip : auxvValue (e :: auxv) key = auxvValue auxv key := by
        rw [auxvValue, find?_cons_of_neg (by simpa using hkey), auxvValue]
      rw [if_neg hkey, if_neg hkey, hskip]
      apply ih
      · intro i e' he'
        rw [Nat.add_assoc, Nat.add_comm 1 i]
        exact hentry (i + 1) e' he'
      · exact fun e' he' => hne e' (mem_cons_of_mem e he')
      · rw [Nat.add_assoc, Nat.add_comm 1]
        exact hend
      · exact Nat.lt_of_succ_lt_succ hn

section

variable (h : ProcessStack mem stack args env auxv)

include h

theorem ProcessStack.auxv_addr_ne :
    auxvOf stack args env ≠ 0#64 := by
  have hspace := h.auxvInSpace
  have hnat : (auxvOf stack args env).toNat = stack.toNat + 8 * (args.length + env.length + 3) :=
    Memory.toNat_addr (by omega)
  intro hzero
  rw [hzero, toNat_ofNat] at hnat
  omega

theorem ProcessStack.loops (key : BitVec 64) {n : ℕ} (hn : auxv.length < n) :
    auxvLookupLoop mem (auxvOf stack args env) key n 0 = auxvValue auxv key ∧
      gnuosAuxvLoop mem (auxvOf stack args env) key n 0 = .value (auxvValue auxv key) :=
  auxvLoops_eq (by simpa using h.auxvEntry) h.auxv_ne (by simpa using h.auxvEnd) hn

/-- The loader's lookup. -/
theorem ProcessStack.ldsoAuxvLookup (key : BitVec 64) :
    GnuOS.Ldso.ldsoAuxvLookup mem (auxvOf stack args env) key = auxvValue auxv key := by
  have hle := h.auxv_le
  rw [Ldso.ldsoAuxvLookup, if_neg h.auxv_addr_ne]
  exact (h.loops key (show auxv.length < ldsoAuxvScanLimit by unfold ldsoAuxvScanLimit; omega)).1

end

end Auxv

/-! ## The end of the environment -/

section Environment

variable {mem : Memory} {stack a : BitVec 64} {args env words : List (BitVec 64)}
  {auxv : List (BitVec 64 × BitVec 64)}

/-- The two loops over the environment end behind its null pointer. -/
theorem envpLoops_eq {n : ℕ} (h : WordsAt mem a (words ++ [0#64])) (hne : 0#64 ∉ words)
    (hn : words.length < n) :
    skipEnvpLoop mem n a = entryAddr a 8 (words.length + 1) ∧
      startupAuxvLoop mem n a = .value (entryAddr a 8 (words.length + 1)) := by
  induction words generalizing a n with
  | nil =>
    obtain ⟨n, rfl⟩ := Nat.exists_eq_add_of_lt hn
    rw [skipEnvpLoop, startupAuxvLoop, show word64 mem a = 0#64 from h.head, if_pos rfl, if_pos rfl]
    exact ⟨rfl, rfl⟩
  | cons w words ih =>
    obtain ⟨n, rfl⟩ : ∃ m, n = m + 1 := ⟨n - 1, by omega⟩
    rw [mem_cons, not_or] at hne
    have hword : word64 mem a = w := h.head
    have hrest := ih h.tail hne.2 (Nat.lt_of_succ_lt_succ hn)
    rw [show a + 8#64 = entryAddr a 8 1 from rfl, entryAddr_add,
      show 1 + (words.length + 1) = (w :: words).length + 1 by
        rw [length_cons]
        omega] at hrest
    rw [skipEnvpLoop, startupAuxvLoop, hword, if_neg (Ne.symm hne.1), if_neg (Ne.symm hne.1)]
    exact hrest

theorem StartStack.envp_end (stack : BitVec 64) (args env : List (BitVec 64)) :
    entryAddr (envpOf stack args) 8 (env.length + 1) = auxvOf stack args env := by
  rw [envpOf, entryAddr_add, auxvOf,
    show args.length + 2 + (env.length + 1) = args.length + env.length + 3 by omega]

section

variable (h : ProcessStack mem stack args env auxv)

include h

theorem ProcessStack.findAuxv :
    ldsoFindAuxv mem stack = auxvOf stack args env := by
  have hle := h.env_le
  have hloop := (envpLoops_eq h.env_words h.env_ne
    (show env.length < ldsoStackScanLimit by unfold ldsoStackScanLimit; omega)).1
  rw [StartStack.envp_end] at hloop
  unfold ldsoFindAuxv ldsoStackSkipEnvp
  simp only [if_neg h.nonnull, h.skipArgv, if_neg h.envp_ne, hloop]

/-- The stub's lookup. -/
theorem ProcessStack.gnuosAuxvLookup (key : BitVec 64) {fuel : ℕ}
    (hfuel : env.length + auxv.length < fuel) :
    GnuOS.Ldso.gnuosAuxvLookup fuel mem (envpOf stack args) key = .value (auxvValue auxv key) := by
  have hloop := (envpLoops_eq h.env_words h.env_ne (show env.length < fuel by omega)).2
  rw [StartStack.envp_end] at hloop
  rw [Ldso.gnuosAuxvLookup, gnuosStartupAuxv, if_neg h.envp_ne, hloop, Outcome.value_bind,
    if_neg h.auxv_addr_ne]
  exact (h.loops key (by omega)).2

/-- The stub passes the image to its callback. -/
theorem ProcessStack.gnuosDlIteratePhdr (callback : Bool) :
    Outcome.Returns
      (fun fuel => GnuOS.Ldso.gnuosDlIteratePhdr fuel mem (envpOf stack args) callback)
      (imageOf mem auxv callback) := by
  refine ⟨env.length + auxv.length + 1, ?_⟩
  intro fuel hfuel
  show Ldso.gnuosDlIteratePhdr fuel mem (envpOf stack args) callback = _
  unfold Ldso.gnuosDlIteratePhdr imageOf
  cases callback with
  | false => rfl
  | true =>
    simp only [Bool.not_true, Bool.false_eq_true, if_false, h.gnuosAuxvLookup _ hfuel,
      Outcome.value_bind]
    split <;> rfl

end

end Environment

/-! ## Program headers -/

section Headers

variable {mem : Memory} {phdrs phnum : BitVec 64} {layout : Layout}

theorem PhdrTable.entryAddr_ne (h : PhdrTable mem phdrs phnum) (hphdrs : phdrs ≠ 0#64) {i : ℕ}
    (hi : i < phnum.toNat) : entryAddr phdrs ldsoElfPhdrSize i ≠ 0#64 := by
  have hspace := h.inSpace
  have hpos : phdrs.toNat ≠ 0 := fun hzero => hphdrs (eq_of_toNat_eq hzero)
  unfold ldsoElfPhdrSize at hspace ⊢
  have hnat : (entryAddr phdrs 56 i).toNat = phdrs.toNat + 56 * i := Memory.toNat_addr (by omega)
  intro hzero
  rw [hzero, toNat_ofNat] at hnat
  omega

/-- Only a `PT_PHDR` entry changes the segment, and only the first one. -/
theorem classifyPhdr_phdrSegment (mem : Memory) (layout : Layout) (phdr : BitVec 64) :
    (classifyPhdr mem layout phdr).phdrSegment =
      if pType mem phdr = ldsoPtPhdr ∧ layout.phdrSegment = 0#64 then phdr
      else layout.phdrSegment := by
  unfold classifyPhdr
  by_cases hload : pType mem phdr = ldsoPtLoad
  · have hne : pType mem phdr ≠ ldsoPtPhdr := by
      rw [hload]
      decide
    rw [if_pos hload, if_neg fun hboth => hne hboth.1]
  rw [if_neg hload]
  by_cases hphdr : pType mem phdr = ldsoPtPhdr
  · rw [if_pos hphdr]
    by_cases hnull : layout.phdrSegment = 0#64
    · rw [if_pos hnull, if_pos ⟨hphdr, hnull⟩]
    · rw [if_neg hnull, if_neg fun hboth => hnull hboth.2]
  · have hnot : ¬ (pType mem phdr = ldsoPtPhdr ∧ layout.phdrSegment = 0#64) :=
      fun hboth => hphdr hboth.1
    rw [if_neg hphdr, if_neg hnot]
    split
    · split <;> rfl
    · split
      · split <;> rfl
      · rfl

/-- The loop keeps the first `PT_PHDR` entry among those that it has seen. -/
theorem foldl_classifyPhdr_phdrSegment (hne : ∀ i < phnum.toNat,
      entryAddr phdrs ldsoElfPhdrSize i ≠ 0#64) (hlayout : layout.phdrSegment = 0#64) {n : ℕ}
    (hn : n ≤ phnum.toNat) :
    ((range n).foldl
      (fun layout index => classifyPhdr mem layout (entryAddr phdrs ldsoElfPhdrSize index))
      layout).phdrSegment =
      match (range n).find? fun i => IsPhdr mem phdrs i with
      | none => 0#64
      | some i => entryAddr phdrs ldsoElfPhdrSize i := by
  induction n with
  | zero => exact hlayout
  | succ n ih =>
    rw [range_succ, foldl_append, foldl_cons, foldl_nil,
      classifyPhdr_phdrSegment, ih (by omega), find?_append]
    cases hfind : (range n).find? fun i => IsPhdr mem phdrs i with
    | some i =>
      have hi : i < n := mem_range.mp (mem_of_find?_eq_some hfind)
      have hnull : entryAddr phdrs ldsoElfPhdrSize i ≠ 0#64 := hne i (by omega)
      simp only [Option.some_or, hnull, and_false, if_false]
    | none =>
      by_cases hphdr : IsPhdr mem phdrs n
      · have htype : pType mem (entryAddr phdrs ldsoElfPhdrSize n) = ldsoPtPhdr := hphdr
        simp [hphdr, htype]
      · have htype : ¬ pType mem (entryAddr phdrs ldsoElfPhdrSize n) = ldsoPtPhdr := hphdr
        simp [hphdr, htype]

/-- With one `PT_PHDR` entry at most, the loader's bias is the stub's. -/
theorem PhdrTable.loadBias (h : PhdrTable mem phdrs phnum) (hphdrs : phdrs ≠ 0#64)
    {phentsize : BitVec 64}
    (hlayout : ldsoElfClassifyPhdrs mem phdrs phnum phentsize = some layout) :
    ldsoComputeLoadBias mem layout phdrs = gnuosComputeDlpiAddr mem phdrs phnum phdrs := by
  have hsegment : layout.phdrSegment =
      match (range phnum.toNat).find? fun i => IsPhdr mem phdrs i with
      | none => 0#64
      | some i => entryAddr phdrs ldsoElfPhdrSize i := by
    unfold ldsoElfClassifyPhdrs at hlayout
    split at hlayout
    · cases hlayout
    · cases hlayout
      exact foldl_classifyPhdr_phdrSegment (fun i hi => h.entryAddr_ne hphdrs hi) rfl
        (Nat.le_refl _)
  unfold ldsoComputeLoadBias gnuosComputeDlpiAddr
  rw [if_neg (not_or.mpr ⟨hphdrs, hphdrs⟩), hsegment]
  cases hfind : (range phnum.toNat).find? fun i => IsPhdr mem phdrs i with
  | none =>
    rw [if_pos rfl, firstSome_eq_none_iff.mpr, Option.getD_none]
    intro i _ hi
    have hnot := find?_eq_none.mp hfind i (mem_range.mpr (by omega))
    rw [if_neg]
    rintro ⟨htype, _⟩
    exact hnot (decide_eq_true htype)
  | some i =>
    have hi : i < phnum.toNat := mem_range.mp (mem_of_find?_eq_some hfind)
    have hphdr : IsPhdr mem phdrs i := by simpa using find?_some hfind
    simp only
    rw [if_neg (h.entryAddr_ne hphdrs hi)]
    by_cases habove : phdrs < pVaddr mem (entryAddr phdrs ldsoElfPhdrSize i)
    · -- the stub goes on behind the entry, and finds no other
      rw [if_pos habove, firstSome_eq_none_iff.mpr, Option.getD_none]
      intro j _ hj
      rw [if_neg]
      rintro ⟨htype, hle⟩
      obtain rfl : j = i := h.unique j (by omega) i hi htype hphdr
      exact absurd habove (BitVec.not_lt.mpr hle)
    · rw [if_neg habove, firstSome_eq_some_iff.mpr ⟨i, Nat.zero_le _, by omega, ?_, ?_⟩,
        Option.getD_some]
      · rw [if_pos ⟨hphdr, BitVec.not_lt.mp habove⟩]
      · intro j _ hj
        rw [if_neg]
        rintro ⟨htype, _⟩
        have := h.unique j (by omega) i hi htype hphdr
        omega

end Headers

/-! ## The loader -/

section Loader

variable {mem : Memory} {stack : BitVec 64} {args env : List (BitVec 64)}
  {auxv : List (BitVec 64 × BitVec 64)}

/-- The loader's `dl_iterate_phdr` reads the words 3 to 6 of the state. -/
theorem dlIteratePhdr_load {mem mem' : Memory} {state : Stage0State} {a : BitVec 64}
    (h : (state.store a mem).SameBytes mem' (entryAddr a 8 3) 32) (callback : Bool) :
    ldsoDlIteratePhdr (.load mem' a) callback = ldsoDlIteratePhdr state callback := by
  have hword {i : ℕ} {w : BitVec 64} (hi : i < 4) (hw : state.words[3 + i]? = some w) :
      word64 mem' (entryAddr a 8 (3 + i)) = w := by
    rw [word64, ← entryAddr_add, entryAddr, h.load (by omega), ← entryAddr, entryAddr_add,
      entryAddr, Stage0State.store, Memory.load_storeWords mem a (show 8 * 23 ≤ _ by decide) hw,
      ofNat_toNat, setWidth_eq]
  have hphdr : word64 mem' (entryAddr a 8 3) = state.atPhdr := hword (i := 0) (by decide) rfl
  have hphent : word64 mem' (entryAddr a 8 4) = state.atPhent := hword (i := 1) (by decide) rfl
  have hphnum : word64 mem' (entryAddr a 8 5) = state.atPhnum := hword (i := 2) (by decide) rfl
  have hbias : word64 mem' (entryAddr a 8 6) = state.loadBias := hword (i := 3) (by decide) rfl
  unfold ldsoDlIteratePhdr Stage0State.load
  simp only [hphdr, hphent, hphnum, hbias]

theorem mem_of_word64_eq_zero {a : BitVec 64} (h : word64 mem a = 0#64) : mem a = 0#8 := by
  have hload : mem.load a 8 = 0 := by
    have hnat := congrArg BitVec.toNat h
    rw [word64, toNat_ofNat, toNat_ofNat] at hnat
    have hlt := mem.load_lt a 8
    omega
  apply eq_of_toNat_eq
  rw [Memory.load] at hload
  show (mem a).toNat = 0
  omega

/-- `LD_PRELOAD` is worked off. -/
theorem StartStack.stage0Preload (h : StartStack mem stack args env) (garbage : ℕ → BitVec 8)
    (registered : Bool) (st : Stage0) :
    ∃ st', Outcome.Returns
      (fun fuel => GnuOS.Ldso.stage0Preload fuel mem garbage stack registered st) st' := by
  cases registered with
  | false => exact ⟨st, Outcome.Returns.value st⟩
  | true =>
    -- the null pointer behind the environment has zero bytes, so every string ends
    obtain ⟨s, hstring⟩ := exists_stringAt (mem_of_word64_eq_zero h.env_words.append.head)
      (envValue mem ldsoLdPreloadKey env)
    exact ⟨_, h.applyLdPreload_returns (fun _ => hstring) garbage _⟩

theorem stage0Relocate_value {L : Linker} (hinit : ∀ info mem, L.runInit info mem ≠ none)
    (mem : Memory) (loadBias : BitVec 64) (info : DynamicInfo) (st : Stage0) :
    ∃ mem', stage0Relocate L mem loadBias info st = .value mem' := by
  unfold stage0Relocate
  simp only
  split
  · exact ⟨_, rfl⟩
  · split
    · next hnone => exact absurd hnone (hinit _ _)
    · exact ⟨_, rfl⟩

/-- What follows the dynamic section returns. -/
theorem StartStack.stage0Link (h : StartStack mem stack args env) {L : Linker}
    (hinit : ∀ info mem, L.runInit info mem ≠ none) (garbage : ℕ → BitVec 8)
    (loadBias : BitVec 64) (info : DynamicInfo) (st : Stage0) :
    ∃ result, Outcome.Returns
      (fun fuel => GnuOS.Ldso.stage0Link L fuel mem garbage stack loadBias info st) result := by
  rcases hregister : ldsoStage0RegisterBuiltinSymbols L
    (ldsoDlfcnInit st.dlfcn (some info) loadBias) with ⟨dlfcn, registered⟩
  obtain ⟨st', hst'⟩ := h.stage0Preload garbage registered
    { st with dlfcn := dlfcn, state := { st.state with dlfcnReady := 1#64 } }
  obtain ⟨mem', hmem'⟩ := stage0Relocate_value hinit mem loadBias info st'
  refine ⟨(st'.dlfcn, mem'), ?_⟩
  unfold Ldso.stage0Link
  simp only [hregister]
  refine Outcome.Returns.bind hst' ?_
  simp only [hmem']
  exact Outcome.Returns.value _

/-- The loader returns. -/
theorem StartStack.bootstrap (h : StartStack mem stack args env) {L : Linker}
    (hinit : ∀ info mem, L.runInit info mem ≠ none) (garbage : ℕ → BitVec 8)
    (dlfcn : Dlfcn) :
    ∃ dlfcn' mem', Outcome.Returns
      (fun fuel => ldsoStage0Bootstrap L fuel mem garbage dlfcn stack) (dlfcn', mem') := by
  unfold ldsoStage0Bootstrap
  rcases stage0Headers mem stack with ⟨state, _ | layout⟩
  · exact ⟨_, _, Outcome.Returns.value _⟩
  simp only
  cases ldsoElfParseDynamic mem (layout.dynamic mem) state.loadBias with
  | none => exact ⟨_, _, Outcome.Returns.value _⟩
  | some info =>
    obtain ⟨result, hlink⟩ := h.stage0Link hinit garbage state.loadBias info ⟨state, dlfcn, []⟩
    exact ⟨_, _, Outcome.Returns.bind hlink (Outcome.Returns.value _)⟩

/-- The state that the loader has computed from the headers describes the image. -/
theorem ProcessStack.headers (h : ProcessStack mem stack args env auxv)
    (htable : PhdrTable mem (auxvValue auxv ldsoAtPhdr) (auxvValue auxv ldsoAtPhnum))
    (callback : Bool) :
    ldsoDlIteratePhdr (stage0Headers mem stack).1 callback = imageOf mem auxv callback := by
  obtain ⟨state, hstate⟩ : ∃ state, stage0Auxv mem (auxvOf stack args env) = state := ⟨_, rfl⟩
  have hphdr : state.atPhdr = auxvValue auxv ldsoAtPhdr := by
    rw [← hstate]
    exact h.ldsoAuxvLookup _
  have hphent : state.atPhent = auxvValue auxv ldsoAtPhent := by
    rw [← hstate]
    exact h.ldsoAuxvLookup _
  have hphnum : state.atPhnum = auxvValue auxv ldsoAtPhnum := by
    rw [← hstate]
    exact h.ldsoAuxvLookup _
  rw [← hphdr, ← hphnum] at htable
  -- without a table the callback is not called
  have hnone (hbad : state.atPhdr = 0#64 ∨ state.atPhnum = 0#64 ∨
      state.atPhent ≠ BitVec.ofNat 64 ldsoElfPhdrSize) :
      ldsoDlIteratePhdr state callback = imageOf mem auxv callback := by
    unfold ldsoDlIteratePhdr imageOf
    simp only [← hphdr, ← hphent, ← hphnum, if_pos hbad]
  unfold stage0Headers
  simp only [h.findAuxv, if_neg h.auxv_addr_ne, hstate]
  by_cases hnull : state.atPhdr = 0#64 ∨ state.atPhnum = 0#64
  · rw [if_pos hnull]
    exact hnone (hnull.imp_right .inl)
  rw [if_neg hnull]
  cases hlayout : ldsoElfClassifyPhdrs mem state.atPhdr state.atPhnum state.atPhent with
  | none =>
    apply hnone
    by_contra hgood
    rw [ldsoElfClassifyPhdrs, if_neg hgood] at hlayout
    cases hlayout
  | some layout =>
    have hbias := htable.loadBias (fun hzero => hnull (.inl hzero)) hlayout
    unfold ldsoDlIteratePhdr imageOf stage0Layout
    simp only [← hphdr, ← hphent, ← hphnum, hbias]

end Loader

/-! ## Agreement -/

section Agreement

variable {mem mem' : Memory} {stack : BitVec 64} {args env : List (BitVec 64)}
  {auxv : List (BitVec 64 × BitVec 64)}

/-- The bytes of the stack that the two read. -/
def stackSize (args env : List (BitVec 64)) (auxv : List (BitVec 64 × BitVec 64)) : ℕ :=
  8 * (args.length + env.length + 3 + 2 * auxv.length + 1)

theorem word64_of_sameBytes {a : BitVec 64} {n o : ℕ} (h : mem.SameBytes mem' a n)
    (ho : o + 8 ≤ n) :
    word64 mem' (a + BitVec.ofNat 64 o) = word64 mem (a + BitVec.ofNat 64 o) := by
  rw [word64, word64, h.load ho]

theorem startWords_length (args env : List (BitVec 64)) :
    (startWords args env).length = args.length + env.length + 3 := by
  simp only [startWords, length_cons, length_append, length_nil]
  omega

theorem ProcessStack.of_sameBytes (h : ProcessStack mem stack args env auxv)
    (hsame : mem.SameBytes mem' stack (stackSize args env auxv)) :
    ProcessStack mem' stack args env auxv := by
  -- a word of the vector, by its offset from the bottom of the stack
  have hauxv (o : ℕ) (ho : o + 8 ≤ 8 * (2 * auxv.length + 1)) :
      word64 mem' (auxvOf stack args env + BitVec.ofNat 64 o) =
        word64 mem (auxvOf stack args env + BitVec.ofNat 64 o) := by
    rw [auxvOf, entryAddr, Memory.addr_add]
    exact word64_of_sameBytes hsame (by unfold stackSize; omega)
  refine { h with words := ?_, auxvEntry := ?_, auxvEnd := ?_ }
  · intro i w hw
    have hi : i < args.length + env.length + 3 := by
      rw [← startWords_length]
      exact (List.getElem?_eq_some_iff.mp hw).1
    rw [← h.words i w hw, entryAddr]
    exact word64_of_sameBytes hsame (by unfold stackSize; omega)
  · intro i e he
    have hi : i < auxv.length := (List.getElem?_eq_some_iff.mp he).1
    obtain ⟨htype, hvalue⟩ := h.auxvEntry i e he
    rw [← htype, ← hvalue, entryAddr, show (8#64) = BitVec.ofNat 64 8 from rfl, Memory.addr_add]
    exact ⟨hauxv _ (by omega), hauxv _ (by omega)⟩
  · rw [← h.auxvEnd, entryAddr]
    exact hauxv _ (by omega)

theorem gnuosComputeDlpiAddr_of_sameBytes {phdrs phnum atPhdr : BitVec 64}
    (hsame : mem.SameBytes mem' phdrs (ldsoElfPhdrSize * phnum.toNat)) :
    gnuosComputeDlpiAddr mem' phdrs phnum atPhdr = gnuosComputeDlpiAddr mem phdrs phnum atPhdr := by
  unfold gnuosComputeDlpiAddr
  rw [firstSome_congr]
  intro i _ hi
  unfold ldsoElfPhdrSize at hsame ⊢
  have htype : pType mem' (entryAddr phdrs 56 i) = pType mem (entryAddr phdrs 56 i) := by
    rw [pType, pType, word32, word32, entryAddr, hsame.load (by omega)]
  have hvaddr : pVaddr mem' (entryAddr phdrs 56 i) = pVaddr mem (entryAddr phdrs 56 i) := by
    rw [pVaddr, pVaddr, entryAddr, show (16#64) = BitVec.ofNat 64 16 from rfl, Memory.addr_add]
    exact word64_of_sameBytes hsame (by omega)
  simp only [htype, hvaddr]

end Agreement

/-! ## A relocation of the table -/

/-- A process without arguments and environment: the stack, the table of program headers at
`0x1058`, a dynamic section at `0x10C8`, and at `0x1138` one relocation that stores the load bias at
`target`. -/
def imageMemory (target : BitVec 64) : Memory :=
  Memory.ofWords 0x1000#64
    ([0#64, 0#64, 0#64] ++
      [ldsoAtPhdr, 0x1058#64, ldsoAtPhent, 56#64, ldsoAtPhnum, 2#64, ldsoAtNull, 0#64] ++
      [6#64, 0#64, 0x1058#64, 0#64, 0#64, 0#64, 0#64] ++
      [2#64, 0#64, 0x10C8#64, 0#64, 112#64, 0#64, 0#64] ++
      [ldsoDtSymtab, 0x2000#64, ldsoDtStrtab, 0x2000#64, ldsoDtSyment, 24#64] ++
      [ldsoDtRela, 0x1138#64, ldsoDtRelasz, 24#64, ldsoDtRelaent, 24#64, ldsoDtNull, 0#64] ++
      [target, 8#64, 0#64])

def imageAuxv : List (BitVec 64 × BitVec 64) :=
  [(ldsoAtPhdr, 0x1058#64), (ldsoAtPhent, 56#64), (ldsoAtPhnum, 2#64)]

/-- The relocations of the source; the program has no symbols to resolve and nothing to run.  The
state of the loader is at `0x3000`. -/
def imageLinker : Linker where
  stateAddr := 0x3000#64
  builtinSymbols := fun _ => ⟨none, 0#64⟩
  relocate := fun info loadBias _ mem => ldsoElfApplyRelocations info loadBias none mem
  runInit := fun _ mem => some mem

/-- The bootstrap of the process. -/
def imageBootstrap (target : BitVec 64) (fuel : ℕ) : Outcome (Dlfcn × Memory) :=
  ldsoStage0Bootstrap imageLinker fuel (imageMemory target) (fun _ => 0#8)
    ⟨fun _ => freeObject, false, false, ""⟩ 0x1000#64

/-- The memory that it leaves; one round is enough for the empty environment. -/
def imageAfter (target : BitVec 64) : Memory :=
  match imageBootstrap target 1 with
  | .value (_, mem) => mem
  | _ => imageMemory target

theorem auxvOf_image : auxvOf 0x1000#64 [] [] = 0x1018#64 := by decide

/-- The words of the stack, where a relocation does not reach them. -/
theorem processStack_image {mem : Memory}
    (hwords : ∀ i < 3, word64 mem (entryAddr 0x1000#64 8 i) = 0#64)
    (hauxv : ∀ i < 3, some (word64 mem (entryAddr 0x1018#64 16 i),
      word64 mem (entryAddr 0x1018#64 16 i + 8#64)) = imageAuxv[i]?)
    (hend : word64 mem (entryAddr 0x1018#64 16 3) = ldsoAtNull) :
    ProcessStack mem 0x1000#64 [] [] imageAuxv where
  nonnull := by decide
  inSpace := by decide
  args_ne := by decide
  env_ne := by decide
  words i w hw := by
    have hi : i < 3 := (List.getElem?_eq_some_iff.mp hw).1
    have hzero : ∀ i < 3, (startWords [] [])[i]? = some 0#64 := by decide
    rw [hzero i hi, Option.some_inj] at hw
    rw [← hw]
    exact hwords i hi
  auxvInSpace := by decide
  env_le := by decide
  auxv_le := by decide
  auxv_ne e he := by
    simp only [imageAuxv, mem_cons, not_mem_nil, or_false] at he
    rcases he with rfl | rfl | rfl <;> decide
  auxvEntry i e he := by
    have hi : i < 3 := (List.getElem?_eq_some_iff.mp he).1
    have hread := Option.some_inj.mp ((hauxv i hi).trans he)
    rw [auxvOf_image, ← hread]
    exact ⟨rfl, rfl⟩
  auxvEnd := by
    rw [auxvOf_image]
    exact hend

theorem imageAfter_eq {target : BitVec 64} {dlfcn : Dlfcn} {mem' : Memory}
    (h : StartStack (imageMemory target) 0x1000#64 [] [])
    (hreturns : Outcome.Returns (imageBootstrap target) (dlfcn, mem')) :
    imageAfter target = mem' := by
  obtain ⟨bound, hbound⟩ := hreturns
  -- more rounds make no difference
  have hpreload (st : Stage0) :
      ldsoStage0ApplyLdPreload (bound + 1) (imageMemory target) (fun _ => 0#8) 0x1000#64 st =
        ldsoStage0ApplyLdPreload 1 (imageMemory target) (fun _ => 0#8) 0x1000#64 st := by
    unfold ldsoStage0ApplyLdPreload
    rw [h.findEnvValue (by decide) (Nat.succ_pos bound), h.findEnvValue (by decide) Nat.one_pos]
    rfl
  have hvalue := hbound (bound + 1) (Nat.le_succ _)
  unfold imageBootstrap ldsoStage0Bootstrap stage0Link stage0Preload at hvalue
  simp only [hpreload] at hvalue
  unfold imageAfter imageBootstrap ldsoStage0Bootstrap stage0Link stage0Preload
  rw [hvalue]

end GnuOS.Ldso

import GnuOS.Lib.Patches
import GnuOS.Ldso.Order

/-!
# Every relocation is counted

`ldso_elf_apply_relocations` counts each entry it comes to, or passes over it because its type is
`NONE`.  How many entries it comes to is what `ldso_elf_parse_dynamic` has computed: for a table
whose format it does not know, the parser leaves the count at 0, and the branch of the applier that
counts unsupported tables is never taken.
-/

namespace GnuOS.Ldso

open GnuOS.Lib List

/-! ## Verdicts -/

def Rela.target (loadBias : BitVec 64) (rela : Rela) : BitVec 64 := loadBias + rela.rOffset

def Rela.type (rela : Rela) : BitVec 32 := ldsoElf64RType rela.rInfo

def Rela.symIndex (rela : Rela) : BitVec 32 := ldsoElf64RSym rela.rInfo

/-- The types that need the value of a symbol. -/
def Rela.Symbolic (rela : Rela) : Prop :=
  rela.type = ldsoRX866464 ∨ rela.type = ldsoRX8664GlobDat ∨ rela.type = ldsoRX8664JumpSlot

instance (rela : Rela) : Decidable rela.Symbolic := inferInstanceAs (Decidable (_ ∨ _))

/-- What the pass does about an entry. -/
inductive Verdict
  | skip
  | unresolved
  | unsupported
  | write (value : BitVec 64)
  deriving DecidableEq

def verdict (info : DynamicInfo) (loadBias : BitVec 64) (resolver : Option Resolver) (mem : Memory)
    (rela : Rela) : Verdict :=
  if rela.type = ldsoRX8664None then .skip
  else if rela.type = ldsoRX8664Relative then .write (loadBias + rela.rAddend)
  else if rela.Symbolic then
    match ldsoElfSymbolValue info loadBias rela.symIndex resolver mem with
    | none => .unresolved
    | some value => .write (value + rela.rAddend)
  else .unsupported

def RelocState.record (s : RelocState) (target : BitVec 64) : Verdict → RelocState
  | .skip => s
  | .unresolved =>
    { s with result := { s.result with unresolvedCount := s.result.unresolvedCount + 1#64 } }
  | .unsupported =>
    { s with result := { s.result with unsupportedCount := s.result.unsupportedCount + 1#64 } }
  | .write value => s.write target value

section Verdicts

variable {info : DynamicInfo} {loadBias : BitVec 64} {resolver : Option Resolver}
  {mem : Memory} {rela : Rela} {s : RelocState}

theorem applyRela_eq (info : DynamicInfo) (loadBias : BitVec 64) (resolver : Option Resolver)
    (s : RelocState) (rela : Rela) :
    applyRela info loadBias resolver s rela =
      s.record (rela.target loadBias) (verdict info loadBias resolver s.mem rela) := by
  unfold applyRela verdict
  show (if rela.type = ldsoRX8664None then _ else if rela.type = ldsoRX8664Relative then _
    else if rela.Symbolic then _ else _) = _
  split_ifs with hnone hrelative hsymbolic
  · rfl
  · rfl
  · rw [Rela.symIndex]
    cases ldsoElfSymbolValue info loadBias (ldsoElf64RSym rela.rInfo) resolver s.mem <;> rfl
  · rfl

theorem verdict_eq_skip :
    verdict info loadBias resolver mem rela = .skip ↔ rela.type = ldsoRX8664None := by
  constructor
  · intro h
    unfold verdict at h
    split at h
    · next hnone => exact hnone
    split at h
    · cases h
    split at h
    · split at h <;> cases h
    · cases h
  · intro h
    rw [verdict, if_pos h]

/-- The entries that were counted. -/
def RelocResult.total (r : RelocResult) : ℕ :=
  r.appliedCount.toNat + r.unresolvedCount.toNat + r.unsupportedCount.toNat

theorem toNat_succ {x : BitVec 64} (h : x.toNat + 1 < 2 ^ 64) :
    (x + 1#64).toNat = x.toNat + 1 := by
  rw [BitVec.toNat_add]
  exact Nat.mod_eq_of_lt h

/-- Every entry is counted once, unless it is passed over. -/
theorem RelocState.record_total (s : RelocState) (target : BitVec 64) (v : Verdict)
    (h : s.result.total + 1 < 2 ^ 64) :
    (s.record target v).result.total + (if v = .skip then 1 else 0) = s.result.total + 1 := by
  unfold RelocResult.total at h ⊢
  have happlied := toNat_succ (x := s.result.appliedCount) (by omega)
  have hunresolved := toNat_succ (x := s.result.unresolvedCount) (by omega)
  have hunsupported := toNat_succ (x := s.result.unsupportedCount) (by omega)
  cases v <;> simp [record, write, happlied, hunresolved, hunsupported] <;> omega

end Verdicts

/-! ## The applier -/

section Applier

variable (info : DynamicInfo) (loadBias : BitVec 64) (resolver : Option Resolver)
  {s : RelocState}

/-- The loop over a table. -/
def applyRange (table : BitVec 64) (n : ℕ) (s : RelocState) : RelocState :=
  (range n).foldl
    (fun s index => applyRela info loadBias resolver s (readRela s.mem table index)) s

/-- The first `n` entries of a table as the loop finds them, each in the memory when the loop comes
to it; behind the `count` entries that it reads, in the memory that it leaves. -/
def foundEntries (table : BitVec 64) (count n : ℕ) (s : RelocState) : List Rela :=
  (range n).map fun i =>
    readRela (applyRange info loadBias resolver table (min i count) s).mem table i

/-- The entries that the loop reads are counted or of type `NONE`. -/
theorem applyRange_total (table : BitVec 64) {count n : ℕ} (hn : n ≤ count)
    (h : s.result.total + n < 2 ^ 64) :
    (applyRange info loadBias resolver table n s).result.total +
      (foundEntries info loadBias resolver table count n s).countP
        (fun rela => rela.type = ldsoRX8664None) = s.result.total + n := by
  induction n with
  | zero => rfl
  | succ n ih =>
    have hrest := ih (by omega) (by omega)
    unfold foundEntries at hrest ⊢
    have hround : applyRange info loadBias resolver table (n + 1) s =
        applyRela info loadBias resolver (applyRange info loadBias resolver table n s)
          (readRela (applyRange info loadBias resolver table n s).mem table n) := by
      simp only [applyRange, range_succ, foldl_append, foldl_cons, foldl_nil]
    rw [hround, range_succ, map_append, countP_append, map_singleton, countP_singleton,
      Nat.min_eq_left (by omega)]
    generalize applyRange info loadBias resolver table n s = s' at hrest ⊢
    have hone := s'.record_total ((readRela s'.mem table n).target loadBias)
      (verdict info loadBias resolver s'.mem (readRela s'.mem table n)) (by omega)
    rw [← applyRela_eq] at hone
    simp only [verdict_eq_skip] at hone
    simp only [decide_eq_true_eq]
    omega

theorem length_foundEntries (table : BitVec 64) (count n : ℕ) :
    (foundEntries info loadBias resolver table count n s).length = n := by
  rw [foundEntries, length_map, length_range]

/-- A table of `n` entries that is read if `P` holds: they are all counted or of type `NONE` exactly
if it is read or has only entries of type `NONE`. -/
theorem table_total (table : BitVec 64) {count n : ℕ} {P : Prop} [Decidable P]
    (hcount : count = if P then n else 0) (h : s.result.total + n < 2 ^ 64) :
    (applyRange info loadBias resolver table count s).result.total +
        (foundEntries info loadBias resolver table count n s).countP
          (fun rela => rela.type = ldsoRX8664None) ≤ s.result.total + n ∧
      ((applyRange info loadBias resolver table count s).result.total +
          (foundEntries info loadBias resolver table count n s).countP
            (fun rela => rela.type = ldsoRX8664None) = s.result.total + n ↔
        P ∨ ∀ rela ∈ foundEntries info loadBias resolver table count n s,
          rela.type = ldsoRX8664None) := by
  by_cases hread : P
  · rw [if_pos hread] at hcount
    subst hcount
    have htotal := applyRange_total info loadBias resolver table (le_refl count) h
    exact ⟨le_of_eq htotal, iff_of_true htotal (.inl hread)⟩
  · rw [if_neg hread] at hcount
    subst hcount
    have hle := countP_le_length (p := fun rela : Rela => rela.type = ldsoRX8664None)
      (l := foundEntries info loadBias resolver table 0 n s)
    have hall := countP_eq_length (p := fun rela : Rela => rela.type = ldsoRX8664None)
      (l := foundEntries info loadBias resolver table 0 n s)
    simp only [decide_eq_true_eq] at hall
    rw [length_foundEntries] at hle hall
    rw [show applyRange info loadBias resolver table 0 s = s from rfl, ← hall, or_iff_right hread]
    omega

/-- What the parser guarantees about the tables: those with entries are there, and their entries
have the known format. -/
structure Readable (info : DynamicInfo) : Prop where
  rela : 0#64 < info.relaCount → info.rela ≠ 0#64
  jmprel : 0#64 < info.jmprelCount → info.jmprel ≠ 0#64 ∧ info.pltrelType = ldsoDtPltrelRela
  bounded : info.relaCount.toNat + info.jmprelCount.toNat < 2 ^ 64

theorem eq_zero_of_not_pos {x : BitVec 64} (h : ¬ 0#64 < x) : x.toNat = 0 := by
  rw [BitVec.lt_def, BitVec.toNat_zero] at h
  omega

/-- The pass is the loop over the one table and then over the other. -/
theorem applyRelocations_eq (h : Readable info) (mem : Memory) :
    ldsoElfApplyRelocations info loadBias resolver mem =
      (true, applyRange info loadBias resolver info.jmprel info.jmprelCount.toNat
        (applyRange info loadBias resolver info.rela info.relaCount.toNat (.start mem))) := by
  have hjmprel : ∀ s, applyJmprel info loadBias resolver s =
      (true, applyRange info loadBias resolver info.jmprel info.jmprelCount.toNat s) := by
    intro s
    unfold applyJmprel ldsoElfApplyRelaRange
    by_cases hpos : 0#64 < info.jmprelCount
    · obtain ⟨htable, htype⟩ := h.jmprel hpos
      rw [if_pos ⟨htable, hpos⟩, if_neg (not_not.mpr htype), if_neg htable, applyRange]
    · rw [if_neg fun hand => hpos hand.2, eq_zero_of_not_pos hpos]
      rfl
  unfold ldsoElfApplyRelocations ldsoElfApplyRelaRange
  simp only [hjmprel]
  by_cases hpos : 0#64 < info.relaCount
  · rw [if_pos ⟨h.rela hpos, hpos⟩, if_neg (h.rela hpos)]
    rfl
  · rw [if_neg fun hand => hpos hand.2, eq_zero_of_not_pos hpos]
    rfl

end Applier

/-! ## The parser -/

/-- The entries before the one that ends the section. -/
def dynamicSection (mem : Memory) (dynEntries : BitVec 64) : ℕ → ℕ → List Dyn
  | 0, _ => []
  | n + 1, index =>
    let entry := readDyn mem dynEntries index
    if entry.dTag = ldsoDtNull then [] else entry :: dynamicSection mem dynEntries n (index + 1)

/-- The dynamic section that a program header describes. -/
def DynamicSegment.entries (segment : DynamicSegment) (mem : Memory) (loadBias : BitVec 64) :
    List Dyn :=
  dynamicSection mem (loadBias + segment.pVaddr) segment.count.toNat 0

section Parser

variable {mem : Memory} {dynEntries loadBias : BitVec 64}

theorem parseLoop_eq (n index : ℕ) (s : ParseState) :
    parseLoop mem dynEntries loadBias n index s =
      (dynamicSection mem dynEntries n index).foldl (parseEntry loadBias) s := by
  induction n generalizing index s with
  | zero => rfl
  | succ n ih =>
    unfold parseLoop dynamicSection
    simp only
    split
    · rfl
    · rw [foldl_cons, ih]

end Parser

/-! ## The tables -/

/-- The pointer to a table. -/
def tablePointer (loadBias table : BitVec 64) (entries : List Dyn) : BitVec 64 :=
  ((tagValue table entries).map (loadBias + ·)).getD 0#64

/-- The value of a tag, 0 if the section does not have it. -/
def tagWord (tag : BitVec 64) (entries : List Dyn) : BitVec 64 := (tagValue tag entries).getD 0#64

/-- The entries of a table that the section has, of 24 bytes each. -/
def tableEntries (table size : BitVec 64) (entries : List Dyn) : ℕ :=
  if (tagValue table entries).isSome then (tagWord size entries).toNat / 24 else 0

/-- The parser takes the table: its pointer is not null, and the tag that gives its format has the
value that the parser knows. -/
def TableRead (loadBias table format value : BitVec 64) (entries : List Dyn) : Prop :=
  tablePointer loadBias table entries ≠ 0#64 ∧ tagWord format entries = value

instance (loadBias table format value : BitVec 64) (entries : List Dyn) :
    Decidable (TableRead loadBias table format value entries) :=
  inferInstanceAs (Decidable (_ ∧ _))

/-- The count that the parser computes. -/
def parsedCount (loadBias table size format value : BitVec 64) (entries : List Dyn) : BitVec 64 :=
  if tablePointer loadBias table entries ≠ 0#64 ∧ tagWord format entries = value then
    tagWord size entries / 24#64
  else 0#64

section Tables

variable {loadBias table size format value : BitVec 64} {entries : List Dyn}

theorem toNat_div_entry (x : BitVec 64) : (x / 24#64).toNat = x.toNat / 24 := by
  rw [BitVec.toNat_udiv]
  rfl

theorem toNat_parsedCount_lt :
    (parsedCount loadBias table size format value entries).toNat < 2 ^ 63 := by
  unfold parsedCount
  split
  · rw [toNat_div_entry]
    have hsize := (tagWord size entries).isLt
    omega
  · decide

theorem tagValue_isSome_of_pointer (h : tablePointer loadBias table entries ≠ 0#64) :
    (tagValue table entries).isSome = true := by
  unfold tablePointer at h
  cases htag : tagValue table entries with
  | none => exact absurd (by rw [htag]; rfl) h
  | some _ => rfl

/-- The parser counts all entries of a table that it takes, and none of another. -/
theorem toNat_parsedCount :
    (parsedCount loadBias table size format value entries).toNat =
      if TableRead loadBias table format value entries then tableEntries table size entries
      else 0 := by
  unfold parsedCount
  by_cases h : TableRead loadBias table format value entries
  · rw [if_pos h, if_pos ⟨h.1, h.2⟩, tableEntries, if_pos (tagValue_isSome_of_pointer h.1),
      toNat_div_entry]
  · rw [if_neg h, if_neg fun hread => h ⟨hread.1, hread.2⟩]
    rfl

theorem tableEntries_lt : tableEntries table size entries < 2 ^ 63 := by
  unfold tableEntries
  have hsize := (tagWord size entries).isLt
  split <;> omega

end Tables

section Parsed

variable {mem : Memory} {segment : DynamicSegment} {loadBias : BitVec 64} {info : DynamicInfo}

/-- What the applier reads of the parsed section. -/
structure Parsed (loadBias : BitVec 64) (entries : List Dyn) (info : DynamicInfo) : Prop where
  rela : info.rela = tablePointer loadBias ldsoDtRela entries
  relaCount : info.relaCount =
    parsedCount loadBias ldsoDtRela ldsoDtRelasz ldsoDtRelaent 24#64 entries
  jmprel : info.jmprel = tablePointer loadBias ldsoDtJmprel entries
  jmprelCount : info.jmprelCount =
    parsedCount loadBias ldsoDtJmprel ldsoDtPltrelsz ldsoDtPltrel ldsoDtPltrelRela entries
  pltrelType : info.pltrelType = tagWord ldsoDtPltrel entries

/-- The variables after the loop. -/
structure Scanned (loadBias : BitVec 64) (entries : List Dyn) (s : ParseState) : Prop where
  rela : s.info.rela = tablePointer loadBias ldsoDtRela entries
  relaSize : s.relaSize = tagWord ldsoDtRelasz entries
  relaEnt : s.info.relaEnt = tagWord ldsoDtRelaent entries
  relaCount : s.info.relaCount = 0#64
  jmprel : s.info.jmprel = tablePointer loadBias ldsoDtJmprel entries
  pltrelSize : s.pltrelSize = tagWord ldsoDtPltrelsz entries
  pltrelType : s.info.pltrelType = tagWord ldsoDtPltrel entries
  jmprelCount : s.info.jmprelCount = 0#64

theorem foldl_scanned (segment : DynamicSegment) (loadBias : BitVec 64) (entries : List Dyn) :
    Scanned loadBias entries
      (entries.foldl (parseEntry loadBias) (parseStart segment loadBias)) := by
  rw [foldl_parseStart, show parsed entries = fun tag => tagValue tag entries from
    funext fun tag => parsed_eq_tagValue tag entries]
  exact ⟨rfl, rfl, rfl, rfl, rfl, rfl, rfl, rfl⟩

theorem Scanned.finish {entries : List Dyn} {s : ParseState} (h : Scanned loadBias entries s)
    (mem : Memory) : Parsed loadBias entries (parseFinish mem s) where
  rela := h.rela
  relaCount := by
    show (if s.info.rela ≠ 0#64 ∧ s.info.relaEnt = 24#64 then s.relaSize / s.info.relaEnt
      else s.info.relaCount) = _
    rw [h.rela, h.relaEnt, h.relaSize, h.relaCount, parsedCount]
    split
    · next hread => rw [hread.2]
    · rfl
  jmprel := h.jmprel
  jmprelCount := by
    unfold parseFinish parsedCount
    rw [h.jmprel, h.pltrelType, h.pltrelSize, h.jmprelCount]
  pltrelType := h.pltrelType

theorem parsed_of_parse (h : ldsoElfParseDynamic mem (some segment) loadBias = some info) :
    Parsed loadBias (segment.entries mem loadBias) info := by
  unfold ldsoElfParseDynamic at h
  simp only [parseLoop_eq] at h
  split at h
  · cases h
  split at h
  · cases h
  · cases h
    exact (foldl_scanned segment loadBias _).finish mem

theorem Parsed.readable {entries : List Dyn} (h : Parsed loadBias entries info) :
    Readable info where
  rela := by
    intro hpos hnull
    rw [h.relaCount, parsedCount, ← h.rela, if_neg fun hread => hread.1 hnull] at hpos
    exact absurd hpos (by decide)
  jmprel := by
    intro hpos
    rw [h.jmprelCount, parsedCount, ← h.jmprel, ← h.pltrelType] at hpos
    by_contra hread
    rw [if_neg hread] at hpos
    exact absurd hpos (by decide)
  bounded := by
    rw [h.relaCount, h.jmprelCount]
    exact Nat.add_lt_add toNat_parsedCount_lt toNat_parsedCount_lt

/-- The relocations that the section has, in both tables. -/
def relocationEntries (entries : List Dyn) : ℕ :=
  tableEntries ldsoDtRela ldsoDtRelasz entries + tableEntries ldsoDtJmprel ldsoDtPltrelsz entries

/-- The entries of the two tables, as the pass finds them. -/
def relaFound (info : DynamicInfo) (loadBias : BitVec 64) (resolver : Option Resolver)
    (mem : Memory) (entries : List Dyn) : List Rela :=
  foundEntries info loadBias resolver info.rela info.relaCount.toNat
    (tableEntries ldsoDtRela ldsoDtRelasz entries) (.start mem)

def jmprelFound (info : DynamicInfo) (loadBias : BitVec 64) (resolver : Option Resolver)
    (mem : Memory) (entries : List Dyn) : List Rela :=
  foundEntries info loadBias resolver info.jmprel info.jmprelCount.toNat
    (tableEntries ldsoDtJmprel ldsoDtPltrelsz entries)
    (applyRange info loadBias resolver info.rela info.relaCount.toNat (.start mem))

/-- The counts of two tables, of which each has its own condition to be complete. -/
theorem both_tables {t t' n n' c c' : ℕ} {P Q : Prop} (h : t + c ≤ n ∧ (t + c = n ↔ P))
    (h' : t' + c' ≤ t + n' ∧ (t' + c' = t + n' ↔ Q)) : t' + (c + c') = n + n' ↔ P ∧ Q := by
  rw [← h.2, ← h'.2]
  omega

end Parsed

/-- A dynamic section at `0x1000` with a string table, a symbol table and one relocation of type
`RELATIVE` for the word at `0x3000`, whose table says that its entries have `relaent` bytes. -/
def oneRelocation (relaent : BitVec 64) : Memory :=
  Memory.ofWords 0x1000#64 [ldsoDtStrtab, 0x2000#64, ldsoDtSymtab, 0x2100#64, ldsoDtSyment, 24#64,
    ldsoDtRela, 0x1070#64, ldsoDtRelasz, 24#64, ldsoDtRelaent, relaent, ldsoDtNull, 0#64,
    0x3000#64, 8#64, 0x1234#64]

def oneRelocationSegment : DynamicSegment := ⟨0x1000#64, 112#64⟩

def oneRelocationInfo (relaent : BitVec 64) : DynamicInfo :=
  { ldsoElfDynamicReset with
    dynamicEntries := 0x1000#64
    dynamicCount := 7#64
    strtab := 0x2000#64
    symtab := 0x2100#64
    syment := 24#64
    rela := 0x1070#64
    relaEnt := relaent
    relaCount := if relaent = 24#64 then 1#64 else 0#64 }

end GnuOS.Ldso

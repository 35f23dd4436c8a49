import GnuOS.Ldso.Elf
import GnuOS.Lib.Assignments

/-!
# The order of the dynamic section

`ldso_elf_parse_dynamic` stores what an entry says under the tag of the entry, and combines the
tables with their sizes only after the loop.  If no tag that it knows occurs twice, the entries may
stand in any order, with entries of other tags between them.

One field is not read from the entries: the number of symbols is the second word of the hash table,
wherever `DT_HASH` points.  A hash table inside of the dynamic section changes with the entries.
-/

namespace GnuOS.Ldso

open GnuOS.Lib Function List

/-! ## The call with its output -/

/-- What follows the loop: the check of the tables, and the counts. -/
def parseResult (mem : Memory) (s : ParseState) : Bool × DynamicInfo :=
  if s.info.symtab = 0#64 ∨ s.info.strtab = 0#64 ∨ s.info.syment ≠ 24#64 then (false, s.info)
  else (true, parseFinish mem s)

/-- The return value, true for 0 and false for -1, and what `dynamic_info` points to afterwards. -/
def ldsoElfParseDynamicOut (mem : Memory) (segment : Option DynamicSegment) (loadBias : BitVec 64)
    (dynamicInfo : DynamicInfo) : Bool × DynamicInfo :=
  match segment with
  | none => (false, dynamicInfo)
  | some segment =>
    if segment.pFilesz = 0#64 then (false, dynamicInfo)
    else
      parseResult mem (parseLoop mem (loadBias + segment.pVaddr) loadBias segment.count.toNat 0
        (parseStart segment loadBias))

/-- `ldsoElfParseDynamic` is the same call without what a failure leaves in the output. -/
theorem ldsoElfParseDynamic_eq (mem : Memory) (segment : Option DynamicSegment)
    (loadBias : BitVec 64) (dynamicInfo : DynamicInfo) :
    ldsoElfParseDynamic mem segment loadBias =
      match ldsoElfParseDynamicOut mem segment loadBias dynamicInfo with
      | (true, info) => some info
      | (false, _) => none := by
  cases segment with
  | none => rfl
  | some segment =>
    simp only [ldsoElfParseDynamic, ldsoElfParseDynamicOut, parseResult]
    split_ifs <;> rfl

/-! ## Entries -/

/-- The tags that the loop knows. -/
def recognisedTags : List (BitVec 64) :=
  [ldsoDtStrtab, ldsoDtHash, ldsoDtStrsz, ldsoDtSymtab, ldsoDtSyment, ldsoDtRela, ldsoDtRelasz,
    ldsoDtRelaent, ldsoDtJmprel, ldsoDtPltrelsz, ldsoDtPltrel, ldsoDtInit, ldsoDtInitArray,
    ldsoDtInitArraysz]

def Dyn.recognised (entry : Dyn) : Bool := recognisedTags.contains entry.dTag

/-- The dynamic section holds the entries, and `DT_NULL` behind them. -/
structure EntriesAt (mem : Memory) (segment : DynamicSegment) (loadBias : BitVec 64)
    (entries : List Dyn) : Prop where
  length_lt : entries.length < segment.count.toNat
  entry : ∀ i e, entries[i]? = some e → readDyn mem (loadBias + segment.pVaddr) i = e
  nonnull : ∀ e ∈ entries, e.dTag ≠ ldsoDtNull
  stop : (readDyn mem (loadBias + segment.pVaddr) entries.length).dTag = ldsoDtNull

variable {entries : List Dyn}

/-- The loop is a fold over the entries before the first `DT_NULL`. -/
theorem parseLoop_eq_foldl {mem : Memory} {table loadBias : BitVec 64} {n index : ℕ}
    {s : ParseState} (hlength : entries.length < n)
    (hentry : ∀ i e, entries[i]? = some e → readDyn mem table (index + i) = e)
    (hnonnull : ∀ e ∈ entries, e.dTag ≠ ldsoDtNull)
    (hstop : (readDyn mem table (index + entries.length)).dTag = ldsoDtNull) :
    parseLoop mem table loadBias n index s = entries.foldl (parseEntry loadBias) s := by
  induction entries generalizing n index s with
  | nil =>
    obtain ⟨n, rfl⟩ := Nat.exists_eq_add_of_lt hlength
    simp only [length_nil, Nat.add_zero, Nat.zero_add] at hstop ⊢
    simp only [parseLoop, hstop, if_true, foldl_nil]
  | cons e entries ih =>
    have hfirst : readDyn mem table index = e := hentry 0 e rfl
    have hne : e.dTag ≠ ldsoDtNull := hnonnull e mem_cons_self
    cases n with
    | zero => exact absurd hlength (Nat.not_lt_zero _)
    | succ n =>
      simp only [parseLoop, hfirst, if_neg hne, foldl_cons]
      apply ih (Nat.lt_of_succ_lt_succ hlength)
      · intro i e' hget
        rw [Nat.add_assoc, Nat.add_comm 1 i]
        exact hentry (i + 1) e' hget
      · exact fun e' he' => hnonnull e' (mem_cons_of_mem e he')
      · rw [Nat.add_assoc, Nat.add_comm 1]
        exact hstop

/-! ## The loop as an assignment -/

/-- The variables of the loop when `un` gives what was read under each tag. -/
def assemble (loadBias : BitVec 64) (s : ParseState) (un : BitVec 64 → Option (BitVec 64)) :
    ParseState :=
  let number (tag old : BitVec 64) := (un tag).getD old
  let pointer (tag old : BitVec 64) := ((un tag).map (loadBias + ·)).getD old
  { info := { s.info with
      hashTable := pointer ldsoDtHash s.info.hashTable
      strtab := pointer ldsoDtStrtab s.info.strtab
      strsz := number ldsoDtStrsz s.info.strsz
      symtab := pointer ldsoDtSymtab s.info.symtab
      syment := number ldsoDtSyment s.info.syment
      rela := pointer ldsoDtRela s.info.rela
      relaEnt := number ldsoDtRelaent s.info.relaEnt
      jmprel := pointer ldsoDtJmprel s.info.jmprel
      pltrelType := number ldsoDtPltrel s.info.pltrelType
      initFunc := pointer ldsoDtInit s.info.initFunc
      initArray := pointer ldsoDtInitArray s.info.initArray }
    relaSize := number ldsoDtRelasz s.relaSize
    pltrelSize := number ldsoDtPltrelsz s.pltrelSize
    initArraySize := number ldsoDtInitArraysz s.initArraySize }

section Assemble

variable {loadBias : BitVec 64} {s : ParseState} {un un' : BitVec 64 → Option (BitVec 64)}

/-- Only the tags that the loop knows matter. -/
theorem assemble_congr (h : ∀ tag ∈ recognisedTags, un tag = un' tag) :
    assemble loadBias s un = assemble loadBias s un' := by
  simp only [recognisedTags, forall_mem_cons] at h
  simp only [assemble, h]

/-- The body of the loop assigns what the entry says to its tag. -/
theorem parseEntry_assemble (e : Dyn) :
    parseEntry loadBias (assemble loadBias s un) e =
      assemble loadBias s (update un e.dTag (some e.dUn)) := by
  by_cases hknown : e.dTag ∈ recognisedTags
  · obtain ⟨tag, value⟩ := e
    simp only [recognisedTags, mem_cons, not_mem_nil, or_false] at hknown
    -- one case for each tag: one field of the two sides has changed
    rcases hknown with rfl | rfl | rfl | rfl | rfl | rfl | rfl | rfl | rfl | rfl | rfl | rfl | rfl |
      rfl <;> rfl
  · have hkept : parseEntry loadBias (assemble loadBias s un) e = assemble loadBias s un := by
      simp only [recognisedTags, mem_cons, not_mem_nil, or_false, not_or] at hknown
      simp only [parseEntry, hknown, if_false]
    rw [hkept]
    apply assemble_congr
    intro tag htag
    rw [update_of_ne]
    rintro rfl
    exact hknown htag

theorem foldl_parseEntry (entries : List Dyn) :
    entries.foldl (parseEntry loadBias) (assemble loadBias s un) =
      assemble loadBias s (assign Dyn.dTag (fun e => some e.dUn) un entries) := by
  induction entries generalizing un with
  | nil => rfl
  | cons e entries ih =>
    rw [foldl_cons, parseEntry_assemble, ih, assign_cons]

end Assemble

/-- What the loop has read when it ends. -/
def parsed (entries : List Dyn) : BitVec 64 → Option (BitVec 64) :=
  assign Dyn.dTag (fun e => some e.dUn) (fun _ => none) entries

/-- The value of a tag; the last entry with the tag decides. -/
def tagValue (tag : BitVec 64) : List Dyn → Option (BitVec 64)
  | [] => none
  | entry :: entries =>
    (tagValue tag entries).or (if entry.dTag = tag then some entry.dUn else none)

theorem parsed_eq_tagValue (tag : BitVec 64) (entries : List Dyn) :
    parsed entries tag = tagValue tag entries := by
  suffices h : ∀ un, assign Dyn.dTag (fun e => some e.dUn) un entries tag =
      (tagValue tag entries).or (un tag) from (h _).trans Option.or_none
  induction entries with
  | nil => exact fun un => rfl
  | cons e entries ih =>
    intro un
    rw [assign_cons, ih, tagValue, Option.or_assoc, update_apply]
    by_cases htag : e.dTag = tag
    · rw [if_pos htag, if_pos htag.symm, Option.some_or]
    · rw [if_neg htag, if_neg (Ne.symm htag), Option.none_or]

/-- The loop stores the value of each tag. -/
theorem foldl_parseStart (segment : DynamicSegment) (loadBias : BitVec 64) (entries : List Dyn) :
    entries.foldl (parseEntry loadBias) (parseStart segment loadBias) =
      assemble loadBias (parseStart segment loadBias) (parsed entries) :=
  @foldl_parseEntry loadBias (parseStart segment loadBias) (fun _ => none) entries

theorem EntriesAt.parseLoop_eq {mem : Memory} {segment : DynamicSegment} {loadBias : BitVec 64}
    (h : EntriesAt mem segment loadBias entries) :
    parseLoop mem (loadBias + segment.pVaddr) loadBias segment.count.toNat 0
      (parseStart segment loadBias) =
      assemble loadBias (parseStart segment loadBias) (parsed entries) := by
  rw [parseLoop_eq_foldl h.length_lt (by simpa using h.entry) h.nonnull (by simpa using h.stop),
    foldl_parseStart]

/-! ## Independence of the order -/

/-- The same information for a section at another place. -/
def DynamicInfo.relocate (info : DynamicInfo) (segment : DynamicSegment) (loadBias : BitVec 64) :
    DynamicInfo :=
  { info with dynamicEntries := loadBias + segment.pVaddr, dynamicCount := segment.count }

/-- The same variables of the loop for a section at another place. -/
def ParseState.relocate (s : ParseState) (segment : DynamicSegment) (loadBias : BitVec 64) :
    ParseState :=
  { s with info := s.info.relocate segment loadBias }

/-- What follows the loop does not read where the section is; in memory it reads one word. -/
theorem parseResult_relocate {mem mem' : Memory} {s : ParseState} (segment : DynamicSegment)
    (loadBias : BitVec 64) (hword : s.info.hashTable ≠ 0#64 →
      word32 mem (s.info.hashTable + 4#64) = word32 mem' (s.info.hashTable + 4#64)) :
    parseResult mem' (s.relocate segment loadBias) =
      ((parseResult mem s).1, (parseResult mem s).2.relocate segment loadBias) := by
  have hfinish : parseFinish mem' (s.relocate segment loadBias) =
      (parseFinish mem s).relocate segment loadBias := by
    have hnchain : (if s.info.hashTable ≠ 0#64 then
          (word32 mem' (s.info.hashTable + 4#64)).setWidth 64 else s.info.hashNchain) =
        if s.info.hashTable ≠ 0#64 then
          (word32 mem (s.info.hashTable + 4#64)).setWidth 64 else s.info.hashNchain :=
      ite_congr rfl (fun hne => by rw [hword hne]) fun _ => rfl
    exact congrArg (fun count =>
      { (parseFinish mem s).relocate segment loadBias with hashNchain := count }) hnchain
  unfold parseResult
  rw [hfinish]
  by_cases hmissing : s.info.symtab = 0#64 ∨ s.info.strtab = 0#64 ∨ s.info.syment ≠ 24#64
  · rw [if_pos hmissing]
    exact if_pos hmissing
  · rw [if_neg hmissing]
    exact if_neg hmissing

theorem EntriesAt.pFilesz_ne {mem : Memory} {segment : DynamicSegment} {loadBias : BitVec 64}
    (h : EntriesAt mem segment loadBias entries) :
    segment.pFilesz ≠ 0#64 := by
  intro hzero
  have hlt := h.length_lt
  rw [DynamicSegment.count, hzero] at hlt
  exact absurd hlt (Nat.not_lt_zero _)

/-- The hash table is where an entry with `DT_HASH` says. -/
theorem exists_of_parsed {tag value : BitVec 64} (h : parsed entries tag = some value) :
    ∃ e ∈ entries, e.dTag = tag ∧ e.dUn = value := by
  rw [parsed_eq_tagValue] at h
  induction entries with
  | nil => cases h
  | cons e entries ih =>
    rcases Option.or_eq_some_iff.mp h with hlater | ⟨_, hfirst⟩
    · obtain ⟨e', he', hboth⟩ := ih hlater
      exact ⟨e', mem_cons_of_mem e he', hboth⟩
    · obtain ⟨htag, hvalue⟩ := Option.ite_none_right_eq_some.mp hfirst
      exact ⟨e, mem_cons_self, htag, Option.some_inj.mp hvalue⟩

/-- Two dynamic sections whose known entries are the same up to their order, with no known tag
twice, are parsed alike: with the same status and the same fields, apart from where the section is.
The word that gives the number of symbols must be the same in both. -/
theorem parse_dynamic_order {mem mem' : Memory} {segment segment' : DynamicSegment}
    {loadBias : BitVec 64} {entries entries' : List Dyn} (info info' : DynamicInfo)
    (h : EntriesAt mem segment loadBias entries) (h' : EntriesAt mem' segment' loadBias entries')
    (honce : ((entries.filter Dyn.recognised).map Dyn.dTag).Nodup)
    (hperm : (entries.filter Dyn.recognised).Perm (entries'.filter Dyn.recognised))
    (hhash : ∀ e ∈ entries, e.dTag = ldsoDtHash →
      word32 mem (loadBias + e.dUn + 4#64) = word32 mem' (loadBias + e.dUn + 4#64)) :
    let out := ldsoElfParseDynamicOut mem (some segment) loadBias info
    ldsoElfParseDynamicOut mem' (some segment') loadBias info' =
      (out.1, out.2.relocate segment' loadBias) := by
  intro out
  have hsame : ∀ tag ∈ recognisedTags, parsed entries' tag = parsed entries tag := by
    intro tag htag
    refine (assign_congr ?_ honce hperm _).symm
    intro e he
    rw [Dyn.recognised, contains_iff_mem, he]
    exact htag
  -- the two assembled states differ in the place of the section only
  have hplace : assemble loadBias (parseStart segment' loadBias) (parsed entries) =
      (assemble loadBias (parseStart segment loadBias) (parsed entries)).relocate segment'
        loadBias := rfl
  have hword : (assemble loadBias (parseStart segment loadBias) (parsed entries)).info.hashTable ≠
      0#64 → word32 mem ((assemble loadBias (parseStart segment loadBias)
        (parsed entries)).info.hashTable + 4#64) =
      word32 mem' ((assemble loadBias (parseStart segment loadBias)
        (parsed entries)).info.hashTable + 4#64) := by
    intro hne
    cases hread : parsed entries ldsoDtHash with
    | none => exact absurd (by simp only [assemble, hread]; rfl) hne
    | some value =>
      obtain ⟨e, hmem, htag, rfl⟩ := exists_of_parsed hread
      simp only [assemble, hread, Option.map_some, Option.getD_some]
      exact hhash e hmem htag
  have hout : out = parseResult mem
      (assemble loadBias (parseStart segment loadBias) (parsed entries)) := by
    simp only [out, ldsoElfParseDynamicOut, if_neg h.pFilesz_ne, h.parseLoop_eq]
  simp only [hout, ldsoElfParseDynamicOut, if_neg h'.pFilesz_ne, h'.parseLoop_eq,
    assemble_congr hsame, hplace]
  exact parseResult_relocate segment' loadBias hword

/-! ## A hash table inside of the section -/

/-- Memory with a dynamic section of 80 bytes at `0x1000`, entry by entry. -/
def sectionMemory (entries : List Dyn) : Memory := fun a =>
  let offset := (a - 0x1000#64).toNat
  let word : BitVec 64 := match entries[offset / 16]? with
    | some e => if offset % 16 < 8 then e.dTag else e.dUn
    | none => 0#64
  (word >>> (8 * (offset % 8))).setWidth 8

def sectionSegment : DynamicSegment := ⟨0x1000#64, 80#64⟩

/-- The hash table is at `hash`; the other entries are those without which there is no success. -/
def requiredEntries (hash : BitVec 64) : List Dyn :=
  [⟨ldsoDtHash, hash⟩, ⟨ldsoDtSymtab, 0x3000#64⟩, ⟨ldsoDtStrtab, 0x2000#64⟩, ⟨ldsoDtSyment, 24#64⟩]

/-- The same entries with the first two exchanged. -/
def exchangedEntries (hash : BitVec 64) : List Dyn :=
  [⟨ldsoDtSymtab, 0x3000#64⟩, ⟨ldsoDtHash, hash⟩, ⟨ldsoDtStrtab, 0x2000#64⟩, ⟨ldsoDtSyment, 24#64⟩]

theorem entriesAt_sectionMemory
    (hread : ∀ i < 4, some (readDyn (sectionMemory entries) (0#64 + 0x1000#64) i) = entries[i]?)
    (hlength : entries.length = 4) (hnonnull : ∀ e ∈ entries, e.dTag ≠ ldsoDtNull)
    (hstop : (readDyn (sectionMemory entries) (0#64 + 0x1000#64) 4).dTag = ldsoDtNull) :
    EntriesAt (sectionMemory entries) sectionSegment 0#64 entries where
  length_lt := by
    rw [hlength]
    decide
  entry i e hget := by
    have hi : i < 4 := hlength ▸ (List.getElem?_eq_some_iff.mp hget).1
    exact Option.some_inj.mp ((hread i hi).trans hget)
  nonnull := hnonnull
  stop := by
    rw [hlength]
    exact hstop

/-- A hash table at `0x4000`, outside of the section. -/
theorem parse_dynamic_order_exchanged :
    ldsoElfParseDynamicOut (sectionMemory (exchangedEntries 0x4000#64)) (some sectionSegment) 0#64
        ldsoElfDynamicReset =
      ldsoElfParseDynamicOut (sectionMemory (requiredEntries 0x4000#64)) (some sectionSegment) 0#64
        ldsoElfDynamicReset := by
  have h : EntriesAt (sectionMemory (requiredEntries 0x4000#64)) sectionSegment 0#64
      (requiredEntries 0x4000#64) :=
    entriesAt_sectionMemory (by decide +kernel) rfl (by decide) (by decide +kernel)
  have h' : EntriesAt (sectionMemory (exchangedEntries 0x4000#64)) sectionSegment 0#64
      (exchangedEntries 0x4000#64) :=
    entriesAt_sectionMemory (by decide +kernel) rfl (by decide) (by decide +kernel)
  exact parse_dynamic_order ldsoElfDynamicReset ldsoElfDynamicReset h h' (by decide) (by decide)
    (by decide +kernel)

/-- A hash table at `0x1004`, inside of the first entry: its second word is the low half of what
that entry says, and so the number of symbols changes when the first two entries are exchanged. -/
theorem hash_inside_section_depends_on_order :
    (requiredEntries 0x1004#64).Perm (exchangedEntries 0x1004#64) ∧
      ((requiredEntries 0x1004#64).map Dyn.dTag).Nodup ∧
      EntriesAt (sectionMemory (requiredEntries 0x1004#64)) sectionSegment 0#64
        (requiredEntries 0x1004#64) ∧
      EntriesAt (sectionMemory (exchangedEntries 0x1004#64)) sectionSegment 0#64
        (exchangedEntries 0x1004#64) ∧
      (ldsoElfParseDynamicOut (sectionMemory (requiredEntries 0x1004#64)) (some sectionSegment)
        0#64 ldsoElfDynamicReset).2.hashNchain = 0x1004#64 ∧
      (ldsoElfParseDynamicOut (sectionMemory (exchangedEntries 0x1004#64)) (some sectionSegment)
        0#64 ldsoElfDynamicReset).2.hashNchain = 0x3000#64 := by
  refine ⟨by decide, by decide, ?_, ?_, by decide +kernel, by decide +kernel⟩
  · exact entriesAt_sectionMemory (by decide +kernel) rfl (by decide) (by decide +kernel)
  · exact entriesAt_sectionMemory (by decide +kernel) rfl (by decide) (by decide +kernel)

end GnuOS.Ldso

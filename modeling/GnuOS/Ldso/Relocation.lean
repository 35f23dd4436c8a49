import GnuOS.Ldso.Counts

/-!
# The relocation pass

The pass reads its tables from the memory that it writes to.  While no word that it writes belongs
to a table, every entry, symbol and name is read as it was in the beginning, so the pass is a list
of verdicts on the entries: the words it writes are a patch of the memory, and the counts are
counts of verdicts.  Neither depends on the order of the entries.
-/

namespace GnuOS.Ldso

open GnuOS.Lib List

/-! ## Entries -/

/-- The entries of both tables, in the order of the pass. -/
def relocEntries (info : DynamicInfo) (mem : Memory) : List Rela :=
  (range info.relaCount.toNat).map (readRela mem info.rela) ++
    (range info.jmprelCount.toNat).map (readRela mem info.jmprel)

/-- What a symbol is worth: the load bias and its value if it is defined, and what the resolver says
about its name if it is not. -/
inductive SymbolIs (info : DynamicInfo) (loadBias : BitVec 64) (resolver : Option Resolver)
    (mem : Memory) (symbol : Sym) : BitVec 64 → Prop
  | defined (h : symbol.stShndx ≠ ldsoShnUndef) :
      SymbolIs info loadBias resolver mem symbol (loadBias + symbol.stValue)
  | resolved {value : BitVec 64} (r : Resolver) (hundef : symbol.stShndx = ldsoShnUndef)
      (hname : symbol.stName.setWidth 64 < info.strsz)
      (hnonempty : mem (info.strtab + symbol.stName.setWidth 64) ≠ 0#8)
      (hresolver : resolver = some r)
      (hvalue : r.resolve (stringAt mem (info.strtab + symbol.stName.setWidth 64)) = some value) :
      SymbolIs info loadBias resolver mem symbol value

section Symbols

variable {info : DynamicInfo} {loadBias : BitVec 64} {resolver : Option Resolver} {mem : Memory}

theorem ldsoElfSymbolValue_iff (hsymtab : info.symtab ≠ 0#64) (hstrtab : info.strtab ≠ 0#64)
    (symIndex : BitVec 32) (value : BitVec 64) :
    ldsoElfSymbolValue info loadBias symIndex resolver mem = some value ↔
      SymbolIs info loadBias resolver mem (readSym mem info.symtab symIndex.toNat) value := by
  unfold ldsoElfSymbolValue
  rw [if_neg hsymtab]
  simp only
  generalize readSym mem info.symtab symIndex.toNat = symbol
  by_cases hundef : symbol.stShndx = ldsoShnUndef
  · rw [if_neg (not_not.mpr hundef), symbolName]
    constructor
    · intro h
      split at h
      · next r name hname =>
        split at hname
        · next hbound =>
          cases hname
          split at h
          · cases h
          · next hnonempty => exact .resolved r hundef hbound.1 hnonempty rfl h
        · cases hname
      · cases h
    · intro h
      cases h with
      | defined hdef => exact absurd hundef hdef
      | resolved r _ hname hnonempty hresolver hvalue =>
        rw [hresolver, if_pos ⟨hname, hstrtab⟩]
        simp only
        rw [if_neg hnonempty, hvalue]
  · rw [if_pos hundef]
    constructor
    · intro h
      cases h
      exact .defined hundef
    · intro h
      cases h with
      | defined _ => rfl
      | resolved _ hundef' _ _ _ _ => exact absurd hundef' hundef

end Symbols

/-! ## The tables -/

def InEntry (table : BitVec 64) (index : ℕ) (a : BitVec 64) : Prop :=
  ∃ k < 24, a = entryAddr table 24 index + BitVec.ofNat 64 k

/-- A byte of the string at `name`, the zero at its end included. -/
def InName (mem : Memory) (name a : BitVec 64) : Prop :=
  ∃ i, (∀ j < i, stringAt mem name j ≠ 0#8) ∧ a = name + BitVec.ofNat 64 i

def InRelocations (info : DynamicInfo) (a : BitVec 64) : Prop :=
  (∃ index < info.relaCount.toNat, InEntry info.rela index a) ∨
    ∃ index < info.jmprelCount.toNat, InEntry info.jmprel index a

/-- The symbols are those that the relocations name: the dynamic section does not say how many
there are. -/
def InSymbols (info : DynamicInfo) (mem : Memory) (a : BitVec 64) : Prop :=
  ∃ rela ∈ relocEntries info mem, rela.Symbolic ∧ InEntry info.symtab rela.symIndex.toNat a

/-- The strings that start in the string table. -/
def InStrings (info : DynamicInfo) (mem : Memory) (a : BitVec 64) : Prop :=
  ∃ offset < info.strsz, InName mem (info.strtab + offset) a

/-- The second memory holds the same tables. -/
structure SameTables (info : DynamicInfo) (mem mem' : Memory) : Prop where
  relocations : ∀ a, InRelocations info a → mem' a = mem a
  symbols : ∀ a, InSymbols info mem a → mem' a = mem a
  strings : ∀ a, InStrings info mem a → mem' a = mem a

/-- The words that the entries name are apart from each other and from the tables. -/
structure Separate (info : DynamicInfo) (loadBias : BitVec 64) (mem : Memory) : Prop where
  targets : (relocEntries info mem).Pairwise fun rela rela' =>
    Memory.WordsApart (rela.target loadBias) (rela'.target loadBias)
  tables : ∀ rela ∈ relocEntries info mem, ∀ a, Memory.InWord (rela.target loadBias) a →
    ¬ InRelocations info a ∧ ¬ InSymbols info mem a ∧ ¬ InStrings info mem a

section Tables

variable {info : DynamicInfo} {loadBias table : BitVec 64} {resolver : Option Resolver}
  {mem mem' : Memory} {index : ℕ} {rela : Rela}

section

variable (h : ∀ a, InEntry table index a → mem' a = mem a)

include h

theorem load_entry {o n : ℕ} (ho : o + n ≤ 24) :
    mem'.load (entryAddr table 24 index + BitVec.ofNat 64 o) n =
      mem.load (entryAddr table 24 index + BitVec.ofNat 64 o) n := by
  apply Memory.load_congr
  intro i hi
  exact h _ ⟨o + i, by omega, rfl⟩

theorem load_entry_start {n : ℕ} (hn : n ≤ 24) :
    mem'.load (entryAddr table 24 index) n = mem.load (entryAddr table 24 index) n := by
  have hload := load_entry (o := 0) h (by omega : 0 + n ≤ 24)
  rwa [BitVec.add_zero] at hload

theorem readRela_congr :
    readRela mem' table index = readRela mem table index := by
  unfold readRela word64
  simp only
  rw [load_entry_start h (by decide), load_entry h (by decide), load_entry h (by decide)]

theorem readSym_congr :
    readSym mem' table index = readSym mem table index := by
  unfold readSym word64 word32 word16
  simp only
  rw [load_entry_start h (by decide), load_entry h (by decide), load_entry h (by decide)]

end

theorem SameTables.readRela_rela (h : SameTables info mem mem')
    (hindex : index < info.relaCount.toNat) :
    readRela mem' info.rela index = readRela mem info.rela index :=
  readRela_congr fun a ha => h.relocations a (.inl ⟨index, hindex, ha⟩)

theorem SameTables.readRela_jmprel (h : SameTables info mem mem')
    (hindex : index < info.jmprelCount.toNat) :
    readRela mem' info.jmprel index = readRela mem info.jmprel index :=
  readRela_congr fun a ha => h.relocations a (.inr ⟨index, hindex, ha⟩)

theorem SameTables.relocEntries_eq (h : SameTables info mem mem') :
    relocEntries info mem' = relocEntries info mem :=
  congrArg₂ (· ++ ·) (map_congr_left fun _ hindex => h.readRela_rela (mem_range.mp hindex))
    (map_congr_left fun _ hindex => h.readRela_jmprel (mem_range.mp hindex))

/-- A name that starts in the string table is the same name. -/
theorem sameString_of_strings (h : ∀ a, InStrings info mem a → mem' a = mem a)
    {offset : BitVec 64} (hoffset : offset < info.strsz) :
    SameString (stringAt mem (info.strtab + offset)) (stringAt mem' (info.strtab + offset)) := by
  intro i hi
  exact (h _ ⟨offset, hoffset, i, hi, rfl⟩).symm

theorem symbolValue_congr
    (hsymbol : ∀ a, InEntry info.symtab rela.symIndex.toNat a → mem' a = mem a)
    (hstrings : ∀ a, InStrings info mem a → mem' a = mem a) :
    ldsoElfSymbolValue info loadBias rela.symIndex resolver mem' =
      ldsoElfSymbolValue info loadBias rela.symIndex resolver mem := by
  unfold ldsoElfSymbolValue
  rw [readSym_congr hsymbol]
  simp only
  generalize readSym mem info.symtab rela.symIndex.toNat = symbol
  cases resolver with
  | none => rfl
  | some r =>
    unfold symbolName
    split
    · rfl
    split
    · rfl
    by_cases hname : symbol.stName.setWidth 64 < info.strsz ∧ info.strtab ≠ 0#64
    · have hsame := sameString_of_strings hstrings hname.1
      have hfirst := hsame 0 (by omega)
      simp only [stringAt, BitVec.add_zero] at hfirst
      rw [if_pos hname]
      simp only
      rw [← hfirst, ← r.pure _ _ hsame]
    · rw [if_neg hname]

end Tables

/-! ## Verdicts -/

/-- The word that a verdict writes. -/
def Verdict.word (target : BitVec 64) : Verdict → Option (BitVec 64 × BitVec 64)
  | .write value => some (target, value)
  | _ => none

theorem Verdict.word_eq_some {target : BitVec 64} {v : Verdict} {w : BitVec 64 × BitVec 64} :
    v.word target = some w ↔ v = .write w.2 ∧ w.1 = target := by
  cases v <;> grind [Verdict.word]

section Verdicts

variable {info : DynamicInfo} {loadBias : BitVec 64} {resolver : Option Resolver}
  {mem mem' : Memory} {rela : Rela} {s : RelocState}

theorem verdict_congr (hsymbols : ∀ a, InSymbols info mem a → mem' a = mem a)
    (hstrings : ∀ a, InStrings info mem a → mem' a = mem a)
    (hrela : rela ∈ relocEntries info mem) :
    verdict info loadBias resolver mem' rela = verdict info loadBias resolver mem rela := by
  unfold verdict
  split
  · rfl
  split
  · rfl
  split
  · next hsymbolic =>
    rw [symbolValue_congr (fun a ha => hsymbols a ⟨rela, hrela, hsymbolic, ha⟩) hstrings]
  · rfl

/-- The pass writes to the target of the entry at most. -/
theorem RelocState.record_other {target a : BitVec 64} (v : Verdict)
    (ha : ¬ Memory.InWord target a) : (s.record target v).mem a = s.mem a := by
  cases v with
  | write value =>
    show s.mem.store target 8 value.toNat a = s.mem a
    rw [Memory.store_word, if_neg ha]
  | skip => rfl
  | unresolved => rfl
  | unsupported => rfl

/-- An entry leaves the tables as they were. -/
theorem Separate.record (h : Separate info loadBias mem) (hrela : rela ∈ relocEntries info mem)
    (hsame : SameTables info mem s.mem) (v : Verdict) :
    SameTables info mem (s.record (rela.target loadBias) v).mem where
  relocations a ha := by
    rw [RelocState.record_other v fun hin => (h.tables rela hrela a hin).1 ha]
    exact hsame.relocations a ha
  symbols a ha := by
    rw [RelocState.record_other v fun hin => (h.tables rela hrela a hin).2.1 ha]
    exact hsame.symbols a ha
  strings a ha := by
    rw [RelocState.record_other v fun hin => (h.tables rela hrela a hin).2.2 ha]
    exact hsame.strings a ha

end Verdicts

/-! ## The pass as a list of verdicts -/

/-- The words that the entries write, by their verdicts in the memory before the pass. -/
def words (info : DynamicInfo) (loadBias : BitVec 64) (resolver : Option Resolver) (mem : Memory)
    (entries : List Rela) : List (BitVec 64 × BitVec 64) :=
  entries.filterMap fun rela =>
    (verdict info loadBias resolver mem rela).word (rela.target loadBias)

/-- How many entries have a verdict of the kind. -/
def tally (info : DynamicInfo) (loadBias : BitVec 64) (resolver : Option Resolver) (mem : Memory)
    (kind : Verdict → Bool) (entries : List Rela) : ℕ :=
  entries.countP fun rela => kind (verdict info loadBias resolver mem rela)

def Verdict.isWrite : Verdict → Bool
  | .write _ => true
  | _ => false

/-- The state after the entries, by their verdicts in the memory before the pass. -/
def recorded (info : DynamicInfo) (loadBias : BitVec 64) (resolver : Option Resolver)
    (mem : Memory) (s : RelocState) (entries : List Rela) : RelocState :=
  { mem := s.mem.patch (words info loadBias resolver mem entries)
    result :=
      { appliedCount := s.result.appliedCount +
          BitVec.ofNat 64 (tally info loadBias resolver mem Verdict.isWrite entries)
        unresolvedCount := s.result.unresolvedCount +
          BitVec.ofNat 64 (tally info loadBias resolver mem (· = .unresolved) entries)
        unsupportedCount := s.result.unsupportedCount +
          BitVec.ofNat 64 (tally info loadBias resolver mem (· = .unsupported) entries) } }

section Pass

variable {info : DynamicInfo} {loadBias : BitVec 64} {resolver : Option Resolver}
  {mem : Memory} {s : RelocState} {entries entries' : List Rela}

theorem tally_cons (kind : Verdict → Bool) (rela : Rela) (entries : List Rela) :
    tally info loadBias resolver mem kind (rela :: entries) =
      (if kind (verdict info loadBias resolver mem rela) then 1 else 0) +
        tally info loadBias resolver mem kind entries := by
  unfold tally
  rw [countP_cons, Nat.add_comm]

theorem recorded_nil : recorded info loadBias resolver mem s [] = s := by
  simp [recorded, words, tally, Memory.patch]

theorem recorded_cons (rela : Rela) (entries : List Rela) :
    recorded info loadBias resolver mem s (rela :: entries) =
      recorded info loadBias resolver mem
        (s.record (rela.target loadBias) (verdict info loadBias resolver mem rela)) entries := by
  unfold recorded
  simp only [tally_cons, words, filterMap_cons]
  cases verdict info loadBias resolver mem rela <;>
    simp [RelocState.record, RelocState.write, Verdict.word, Verdict.isWrite, Memory.patch,
      BitVec.ofNat_add, BitVec.add_assoc]

/-- Every entry is counted or of type `NONE`. -/
theorem recorded_total (h : s.result.total + entries.length < 2 ^ 64) :
    (recorded info loadBias resolver mem s entries).result.total +
      entries.countP (fun rela => rela.type = ldsoRX8664None) =
        s.result.total + entries.length := by
  induction entries generalizing s with
  | nil => rw [recorded_nil, countP_nil, length_nil]
  | cons rela entries ih =>
    rw [length_cons] at h ⊢
    have hone := s.record_total (rela.target loadBias) (verdict info loadBias resolver mem rela)
      (by omega)
    simp only [verdict_eq_skip] at hone
    have hrest := ih (s := s.record (rela.target loadBias)
      (verdict info loadBias resolver mem rela)) (by omega)
    rw [recorded_cons, countP_cons]
    simp only [decide_eq_true_eq]
    omega

theorem SameTables.refl (info : DynamicInfo) (mem : Memory) : SameTables info mem mem :=
  ⟨fun _ _ => rfl, fun _ _ => rfl, fun _ _ => rfl⟩

section

variable (h : Separate info loadBias mem)

include h

/-- The entries of the tables, read before the pass, can be applied one after another. -/
theorem Separate.foldl_applyRela (hentries : ∀ rela ∈ entries, rela ∈ relocEntries info mem)
    (hsame : SameTables info mem s.mem) :
    entries.foldl (applyRela info loadBias resolver) s =
        recorded info loadBias resolver mem s entries ∧
      SameTables info mem (entries.foldl (applyRela info loadBias resolver) s).mem := by
  induction entries generalizing s with
  | nil => exact ⟨recorded_nil.symm, hsame⟩
  | cons rela entries ih =>
    rw [forall_mem_cons] at hentries
    rw [foldl_cons, applyRela_eq, verdict_congr hsame.symbols hsame.strings hentries.1,
      recorded_cons]
    exact ih hentries.2 (h.record hentries.1 hsame _)

/-- The loop over a table, which reads each entry when it comes to it. -/
theorem Separate.foldl_range {table : BitVec 64} {n : ℕ}
    (hread : ∀ index < n, ∀ mem', SameTables info mem mem' →
      readRela mem' table index = readRela mem table index)
    (hentries : ∀ rela ∈ (range n).map (readRela mem table), rela ∈ relocEntries info mem)
    (hsame : SameTables info mem s.mem) :
    applyRange info loadBias resolver table n s =
      ((range n).map (readRela mem table)).foldl (applyRela info loadBias resolver) s := by
  unfold applyRange
  induction n with
  | zero => rfl
  | succ n ih =>
    have hmem : ∀ rela ∈ (range n).map (readRela mem table),
        rela ∈ relocEntries info mem := fun rela hrela =>
      hentries rela (map_subset _ (range_subset.mpr (Nat.le_succ n)) hrela)
    have hn := ih (fun index hindex => hread index (by omega)) hmem
    have hsame' : SameTables info mem (((range n).map (readRela mem table)).foldl
        (applyRela info loadBias resolver) s).mem := (h.foldl_applyRela hmem hsame).2
    rw [range_succ, foldl_append, hn, map_append, foldl_append]
    simp only [foldl_cons, foldl_nil, map_cons, map_nil]
    rw [hread n (by omega) _ hsame']

theorem Separate.applyRelocations_eq (hreadable : Readable info) :
    ldsoElfApplyRelocations info loadBias resolver mem =
      (true, (relocEntries info mem).foldl (applyRela info loadBias resolver) (.start mem)) := by
  have hrefl := SameTables.refl info mem
  have hrela : ∀ rela ∈ (range info.relaCount.toNat).map (readRela mem info.rela),
      rela ∈ relocEntries info mem := fun rela hrela => mem_append_left _ hrela
  have hjmprel : ∀ rela ∈ (range info.jmprelCount.toNat).map (readRela mem info.jmprel),
      rela ∈ relocEntries info mem := fun rela hrela => mem_append_right _ hrela
  rw [Ldso.applyRelocations_eq info loadBias resolver hreadable,
    h.foldl_range (fun index hindex mem' hsame => hsame.readRela_rela hindex) hrela hrefl,
    h.foldl_range (fun index hindex mem' hsame => hsame.readRela_jmprel hindex) hjmprel
      (h.foldl_applyRela hrela hrefl).2, relocEntries, foldl_append]

/-- The pass is the list of the verdicts. -/
theorem Separate.applyRelocations_recorded (hreadable : Readable info) :
    ldsoElfApplyRelocations info loadBias resolver mem =
      (true, recorded info loadBias resolver mem (.start mem)
        (relocEntries info mem)) := by
  rw [h.applyRelocations_eq hreadable,
    (h.foldl_applyRela (fun _ hrela => hrela) (SameTables.refl info mem)).1]

end

/-! ## Order -/

theorem words_pairwise (h : entries.Pairwise fun rela rela' =>
      Memory.WordsApart (rela.target loadBias) (rela'.target loadBias)) :
    (words info loadBias resolver mem entries).Pairwise fun w w' =>
      Memory.WordsApart w.1 w'.1 := by
  apply h.filterMap
  intro rela rela' hapart w hw w' hw'
  rw [(Verdict.word_eq_some.mp hw).2, (Verdict.word_eq_some.mp hw').2]
  exact hapart

/-- The entries may be taken in any order. -/
theorem recorded_perm (h : entries.Pairwise fun rela rela' =>
      Memory.WordsApart (rela.target loadBias) (rela'.target loadBias))
    (hperm : entries'.Perm entries) :
    recorded info loadBias resolver mem s entries' =
      recorded info loadBias resolver mem s entries := by
  unfold recorded
  have htally : ∀ kind, tally info loadBias resolver mem kind entries' =
      tally info loadBias resolver mem kind entries := fun kind => hperm.countP_eq _
  have hpatch : s.mem.patch (words info loadBias resolver mem entries') =
      s.mem.patch (words info loadBias resolver mem entries) :=
    (Memory.patch_perm (words_pairwise h) (hperm.symm.filterMap _)).symm
  rw [htally, htally, htally, hpatch]

end Pass

/-! ## Correctness -/

/-- The second memory has the entries in another order, and nothing else is different: the symbols,
the strings and what lies outside of the relocation tables are the same. -/
structure Reordered (info : DynamicInfo) (mem mem' : Memory) : Prop where
  entries : (relocEntries info mem').Perm (relocEntries info mem)
  symbols : ∀ a, InSymbols info mem a → mem' a = mem a
  strings : ∀ a, InStrings info mem a → mem' a = mem a
  other : ∀ a, ¬ InRelocations info a → mem' a = mem a

/-- What the pass has to do: `s` is the memory after it with its counts. -/
structure Relocated (info : DynamicInfo) (loadBias : BitVec 64) (resolver : Option Resolver)
    (mem : Memory) (s : RelocState) : Prop where
  relative : ∀ rela ∈ relocEntries info mem, rela.type = ldsoRX8664Relative →
    word64 s.mem (rela.target loadBias) = loadBias + rela.rAddend
  symbolic : ∀ rela ∈ relocEntries info mem, rela.Symbolic → ∀ value,
    SymbolIs info loadBias resolver mem (readSym mem info.symtab rela.symIndex.toNat) value →
      word64 s.mem (rela.target loadBias) = value + rela.rAddend
  /-- Entries of type `NONE`, of an unsupported type, and those whose symbol has no value. -/
  passedOver : ∀ rela ∈ relocEntries info mem, rela.type ≠ ldsoRX8664Relative →
    (rela.Symbolic → ∀ value, ¬ SymbolIs info loadBias resolver mem
      (readSym mem info.symtab rela.symIndex.toNat) value) →
      ∀ a, Memory.InWord (rela.target loadBias) a → s.mem a = mem a
  untouched : ∀ a, (∀ rela ∈ relocEntries info mem, ¬ Memory.InWord (rela.target loadBias) a) →
    s.mem a = mem a
  counted : s.result.appliedCount.toNat + s.result.unresolvedCount.toNat +
      s.result.unsupportedCount.toNat +
      (relocEntries info mem).countP (fun rela => rela.type = ldsoRX8664None) =
    info.relaCount.toNat + info.jmprelCount.toNat

section Correctness

variable {info : DynamicInfo} {loadBias : BitVec 64} {resolver : Option Resolver}
  {mem mem' : Memory} {rela : Rela} {segment : DynamicSegment}

/-- The parser has checked the pointers to the symbols and the strings. -/
theorem pointers_of_parse (h : ldsoElfParseDynamic mem (some segment) loadBias = some info) :
    info.symtab ≠ 0#64 ∧ info.strtab ≠ 0#64 := by
  unfold ldsoElfParseDynamic at h
  simp only at h
  split at h
  · cases h
  split at h
  · cases h
  · next hpointers =>
    cases h
    exact ⟨fun hnull => hpointers (.inl hnull), fun hnull => hpointers (.inr (.inl hnull))⟩

theorem verdict_relative (h : rela.type = ldsoRX8664Relative) :
    verdict info loadBias resolver mem rela = .write (loadBias + rela.rAddend) := by
  unfold verdict
  rw [if_neg (by rw [h]; decide), if_pos h]

theorem verdict_symbolic (h : rela.Symbolic) {value : BitVec 64}
    (hvalue : ldsoElfSymbolValue info loadBias rela.symIndex resolver mem = some value) :
    verdict info loadBias resolver mem rela = .write (value + rela.rAddend) := by
  have hother : rela.type ≠ ldsoRX8664None ∧ rela.type ≠ ldsoRX8664Relative := by
    rcases h with h | h | h <;> rw [h] <;> decide
  unfold verdict
  rw [if_neg hother.1, if_neg hother.2, if_pos h, hvalue]

theorem verdict_eq_write {value : BitVec 64}
    (h : verdict info loadBias resolver mem rela = .write value) :
    rela.type = ldsoRX8664Relative ∨ rela.Symbolic ∧ ∃ value',
      ldsoElfSymbolValue info loadBias rela.symIndex resolver mem = some value' := by
  unfold verdict at h
  split at h
  · cases h
  split at h
  · next hrelative => exact .inl hrelative
  split at h
  · next hsymbolic =>
    split at h
    · cases h
    · next value' hvalue => exact .inr ⟨hsymbolic, value', hvalue⟩
  · cases h

theorem mem_words {entries : List Rela} {w : BitVec 64 × BitVec 64} :
    w ∈ words info loadBias resolver mem entries ↔ ∃ rela ∈ entries,
      verdict info loadBias resolver mem rela = .write w.2 ∧ w.1 = rela.target loadBias := by
  simp only [words, mem_filterMap, Verdict.word_eq_some]

/-- A word that an entry writes is found in the end. -/
theorem Separate.word64_of_write (h : Separate info loadBias mem)
    (hrela : rela ∈ relocEntries info mem) {value : BitVec 64}
    (hverdict : verdict info loadBias resolver mem rela = .write value) :
    word64 (mem.patch (words info loadBias resolver mem (relocEntries info mem)))
      (rela.target loadBias) = value := by
  have hword : (rela.target loadBias, value) ∈
      words info loadBias resolver mem (relocEntries info mem) :=
    mem_words.mpr ⟨rela, hrela, hverdict, rfl⟩
  have hload := Memory.load_patch mem (words_pairwise h.targets) hword
  simp only at hload
  rw [word64, hload, BitVec.ofNat_toNat, BitVec.setWidth_eq]

instance : Std.Symm fun rela rela' : Rela =>
    Memory.WordsApart (rela.target loadBias) (rela'.target loadBias) :=
  ⟨fun _ _ h => h.symm⟩

theorem Separate.relocated (h : Separate info loadBias mem) (hreadable : Readable info)
    (hsymtab : info.symtab ≠ 0#64) (hstrtab : info.strtab ≠ 0#64) :
    Relocated info loadBias resolver mem
      (ldsoElfApplyRelocations info loadBias resolver mem).2 := by
  rw [h.applyRelocations_recorded hreadable]
  constructor
  case relative =>
    intro rela hrela htype
    exact h.word64_of_write hrela (verdict_relative htype)
  case symbolic =>
    intro rela hrela hsymbolic value hvalue
    apply h.word64_of_write hrela
    exact verdict_symbolic hsymbolic ((ldsoElfSymbolValue_iff hsymtab hstrtab _ _).mpr hvalue)
  case passedOver =>
    intro rela hrela htype hunresolved a ha
    apply Memory.patch_other
    intro w hw hin
    obtain ⟨rela', hrela', hverdict, htarget⟩ := mem_words.mp hw
    by_cases heq : rela = rela'
    · -- the entry itself writes nothing
      subst heq
      rcases verdict_eq_write hverdict with hrelative | ⟨hsymbolic, value, hvalue⟩
      · exact htype hrelative
      · exact hunresolved hsymbolic value
          ((ldsoElfSymbolValue_iff hsymtab hstrtab _ _).mp hvalue)
    · -- and the other entries write elsewhere
      rw [htarget] at hin
      exact h.targets.forall hrela hrela' heq a ha hin
  case untouched =>
    intro a ha
    apply Memory.patch_other
    intro w hw
    obtain ⟨rela, hrela, _, htarget⟩ := mem_words.mp hw
    rw [htarget]
    exact ha rela hrela
  case counted =>
    have hlength : (relocEntries info mem).length =
        info.relaCount.toNat + info.jmprelCount.toNat := by
      simp only [relocEntries, length_append, length_map, length_range]
    have hbound := hreadable.bounded
    refine (recorded_total ?_).trans ?_
    · show 0 + _ < _
      omega
    · show 0 + _ = _
      omega

/-- A string of the second memory is a string of the first. -/
theorem InName.of_strings (h : ∀ a, InStrings info mem a → mem' a = mem a)
    {offset a : BitVec 64} (hoffset : offset < info.strsz)
    (ha : InName mem' (info.strtab + offset) a) : InName mem (info.strtab + offset) a := by
  obtain ⟨i, hbefore, rfl⟩ := ha
  refine ⟨i, ?_, rfl⟩
  -- one byte after another: while the bytes before are not zero, the next one is the same
  intro j
  induction j using Nat.strong_induction_on with
  | _ j ih =>
    intro hj
    have hsame := sameString_of_strings h hoffset j fun k hk => ih k hk (by omega)
    rw [hsame]
    exact hbefore j hj

/-- The entries and the strings decide. -/
theorem Separate.of_perm (h : Separate info loadBias mem)
    (hentries : (relocEntries info mem').Perm (relocEntries info mem))
    (hsame : ∀ a, InStrings info mem a → mem' a = mem a) : Separate info loadBias mem' where
  targets := (hentries.pairwise_iff fun h => h.symm).mpr h.targets
  tables := by
    intro rela hrela a ha
    obtain ⟨hrelocations, hsymbols, hstrings⟩ := h.tables rela (hentries.mem_iff.mp hrela) a ha
    refine ⟨hrelocations, ?_, ?_⟩
    · rintro ⟨rela', hrela', hsymbol⟩
      exact hsymbols ⟨rela', hentries.mem_iff.mp hrela', hsymbol⟩
    · rintro ⟨offset, hoffset, hname⟩
      exact hstrings ⟨offset, hoffset, hname.of_strings hsame hoffset⟩

/-- The state depends on the verdicts only. -/
theorem recorded_congr {s : RelocState} {entries : List Rela}
    (h : ∀ rela ∈ entries, verdict info loadBias resolver mem' rela =
      verdict info loadBias resolver mem rela) :
    recorded info loadBias resolver mem' s entries =
      recorded info loadBias resolver mem s entries := by
  have hwords : words info loadBias resolver mem' entries =
      words info loadBias resolver mem entries := by
    apply filterMap_congr
    intro rela hrela
    rw [h rela hrela]
  have htally : ∀ kind, tally info loadBias resolver mem' kind entries =
      tally info loadBias resolver mem kind entries := by
    intro kind
    apply countP_congr
    intro rela hrela
    rw [h rela hrela]
  unfold recorded
  rw [hwords, htally, htally, htally]

theorem Separate.applyRelocations_of_perm (h : Separate info loadBias mem)
    (hreadable : Readable info) (hentries : (relocEntries info mem').Perm (relocEntries info mem))
    (hsymbols : ∀ a, InSymbols info mem a → mem' a = mem a)
    (hstrings : ∀ a, InStrings info mem a → mem' a = mem a) :
    ldsoElfApplyRelocations info loadBias resolver mem' =
      (true, recorded info loadBias resolver mem (.start mem')
        (relocEntries info mem)) := by
  rw [(h.of_perm hentries hstrings).applyRelocations_recorded hreadable]
  rw [recorded_congr, recorded_perm h.targets hentries]
  intro rela hrela
  exact verdict_congr hsymbols hstrings (hentries.mem_iff.mp hrela)

theorem Separate.applyRelocations_reordered (h : Separate info loadBias mem)
    (hreadable : Readable info) (hreordered : Reordered info mem mem') :
    ldsoElfApplyRelocations info loadBias resolver mem' =
      (true, recorded info loadBias resolver mem (.start mem')
        (relocEntries info mem)) :=
  h.applyRelocations_of_perm hreadable hreordered.entries hreordered.symbols hreordered.strings

/-- The relocation pass is correct, and neither the order in which the entries are applied nor the
order in which the tables hold them matters. -/
theorem relocation_pass_correct (resolver : Option Resolver)
    (hparse : ldsoElfParseDynamic mem (some segment) loadBias = some info)
    (hseparate : Separate info loadBias mem) :
    (ldsoElfApplyRelocations info loadBias resolver mem).1 = true ∧
      Relocated info loadBias resolver mem
        (ldsoElfApplyRelocations info loadBias resolver mem).2 ∧
      (∀ entries : List Rela, entries.Perm (relocEntries info mem) →
        entries.foldl (applyRela info loadBias resolver) (.start mem) =
          (ldsoElfApplyRelocations info loadBias resolver mem).2) ∧
      ∀ mem', Reordered info mem mem' →
        (ldsoElfApplyRelocations info loadBias resolver mem').1 = true ∧
          (ldsoElfApplyRelocations info loadBias resolver mem').2.result =
            (ldsoElfApplyRelocations info loadBias resolver mem).2.result ∧
          ∀ a, ¬ InRelocations info a →
            (ldsoElfApplyRelocations info loadBias resolver mem').2.mem a =
              (ldsoElfApplyRelocations info loadBias resolver mem).2.mem a := by
  have hreadable := (parsed_of_parse hparse).readable
  obtain ⟨hsymtab, hstrtab⟩ := pointers_of_parse hparse
  have heq : ldsoElfApplyRelocations info loadBias resolver mem = _ :=
    hseparate.applyRelocations_recorded hreadable
  refine ⟨by rw [heq], hseparate.relocated hreadable hsymtab hstrtab, ?_, ?_⟩
  · intro entries hperm
    have hmem : ∀ rela ∈ entries, rela ∈ relocEntries info mem :=
      fun rela hrela => hperm.mem_iff.mp hrela
    rw [(hseparate.foldl_applyRela hmem (SameTables.refl info mem)).1,
      recorded_perm hseparate.targets hperm, heq]
  · intro mem' hreordered
    rw [hseparate.applyRelocations_reordered hreadable hreordered, heq]
    refine ⟨rfl, rfl, ?_⟩
    intro a ha
    exact Memory.patch_congr _ (hreordered.other a ha)

/-- A second pass over the memory that the first one leaves writes the same words again: the memory
and the counts stay as they are. -/
theorem relocation_pass_idempotent (resolver : Option Resolver)
    (hparse : ldsoElfParseDynamic mem (some segment) loadBias = some info)
    (hseparate : Separate info loadBias mem) :
    ldsoElfApplyRelocations info loadBias resolver
        (ldsoElfApplyRelocations info loadBias resolver mem).2.mem =
      ldsoElfApplyRelocations info loadBias resolver mem := by
  have hreadable := (parsed_of_parse hparse).readable
  have hsame : SameTables info mem (ldsoElfApplyRelocations info loadBias resolver mem).2.mem := by
    rw [hseparate.applyRelocations_eq hreadable]
    exact (hseparate.foldl_applyRela (fun _ hrela => hrela) (SameTables.refl info mem)).2
  rw [hseparate.applyRelocations_of_perm hreadable
    (.of_eq hsame.relocEntries_eq) hsame.symbols hsame.strings,
    hseparate.applyRelocations_recorded hreadable]
  simp only [recorded, RelocState.start,
    Memory.patch_patch mem (words_pairwise hseparate.targets)]

end Correctness

/-- A section at `0x1000` with a relocation of type `RELATIVE` for the word at `0x3000`, and one of
type `JUMP_SLOT` for the word after it, whose symbol is undefined and has the name `f`. -/
def twoRelocations : Memory :=
  Memory.ofWords 0x1000#64 [ldsoDtStrtab, 0x1110#64, ldsoDtSymtab, 0x10E0#64, ldsoDtSyment, 24#64,
    ldsoDtStrsz, 3#64, ldsoDtRela, 0x10B0#64, ldsoDtRelasz, 24#64, ldsoDtRelaent, 24#64,
    ldsoDtJmprel, 0x10C8#64, ldsoDtPltrelsz, 24#64, ldsoDtPltrel, ldsoDtPltrelRela, ldsoDtNull,
    0#64, 0x3000#64, 8#64, 0x1234#64, 0x3008#64, 0x100000007#64, 0#64,
    0#64, 0#64, 0#64, 1#64, 0#64, 0#64, 0x6600#64]

def twoRelocationsSegment : DynamicSegment := ⟨0x1000#64, 176#64⟩

def twoRelocationsInfo : DynamicInfo :=
  { ldsoElfDynamicReset with
    dynamicEntries := 0x1000#64
    dynamicCount := 11#64
    strtab := 0x1110#64
    strsz := 3#64
    symtab := 0x10E0#64
    syment := 24#64
    rela := 0x10B0#64
    relaEnt := 24#64
    relaCount := 1#64
    jmprel := 0x10C8#64
    jmprelCount := 1#64
    pltrelType := ldsoDtPltrelRela }

/-- It knows the names that begin with `f`. -/
def resolveF : Resolver where
  resolve name := if name 0 = 0x66#8 then some 0x5000#64 else none
  pure := by
    intro f g h
    rw [h 0 (by omega)]

theorem relocEntries_twoRelocations : relocEntries twoRelocationsInfo twoRelocations =
    [⟨0x3000#64, 8#64, 0x1234#64⟩, ⟨0x3008#64, 0x100000007#64, 0#64⟩] := by
  decide +kernel

/-- All tables are below `0x1120`. -/
theorem twoRelocations_tables {a : BitVec 64} (h : InRelocations twoRelocationsInfo a ∨
    InSymbols twoRelocationsInfo twoRelocations a ∨ InStrings twoRelocationsInfo twoRelocations a) :
    a < 0x1120#64 := by
  rcases h with (⟨index, hindex, k, hk, rfl⟩ | ⟨index, hindex, k, hk, rfl⟩) | hsymbols | hstrings
  · obtain rfl : index = 0 := Nat.lt_one_iff.mp hindex
    revert k
    decide
  · obtain rfl : index = 0 := Nat.lt_one_iff.mp hindex
    revert k
    decide
  · obtain ⟨rela, hrela, hsymbolic, k, hk, rfl⟩ := hsymbols
    rw [relocEntries_twoRelocations] at hrela
    revert rela k
    decide
  · obtain ⟨offset, hoffset, i, hbefore, rfl⟩ := hstrings
    have hcases : offset = 0#64 ∨ offset = 1#64 ∨ offset = 2#64 := by
      have hlt : offset.toNat < 3 := hoffset
      bv_omega
    have hi : i < 2 := by
      by_contra hge
      have hfirst := hbefore 0 (by omega)
      have hsecond := hbefore 1 (by omega)
      rcases hcases with rfl | rfl | rfl
      · exact hfirst (by decide +kernel)
      · exact hsecond (by decide +kernel)
      · exact hfirst (by decide +kernel)
    clear hbefore
    rcases hcases with rfl | rfl | rfl <;> revert i <;> decide

theorem twoRelocations_separate : Separate twoRelocationsInfo 0#64 twoRelocations where
  targets := by
    rw [relocEntries_twoRelocations, pairwise_pair]
    intro a ha ha'
    simp only [Memory.InWord, Rela.target] at ha ha'
    bv_omega
  tables := by
    intro rela hrela a ha
    have hge : 0x1120#64 ≤ a := by
      rw [relocEntries_twoRelocations] at hrela
      simp only [mem_cons, not_mem_nil, or_false] at hrela
      rcases hrela with rfl | rfl <;> simp only [Memory.InWord, Rela.target] at ha <;> bv_omega
    have hlt : ¬ a < 0x1120#64 := BitVec.not_lt.mpr hge
    exact ⟨fun h => hlt (twoRelocations_tables (.inl h)),
      fun h => hlt (twoRelocations_tables (.inr (.inl h))),
      fun h => hlt (twoRelocations_tables (.inr (.inr h)))⟩

theorem relocation_pass_correct_jump_slot :
    ldsoElfParseDynamic twoRelocations (some twoRelocationsSegment) 0#64 =
        some twoRelocationsInfo ∧
      Separate twoRelocationsInfo 0#64 twoRelocations ∧
      word64 (ldsoElfApplyRelocations twoRelocationsInfo 0#64 (some resolveF)
        twoRelocations).2.mem 0x3008#64 = 0x5000#64 := by
  have hparse : ldsoElfParseDynamic twoRelocations (some twoRelocationsSegment) 0#64 =
      some twoRelocationsInfo := by decide +kernel
  refine ⟨hparse, twoRelocations_separate, ?_⟩
  have hcorrect := (relocation_pass_correct (some resolveF) hparse twoRelocations_separate).2.1
  have hslot := hcorrect.symbolic ⟨0x3008#64, 0x100000007#64, 0#64⟩
    (by rw [relocEntries_twoRelocations]; decide) (by decide) 0x5000#64
    (.resolved resolveF (by decide +kernel) (by decide +kernel) (by decide +kernel) rfl
      (by decide +kernel))
  exact hslot

theorem relocation_pass_idempotent_jump_slot :
    ldsoElfApplyRelocations twoRelocationsInfo 0#64 (some resolveF)
        (ldsoElfApplyRelocations twoRelocationsInfo 0#64 (some resolveF) twoRelocations).2.mem =
      ldsoElfApplyRelocations twoRelocationsInfo 0#64 (some resolveF) twoRelocations :=
  relocation_pass_idempotent (some resolveF)
    (show ldsoElfParseDynamic _ (some twoRelocationsSegment) _ = _ by decide +kernel)
    twoRelocations_separate

end GnuOS.Ldso

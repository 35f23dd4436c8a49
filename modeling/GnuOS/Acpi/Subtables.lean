import GnuOS.Acpi.Identity
import GnuOS.Lib.Entries
import GnuOS.Numa.Lookup

/-!
# The entries of the MADT and of the SRAT

The loops of `acpi_madt_lapic_addr` in `kernel/arch/x86_64/acpi/acpi.c` and of `numa_parse_srat` in
`kernel/mm/numa.c`.  Both go over entries whose lengths the firmware has chosen; here they read
through a region, the table as its header describes it, so that a read of any other byte shows.

The callers have mapped the table.  The checks of that leave a page free behind it at the top of the
address space, so the cursor never wraps around.
-/

namespace GnuOS.Numa

open GnuOS.Lib GnuOS.Vmm List

/-! ## The source -/

section

variable {τ : Type} (add : τ → BitVec 32 → BitVec 64 → BitVec 64 → τ)

/-- The body of the loop of `numa_parse_srat`; `add` is what `numa_add_or_extend_node` does. -/
def sratBody (r : Region) (mem : Memory) (cursor : BitVec 64) (length : ℕ) (s : τ) :
    Outcome (ForInStep τ) := do
  let type ← r.read mem cursor 1
  if type = acpiSratTypeMemoryAffinity ∧ acpiSratMemoryAffinitySize ≤ length then do
    let flags ← r.read mem (cursor + 28#64) 4
    if BitVec.ofNat 32 flags &&& acpiSratMemEnabled ≠ 0#32 then do
      let size ← r.read mem (cursor + 16#64) 8
      if 0#64 < BitVec.ofNat 64 size then do
        let domain ← r.read mem (cursor + 2#64) 4
        let base ← r.read mem (cursor + 8#64) 8
        .value (.yield (add s (BitVec.ofNat 32 domain) (BitVec.ofNat 64 base)
          (BitVec.ofNat 64 size)))
      else .value (.yield s)
    else .value (.yield s)
  else .value (.yield s)

/-- The loop of `numa_parse_srat`. -/
def sratLoop (r : Region) (mem : Memory) (fuel : ℕ) (srat : BitVec 64) (s : τ) : Outcome τ := do
  let length ← r.read mem (srat + 4#64) 4
  entryLoop r mem (srat + BitVec.ofNat 64 length) (sratBody add r mem) fuel (srat + 48#64) s

end

/-! ## Entries of the SRAT -/

/-- The fields of an entry. -/
def affinityOf (e : List (BitVec 8)) : Affinity where
  proximityDomain := BitVec.ofNat 32 (fieldOf e 2 4)
  baseAddress := BitVec.ofNat 64 (fieldOf e 8 8)
  length := BitVec.ofNat 64 (fieldOf e 16 8)
  flags := BitVec.ofNat 32 (fieldOf e 28 4)

/-- An enabled range of memory that is not empty. -/
def IsMemory (e : List (BitVec 8)) : Prop :=
  fieldOf e 0 1 = acpiSratTypeMemoryAffinity ∧ acpiSratMemoryAffinitySize ≤ e.length ∧
    (affinityOf e).flags &&& acpiSratMemEnabled ≠ 0#32 ∧ 0#64 < (affinityOf e).length

instance : DecidablePred IsMemory := fun _ => inferInstanceAs (Decidable (_ ∧ _))

section

variable {τ : Type} {add : τ → BitVec 32 → BitVec 64 → BitVec 64 → τ}

/-- The range of an entry is added. -/
def addEntry (add : τ → BitVec 32 → BitVec 64 → BitVec 64 → τ) (s : τ) (e : List (BitVec 8)) : τ :=
  add s (affinityOf e).proximityDomain (affinityOf e).baseAddress (affinityOf e).length

variable {r : Region} {mem : Memory} {table e rest : List (BitVec 8)} {o : ℕ}
  {entries : List (List (BitVec 8))}

theorem sratBody_eq (h : r.Holds mem table) (hat : EntryAt table o e) (hlow : 2 ≤ e.length)
    (s : τ) :
    sratBody add r mem (r.base + BitVec.ofNat 64 o) e.length s =
      .value (.yield (if IsMemory e then addEntry add s e else s)) := by
  have hread : ∀ k n, 0 < n → k + n ≤ e.length →
      r.read mem (r.base + BitVec.ofNat 64 o + BitVec.ofNat 64 k) n = .value (fieldOf e k n) :=
    fun k n hn hk => h.read_entry hat hn hk
  have htype := hread 0 1 (by omega) (by omega)
  rw [BitVec.add_zero] at htype
  rw [sratBody, htype, Outcome.value_bind]
  by_cases haffinity : fieldOf e 0 1 = acpiSratTypeMemoryAffinity ∧
      acpiSratMemoryAffinitySize ≤ e.length
  · have hsize : 40 ≤ e.length := haffinity.2
    rw [if_pos haffinity, hread 28 4 (by omega) (by omega), Outcome.value_bind,
      hread 16 8 (by omega) (by omega), Outcome.value_bind, hread 2 4 (by omega) (by omega),
      Outcome.value_bind, hread 8 8 (by omega) (by omega), Outcome.value_bind]
    change (if (affinityOf e).flags &&& acpiSratMemEnabled ≠ 0#32 then
      if 0#64 < (affinityOf e).length then Outcome.value (ForInStep.yield (addEntry add s e))
      else Outcome.value (ForInStep.yield s) else Outcome.value (ForInStep.yield s)) = _
    by_cases henabled : (affinityOf e).flags &&& acpiSratMemEnabled ≠ 0#32
    · rw [if_pos henabled]
      by_cases hpos : 0#64 < (affinityOf e).length
      · rw [if_pos hpos, if_pos ⟨haffinity.1, haffinity.2, henabled, hpos⟩]
      · rw [if_neg hpos, if_neg fun hmem => hpos hmem.2.2.2]
    · rw [if_neg henabled, if_neg fun hmem => henabled hmem.2.2.1]
  · rw [if_neg haffinity, if_neg fun hmem => haffinity ⟨hmem.1, hmem.2.1⟩]

/-- The ranges of the entries are added in their order. -/
theorem sratLoop_eq (h : r.Holds mem table) (hlength : fieldOf table 4 4 = table.length)
    (hfixed : acpiSratSize ≤ table.length)
    (hentries : Entries (table.drop acpiSratSize) entries rest) {fuel : ℕ}
    (hfuel : table.length ≤ fuel) (s : τ) :
    sratLoop add r mem fuel r.base s =
      .value ((entries.filter (IsMemory ·)).foldl (addEntry add) s) := by
  have hcount := hentries.length_le
  rw [length_drop, acpiSratSize] at hcount
  rw [acpiSratSize] at hfixed hentries
  have hheader : r.read mem (r.base + 4#64) 4 = .value (fieldOf table 4 4) :=
    h.read (by omega) (by omega)
  rw [sratLoop, hheader, Outcome.value_bind, hlength]
  rw [entryLoop_eq_forIn h hentries hfixed
    (fun o e s hat hlow _ => sratBody_eq h hat hlow s) (by omega),
    ← Outcome.pure_eq, foldl_filter]
  simp only [← Outcome.pure_eq, forIn_pure_yield_eq_foldl, decide_eq_true_eq]

/-! ## The model of the whole function -/

/-- A round that checks its reads does what the round of the model does. -/
theorem sratBody_eq_parseEntry (h : r.Holds mem table) {n : ℕ} (hlow : 2 ≤ n)
    (hle : o + n ≤ table.length) (hn : field mem r.base (o + 1) 1 = n) (s : NumaState) :
    sratBody numaAddOrExtendNode r mem (r.base + BitVec.ofNat 64 o) n s =
      .value (.yield (parseEntry mem r.base s o)) := by
  have hread : ∀ k m, 0 < m → k + m ≤ n →
      r.read mem (r.base + BitVec.ofNat 64 o + BitVec.ofNat 64 k) m =
        .value (field mem r.base (o + k) m) := by
    intro k m hm hk
    rw [Memory.addr_add, h.read hm (by omega), field, h.bytes.load (by omega)]
  have htype := hread 0 1 (by omega) (by omega)
  rw [BitVec.add_zero, Nat.add_zero] at htype
  rw [sratBody, htype, Outcome.value_bind, parseEntry, hn]
  split
  · rename_i haffinity
    have hsize : 40 ≤ n := haffinity.2
    rw [hread 28 4 (by omega) (by omega), Outcome.value_bind, hread 16 8 (by omega) (by omega),
      Outcome.value_bind, hread 2 4 (by omega) (by omega), Outcome.value_bind,
      hread 8 8 (by omega) (by omega), Outcome.value_bind]
    dsimp only [readAffinity]
    by_cases henabled : BitVec.ofNat 32 (field mem r.base (o + 28) 4) &&& acpiSratMemEnabled ≠ 0#32
    · rw [if_pos henabled]
      by_cases hpos : 0#64 < BitVec.ofNat 64 (field mem r.base (o + 16) 8)
      · rw [if_pos hpos, if_pos ⟨henabled, hpos⟩]
      · rw [if_neg hpos, if_neg fun hboth => hpos hboth.2]
    · rw [if_neg henabled, if_neg fun hboth => henabled hboth.1]
  · rfl

theorem entryLoop_eq_parseLoop (h : r.Holds mem table) (n : ℕ) (ho : o ≤ table.length)
    (hn : table.length < o + n) (s : NumaState) :
    entryLoop r mem (r.base + BitVec.ofNat 64 table.length) (sratBody numaAddOrExtendNode r mem)
      n (r.base + BitVec.ofNat 64 o) s = .value (parseLoop mem r.base table.length n o s) := by
  induction n generalizing o s with
  | zero => omega
  | succ n ih =>
    rw [entryLoop_succ h ho, parseLoop]
    by_cases hheader : o + 2 ≤ table.length
    · have hfield : field mem r.base (o + 1) 1 = fieldOf table (o + 1) 1 :=
        h.bytes.load (by omega)
      simp only [if_pos hheader, acpiSratEntryHeaderSize, if_neg (Nat.not_lt.mpr hheader), hfield]
      split_ifs with hshort hpast
      · rfl
      · rfl
      · rw [sratBody_eq_parseEntry h (by omega) (by omega) hfield, Outcome.value_bind]
        exact ih (by omega) (by omega) _
    · rw [if_neg hheader, if_pos (by rw [acpiSratEntryHeaderSize]; omega)]

/-- The loop that checks its reads comes to the state that `numa_parse_srat` is modelled with. -/
theorem sratLoop_eq_parseLoop (h : r.Holds mem table) (hlength : fieldOf table 4 4 = table.length)
    (hfixed : acpiSratSize ≤ table.length) (s : NumaState) :
    sratLoop numaAddOrExtendNode r mem table.length r.base s =
      .value (parseLoop mem r.base table.length table.length acpiSratSize s) := by
  have hsize : acpiSratSize = 48 := rfl
  have hheader : r.read mem (r.base + 4#64) 4 = .value (fieldOf table 4 4) :=
    h.read (by omega) (by omega)
  rw [sratLoop, hheader, Outcome.value_bind, hlength]
  exact entryLoop_eq_parseLoop h _ hfixed (by omega) s

end

end GnuOS.Numa

namespace GnuOS.Acpi

open GnuOS.Lib GnuOS.Vmm GnuOS.Numa

/-! ## The MADT -/

/-- `sizeof(acpi_madt_t)` -/
def acpiMadtSize : ℕ := 44

/-- `sizeof(acpi_madt_local_apic_override_t)` -/
def acpiMadtLocalApicOverrideSize : ℕ := 12

def acpiMadtTypeLocalApicAddrOverride : ℕ := 5

/-- The body of the loop of `acpi_madt_lapic_addr`. -/
def madtBody (r : Region) (mem : Memory) (cursor : BitVec 64) (length : ℕ)
    (lapicAddr : BitVec 64) : Outcome (ForInStep (BitVec 64)) := do
  let type ← r.read mem cursor 1
  if type = acpiMadtTypeLocalApicAddrOverride ∧ acpiMadtLocalApicOverrideSize ≤ length then do
    let address ← r.read mem (cursor + 4#64) 8
    .value (.done (BitVec.ofNat 64 address))
  else .value (.yield lapicAddr)

def acpiMadtLapicAddr (r : Region) (mem : Memory) (fuel : ℕ) (madt : BitVec 64) :
    Outcome (BitVec 64) :=
  if madt = 0#64 then .value 0#64
  else do
    let length ← r.read mem (madt + 4#64) 4
    if length < acpiMadtSize then .value 0#64
    else do
      let lapicAddr ← r.read mem (madt + 36#64) 4
      entryLoop r mem (madt + BitVec.ofNat 64 length) (madtBody r mem) fuel (madt + 44#64)
        (BitVec.ofNat 64 lapicAddr)

/-- An entry that overrides the address of the local APIC. -/
def IsOverride (e : List (BitVec 8)) : Prop :=
  fieldOf e 0 1 = acpiMadtTypeLocalApicAddrOverride ∧ acpiMadtLocalApicOverrideSize ≤ e.length

instance : DecidablePred IsOverride := fun _ => inferInstanceAs (Decidable (_ ∧ _))

/-- The address in the first override among the entries, or else the one of 32 bits in the fixed
part. -/
def lapicAddress (table : List (BitVec 8)) (entries : List (List (BitVec 8))) : BitVec 64 :=
  ((entries.find? (IsOverride ·)).elim (BitVec.ofNat 64 (fieldOf table 36 4)) fun e =>
    BitVec.ofNat 64 (fieldOf e 4 8))

section

variable {r : Region} {mem : Memory} {table e rest : List (BitVec 8)} {o : ℕ}
  {entries : List (List (BitVec 8))}

theorem madtBody_eq (h : r.Holds mem table) (hat : EntryAt table o e) (hlow : 2 ≤ e.length)
    (lapicAddr : BitVec 64) :
    madtBody r mem (r.base + BitVec.ofNat 64 o) e.length lapicAddr =
      .value (if IsOverride e then .done (BitVec.ofNat 64 (fieldOf e 4 8))
        else .yield lapicAddr) := by
  have htype := h.read_entry hat Nat.one_pos (show 0 + 1 ≤ e.length by omega)
  rw [BitVec.add_zero] at htype
  rw [madtBody, htype, Outcome.value_bind]
  by_cases hover : IsOverride e
  · have hsize : 12 ≤ e.length := hover.2
    have haddress : r.read mem (r.base + BitVec.ofNat 64 o + 4#64) 8 =
        .value (fieldOf e 4 8) := h.read_entry hat (by omega) (by omega)
    rw [if_pos ⟨hover.1, hover.2⟩, if_pos hover, haddress, Outcome.value_bind]
  · rw [if_neg fun h => hover ⟨h.1, h.2⟩, if_neg hover]

theorem forIn_override (entries : List (List (BitVec 8))) (lapicAddr : BitVec 64) :
    (forIn entries lapicAddr fun e lapicAddr =>
      Outcome.value (if IsOverride e then ForInStep.done (BitVec.ofNat 64 (fieldOf e 4 8))
        else ForInStep.yield lapicAddr)) =
      Outcome.value ((entries.find? (IsOverride ·)).elim lapicAddr fun e =>
        BitVec.ofNat 64 (fieldOf e 4 8)) := by
  induction entries with
  | nil => rfl
  | cons e entries ih =>
    rw [List.forIn_cons, Outcome.value_bind, List.find?_cons]
    by_cases hover : IsOverride e
    · simp only [hover, if_true, decide_true, Option.elim_some, Outcome.pure_eq]
    · simp only [hover, if_false, decide_false]
      exact ih

theorem acpiMadtLapicAddr_eq (h : r.Holds mem table) (hnonnull : r.base ≠ 0#64)
    (hlength : fieldOf table 4 4 = table.length) (hfixed : acpiMadtSize ≤ table.length)
    (hentries : Entries (table.drop acpiMadtSize) entries rest) {fuel : ℕ}
    (hfuel : table.length ≤ fuel) :
    acpiMadtLapicAddr r mem fuel r.base = .value (lapicAddress table entries) := by
  have hcount := hentries.length_le
  rw [List.length_drop, acpiMadtSize] at hcount
  rw [acpiMadtSize] at hfixed hentries
  have hheader : r.read mem (r.base + 4#64) 4 = .value (fieldOf table 4 4) :=
    h.read (by omega) (by omega)
  have haddress : r.read mem (r.base + 36#64) 4 = .value (fieldOf table 36 4) :=
    h.read (by omega) (by omega)
  rw [acpiMadtLapicAddr, if_neg hnonnull, hheader, Outcome.value_bind, hlength, acpiMadtSize,
    if_neg (by omega), haddress, Outcome.value_bind]
  rw [entryLoop_eq_forIn h hentries hfixed
    (fun o e s hat hlow _ => madtBody_eq h hat hlow s) (by omega)]
  exact forIn_override entries _

end

/-! ## Both walks -/

section

variable {σ : Type} {A : PageAllocator σ} {vmm : VmmState σ} {mem : Memory} {base : BitVec 64}
  {table : List (BitVec 8)}

/-- A table that has been mapped. -/
theorem holds_of_mapped (hbytes : mem.BytesAt base table)
    (hlength : fieldOf table 4 4 = table.length)
    (hmaps : (acpiMapIdentityRange A vmm base (BitVec.ofNat 64 table.length)).1 = true) :
    (⟨base, table.length⟩ : Region).Holds mem table ∧ base ≠ 0#64 := by
  obtain ⟨hzero, hbound⟩ := bounds_of_range hmaps
  have hlt := fieldOf_lt table 4 4
  rw [BitVec.toNat_ofNat] at hbound
  refine ⟨⟨rfl, ?_, hbytes⟩, fun h => hzero (.inl h)⟩
  show base.toNat + table.length + 256 ≤ 2 ^ 64
  omega

/-- For every table with as many bytes as its header says, among them the fixed part, that could be
mapped: the loops end, do not read outside of the table, and see exactly the entries before the
first that is shorter than two bytes or runs past the end.  The address of the local APIC comes from
the first override among them, and the ranges that are added are those of the entries for memory
among them, in their order, whatever is done with a range. -/
theorem subtable_walks_complete (hbytes : mem.BytesAt base table)
    (hlength : fieldOf table 4 4 = table.length)
    (hmaps : (acpiMapIdentityRange A vmm base (BitVec.ofNat 64 table.length)).1 = true) :
    (acpiMadtSize ≤ table.length →
      ∃ entries rest, Entries (table.drop acpiMadtSize) entries rest ∧
        ∀ fuel, table.length ≤ fuel →
          acpiMadtLapicAddr ⟨base, table.length⟩ mem fuel base =
            .value (lapicAddress table entries)) ∧
    (acpiSratSize ≤ table.length →
      ∃ entries rest, Entries (table.drop acpiSratSize) entries rest ∧
        ∀ (τ : Type) (add : τ → BitVec 32 → BitVec 64 → BitVec 64 → τ) (s : τ) (fuel : ℕ),
          table.length ≤ fuel →
          sratLoop add ⟨base, table.length⟩ mem fuel base s =
            .value ((entries.filter (IsMemory ·)).foldl (addEntry add) s)) := by
  obtain ⟨hholds, hnonnull⟩ := holds_of_mapped hbytes hlength hmaps
  constructor
  · intro hfixed
    obtain ⟨entries, rest, hentries⟩ := Entries.exists_of_bytes (table.drop acpiMadtSize)
    exact ⟨entries, rest, hentries, fun fuel hfuel =>
      acpiMadtLapicAddr_eq hholds hnonnull hlength hfixed hentries hfuel⟩
  · intro hfixed
    obtain ⟨entries, rest, hentries⟩ := Entries.exists_of_bytes (table.drop acpiSratSize)
    exact ⟨entries, rest, hentries, fun τ add s fuel hfuel =>
      sratLoop_eq hholds hlength hfixed hentries hfuel s⟩

end

/-- A MADT with a processor, an override and two bytes of another entry. -/
def overrideMadt : Memory :=
  Memory.ofWords 0x1000#64 [0x4243495041#64, 0#64, 0#64, 0#64, 0xFEE0000000000000#64,
    0x80000000000#64, 0xC0500000000#64, 0x1FEE00000#64, 0x800#64]

def overrideMadtBytes : List (BitVec 8) :=
  (List.range 66).map fun i => overrideMadt (0x1000#64 + BitVec.ofNat 64 i)

theorem subtable_walks_complete_override :
    acpiMadtLapicAddr ⟨0x1000#64, 66⟩ overrideMadt 66 0x1000#64 = .value 0x1FEE00000#64 ∧
      ∃ entries rest, Entries (overrideMadtBytes.drop acpiMadtSize) entries rest ∧
        lapicAddress overrideMadtBytes entries = 0x1FEE00000#64 := by
  have hvalue : acpiMadtLapicAddr ⟨0x1000#64, 66⟩ overrideMadt 66 0x1000#64 =
      .value 0x1FEE00000#64 := by decide +kernel
  have hsize : overrideMadtBytes.length = 66 := by decide +kernel
  have hbytes : overrideMadt.BytesAt 0x1000#64 overrideMadtBytes := by decide +kernel
  have hlength : fieldOf overrideMadtBytes 4 4 = overrideMadtBytes.length := by decide +kernel
  have hmaps : (acpiMapIdentityRange noPages identityVmm 0x1000#64
      (BitVec.ofNat 64 overrideMadtBytes.length)).1 = true := by decide +kernel
  obtain ⟨entries, rest, hentries, hwalk⟩ :=
    (subtable_walks_complete hbytes hlength hmaps).1 (by rw [hsize]; decide)
  have hfuel := hwalk 66 (by rw [hsize])
  rw [hsize, hvalue] at hfuel
  exact ⟨hvalue, entries, rest, hentries, (Outcome.value.inj hfuel).symm⟩

end GnuOS.Acpi

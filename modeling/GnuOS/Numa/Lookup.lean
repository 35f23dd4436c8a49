import GnuOS.Lib.Patches
import GnuOS.Numa.Table

/-!
# The node of an address

After the table has been read there is one node for each proximity domain, in the order in which the
domains first occur, and its range is the hull of all ranges of the domain.  A lookup takes the
first node whose hull contains the address.  So it finds the domain of each address exactly if no
range meets the hull of a domain that occurs before its own.
-/

namespace GnuOS.Numa

open GnuOS.Lib GnuOS.Vmm List BitVec

/-! ## Ranges -/

def Affinity.Contains (e : Affinity) (a : BitVec 64) : Prop :=
  e.baseAddress.toNat ≤ a.toNat ∧ a.toNat < e.rangeEnd

/-- The address lies between the lowest and the highest address of the domain. -/
def InHull (ranges : List Affinity) (domain : BitVec 32) (a : BitVec 64) : Prop :=
  (∃ e ∈ ranges, e.proximityDomain = domain ∧ e.baseAddress.toNat ≤ a.toNat) ∧
    ∃ e ∈ ranges, e.proximityDomain = domain ∧ a.toNat < e.rangeEnd

/-- No range meets the hull of a domain that occurs before its own. -/
def Separated (ranges : List Affinity) : Prop :=
  ∀ e ∈ ranges, ∀ i j : ℕ, i < j → (firstSeen ranges)[j]? = some e.proximityDomain →
    ∀ domain, (firstSeen ranges)[i]? = some domain → ∀ a, e.Contains a → ¬ InHull ranges domain a

/-! ## All nodes -/

/-- The nodes are the hulls of the domains, in their order. -/
structure Nodes (s : NumaState) (ranges : List Affinity) : Prop where
  usable : ∀ e ∈ ranges, e.Usable
  count : s.nodeCount = (firstSeen ranges).length
  ids : ∀ i < s.nodeCount, (firstSeen ranges)[i]? = some (s.nodes i).nodeId
  hulls : ∀ i < s.nodeCount, IsHull (s.nodes i) ranges

section Nodes

variable {s : NumaState} {ranges : List Affinity} {e : Affinity} {a : BitVec 64}

/-- Only the nodes and their number matter. -/
theorem Nodes.congr {s' : NumaState} (h : Nodes s ranges) (hnodes : s'.nodes = s.nodes)
    (hcount : s'.nodeCount = s.nodeCount) : Nodes s' ranges where
  usable := h.usable
  count := hcount.trans h.count
  ids i hi := by
    rw [hnodes]
    exact h.ids i (hcount ▸ hi)
  hulls i hi := by
    rw [hnodes]
    exact h.hulls i (hcount ▸ hi)

/-- The nodes after all ranges of at most eight domains. -/
theorem nodes_foldl (hranges : ∀ e ∈ ranges, e.Usable)
    (hroom : (firstSeen ranges).length ≤ numaMaxNodes) :
    Nodes (ranges.foldl addRange numaResetState) ranges := by
  have htable := table_foldl hranges
  exact ⟨hranges, by rw [htable.count, Nat.min_eq_right hroom], htable.ids, htable.hulls⟩

/-! ## Lookup -/

/-- The test of the lookup. -/
theorem IsHull.test_iff {node : Node} (h : IsHull node ranges) (husable : ∀ e ∈ ranges, e.Usable) :
    (node.base ≤ a ∧ a < if node.base + node.size < node.base then allOnes 64
      else node.base + node.size) ↔ InHull ranges node.nodeId a := by
  have hfits := h.fits husable
  have hend : (node.base + node.size).toNat = node.base.toNat + node.size.toNat := by
    rw [toNat_add]
    exact Nat.mod_eq_of_lt hfits
  have hnowrap : ¬ node.base + node.size < node.base := by
    rw [lt_def, hend]
    omega
  rw [if_neg hnowrap, le_def, lt_def, hend]
  constructor
  · rintro ⟨hle, hlt⟩
    obtain ⟨e, he, hdomain, hlower⟩ := h.lower
    obtain ⟨e', he', hdomain', hupper⟩ := h.upper
    exact ⟨⟨e, he, hdomain, by omega⟩, ⟨e', he', hdomain', by omega⟩⟩
  · rintro ⟨⟨e, he, hdomain, hle⟩, ⟨e', he', hdomain', hlt⟩⟩
    have hwithin := h.within e he hdomain
    have hwithin' := h.within e' he' hdomain'
    omega

/-- The lookup finds the first node whose hull contains the address. -/
theorem Nodes.lookup_iff (h : Nodes s ranges) (hready : s.ready = true) {domain : BitVec 32} :
    numaPhysToNode s a = some domain ↔ ∃ i : ℕ, (firstSeen ranges)[i]? = some domain ∧
      InHull ranges domain a ∧
        ∀ j < i, ∀ d, (firstSeen ranges)[j]? = some d → ¬ InHull ranges d a := by
  unfold numaPhysToNode
  rw [hready]
  simp only [Bool.not_true, Bool.false_eq_true, if_false]
  rw [firstSome_eq_some_iff]
  constructor
  · rintro ⟨i, _, hi, hbody, hbefore⟩
    have hi' : i < s.nodeCount := by omega
    have htest := (h.hulls i hi').test_iff (a := a) h.usable
    by_cases hin : InHull ranges (s.nodes i).nodeId a
    · rw [if_pos (htest.mpr hin)] at hbody
      cases hbody
      refine ⟨i, h.ids i hi', hin, ?_⟩
      intro j hj d hd hhull
      have hbodyj := hbefore j (Nat.zero_le _) hj
      have hidj := h.ids j (by omega)
      rw [hd, Option.some_inj] at hidj
      rw [if_pos (((h.hulls j (by omega)).test_iff h.usable).mpr (hidj ▸ hhull))] at hbodyj
      cases hbodyj
    · rw [if_neg (mt htest.mp hin)] at hbody
      cases hbody
  · rintro ⟨i, hget, hhull, hbefore⟩
    have hi : i < s.nodeCount := by
      rw [h.count]
      exact (List.getElem?_eq_some_iff.mp hget).1
    have hid := h.ids i hi
    rw [hget, Option.some_inj] at hid
    refine ⟨i, Nat.zero_le _, by omega, ?_, ?_⟩
    · rw [if_pos (((h.hulls i hi).test_iff h.usable).mpr (hid ▸ hhull)), hid]
    · intro j _ hj
      rw [if_neg]
      intro htest
      have hin := ((h.hulls j (by omega)).test_iff h.usable).mp htest
      exact hbefore j hj _ (h.ids j (by omega)) hin

theorem inHull_of_contains (he : e ∈ ranges) (ha : e.Contains a) :
    InHull ranges e.proximityDomain a :=
  ⟨⟨e, he, rfl, ha.1⟩, ⟨e, he, rfl, ha.2⟩⟩

/-- The lookup agrees with the ranges exactly if they are separated. -/
theorem Nodes.lookup_agrees_iff (h : Nodes s ranges) (hready : ranges ≠ [] → s.ready = true) :
    (∀ e ∈ ranges, ∀ a, e.Contains a → numaPhysToNode s a = some e.proximityDomain) ↔
      Separated ranges := by
  constructor
  · intro hagrees e he i j hij hj d hi a ha hhull
    have hlookup := hagrees e he a ha
    rw [h.lookup_iff (hready (ne_nil_of_mem he))] at hlookup
    obtain ⟨k, hk, _, hbefore⟩ := hlookup
    -- the node of the range is the only one with its domain
    have hkj : j = k := (getElem?_inj (List.getElem?_eq_some_iff.mp hj).1
      (nodup_firstSeen ranges)).mp (hj.trans hk.symm)
    exact hbefore i (by omega) d hi hhull
  · intro hseparated e he a ha
    rw [h.lookup_iff (hready (ne_nil_of_mem he))]
    obtain ⟨i, hi⟩ := getElem?_of_mem (mem_firstSeen_iff.mpr ⟨e, he, rfl⟩)
    refine ⟨i, hi, inHull_of_contains he ha, ?_⟩
    intro j hj d hd
    exact hseparated e he j i hj hi d hd a ha

end Nodes

/-! ## The table -/

/-- The offsets of the entries that the loop comes to. -/
def entryOffsets (mem : Memory) (srat : BitVec 64) (length : ℕ) : ℕ → ℕ → List ℕ
  | 0, _ => []
  | n + 1, offset =>
    let entryLength := field mem srat (offset + 1) 1
    if length < offset + acpiSratEntryHeaderSize then []
    else if entryLength < acpiSratEntryHeaderSize then []
    else if length < offset + entryLength then []
    else offset :: entryOffsets mem srat length n (offset + entryLength)

/-- The usable range of the entry at an offset. -/
def rangeAt (mem : Memory) (srat : BitVec 64) (offset : ℕ) : Option Affinity :=
  if field mem srat offset 1 = acpiSratTypeMemoryAffinity ∧
      acpiSratMemoryAffinitySize ≤ field mem srat (offset + 1) 1 ∧
      (readAffinity mem srat offset).Usable then
    some (readAffinity mem srat offset)
  else none

/-- The enabled ranges of the table that are not empty and do not wrap around. -/
def sratRanges (mem : Memory) (srat : BitVec 64) : List Affinity :=
  (entryOffsets mem srat (sratLength mem srat) (sratLength mem srat) acpiSratSize).filterMap
    (rangeAt mem srat)

section Table

variable {mem : Memory} {srat : BitVec 64}

theorem usable_of_mem_sratRanges {e : Affinity} (he : e ∈ sratRanges mem srat) : e.Usable := by
  obtain ⟨offset, _, hrange⟩ := mem_filterMap.mp he
  unfold rangeAt at hrange
  split at hrange
  · next h =>
    cases hrange
    exact h.2.2
  · cases hrange

theorem numaAddOrExtendNode_of_wrap {s : NumaState} {e : Affinity} (hpos : 0 < e.length.toNat)
    (hwrap : 2 ^ 64 ≤ e.rangeEnd) : addRange s e = s := by
  unfold addRange numaAddOrExtendNode Affinity.rangeEnd at *
  rw [if_pos]
  right
  have hlt := e.length.isLt
  rw [lt_def, toNat_sub, toNat_allOnes]
  omega

/-- The body of the loop adds the range of the entry, if it has one. -/
theorem parseEntry_eq (s : NumaState) (offset : ℕ) :
    parseEntry mem srat s offset = (rangeAt mem srat offset).elim s (addRange s) := by
  unfold parseEntry rangeAt
  generalize readAffinity mem srat offset = entry
  by_cases hentry : field mem srat offset 1 = acpiSratTypeMemoryAffinity ∧
      acpiSratMemoryAffinitySize ≤ field mem srat (offset + 1) 1
  · rw [if_pos hentry]
    simp only
    by_cases henabled : entry.flags &&& acpiSratMemEnabled ≠ 0#32 ∧ 0#64 < entry.length
    · rw [if_pos henabled]
      have hpos : 0 < entry.length.toNat := henabled.2
      by_cases hfits : entry.rangeEnd < 2 ^ 64
      · rw [if_pos ⟨hentry.1, hentry.2, henabled.1, hpos, hfits⟩]
        rfl
      · rw [if_neg fun h => hfits h.2.2.2.2]
        exact numaAddOrExtendNode_of_wrap hpos (by omega)
    · rw [if_neg henabled, if_neg fun h => henabled ⟨h.2.2.1, h.2.2.2.1⟩]
      rfl
  · rw [if_neg hentry, if_neg fun h => hentry ⟨h.1, h.2.1⟩]
    rfl

theorem parseLoop_eq (length n offset : ℕ) (s : NumaState) :
    parseLoop mem srat length n offset s =
      ((entryOffsets mem srat length n offset).filterMap (rangeAt mem srat)).foldl addRange s := by
  induction n generalizing offset s with
  | zero => rfl
  | succ n ih =>
    unfold parseLoop entryOffsets
    simp only
    split
    · rfl
    split
    · rfl
    split
    · rfl
    · rw [ih, parseEntry_eq, filterMap_cons]
      cases rangeAt mem srat offset <;> rfl

end Table

/-! ## Initialisation -/

/-- The table is there, can be mapped, and has its signature, its size and its checksum. -/
structure Accepted {σ : Type} (A : PageAllocator σ) (mem : Memory) (vmm : VmmState σ)
    (srat : BitVec 64) : Prop where
  mapsHeader : (mapIdentityRange A vmm srat (BitVec.ofNat 64 acpiSdtHeaderSize)).1 = true
  signature : acpiSigMatch mem srat = true
  size : acpiSratSize ≤ sratLength mem srat
  mapsTable : (mapIdentityRange A
    (mapIdentityRange A vmm srat (BitVec.ofNat 64 acpiSdtHeaderSize)).2 srat
    (BitVec.ofNat 64 (sratLength mem srat))).1 = true
  checksum : acpiChecksumOk mem srat (sratLength mem srat) = true

section Init

variable {σ : Type} {A : PageAllocator σ} {mem : Memory} {vmm : VmmState σ} {srat : BitVec 64}

section

variable (h : Accepted A mem vmm srat)

include h

theorem Accepted.ne_zero : srat ≠ 0#64 := by
  intro hzero
  have hmaps := h.mapsHeader
  unfold mapIdentityRange at hmaps
  simp only [hzero, true_or, if_true] at hmaps
  cases hmaps

theorem Accepted.parse :
    (numaParseSrat A mem vmm numaResetState srat).2.2 =
      (sratRanges mem srat).foldl addRange numaResetState := by
  unfold numaParseSrat
  rw [if_neg h.ne_zero]
  have hheader := h.mapsHeader
  have htable := h.mapsTable
  generalize mapIdentityRange A vmm srat (BitVec.ofNat 64 acpiSdtHeaderSize) = header at *
  obtain ⟨ok, vmm'⟩ := header
  simp only at hheader htable ⊢
  subst hheader
  simp only [h.signature, Bool.not_true, Bool.false_eq_true, if_false]
  rw [if_neg (Nat.not_lt.mpr h.size)]
  generalize mapIdentityRange A vmm' srat (BitVec.ofNat 64 (sratLength mem srat)) = table at *
  obtain ⟨ok, vmm''⟩ := table
  simp only at htable ⊢
  subst htable
  simp only [h.checksum, Bool.not_true, Bool.false_eq_true, if_false]
  exact parseLoop_eq _ _ _ _

/-- After the initialisation the nodes are the hulls of the domains, and lookups are possible. -/
theorem Accepted.nodes (hdomains : (firstSeen (sratRanges mem srat)).length ≤ numaMaxNodes)
    (fallbackBase fallbackSize : BitVec 64) (hranges : sratRanges mem srat ≠ []) :
    Nodes (numaInit A mem vmm (some srat) fallbackBase fallbackSize).2 (sratRanges mem srat) ∧
      (numaInit A mem vmm (some srat) fallbackBase fallbackSize).2.ready = true := by
  have hnodes : Nodes (numaParseSrat A mem vmm numaResetState srat).2.2 (sratRanges mem srat) := by
    rw [h.parse]
    exact nodes_foldl (fun e he => usable_of_mem_sratRanges he) hdomains
  have hcount : (numaParseSrat A mem vmm numaResetState srat).2.2.nodeCount ≠ 0 := by
    obtain ⟨e, he⟩ := exists_mem_of_ne_nil _ hranges
    rw [hnodes.count]
    exact Nat.ne_of_gt (length_pos_of_mem (mem_firstSeen_iff.mpr ⟨e, he, rfl⟩))
  unfold numaInit
  simp only [if_neg h.ne_zero, hcount, false_and, if_false]
  exact ⟨hnodes.congr rfl rfl, trivial⟩

end

/-- For every table that is accepted and names at most eight domains, a lookup returns the domain of
each address of each range exactly if no range meets the hull of a domain that occurs before its
own. -/
theorem numa_lookup_agrees_iff (haccepted : Accepted A mem vmm srat)
    (hdomains : (firstSeen (sratRanges mem srat)).length ≤ 8)
    (fallbackBase fallbackSize : BitVec 64) :
    (∀ e ∈ sratRanges mem srat, ∀ a, e.Contains a →
      numaPhysToNode (numaInit A mem vmm (some srat) fallbackBase fallbackSize).2 a =
        some e.proximityDomain) ↔ Separated (sratRanges mem srat) := by
  by_cases hranges : sratRanges mem srat = []
  · rw [hranges]
    exact iff_of_true (fun e he => absurd he not_mem_nil)
      fun e he => absurd he not_mem_nil
  · obtain ⟨hnodes, hready⟩ := haccepted.nodes hdomains fallbackBase fallbackSize hranges
    exact hnodes.lookup_agrees_iff fun _ => hready

end Init

/-! ## Two tables -/

/-- The entry of an enabled range of one gigabyte. -/
def gigabyteEntry (domain base : BitVec 64) : List (BitVec 64) :=
  [0x2801#64 ||| domain <<< 16, base, 0x40000000#64, 0x100000000#64, 0#64]

/-- A table at `0x1000` with the given checksum and entries. -/
def tableOf (checksum : BitVec 64) (entries : List (BitVec 64)) : Memory :=
  Memory.ofWords 0x1000#64 ([0x54415253#64 ||| BitVec.ofNat 64 (48 + 8 * entries.length) <<< 32,
    checksum <<< 8, 0#64, 0#64, 0#64, 0#64] ++ entries)

/-- The first gigabytes are mapped to themselves by large pages. -/
def identityVmm : VmmState Unit where
  mem table index :=
    if table = 0x1000#64 ∧ index.val = 0 then 0x2003#64
    else if table = 0x2000#64 ∧ index.val = 0 then 0x83#64 else 0#64
  pml4 := 0x1000#64
  kernelLayout := ⟨0#64, 0#64, 0#64, 0#64, 0#64, 0#64, 0#64⟩
  kernelHeapNext := 0#64
  kernelHeapLimit := 0#64
  pmm := ()

def noPages : PageAllocator Unit := ⟨fun _ => (0#64, ()), fun _ _ => ()⟩

/-- Domain 0 has the first gigabyte and domain 1 the second. -/
def contiguousTable : Memory :=
  tableOf 0x31#64 (gigabyteEntry 0#64 0#64 ++ gigabyteEntry 1#64 0x40000000#64)

/-- Domain 0 has the first gigabyte and the third, domain 1 the second. -/
def interleavedTable : Memory :=
  tableOf 0x1F#64 (gigabyteEntry 0#64 0#64 ++ gigabyteEntry 1#64 0x40000000#64 ++
    gigabyteEntry 0#64 0x80000000#64)

theorem sratRanges_contiguousTable : sratRanges contiguousTable 0x1000#64 =
    [⟨0#32, 0#64, 0x40000000#64, 1#32⟩, ⟨1#32, 0x40000000#64, 0x40000000#64, 1#32⟩] := by
  decide +kernel

theorem separated_contiguousTable : Separated (sratRanges contiguousTable 0x1000#64) := by
  rw [sratRanges_contiguousTable]
  intro e he i j hij hj d hi a ha hhull
  have hseen : firstSeen [⟨0#32, 0#64, 0x40000000#64, 1#32⟩,
      ⟨1#32, 0x40000000#64, 0x40000000#64, 1#32⟩] = [0#32, 1#32] := by decide
  rw [hseen] at hi hj
  have hj' : j < 2 := (List.getElem?_eq_some_iff.mp hj).1
  obtain rfl : i = 0 := by omega
  obtain rfl : j = 1 := by omega
  obtain ⟨_, e', he', hdomain', hlt⟩ := hhull
  simp only [mem_cons, not_mem_nil, or_false] at he he'
  cases hi
  -- the range is the second one, and the domain before it ends where it starts
  rcases he with rfl | rfl
  · exact absurd hj (by decide)
  rcases he' with rfl | rfl
  · exact absurd (Nat.lt_of_lt_of_le hlt ha.1) (Nat.lt_irrefl _)
  · exact absurd hdomain' (by decide)

theorem numa_lookup_agrees_iff_contiguous :
    Accepted noPages contiguousTable identityVmm 0x1000#64 ∧
      Separated (sratRanges contiguousTable 0x1000#64) ∧
      numaPhysToNode (numaInit noPages contiguousTable identityVmm (some 0x1000#64) 0#64 0#64).2
        0x40000000#64 = some 1#32 := by
  have haccepted : Accepted noPages contiguousTable identityVmm 0x1000#64 := by
    constructor <;> decide +kernel
  refine ⟨haccepted, separated_contiguousTable, ?_⟩
  have hagrees := (numa_lookup_agrees_iff haccepted (by decide +kernel) 0#64 0#64).mpr
    separated_contiguousTable
  have hlookup := hagrees ⟨1#32, 0x40000000#64, 0x40000000#64, 1#32⟩
    (by rw [sratRanges_contiguousTable]; decide) 0x40000000#64 (by unfold Affinity.Contains; decide)
  exact hlookup

/-- The table is accepted, its three ranges are pairwise disjoint and name two domains; the first
address of the range of domain 1 lies in the hull of domain 0, and that is what the lookup finds. -/
theorem interleaved_range_found_in_other_domain :
    Accepted noPages interleavedTable identityVmm 0x1000#64 ∧
      sratRanges interleavedTable 0x1000#64 =
        [⟨0#32, 0#64, 0x40000000#64, 1#32⟩, ⟨1#32, 0x40000000#64, 0x40000000#64, 1#32⟩,
          ⟨0#32, 0x80000000#64, 0x40000000#64, 1#32⟩] ∧
      (sratRanges interleavedTable 0x1000#64).Pairwise (fun e e' =>
        e.rangeEnd ≤ e'.baseAddress.toNat ∨ e'.rangeEnd ≤ e.baseAddress.toNat) ∧
      numaPhysToNode (numaInit noPages interleavedTable identityVmm (some 0x1000#64) 0#64 0#64).2
        0x40000000#64 = some 0#32 := by
  have hranges : sratRanges interleavedTable 0x1000#64 =
      [⟨0#32, 0#64, 0x40000000#64, 1#32⟩, ⟨1#32, 0x40000000#64, 0x40000000#64, 1#32⟩,
        ⟨0#32, 0x80000000#64, 0x40000000#64, 1#32⟩] := by decide +kernel
  refine ⟨by constructor <;> decide +kernel, hranges, ?_, by decide +kernel⟩
  rw [hranges]
  decide

end GnuOS.Numa

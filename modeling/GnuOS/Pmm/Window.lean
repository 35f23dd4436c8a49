import GnuOS.Pmm.Ranges
import Mathlib.Data.Set.Card

/-!
# The managed window

`pmm_init` gets a region of memory and manages the whole pages in it, up to 65536 of them.  It
rounds the base up to a page in 64-bit arithmetic: in the last page of the address space this
gives 0, and the allocator then manages memory that is not in the region.
-/

namespace GnuOS.Pmm

open BitVec hiding not_or

/-- The whole pages, by number, in the region of `size` bytes from `base` on. -/
def wholePages (base size : ℕ) : Set ℕ := {k | base ≤ k * 4096 ∧ (k + 1) * 4096 ≤ base + size}

/-- What `pmm_init` is for.  A region whose end does not fit in 64 bits has no pages. -/
structure ManagesRegion (s : PmmState) (base memorySize : BitVec 64) : Prop where
  inside : ∀ i, i < s.totalPages → base.toNat ≤ s.base.toNat + i * 4096 ∧
    s.base.toNat + (i + 1) * 4096 ≤ base.toNat + memorySize.toNat
  total : s.totalPages = if 2 ^ 64 ≤ base.toNat + memorySize.toNat then 0
    else min 65536 (wholePages base.toNat memorySize.toNat).ncard
  free : ∀ i, i < s.totalPages → (pageStatus s i = .free ↔ i ≠ 0)

theorem wholePages_eq (base size : ℕ) :
    wholePages base size = Finset.Ico ((base + 4095) / 4096) ((base + size) / 4096) := by
  ext k
  rw [Finset.coe_Ico, Set.mem_Ico]
  show base ≤ k * 4096 ∧ (k + 1) * 4096 ≤ base + size ↔ _
  omega

theorem ncard_wholePages (base size : ℕ) :
    (wholePages base size).ncard = (base + size) / 4096 - (base + 4095) / 4096 := by
  rw [wholePages_eq, Set.ncard_coe_finset, Nat.card_Ico]

section
variable {base size : BitVec 64}

/-- The managed pages lie in the region, if rounding its base up does not wrap. -/
theorem page_in_region {base size : BitVec 64} (hround : base.toNat + 4095 < 2 ^ 64) {p : ℕ}
    (hp : p < initTotalPages base size) :
    base.toNat ≤ (pageAlignUp base).toNat + p * 4096 ∧
      (pageAlignUp base).toNat + p * 4096 + 4096 ≤ base.toNat + size.toNat := by
  have hup := toNat_pageAlignUp base
  have hadd := toNat_add base size
  rw [Nat.mod_eq_of_lt hround] at hup
  rw [initTotalPages_eq] at hp
  by_cases hbad : base + size < base ∨ pageAlignUp base ≥ base + size
  · rw [if_pos hbad, Nat.min_zero] at hp
    omega
  · rw [if_neg hbad] at hp
    rw [not_or, BitVec.not_lt, ge_iff_le, BitVec.not_le, le_def, lt_def] at hbad
    rw [toNat_sub_of_le (by rw [le_def]; omega), mmPageSize] at hp
    omega

/-- The number of managed pages, if rounding the base up does not wrap. -/
theorem initTotalPages_of_round (hround : base.toNat + 4095 < 2 ^ 64) :
    initTotalPages base size = if 2 ^ 64 ≤ base.toNat + size.toNat then 0
      else min 65536 (wholePages base.toNat size.toNat).ncard := by
  have hbase := base.isLt
  have hsize := size.isLt
  have hup := toNat_pageAlignUp base
  have hadd := toNat_add base size
  rw [Nat.mod_eq_of_lt hround] at hup
  rw [initTotalPages_eq, pmmMaxPages, ncard_wholePages]
  by_cases hwrap : 2 ^ 64 ≤ base.toNat + size.toNat
  · have hlt : base + size < base := by
      rw [lt_def]
      omega
    rw [if_pos hwrap, if_pos (.inl hlt), Nat.min_zero]
  · rw [if_neg hwrap]
    rw [Nat.mod_eq_of_lt (by omega)] at hadd
    by_cases hbad : base + size < base ∨ pageAlignUp base ≥ base + size
    · rw [if_pos hbad]
      rw [lt_def, ge_iff_le, le_def] at hbad
      omega
    · rw [if_neg hbad]
      rw [not_or, BitVec.not_lt, ge_iff_le, BitVec.not_le, le_def, lt_def] at hbad
      rw [toNat_sub_of_le (by rw [le_def]; omega), mmPageSize]
      omega

theorem initTotalPages_of_wrap (hwrap : 2 ^ 64 ≤ base.toNat + size.toNat) :
    initTotalPages base size = 0 := by
  have hbase := base.isLt
  have hsize := size.isLt
  have hlt : base + size < base := by
    rw [lt_def, toNat_add]
    omega
  rw [initTotalPages_eq, if_pos (.inl hlt), Nat.min_zero]

/-- Rounding the base up wraps: the allocator manages the first 256 MiB. -/
theorem window_of_last_page (hwrap : base.toNat + size.toNat < 2 ^ 64)
    (hlast : 2 ^ 64 ≤ base.toNat + 4095) :
    pageAlignUp base = 0#64 ∧ initTotalPages base size = 65536 := by
  have hbase := base.isLt
  have hadd : (base + size).toNat = base.toNat + size.toNat := by
    rw [toNat_add, Nat.mod_eq_of_lt hwrap]
  have hup : pageAlignUp base = 0#64 := by
    apply eq_of_toNat_eq
    rw [toNat_pageAlignUp, toNat_ofNat]
    omega
  refine ⟨hup, ?_⟩
  have hgood : ¬ (base + size < base ∨ pageAlignUp base ≥ base + size) := by
    rw [hup, not_or, BitVec.not_lt, ge_iff_le, BitVec.not_le, le_def, lt_def, hadd,
      toNat_ofNat]
    omega
  rw [initTotalPages_eq, if_neg hgood, hup, BitVec.sub_zero, hadd, pmmMaxPages, mmPageSize]
  omega

/-- `pmm_init` manages the pages of its region, unless the region lies in the last page of the
address space. -/
theorem pmm_init_manages_region_iff (base memorySize : BitVec 64) :
    ManagesRegion (pmmInit base memorySize) base memorySize ↔
      base.toNat + 4095 < 2 ^ 64 ∨ 2 ^ 64 ≤ base.toNat + memorySize.toNat := by
  obtain ⟨_, hbase, htotal, hstatus⟩ := pmmInit_spec base memorySize
  have hfree : ∀ i, i < (pmmInit base memorySize).totalPages →
      (pageStatus (pmmInit base memorySize) i = .free ↔ i ≠ 0) := by
    intro i hi
    rw [htotal] at hi
    rw [hstatus i hi]
    by_cases hzero : i = 0
    · simp [hzero]
    · simp [hzero]
  constructor
  · intro h
    by_contra hlast
    rw [not_or, Nat.not_lt, Nat.not_le] at hlast
    obtain ⟨hup, hmax⟩ := window_of_last_page hlast.2 hlast.1
    have hinside := (h.inside 0 (by rw [htotal, hmax]; decide)).1
    rw [hbase, hup, toNat_ofNat] at hinside
    omega
  · intro hok
    by_cases hwrap : 2 ^ 64 ≤ base.toNat + memorySize.toNat
    · have hnone : (pmmInit base memorySize).totalPages = 0 := by
        rw [htotal, initTotalPages_of_wrap hwrap]
      refine ⟨?_, by rw [hnone, if_pos hwrap], hfree⟩
      intro i hi
      omega
    · have hround : base.toNat + 4095 < 2 ^ 64 := by omega
      refine ⟨?_, by rw [htotal, initTotalPages_of_round hround], hfree⟩
      intro i hi
      rw [htotal] at hi
      have hpage := page_in_region hround hi
      rw [hbase]
      omega

/-- One byte in the last page: `pmm_init` hands the first 65536 pages to the allocator. -/
theorem pmm_init_last_page :
    (pmmInit 0xFFFFFFFFFFFFF001#64 1#64).base = 0#64 ∧
      (pmmInit 0xFFFFFFFFFFFFF001#64 1#64).totalPages = 65536 ∧
      ¬ ManagesRegion (pmmInit 0xFFFFFFFFFFFFF001#64 1#64) 0xFFFFFFFFFFFFF001#64 1#64 := by
  obtain ⟨_, hbase, htotal, _⟩ := pmmInit_spec 0xFFFFFFFFFFFFF001#64 1#64
  have hup : pageAlignUp 0xFFFFFFFFFFFFF001#64 = 0#64 := by decide
  have hmax : initTotalPages 0xFFFFFFFFFFFFF001#64 1#64 = 65536 := by decide
  rw [hup] at hbase
  rw [hmax] at htotal
  refine ⟨hbase, htotal, ?_⟩
  intro h
  have hinside := (h.inside 0 (by rw [htotal]; decide)).1
  rw [hbase] at hinside
  exact absurd hinside (by decide)

end

end GnuOS.Pmm

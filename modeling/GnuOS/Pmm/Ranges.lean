import GnuOS.Pmm.Refinement

/-!
# The pages of a reserved range

`pmm_reserve_range` rounds a range outwards to pages, clips it to the managed window and walks over
the page numbers.  None of this loses a page: the free pages that are reserved are exactly the
pages with an address of the range in them.
-/

namespace GnuOS.Pmm

open GnuOS.Lib BitVec

/-- The page at `page` has one of the `len` addresses from `start` on in it. -/
def Touches (page : BitVec 64) (start len : ℕ) : Prop :=
  ∃ a, start ≤ a ∧ a < start + len ∧ page.toNat ≤ a ∧ a < page.toNat + 4096

theorem touches_iff {page : BitVec 64} {start len : ℕ} :
    Touches page start len ↔
      0 < len ∧ start < page.toNat + 4096 ∧ page.toNat < start + len := by
  constructor
  · rintro ⟨a, h₁, h₂, h₃, h₄⟩
    omega
  · rintro ⟨h₁, h₂, h₃⟩
    exact ⟨max start page.toNat, by omega, by omega, by omega, by omega⟩

instance (page : BitVec 64) (start len : ℕ) : Decidable (Touches page start len) :=
  decidable_of_iff _ touches_iff.symm

/-! ## Rounding -/

theorem toNat_pageAlignDown (x : BitVec 64) : (pageAlignDown x).toNat = x.toNat / 4096 * 4096 :=
  toNat_and_not_mask x 12

theorem toNat_pageAlignUp (x : BitVec 64) :
    (pageAlignUp x).toNat = (x.toNat + 4095) % 2 ^ 64 / 4096 * 4096 :=
  toNat_round_up x (n := 12) (by decide)

/-- `end` in `pmm_reserve_range`: clamped where the sum wraps. -/
def rangeEnd (base size : BitVec 64) : BitVec 64 :=
  if base + size < base then allOnes 64 else base + size

/-- `aligned_end`, before it is clipped to the window. -/
def roundedEnd (base size : BitVec 64) : BitVec 64 :=
  if rangeEnd base size > allOnes 64 - 4095#64 then pageAlignDown (allOnes 64)
  else pageAlignUp (rangeEnd base size)

section
variable {s : PmmState} {base size : BitVec 64} {p P : ℕ}

theorem toNat_rangeEnd (base size : BitVec 64) :
    (rangeEnd base size).toNat = min (base.toNat + size.toNat) (2 ^ 64 - 1) := by
  have hbase := base.isLt
  have hsize := size.isLt
  have hadd : (base + size).toNat = (base.toNat + size.toNat) % 2 ^ 64 := toNat_add base size
  rw [rangeEnd]
  by_cases hwrap : base + size < base
  · rw [if_pos hwrap, toNat_allOnes]
    rw [lt_def, hadd] at hwrap
    omega
  · rw [if_neg hwrap, hadd]
    rw [lt_def, hadd] at hwrap
    omega

/-- Below the last page of the address space the rounded end bounds the same pages as the end. -/
theorem lt_roundedEnd_iff (base size : BitVec 64) (hal : P % 4096 = 0) (hP : P + 4096 < 2 ^ 64) :
    P < (roundedEnd base size).toNat ↔ P < base.toNat + size.toNat := by
  have hend := toNat_rangeEnd base size
  have hbound : (allOnes 64 - 4095#64).toNat = 2 ^ 64 - 4096 := by decide
  rw [roundedEnd]
  by_cases hlast : rangeEnd base size > allOnes 64 - 4095#64
  · rw [if_pos hlast, toNat_pageAlignDown, toNat_allOnes]
    rw [gt_iff_lt, lt_def, hbound] at hlast
    omega
  · rw [if_neg hlast, toNat_pageAlignUp]
    rw [gt_iff_lt, lt_def, hbound] at hlast
    rw [Nat.mod_eq_of_lt (by omega)]
    omega

theorem roundedEnd_aligned (base size : BitVec 64) : (roundedEnd base size).toNat % 4096 = 0 := by
  rw [roundedEnd]
  by_cases hlast : rangeEnd base size > allOnes 64 - 4095#64
  · rw [if_pos hlast, toNat_pageAlignDown, Nat.mul_mod_left]
  · rw [if_neg hlast, toNat_pageAlignUp, Nat.mul_mod_left]

/-! ## The reserved pages -/

theorem toNat_clipBelow (a b : BitVec 64) :
    (if a < b then b else a).toNat = max a.toNat b.toNat := by
  by_cases hlt : a < b
  · rw [if_pos hlt]
    rw [lt_def] at hlt
    omega
  · rw [if_neg hlt]
    rw [lt_def] at hlt
    omega

theorem toNat_clipAbove (a b : BitVec 64) :
    (if a > b then b else a).toNat = min a.toNat b.toNat := by
  by_cases hlt : a > b
  · rw [if_pos hlt]
    rw [gt_iff_lt, lt_def] at hlt
    omega
  · rw [if_neg hlt]
    rw [gt_iff_lt, lt_def] at hlt
    omega

theorem toNat_windowEnd (hw : s.base.toNat + s.totalPages * 4096 < 2 ^ 64) :
    (s.base + BitVec.ofNat 64 (s.totalPages * mmPageSize)).toNat =
      s.base.toNat + s.totalPages * 4096 := by
  rw [toNat_add, toNat_ofNat, mmPageSize]
  omega

/-- The loop of `pmm_reserve_range` passes exactly the pages with an address of the range. -/
theorem reserveBounds_iff (base size : BitVec 64) (hal : s.base.toNat % 4096 = 0)
    (hw : s.base.toNat + s.totalPages * 4096 < 2 ^ 64) (hp : p < s.totalPages) :
    (∃ bounds, reserveBounds s base size = some bounds ∧ bounds.1 ≤ p ∧ p < bounds.2) ↔
      Touches (pageAddr s p) base.toNat size.toNat := by
  have hround := lt_roundedEnd_iff base size (P := s.base.toNat + p * 4096) (by omega) (by omega)
  have haligned := roundedEnd_aligned base size
  have hstart := toNat_pageAlignDown base
  have hend := toNat_windowEnd hw
  rw [touches_iff, pageAddr_toNat hw hp, ← hround]
  by_cases hnone : size = 0 ∨ s.totalPages = 0
  · -- an empty range
    have hzero : size.toNat = 0 := by
      rcases hnone with rfl | hzero
      · rfl
      · omega
    rw [reserveBounds, if_pos hnone]
    simp [hzero]
  have hpos : 0 < size.toNat := by
    rw [Nat.pos_iff_ne_zero]
    exact fun hzero => hnone (.inl (eq_of_toNat_eq hzero))
  rw [reserveBounds, if_neg hnone]
  show (∃ bounds, (if roundedEnd base size ≤ s.base then none else _) = some bounds ∧ _) ↔ _
  by_cases hbelow : roundedEnd base size ≤ s.base
  · rw [if_pos hbelow]
    rw [le_def] at hbelow
    simp only [reduceCtorEq, false_and, exists_false, false_iff]
    omega
  rw [if_neg hbelow]
  simp only
  rw [le_def] at hbelow
  have hclip := toNat_clipBelow (pageAlignDown base) s.base
  have hclip' := toNat_clipAbove (roundedEnd base size)
    (s.base + BitVec.ofNat 64 (s.totalPages * mmPageSize))
  rw [hstart] at hclip
  rw [hend] at hclip'
  generalize (if pageAlignDown base < s.base then s.base else pageAlignDown base) = first at hclip ⊢
  by_cases habove : first ≥ s.base + BitVec.ofNat 64 (s.totalPages * mmPageSize)
  · rw [if_pos habove]
    rw [ge_iff_le, le_def, hend] at habove
    simp only [reduceCtorEq, false_and, exists_false, false_iff]
    omega
  rw [if_neg habove]
  rw [ge_iff_le, le_def, hend] at habove
  change (∃ bounds, some (_, ((if roundedEnd base size > _ then _ else roundedEnd base size) -
    s.base).toNat / mmPageSize) = some bounds ∧ _) ↔ _
  generalize (if roundedEnd base size > s.base + BitVec.ofNat 64 (s.totalPages * mmPageSize) then _
    else roundedEnd base size) = last at hclip' ⊢
  simp only [Option.some.injEq, exists_eq_left']
  rw [toNat_sub_of_le (by rw [le_def]; omega),
    toNat_sub_of_le (by rw [le_def]; omega), mmPageSize]
  omega

/-- **`pmm_reserve_range`** reserves the free pages with an address of the range in them, and no
other page changes. -/
theorem pmmReserveRange_status (hG : Good s) (hal : s.base.toNat % 4096 = 0) (base size : BitVec 64)
    (hp : p < s.totalPages) :
    pageStatus (pmmReserveRange s base size) p =
      if Touches (pageAddr s p) base.toNat size.toNat ∧ pageStatus s p = .free then .reserved
      else pageStatus s p := by
  have hiff := reserveBounds_iff base size hal hG.window hp
  rw [pmmReserveRange]
  cases hb : reserveBounds s base size with
  | none =>
    have hnot : ¬ Touches (pageAddr s p) base.toNat size.toNat := by
      rw [← hiff, hb]
      rintro ⟨_, hnone, _⟩
      exact absurd hnone (by simp)
    rw [if_neg fun h => hnot h.1]
  | some bounds =>
    obtain ⟨_, _, _, hst⟩ := reserveRangeLoop_spec (bounds.2 - bounds.1) s bounds.1 hG.inv
    show pageStatus (reserveRangeLoop (bounds.2 - bounds.1) s bounds.1) p = _
    rw [hst p hp]
    apply if_congr _ rfl rfl
    rw [← hiff, hb]
    simp only [Option.some.injEq, exists_eq_left']
    constructor
    · rintro ⟨h₁, h₂, h₃⟩
      exact ⟨by omega, h₃⟩
    · rintro ⟨h₁, h₃⟩
      exact ⟨by omega, by omega, h₃⟩

/-! ## What a reservation takes -/

/-- The pages that a call has reserved. -/
def newlyReserved (s s' : PmmState) : Finset ℕ :=
  (Finset.range s.totalPages).filter fun p =>
    pageStatus s p ≠ .reserved ∧ pageStatus s' p = .reserved

/-- From `s` to `s'` exactly the free pages with an address of the range were reserved.  A range
whose end does not fit in 64 bits goes up to the end of the address space. -/
structure ReservesRange (s s' : PmmState) (base size : BitVec 64) : Prop where
  window : s'.base = s.base ∧ s'.totalPages = s.totalPages
  reserved : ∀ p, p < s.totalPages → Touches (pageAddr s p) base.toNat size.toNat →
    pageStatus s p = .free → pageStatus s' p = .reserved
  taken : ∀ p, p < s.totalPages → pageStatus s p = .allocated ∨ pageStatus s p = .reserved →
    pageStatus s' p = pageStatus s p
  outside : ∀ p, p < s.totalPages → ¬ Touches (pageAddr s p) base.toNat size.toNat →
    pageStatus s' p = pageStatus s p
  count : pmmFreePages s' + (newlyReserved s s').card = pmmFreePages s

/-- Every free page is free afterwards or newly reserved. -/
theorem freePages_add_newlyReserved (hG : Good s) (base size : BitVec 64) :
    pmmFreePages (pmmReserveRange s base size) +
      (newlyReserved s (pmmReserveRange s base size)).card = pmmFreePages s := by
  obtain ⟨R, hR, hI', _, htotal, hst⟩ := pmmReserveRange_spec hG.inv base size
  rw [freePages_eq_card hG.inv, freePages_eq_card hI']
  show (pagesWith _ .free).card + _ = (pagesWith s .free).card
  rw [← Finset.card_union_of_disjoint]
  · congr 1
    ext p
    rw [Finset.mem_union, mem_pagesWith, mem_pagesWith, newlyReserved, Finset.mem_filter,
      Finset.mem_range, htotal]
    by_cases hp : p < s.totalPages
    · rcases hst p hp with ⟨hr, h⟩ | ⟨_, h⟩
      · simp [hp, h, hR p hr]
      · simp [hp, h]
    · simp [hp]
  · rw [Finset.disjoint_left]
    intro p hp hnew
    rw [mem_pagesWith] at hp
    rw [newlyReserved, Finset.mem_filter, hp.2] at hnew
    exact absurd hnew.2.2 (by decide)

theorem reservesRange_pmmReserveRange (hG : Good s) (hal : s.base.toNat % 4096 = 0)
    (base size : BitVec 64) : ReservesRange s (pmmReserveRange s base size) base size where
  window := (good_exec hG (.reserveRange base size)).2
  reserved := by
    intro p hp htouch hfree
    rw [pmmReserveRange_status hG hal base size hp, if_pos ⟨htouch, hfree⟩]
  taken := by
    intro p hp hst
    rw [pmmReserveRange_status hG hal base size hp]
    apply if_neg
    rintro ⟨_, hfree⟩
    rw [hfree] at hst
    exact absurd hst (by decide)
  outside := by
    intro p hp hnot
    rw [pmmReserveRange_status hG hal base size hp, if_neg fun h => hnot h.1]
  count := freePages_add_newlyReserved hG base size

/-- Every state that a run reaches has an aligned window. -/
theorem runOps_base_aligned (base memorySize : BitVec 64) (ops : List PmmOp) :
    (runOps (pmmInit base memorySize) ops).base.toNat % 4096 = 0 := by
  obtain ⟨_, hbase, _, _⟩ := pmmInit_spec base memorySize
  rw [(good_runOps (good_pmmInit base memorySize) ops).2.1, hbase, toNat_pageAlignUp,
    Nat.mul_mod_left]

/-- **`pmm_reserve_range`** is exact in every state that a run reaches. -/
theorem reserve_range_exact (initBase memorySize : BitVec 64) (ops : List PmmOp)
    (base size : BitVec 64) :
    ReservesRange (runOps (pmmInit initBase memorySize) ops)
      (pmmReserveRange (runOps (pmmInit initBase memorySize) ops) base size) base size :=
  reservesRange_pmmReserveRange (good_runOps (good_pmmInit initBase memorySize) ops).1
    (runOps_base_aligned initBase memorySize ops) base size

end

end GnuOS.Pmm

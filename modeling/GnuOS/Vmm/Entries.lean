import GnuOS.Lib.Bits
import GnuOS.Vmm.Basic

/-!
# Page-table entries and addresses

What the bit operations of `vmm.c` compute: the fields of an entry put together from a frame and
flags, the four indices of an address, and the physical addresses that the 512 entries of a split
2 MiB page hold.
-/

namespace GnuOS.Vmm

open GnuOS.Lib BitVec

/-! ## Flags -/

/-- The three bits that `VMM_MAP_*` names. -/
def mapFlagsMask : BitVec 64 := vmmMapWritable ||| vmmMapUser ||| vmmMapNx

theorem and_writable_cases (e : BitVec 64) :
    e &&& vmmPageWritable = 0#64 ∨ e &&& vmmPageWritable = vmmPageWritable :=
  and_twoPow_cases e 1

theorem and_user_cases (e : BitVec 64) :
    e &&& vmmPageUser = 0#64 ∨ e &&& vmmPageUser = vmmPageUser :=
  and_twoPow_cases e 2

theorem and_nx_cases (e : BitVec 64) :
    e &&& vmmMapNx = 0#64 ∨ e &&& vmmMapNx = vmmMapNx :=
  and_twoPow_cases e 63

theorem and_mapFlagsMask (e : BitVec 64) :
    e &&& mapFlagsMask =
      (e &&& vmmPageWritable) ||| (e &&& vmmPageUser) ||| (e &&& vmmMapNx) := by
  rw [← and_or_distrib_left, ← and_or_distrib_left]
  rfl

/-- The map flags of an entry are its bits 1, 2 and 63. -/
theorem vmmEntryToMapFlags_eq (e : BitVec 64) : vmmEntryToMapFlags e = e &&& mapFlagsMask := by
  rw [and_mapFlagsMask]
  rcases and_writable_cases e with hw | hw <;> rcases and_user_cases e with hu | hu <;>
    rcases and_nx_cases e with hx | hx <;>
    simp only [vmmEntryToMapFlags, hw, hu, hx] <;> decide

/-- The flags of a page-table entry are `PRESENT` and the bits 1, 2 and 63 it is made from. -/
theorem leafFlags_eq (e : BitVec 64) : leafFlags e = vmmPagePresent ||| (e &&& mapFlagsMask) := by
  rw [and_mapFlagsMask]
  rcases and_writable_cases e with hw | hw <;> rcases and_user_cases e with hu | hu <;>
    rcases and_nx_cases e with hx | hx <;>
    simp only [leafFlags, hw, hu, hx] <;> decide

theorem leafFlags_and_physMask (e : BitVec 64) : leafFlags e &&& vmmPhysMask = 0#64 := by
  have hmask : mapFlagsMask &&& vmmPhysMask = 0#64 := by decide
  rw [leafFlags_eq, and_or_distrib_right, BitVec.and_assoc, hmask]
  simp only [and_zero]
  decide

/-! ## Entries -/

section Entries

variable (f e : BitVec 64)

theorem leaf_present :
    ((f &&& vmmPhysMask) ||| leafFlags e) &&& vmmPagePresent ≠ 0#64 := by
  have hmask : mapFlagsMask &&& vmmPagePresent = 0#64 := by decide
  rw [field_and_of_disjoint (by decide), leafFlags_eq, and_or_distrib_right,
    BitVec.and_assoc, hmask]
  simp only [and_zero]
  decide

theorem leaf_phys :
    ((f &&& vmmPhysMask) ||| leafFlags e) &&& vmmPhysMask = f &&& vmmPhysMask :=
  field_and_self (leafFlags_and_physMask e)

theorem leaf_mapFlags :
    vmmEntryToMapFlags ((f &&& vmmPhysMask) ||| leafFlags e) = e &&& mapFlagsMask := by
  have hmask : vmmPagePresent &&& mapFlagsMask = 0#64 := by decide
  rw [vmmEntryToMapFlags_eq, field_and_of_disjoint (by decide), leafFlags_eq,
    and_or_distrib_right, BitVec.and_assoc, BitVec.and_self, hmask, zero_or]

/-- The flags that `vmm_get_or_create_next_table` gives the entry of a new table. -/
def tableFlags : BitVec 64 := vmmPagePresent ||| vmmPageWritable

/-- The flags that `vmm_split_large_pd_entry` gives the directory entry of the new table. -/
def splitFlags (pde : BitVec 64) : BitVec 64 :=
  if pde &&& vmmPageUser ≠ 0#64 then tableFlags ||| vmmPageUser else tableFlags

/-- A set of flags that makes an entry refer to a table. -/
structure LinkFlags (g : BitVec 64) : Prop where
  phys : g &&& vmmPhysMask = 0#64
  present : g &&& vmmPagePresent ≠ 0#64
  small : g &&& vmmPageSize = 0#64
  writable : g &&& vmmPageWritable ≠ 0#64

theorem linkFlags_table : LinkFlags tableFlags := ⟨by decide, by decide, by decide, by decide⟩

theorem linkFlags_split (pde : BitVec 64) : LinkFlags (splitFlags pde) := by
  unfold splitFlags
  split
  · exact ⟨by decide, by decide, by decide, by decide⟩
  · exact linkFlags_table

variable {f}

theorem LinkFlags.entry_present {g : BitVec 64} (h : LinkFlags g) :
    ((f &&& vmmPhysMask) ||| g) &&& vmmPagePresent ≠ 0#64 := by
  rw [field_and_of_disjoint (by decide)]
  exact h.present

theorem LinkFlags.entry_small {g : BitVec 64} (h : LinkFlags g) :
    ((f &&& vmmPhysMask) ||| g) &&& vmmPageSize = 0#64 := by
  rw [field_and_of_disjoint (by decide)]
  exact h.small

theorem LinkFlags.entry_writable {g : BitVec 64} (h : LinkFlags g) :
    ((f &&& vmmPhysMask) ||| g) &&& vmmPageWritable ≠ 0#64 := by
  rw [field_and_of_disjoint (by decide)]
  exact h.writable

theorem LinkFlags.entry_table {g : BitVec 64} (h : LinkFlags g) :
    vmmEntryToTable ((f &&& vmmPhysMask) ||| g) = f &&& vmmPhysMask :=
  field_and_self h.phys

end Entries

/-! ## Physical addresses -/

/-- A page-aligned address below 2^52. -/
def IsFrame (p : BitVec 64) : Prop := p.toNat % 4096 = 0 ∧ p.toNat < 2 ^ 52

theorem and_offsetMask_eq_zero_iff (p : BitVec 64) :
    p &&& vmmPageOffsetMask = 0#64 ↔ p.toNat % 4096 = 0 := by
  have h : (p &&& vmmPageOffsetMask).toNat = p.toNat % 2 ^ 12 :=
    toNat_and_mask p (n := 12) (by decide)
  rw [← toNat_inj, h]
  simp

/-- A frame is its own physical-address field. -/
theorem IsFrame.and_physMask {p : BitVec 64} (h : IsFrame p) : p &&& vmmPhysMask = p := by
  have hlow : p &&& vmmPageOffsetMask = 0#64 := (and_offsetMask_eq_zero_iff p).mpr h.1
  have hall : p &&& BitVec.ofNat 64 (2 ^ 52 - 1) = p := by
    rw [← toNat_inj, toNat_and_mask p (by decide), Nat.mod_eq_of_lt h.2]
  have hmask : BitVec.ofNat 64 (2 ^ 52 - 1) = vmmPhysMask ||| vmmPageOffsetMask := by decide
  rw [hmask, and_or_distrib_left, hlow, or_zero] at hall
  exact hall

/-- The address that a page-table entry for the frame `p` reports: the frame plus the offset. -/
theorem frame_or_offset {p : BitVec 64} (h : IsFrame p) (x : BitVec 64) :
    p ||| (x &&& vmmPageOffsetMask) = p + (x &&& vmmPageOffsetMask) := by
  have hlow : p &&& vmmPageOffsetMask = 0#64 := (and_offsetMask_eq_zero_iff p).mpr h.1
  symm
  apply add_eq_or_of_and_eq_zero
  rw [BitVec.and_comm x, ← BitVec.and_assoc, hlow, zero_and]

/-! ## Indices -/

theorem tableIndex_eq_iff {shift : ℕ} (hs : shift + 9 ≤ 64) (x y : BitVec 64) :
    tableIndex shift x = tableIndex shift y ↔
      ∀ b, shift ≤ b → b < shift + 9 → x.getLsbD b = y.getLsbD b := by
  rw [← shift_and_mask_eq_iff hs, ← toNat_inj, Fin.ext_iff]
  rfl

/-- The four indices of an address, from the root down. -/
def pagePath (x : BitVec 64) : List (Fin 512) :=
  [vmmPml4Index x, vmmPdptIndex x, vmmPdIndex x, vmmPtIndex x]

/-- Two addresses agree in the bits 12 to 47, the ones the four indices are taken from. -/
def SamePage (x y : BitVec 64) : Prop :=
  ∀ b, 12 ≤ b → b < 48 → x.getLsbD b = y.getLsbD b

theorem SamePage.symm {x y : BitVec 64} (h : SamePage x y) : SamePage y x :=
  fun b hlo hhi => (h b hlo hhi).symm

theorem SamePage.trans {x y z : BitVec 64} (h : SamePage x y) (h' : SamePage y z) : SamePage x z :=
  fun b hlo hhi => (h b hlo hhi).trans (h' b hlo hhi)

theorem pagePath_eq_iff (x y : BitVec 64) : pagePath x = pagePath y ↔ SamePage x y := by
  simp only [pagePath, List.cons.injEq, and_true, vmmPml4Index, vmmPdptIndex, vmmPdIndex,
    vmmPtIndex, tableIndex_eq_iff (show 39 + 9 ≤ 64 by decide),
    tableIndex_eq_iff (show 30 + 9 ≤ 64 by decide), tableIndex_eq_iff (show 21 + 9 ≤ 64 by decide),
    tableIndex_eq_iff (show 12 + 9 ≤ 64 by decide)]
  constructor
  · intro h b hlo hhi
    -- the four fields cover the bits 12 to 47
    rcases h with ⟨h4, h3, h2, h1⟩
    by_cases hb1 : b < 21
    · exact h1 b hlo hb1
    by_cases hb2 : b < 30
    · exact h2 b (by omega) hb2
    by_cases hb3 : b < 39
    · exact h3 b (by omega) hb3
    · exact h4 b (by omega) hhi
  · intro h
    refine ⟨?_, ?_, ?_, ?_⟩ <;> intro b hlo hhi <;> exact h b (by omega) (by omega)

/-- The walks for two addresses of one page take the same entries. -/
theorem SamePage.indices {x y : BitVec 64} (h : SamePage x y) :
    vmmPml4Index x = vmmPml4Index y ∧ vmmPdptIndex x = vmmPdptIndex y ∧
      vmmPdIndex x = vmmPdIndex y ∧ vmmPtIndex x = vmmPtIndex y := by
  have hpath := (pagePath_eq_iff x y).mpr h
  simp only [pagePath, List.cons.injEq, and_true] at hpath
  exact hpath

/-! ## Splitting a 2 MiB entry -/

/-- The offset that entry `vmm_pt_index(x)` of a split page adds to the base. -/
theorem ptIndex_mul_pageSize (x : BitVec 64) :
    BitVec.ofNat 64 (vmmPtIndex x) * mmPageSize = x &&& 0x1FF000#64 := by
  have hidx : BitVec.ofNat 64 (vmmPtIndex x) = (x >>> 12) &&& vmmIndexMask := by
    apply eq_of_toNat_eq
    simp only [vmmPtIndex, tableIndex, toNat_ofNat]
    exact Nat.mod_eq_of_lt ((x >>> 12) &&& vmmIndexMask).isLt
  have hmul : ∀ y : BitVec 64, y * mmPageSize = y <<< 12 := by
    intro y
    rw [shiftLeft_eq_mul_twoPow]
    rfl
  rw [hidx, hmul, field_shift_back]
  congr 1

/-- A 2 MiB entry whose base is aligned is its base. -/
theorem huge_base_eq {pde : BitVec 64} (h : (pde &&& vmmPhysMask).toNat % 2 ^ 21 = 0) :
    pde &&& vmmHuge2mBaseMask = pde &&& vmmPhysMask := by
  have hlow : pde &&& vmmPhysMask &&& vmmHuge2mOffsetMask = 0#64 := by
    have hmod : (pde &&& vmmPhysMask &&& vmmHuge2mOffsetMask).toNat =
        (pde &&& vmmPhysMask).toNat % 2 ^ 21 := toNat_and_mask _ (n := 21) (by decide)
    rw [← toNat_inj, hmod, h]
    rfl
  have hsplit : vmmPhysMask = vmmHuge2mBaseMask ||| (vmmPhysMask &&& vmmHuge2mOffsetMask) := by
    decide
  calc pde &&& vmmHuge2mBaseMask
      = (pde &&& vmmHuge2mBaseMask) ||| (pde &&& vmmPhysMask &&& vmmHuge2mOffsetMask) := by
        rw [hlow, or_zero]
    _ = pde &&& (vmmHuge2mBaseMask ||| (vmmPhysMask &&& vmmHuge2mOffsetMask)) := by
        rw [and_or_distrib_left, BitVec.and_assoc]
    _ = pde &&& vmmPhysMask := by rw [← hsplit]

/-- After a split, the small entry of `x` reports the base in the bits 21 to 51 of the large one,
and the low 21 bits of `x`. -/
theorem split_phys (pde x : BitVec 64) :
    ((pde &&& vmmHuge2mBaseMask) + BitVec.ofNat 64 (vmmPtIndex x) * mmPageSize &&& vmmPhysMask) |||
        (x &&& vmmPageOffsetMask) =
      (pde &&& vmmHuge2mBaseMask) ||| (x &&& ((1#64 <<< 21) - 1#64)) := by
  have hdisj : pde &&& vmmHuge2mBaseMask &&& (x &&& 0x1FF000#64) = 0#64 := by
    have hmask : vmmHuge2mBaseMask &&& 0x1FF000#64 = 0#64 := by decide
    rw [BitVec.and_assoc, ← BitVec.and_assoc vmmHuge2mBaseMask, BitVec.and_comm vmmHuge2mBaseMask,
      and_assoc x, hmask, and_zero, and_zero]
  have hbase : vmmHuge2mBaseMask &&& vmmPhysMask = vmmHuge2mBaseMask := by decide
  have hoff : 0x1FF000#64 &&& vmmPhysMask = 0x1FF000#64 := by decide
  have hlow : 0x1FF000#64 ||| vmmPageOffsetMask = (1#64 <<< 21) - 1#64 := by decide
  rw [ptIndex_mul_pageSize, add_eq_or_of_and_eq_zero _ _ hdisj,
    and_or_distrib_right, BitVec.and_assoc, BitVec.and_assoc, hbase, hoff, BitVec.or_assoc,
    ← and_or_distrib_left, hlow]

end GnuOS.Vmm

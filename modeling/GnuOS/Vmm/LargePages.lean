import GnuOS.Vmm.HeapPages

/-!
# Splitting a 2 MiB page

`vmm_translate` and `vmm_query_mapping` take the address of a 2 MiB page from the bits 12 to 51 of
its entry, `vmm_split_large_pd_entry` from the bits 21 to 51.  The bits 12 to 20 are no part of the
address of such a page (bit 12 is the PAT bit), and no well-formed state has them set; here the
entry is arbitrary.
-/

namespace GnuOS.Vmm

open GnuOS.Lib BitVec

variable {σ : Type} {A : PageAllocator σ} {s s' : VmmState σ} {v pd : BitVec 64}

/-- The two addresses are in the same 2 MiB region. -/
def SameLargePage (v x : BitVec 64) : Prop :=
  vmmPml4Index x = vmmPml4Index v ∧ vmmPdptIndex x = vmmPdptIndex v ∧ vmmPdIndex x = vmmPdIndex v

/-- The bits of a 2 MiB entry that only the readers take for a part of the address. -/
def largePageGap : BitVec 64 := 0x1FF000#64

/-- The first address of the region. -/
def largePageStart (v : BitVec 64) : BitVec 64 := v &&& ~~~vmmHuge2mOffsetMask

theorem tableIndex_largePageStart {shift : ℕ} (hlo : 21 ≤ shift) (hhi : shift + 9 ≤ 64)
    (v : BitVec 64) : tableIndex shift (largePageStart v) = tableIndex shift v := by
  rw [tableIndex_eq_iff hhi]
  intro b hb hb'
  have hbit : (~~~vmmHuge2mOffsetMask).getLsbD b = true := by
    rw [show vmmHuge2mOffsetMask = BitVec.ofNat 64 (2 ^ 21 - 1) by decide, getLsbD_not,
      getLsbD_two_pow_sub_one, decide_eq_true (show b < 64 by omega),
      decide_eq_false (show ¬ b < 21 by omega)]
    rfl
  unfold largePageStart
  rw [getLsbD_and, hbit, Bool.and_true]

theorem sameLargePage_start (v : BitVec 64) : SameLargePage v (largePageStart v) :=
  ⟨tableIndex_largePageStart (by decide) (by decide) v,
    tableIndex_largePageStart (by decide) (by decide) v,
    tableIndex_largePageStart (by decide) (by decide) v⟩

/-- The two ways to take the address from an entry agree if the bits between them are clear. -/
theorem phys_eq_base_iff (e : BitVec 64) :
    e &&& vmmPhysMask = e &&& vmmHuge2mBaseMask ↔ e &&& largePageGap = 0#64 := by
  have hphys : vmmPhysMask = vmmHuge2mBaseMask ||| largePageGap := by decide
  have hgap : vmmPhysMask &&& largePageGap = largePageGap := by decide
  have hdisjoint : vmmHuge2mBaseMask &&& largePageGap = 0#64 := by decide
  constructor
  · intro heq
    calc e &&& largePageGap
        = (e &&& vmmPhysMask) &&& largePageGap := by rw [BitVec.and_assoc, hgap]
      _ = (e &&& vmmHuge2mBaseMask) &&& largePageGap := by rw [heq]
      _ = 0#64 := by rw [BitVec.and_assoc, hdisjoint, and_zero]
  · intro hzero
    rw [hphys, and_or_distrib_left, hzero, or_zero]

/-- The base of a 2 MiB page and an offset in it. -/
theorem base_or_offset (e x : BitVec 64) :
    (e &&& vmmHuge2mBaseMask) ||| (x &&& ((1#64 <<< 21) - 1#64)) =
      (e &&& vmmHuge2mBaseMask) + (x &&& vmmHuge2mOffsetMask) := by
  have hdisjoint : vmmHuge2mBaseMask &&& vmmHuge2mOffsetMask = 0#64 := by decide
  symm
  apply add_eq_or_of_and_eq_zero
  rw [BitVec.and_comm x, BitVec.and_assoc, ← BitVec.and_assoc vmmHuge2mBaseMask, hdisjoint,
    zero_and, and_zero]

/-- A split that succeeds has replaced the entry by a table of small ones. -/
theorem split_succeeds {i : Fin 512} (h : vmmSplitLargePdEntry A s pd i = (true, s')) :
    (A.allocPage s.pmm).1 ≠ 0#64 ∧
      s' = { s with
        mem := splitMem s (A.allocPage s.pmm).1 pd i, pmm := (A.allocPage s.pmm).2 } := by
  unfold vmmSplitLargePdEntry at h
  dsimp only at h
  split at h
  · cases h
  split at h
  · cases h
  · rename_i hgiven
    refine ⟨hgiven, ?_⟩
    rw [Prod.mk.injEq] at h
    exact h.2.symm

/-- For every state whose tables form a tree, every 2 MiB entry and every allocator that hands out
an unused frame: after a successful split, each address of the region is mapped to the base in the
bits 21 to 51 of the entry plus its low 21 bits, with the flags of the entry; and the answers are
those from before the split exactly if the bits 12 to 20 of the entry are clear. -/
theorem split_translation_iff (h0 : s.pml4 ≠ 0#64) (hun : Unshared childTable s.mem s.pml4)
    (hframe : IsFrame (A.allocPage s.pmm).1)
    (hfresh : ¬ IsTable childTable s.mem s.pml4 (A.allocPage s.pmm).1)
    (hpd : tableAt s [vmmPml4Index v, vmmPdptIndex v] = some pd)
    (hp : s.mem pd (vmmPdIndex v) &&& vmmPagePresent ≠ 0#64)
    (hs : s.mem pd (vmmPdIndex v) &&& vmmPageSize ≠ 0#64)
    (hsplit : vmmSplitLargePdEntry A s pd (vmmPdIndex v) = (true, s')) :
    (∀ x, SameLargePage v x →
      vmmQueryMapping s' x = some ((s.mem pd (vmmPdIndex v) &&& vmmHuge2mBaseMask) +
        (x &&& vmmHuge2mOffsetMask), vmmEntryToMapFlags (s.mem pd (vmmPdIndex v))) ∧
      vmmTranslate s' x = some ((s.mem pd (vmmPdIndex v) &&& vmmHuge2mBaseMask) +
        (x &&& vmmHuge2mOffsetMask))) ∧
    ((∀ x, SameLargePage v x →
      vmmQueryMapping s x = vmmQueryMapping s' x ∧ vmmTranslate s x = vmmTranslate s' x) ↔
        s.mem pd (vmmPdIndex v) &&& largePageGap = 0#64) := by
  obtain ⟨hgiven, rfl⟩ := split_succeeds hsplit
  -- the directory and the entry are the same for all addresses of the region
  have hafter : ∀ x, SameLargePage v x → vmmQueryMapping { s with
        mem := splitMem s (A.allocPage s.pmm).1 pd (vmmPdIndex v),
        pmm := (A.allocPage s.pmm).2 } x =
      some ((s.mem pd (vmmPdIndex v) &&& vmmHuge2mBaseMask) + (x &&& vmmHuge2mOffsetMask),
        vmmEntryToMapFlags (s.mem pd (vmmPdIndex v))) := by
    intro x hx
    obtain ⟨h4, h3, h2⟩ := hx
    rw [← h4, ← h3] at hpd
    rw [← h2] at hs ⊢
    rw [query_after_split hun hframe hfresh h0 hpd hs hgiven, base_or_offset]
  have hbefore : ∀ x, SameLargePage v x → vmmQueryMapping s x =
      some ((s.mem pd (vmmPdIndex v) &&& vmmPhysMask) ||| (x &&& ((1#64 <<< 21) - 1#64)),
        vmmEntryToMapFlags (s.mem pd (vmmPdIndex v))) := by
    intro x hx
    obtain ⟨h4, h3, h2⟩ := hx
    rw [← h4, ← h3] at hpd
    rw [← h2] at hp hs ⊢
    rw [query_pd h0 hpd, if_neg hp, if_pos hs]
  refine ⟨?_, ?_, ?_⟩
  · intro x hx
    refine ⟨hafter x hx, ?_⟩
    rw [vmmTranslate_eq, hafter x hx, Option.map_some]
  · intro hsame
    have hstart := (hsame _ (sameLargePage_start v)).1
    rw [hbefore _ (sameLargePage_start v), hafter _ (sameLargePage_start v), Option.some.injEq,
      Prod.mk.injEq] at hstart
    have hlow : largePageStart v &&& vmmHuge2mOffsetMask = 0#64 := by
      unfold largePageStart
      rw [BitVec.and_assoc]
      exact and_zero
    have hlow' : largePageStart v &&& ((1#64 <<< 21) - 1#64) = 0#64 := hlow
    rw [hlow, hlow', or_zero, BitVec.add_zero] at hstart
    exact (phys_eq_base_iff _).mp hstart.1
  · intro hgap x hx
    have hsame : vmmQueryMapping s x = vmmQueryMapping { s with
        mem := splitMem s (A.allocPage s.pmm).1 pd (vmmPdIndex v),
        pmm := (A.allocPage s.pmm).2 } x := by
      rw [hbefore x hx, hafter x hx, (phys_eq_base_iff _).mpr hgap, base_or_offset]
    refine ⟨hsame, ?_⟩
    rw [vmmTranslate_eq, vmmTranslate_eq, hsame]

/-- An address of the page at 4 MiB of the boot tables. -/
theorem split_translation_boot :
    SameLargePage 0x400000#64 0x412345#64 ∧
    vmmQueryMapping (bootState smallMachine 0x200000#64) 0x412345#64 =
      vmmQueryMapping (vmmSplitLargePdEntry pmmAllocator (bootState smallMachine 0x200000#64)
        0x202000#64 (vmmPdIndex 0x400000#64)).2 0x412345#64 ∧
    vmmTranslate (bootState smallMachine 0x200000#64) 0x412345#64 =
      vmmTranslate (vmmSplitLargePdEntry pmmAllocator (bootState smallMachine 0x200000#64)
        0x202000#64 (vmmPdIndex 0x400000#64)).2 0x412345#64 := by
  have hwf := bootState_wellFormed smallMachine_base smallMachine_supplies
  have h0 : (bootState smallMachine 0x200000#64).pml4 ≠ 0#64 := by decide +kernel
  have hgiven : (pmmAllocator.allocPage (bootState smallMachine 0x200000#64).pmm).1 ≠ 0#64 := by
    decide +kernel
  have hpd : tableAt (bootState smallMachine 0x200000#64)
      [vmmPml4Index 0x400000#64, vmmPdptIndex 0x400000#64] = some 0x202000#64 := by
    decide +kernel
  have hentry : (bootState smallMachine 0x200000#64).mem 0x202000#64 (vmmPdIndex 0x400000#64) =
      0x400083#64 := by
    decide +kernel
  have hok : (vmmSplitLargePdEntry pmmAllocator (bootState smallMachine 0x200000#64) 0x202000#64
      (vmmPdIndex 0x400000#64)).1 = true := by
    decide +kernel
  have hsame : SameLargePage 0x400000#64 0x412345#64 := ⟨by decide, by decide, by decide⟩
  generalize bootState smallMachine 0x200000#64 = s at *
  obtain ⟨hframe, hfresh⟩ := hwf.supply.first hgiven
  exact ⟨hsame, (split_translation_iff h0 hwf.unshared hframe hfresh hpd
    (by rw [hentry]; decide) (by rw [hentry]; decide) (Prod.ext hok rfl)).2.mpr
      (by rw [hentry]; decide) _ hsame⟩

/-- The boot tables with the PAT bit in the entry of the page at 4 MiB. -/
def patState : VmmState Pmm.PmmState :=
  { bootState smallMachine 0x200000#64 with
    mem := write (bootState smallMachine 0x200000#64).mem 0x202000#64 (vmmPdIndex 0x400000#64)
      0x401083#64 }

/-- Before the split, the page is translated to an address 4 KiB too high. -/
theorem split_translation_pat :
    patState.mem 0x202000#64 2 = 0x401083#64 ∧
    vmmTranslate patState 0x400000#64 = some 0x401000#64 ∧
    (vmmSplitLargePdEntry pmmAllocator patState 0x202000#64 2).1 = true ∧
    vmmTranslate (vmmSplitLargePdEntry pmmAllocator patState 0x202000#64 2).2 0x400000#64 =
      some 0x400000#64 := by
  decide +kernel

end GnuOS.Vmm

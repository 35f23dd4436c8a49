import GnuOS.Numa.Basic
import GnuOS.Vmm.HeapPages
import GnuOS.Vmm.Permissions
import GnuOS.Vmm.Uaccess

/-!
# Identity mappings of firmware tables

The firmware reports its tables by physical address, and the kernel reads them at the same virtual
address.  `acpi_map_identity_range` and `map_identity_range` prepare the pages: a page that is
mapped already is left alone, any other page is mapped to the frame of the same address.

What a page that is left alone is mapped to is not looked at.  The table walk reads the bits 12 to
47 of an address only, so that two pages can share one translation, and an entry holds the bits 12
to 51 of a frame.  `identity_range_iff` says when the range is mapped to itself in spite of that.
-/

namespace GnuOS.Acpi

open GnuOS.Lib GnuOS.Vmm BitVec
open GnuOS.Numa (mapIdentityLoop mapIdentityRange)

variable {σ : Type} {A : PageAllocator σ} {s s' : VmmState σ} {x y p : BitVec 64}

/-- The body is that of `map_identity_range`. -/
def acpiMapIdentityRange (A : PageAllocator σ) (s : VmmState σ) (base length : BitVec 64) :
    Bool × VmmState σ :=
  mapIdentityRange A s base length

/-! ## Translation inside a page -/

/-- The walk for `x` ends at an entry of one of the three lower tables, and the walk for every
address with the same bits 12 to 47 ends there too. -/
theorem exists_entry_of_translate (h : vmmTranslate s x = some p) :
    ∃ e m : BitVec 64, m.toNat < 2 ^ 48 ∧ m &&& vmmPageOffsetMask = vmmPageOffsetMask ∧
      ∀ y, SamePage x y → vmmTranslate s y = some ((e &&& vmmPhysMask) ||| (y &&& m)) := by
  unfold vmmTranslate at h ⊢
  simp only at h ⊢
  split at h
  · cases h
  split at h
  · cases h
  split at h
  · cases h
  split at h
  · rename_i h0 h4 h3 hlarge
    refine ⟨s.mem (vmmEntryToTable (s.mem s.pml4 (vmmPml4Index x))) (vmmPdptIndex x),
      (1#64 <<< 30) - 1#64, by decide, by decide, ?_⟩
    intro y hy
    obtain ⟨e4, e3, e2, e1⟩ := hy.symm.indices
    rw [e4, e3, if_neg h0, if_neg h4, if_neg h3, if_pos hlarge]
  split at h
  · cases h
  split at h
  · rename_i h0 h4 h3 hsmall h2 hlarge
    refine ⟨s.mem (vmmEntryToTable (s.mem (vmmEntryToTable (s.mem s.pml4 (vmmPml4Index x)))
      (vmmPdptIndex x))) (vmmPdIndex x), (1#64 <<< 21) - 1#64, by decide, by decide, ?_⟩
    intro y hy
    obtain ⟨e4, e3, e2, e1⟩ := hy.symm.indices
    rw [e4, e3, e2, if_neg h0, if_neg h4, if_neg h3, if_neg hsmall, if_neg h2, if_pos hlarge]
  split at h
  · cases h
  · rename_i h0 h4 h3 hsmall h2 hsmall' h1
    refine ⟨s.mem (vmmEntryToTable (s.mem (vmmEntryToTable (s.mem (vmmEntryToTable
      (s.mem s.pml4 (vmmPml4Index x))) (vmmPdptIndex x))) (vmmPdIndex x))) (vmmPtIndex x),
      vmmPageOffsetMask, by decide, by decide, ?_⟩
    intro y hy
    obtain ⟨e4, e3, e2, e1⟩ := hy.symm.indices
    rw [e4, e3, e2, e1, if_neg h0, if_neg h4, if_neg h3, if_neg hsmall, if_neg h2, if_neg hsmall',
      if_neg h1]

theorem frame_toNat_lt (e y : BitVec 64) {m : BitVec 64} (hm : m.toNat < 2 ^ 48) :
    ((e &&& vmmPhysMask) ||| (y &&& m)).toNat < 2 ^ 52 := by
  rw [toNat_or, toNat_and, toNat_and]
  apply Nat.or_lt_two_pow
  · exact Nat.lt_of_le_of_lt Nat.and_le_right (by decide)
  · exact Nat.lt_of_le_of_lt Nat.and_le_right (by omega)

theorem frame_offset (e y : BitVec 64) {m : BitVec 64}
    (hm : m &&& vmmPageOffsetMask = vmmPageOffsetMask) :
    ((e &&& vmmPhysMask) ||| (y &&& m)).toNat % 4096 = y.toNat % 4096 := by
  have hmod : ∀ z : BitVec 64, z.toNat % 4096 = (z &&& vmmPageOffsetMask).toNat :=
    fun z => (toNat_and_mask z (n := 12) (by decide)).symm
  rw [hmod, hmod, field_and_of_disjoint (by decide), BitVec.and_assoc, hm]

theorem frame_page (e : BitVec 64) {m : BitVec 64} (hm : m.toNat < 2 ^ 48) (h : SamePage x y) :
    ((e &&& vmmPhysMask) ||| (y &&& m)).toNat / 4096 =
      ((e &&& vmmPhysMask) ||| (x &&& m)).toNat / 4096 := by
  have hshift : ∀ z : BitVec 64, z.toNat / 4096 = (z >>> 12).toNat := by
    intro z
    rw [toNat_ushiftRight, Nat.shiftRight_eq_div_pow]
  rw [hshift, hshift]
  congr 1
  apply eq_of_getLsbD_eq
  intro b _
  simp only [getLsbD_ushiftRight, getLsbD_or, getLsbD_and]
  by_cases hb : 12 + b < 48
  · rw [h (12 + b) (by omega) hb]
  · have hzero : m.getLsbD (12 + b) = false := by
      rw [← testBit_toNat]
      apply Nat.testBit_lt_two_pow
      exact Nat.lt_of_lt_of_le hm (Nat.pow_le_pow_right (by decide) (by omega))
    rw [hzero, Bool.and_false, Bool.and_false]

/-- A translation keeps the offset in the page, and the addresses of one page go to one frame. -/
theorem translate_in_page (h : vmmTranslate s x = some p) :
    p.toNat < 2 ^ 52 ∧ p.toNat % 4096 = x.toNat % 4096 ∧
      ∀ y, SamePage x y → ∃ q, vmmTranslate s y = some q ∧ q.toNat / 4096 = p.toNat / 4096 := by
  obtain ⟨e, m, hlt, hoffset, htranslate⟩ := exists_entry_of_translate h
  have hp : p = (e &&& vmmPhysMask) ||| (x &&& m) :=
    Option.some.inj (h.symm.trans (htranslate x (fun _ _ _ => rfl)))
  subst hp
  refine ⟨frame_toNat_lt e x hlt, frame_offset e x hoffset, ?_⟩
  intro y hy
  exact ⟨_, htranslate y hy, frame_page e hlt hy⟩

theorem query_none_congr (h : SamePage x y) (hx : vmmQueryMapping s x = none) :
    vmmQueryMapping s y = none := by
  have hflags := query_flags_congr (s := s) h
  rw [hx] at hflags
  exact Option.map_eq_none_iff.mp hflags.symm

/-! ## The loop -/

/-- What the loop does to the `n` pages from `first` on: a mapping that exists stays, and an address
without one gets the identity mapping of the first page that it shares the indices with. -/
structure IdentityRun (A : PageAllocator σ) (s s' : VmmState σ) (first : BitVec 64) (n : ℕ) :
    Prop where
  wellFormed : WellFormed A s'
  kept : ∀ x m, vmmQueryMapping s x = some m → vmmQueryMapping s' x = some m
  mapped : ∀ x k, k < n → SamePage x (heapPage first k) → vmmQueryMapping s x = none →
    (∀ j, j < k → ¬ SamePage x (heapPage first j)) →
    vmmQueryMapping s' x = leafMapping (mapEntry (heapPage first k) vmmMapWritable) x

namespace IdentityRun

variable {s₁ : VmmState σ} {first : BitVec 64} {n : ℕ}

theorem nil (hwf : WellFormed A s) (first : BitVec 64) : IdentityRun A s s first 0 where
  wellFormed := hwf
  kept _ _ h := h
  mapped _ k hk := absurd hk (Nat.not_lt_zero k)

theorem heapPage_tail (k : ℕ) : heapPage (first + mmPageSize) k = heapPage first (k + 1) := by
  have hsize : mmPageSize = BitVec.ofNat 64 4096 := rfl
  rw [heapPage, heapPage, hsize, add_assoc, ← ofNat_add, Nat.add_comm,
    ← Nat.succ_mul]

/-- The first page is mapped already. -/
theorem skip (hfirst : vmmQueryMapping s first ≠ none)
    (h : IdentityRun A s s' (first + mmPageSize) n) : IdentityRun A s s' first (n + 1) := by
  refine ⟨h.wellFormed, h.kept, ?_⟩
  intro x k hk hx hnone hbefore
  cases k with
  | zero =>
    rw [heapPage_zero] at hx
    exact absurd (query_none_congr hx hnone) hfirst
  | succ k =>
    rw [← heapPage_tail] at hx ⊢
    apply h.mapped x k (by omega) hx hnone
    intro j hj
    rw [heapPage_tail]
    exact hbefore (j + 1) (by omega)

/-- The first page is mapped, and then the others. -/
theorem map (hfirst : vmmQueryMapping s first = none)
    (hchange : ChangesPage A s s₁ first (leafMapping (mapEntry first vmmMapWritable)))
    (h : IdentityRun A s₁ s' (first + mmPageSize) n) : IdentityRun A s s' first (n + 1) where
  wellFormed := h.wellFormed
  kept x m hx := by
    have hother : ¬ SamePage x first := by
      intro hsame
      rw [query_none_congr hsame.symm hfirst] at hx
      cases hx
    apply h.kept
    rw [hchange.other x hother]
    exact hx
  mapped x k hk hx hnone hbefore := by
    cases k with
    | zero =>
      rw [heapPage_zero] at hx ⊢
      have hleaf := hchange.page x hx
      rw [leafMapping_mapEntry] at hleaf ⊢
      exact h.kept x _ hleaf
    | succ k =>
      have hother : ¬ SamePage x first := by
        have hzero := hbefore 0 (by omega)
        rwa [heapPage_zero] at hzero
      rw [← heapPage_tail] at hx ⊢
      apply h.mapped x k (by omega) hx
      · rw [hchange.other x hother]
        exact hnone
      · intro j hj
        rw [heapPage_tail]
        exact hbefore (j + 1) (by omega)

/-- Every run of the loop that returns 1. -/
theorem of_loop (hwf : WellFormed A s) (hok : (mapIdentityLoop A n first s).1 = true) :
    IdentityRun A s (mapIdentityLoop A n first s).2 first n := by
  induction n generalizing first s with
  | zero => exact nil hwf first
  | succ n ih =>
    rw [mapIdentityLoop] at hok ⊢
    cases hquery : vmmQueryMapping s first with
    | some m =>
      rw [hquery] at hok
      exact (ih hwf hok).skip (by simp [hquery])
    | none =>
      rw [hquery] at hok
      have hchange := vmmMapPage_changes hwf first first vmmMapWritable
      revert hok hchange
      generalize vmmMapPage A s first first vmmMapWritable = r
      intro hok hchange
      obtain ⟨ok, s₁⟩ := r
      cases ok with
      | false => cases hok
      | true => exact (ih hchange.wellFormed hok).map hquery hchange

end IdentityRun

/-! ## Ranges -/

/-- The address `a` lies in the range of `length` bytes at `base`. -/
def InRange (base length a : BitVec 64) : Prop :=
  base.toNat ≤ a.toNat ∧ a.toNat < base.toNat + length.toNat

section

variable {base length a : BitVec 64}

/-- The range that a call accepts leaves a page free at the end of the address space. -/
theorem bounds_of_range (hok : (mapIdentityRange A s base length).1 = true) :
    ¬(base = 0#64 ∨ length = 0#64) ∧ base.toNat + length.toNat + 4096 ≤ 2 ^ 64 := by
  unfold mapIdentityRange at hok
  simp only at hok
  split at hok
  · cases hok
  split at hok
  · cases hok
  split at hok
  · cases hok
  rename_i hzero hsum hend
  have hones : (allOnes 64).toNat = 2 ^ 64 - 1 := rfl
  have hlast : (allOnes 64 - (mmPageSize - 1#64)).toNat = 2 ^ 64 - 4096 := by decide
  have hlength := length.isLt
  rw [lt_def, toNat_sub, hones] at hsum
  have htotal : (base + length).toNat = base.toNat + length.toNat := by
    rw [toNat_add, Nat.mod_eq_of_lt (by omega)]
  rw [lt_def, hlast, htotal] at hend
  exact ⟨hzero, by omega⟩

/-- A call that returns 1 has run over the pages that hold an address of the range. -/
theorem identityRun_of_range (hwf : WellFormed A s)
    (hok : (mapIdentityRange A s base length).1 = true) :
    ∃ first n, first.toNat = base.toNat / 4096 * 4096 ∧
      first.toNat + n * 4096 < 2 ^ 64 ∧
      base.toNat + length.toNat ≤ first.toNat + n * 4096 ∧
      first.toNat + n * 4096 < base.toNat + length.toNat + 4096 ∧
      IdentityRun A s (mapIdentityRange A s base length).2 first n := by
  obtain ⟨hzero, hbound⟩ := bounds_of_range hok
  unfold mapIdentityRange at hok ⊢
  simp only at hok ⊢
  have htotal : (base + length).toNat = base.toNat + length.toNat := by
    rw [toNat_add, Nat.mod_eq_of_lt (by omega)]
  have hmask : mmPageSize - 1#64 = BitVec.ofNat 64 (2 ^ 12 - 1) := by decide
  have hsum : ¬allOnes 64 - length < base := by
    rw [lt_def, toNat_sub, show (allOnes 64).toNat = 2 ^ 64 - 1 from rfl]
    have hlength := length.isLt
    omega
  have hend : ¬allOnes 64 - (mmPageSize - 1#64) < base + length := by
    have hlast : (allOnes 64 - (mmPageSize - 1#64)).toNat = 2 ^ 64 - 4096 := by decide
    rw [lt_def, hlast, htotal]
    omega
  rw [if_neg hzero, if_neg hsum, if_neg hend] at hok ⊢
  have hfirst : (base &&& ~~~(mmPageSize - 1#64)).toNat = base.toNat / 4096 * 4096 := by
    rw [hmask]
    exact toNat_and_not_mask base 12
  have hlast : ((base + length + (mmPageSize - 1#64)) &&& ~~~(mmPageSize - 1#64)).toNat =
      (base.toNat + length.toNat + 4095) / 4096 * 4096 := by
    rw [hmask, toNat_round_up _ (by decide), htotal]
    omega
  refine ⟨base &&& ~~~(mmPageSize - 1#64), _, hfirst, ?_, ?_, ?_, IdentityRun.of_loop hwf hok⟩
  all_goals
    rw [toNat_udiv, toNat_sub, hfirst, hlast, show mmPageSize.toNat = 4096 from rfl]
    omega

theorem heapPage_toNat_of_lt {first : BitVec 64} {n k : ℕ}
    (htop : first.toNat + n * 4096 < 2 ^ 64) (hk : k < n) :
    (heapPage first k).toNat = first.toNat + k * 4096 :=
  heapPage_toNat (Nat.lt_of_le_of_lt (by omega) htop)

/-- Page `k` of the range holds an address of the range. -/
theorem exists_inRange_of_page {first : BitVec 64} {n k : ℕ}
    (hfirst : first.toNat = base.toNat / 4096 * 4096) (htop : first.toNat + n * 4096 < 2 ^ 64)
    (hend : first.toNat + n * 4096 < base.toNat + length.toNat + 4096) (hpos : 0 < length.toNat)
    (hk : k < n) :
    ∃ b, InRange base length b ∧ b.toNat / 4096 = (heapPage first k).toNat / 4096 := by
  have hpage := heapPage_toNat_of_lt htop hk
  by_cases hbase : base.toNat ≤ first.toNat + k * 4096
  · exact ⟨heapPage first k, ⟨by omega, by omega⟩, rfl⟩
  · -- only the first page can begin below the range
    exact ⟨base, ⟨by omega, by omega⟩, by omega⟩

/-- The entry for a page below 2^52 maps its addresses to themselves. -/
theorem leafMapping_identity {page : BitVec 64} (halign : page.toNat % 4096 = 0)
    (hpage : page.toNat = a.toNat / 4096 * 4096) (hlow : a.toNat < 2 ^ 52) (flags : BitVec 64) :
    (leafMapping (mapEntry page flags) a).map Prod.fst = some a := by
  have hframe : IsFrame page := ⟨halign, by omega⟩
  have hoffset : (a &&& vmmPageOffsetMask).toNat = a.toNat % 4096 :=
    toNat_and_mask a (n := 12) (by decide)
  rw [leafMapping_mapEntry, hframe.and_physMask, frame_or_offset hframe, Option.map_some,
    Option.some.injEq, ← toNat_inj, toNat_add, hoffset, hpage]
  omega

end

/-- Every address of the range translates to itself. -/
def IdentityMapped (s : VmmState σ) (base length : BitVec 64) : Prop :=
  ∀ a, InRange base length a → vmmTranslate s a = some a

/-- What it takes: physical addresses that an entry can hold, no other mapping in the range, and no
two pages of the range with the same indices. -/
structure IdentityMappable (s : VmmState σ) (base length : BitVec 64) : Prop where
  low : ∀ a, InRange base length a → a.toNat < 2 ^ 52
  agrees : ∀ a p, InRange base length a → vmmTranslate s a = some p → p = a
  apart : ∀ a b, InRange base length a → InRange base length b → SamePage a b →
    a.toNat / 4096 = b.toNat / 4096

section

variable {base length : BitVec 64}

theorem translate_of_query {m : BitVec 64 × BitVec 64} (h : vmmQueryMapping s x = some m) :
    vmmTranslate s x = some m.1 := by
  rw [vmmTranslate_eq, h]
  rfl

/-! ## Identity -/

/-- An identity mapping says what there was before: whatever was mapped is still mapped alike. -/
theorem IdentityMapped.mappable (h : IdentityMapped s' base length)
    (hkept : ∀ x m, vmmQueryMapping s x = some m → vmmQueryMapping s' x = some m) :
    IdentityMappable s base length where
  low a ha := (translate_in_page (h a ha)).1
  agrees a p ha hp := by
    rw [vmmTranslate_eq, Option.map_eq_some_iff] at hp
    obtain ⟨m, hm, rfl⟩ := hp
    have hsame := translate_of_query (hkept a m hm)
    rw [h a ha, Option.some.injEq] at hsame
    exact hsame.symm
  apart a b ha hb hab := by
    obtain ⟨q, hq, hframe⟩ := (translate_in_page (h a ha)).2.2 b hab
    rw [h b hb, Option.some.injEq] at hq
    rw [hq]
    exact hframe.symm

theorem IdentityMappable.mapped (h : IdentityMappable s base length) (hwf : WellFormed A s)
    (hok : (mapIdentityRange A s base length).1 = true) :
    IdentityMapped (mapIdentityRange A s base length).2 base length := by
  obtain ⟨first, n, hfirst, htop, hcover, hend, hrun⟩ := identityRun_of_range hwf hok
  intro a ha
  cases hquery : vmmQueryMapping s a with
  | some m =>
    rw [translate_of_query (hrun.kept a m hquery),
      h.agrees a m.1 ha (translate_of_query hquery)]
  | none =>
    obtain ⟨hlo, hhi⟩ := ha
    obtain ⟨k, hk⟩ : ∃ k, a.toNat / 4096 = base.toNat / 4096 + k :=
      ⟨a.toNat / 4096 - base.toNat / 4096, by omega⟩
    have hkn : k < n := by omega
    have hpage := heapPage_toNat_of_lt htop hkn
    have hsame : SamePage a (heapPage first k) := samePage_of_div_eq (by omega)
    rw [vmmTranslate_eq, hrun.mapped a k hkn hsame hquery ?_]
    · exact leafMapping_identity (by omega) (by omega) (h.low a ⟨hlo, hhi⟩) vmmMapWritable
    · intro j hj hearlier
      obtain ⟨b, hb, hbpage⟩ :=
        exists_inRange_of_page hfirst htop hend (by omega) (hj.trans hkn)
      have hab : SamePage a b := hearlier.trans (samePage_of_div_eq hbpage.symm)
      have hpagej := heapPage_toNat_of_lt htop (hj.trans hkn)
      have heq := h.apart a b ⟨hlo, hhi⟩ hb hab
      omega

end

variable {b : BitVec 64}

/-- After a call that returns 1 the addresses mapped before keep their mapping, and the range is
mapped to itself exactly when it could be. -/
theorem identity_range_iff (hb : BootBase b) (hsupply : Supplies A s.pmm (IsBootTable b))
    (ops : List VmmOp) (base length : BitVec 64) (r : Bool × VmmState σ)
    (hr : r = acpiMapIdentityRange A (runOps A (bootState s b) ops) base length ∨
      r = mapIdentityRange A (runOps A (bootState s b) ops) base length)
    (hok : r.1 = true) :
    (∀ x m, vmmQueryMapping (runOps A (bootState s b) ops) x = some m →
      vmmQueryMapping r.2 x = some m) ∧
    (IdentityMapped r.2 base length ↔
      IdentityMappable (runOps A (bootState s b) ops) base length) := by
  have hwf := ((boot_linkInv hb hsupply).runOps ops).wellFormed
  have hbody : r = mapIdentityRange A (runOps A (bootState s b) ops) base length := hr.elim id id
  subst hbody
  obtain ⟨first, n, -, -, -, -, hrun⟩ := identityRun_of_range hwf hok
  exact ⟨hrun.kept, fun h => h.mappable hrun.kept, fun h => h.mapped hwf hok⟩

/-- A table header at the second gigabyte, which the boot code does not map. -/
theorem identity_range_header :
    IdentityMapped (acpiMapIdentityRange pmmAllocator
      (runOps pmmAllocator (bootState smallMachine 0x200000#64) []) 0x40000000#64 36#64).2
      0x40000000#64 36#64 := by
  have hok : (acpiMapIdentityRange pmmAllocator
      (runOps pmmAllocator (bootState smallMachine 0x200000#64) []) 0x40000000#64 36#64).1 =
      true := by
    decide +kernel
  have hiff := (identity_range_iff smallMachine_base smallMachine_supplies [] 0x40000000#64 36#64 _
    (.inl rfl) hok).2
  have hnone : vmmQueryMapping (runOps pmmAllocator (bootState smallMachine 0x200000#64) [])
      0x40000000#64 = none := by
    decide +kernel
  -- the range lies in one page
  have hpage : ∀ a, InRange 0x40000000#64 36#64 a → a.toNat / 4096 = 0x40000 ∧
      a.toNat < 2 ^ 52 := by
    rintro a ⟨hlo, hhi⟩
    have hbase : (0x40000000#64).toNat = 0x40000000 := rfl
    have hlength : (36#64).toNat = 36 := rfl
    omega
  refine hiff.mpr ⟨fun a ha => (hpage a ha).2, ?_, ?_⟩
  · intro a p ha hp
    have hsame : SamePage 0x40000000#64 a := samePage_of_div_eq (hpage a ha).1.symm
    rw [vmmTranslate_eq, query_none_congr hsame hnone] at hp
    cases hp
  · intro a b ha hb _
    rw [(hpage a ha).1, (hpage b hb).1]

/-- A table at 2^48, whose page has the indices of page 0: the call returns 1 and maps nothing, and
the table is read at physical address 0. -/
theorem identity_range_aliased :
    (acpiMapIdentityRange pmmAllocator
      (runOps pmmAllocator (bootState smallMachine 0x200000#64) [])
      0x1000000000000#64 36#64).1 = true ∧
    InRange 0x1000000000000#64 36#64 0x1000000000000#64 ∧
    vmmTranslate (acpiMapIdentityRange pmmAllocator
      (runOps pmmAllocator (bootState smallMachine 0x200000#64) [])
      0x1000000000000#64 36#64).2 0x1000000000000#64 = some 0#64 := by
  refine ⟨?_, ⟨by decide, by decide⟩, ?_⟩
  · decide +kernel
  · decide +kernel

end GnuOS.Acpi

import GnuOS.Pmm.Runs
import GnuOS.Vmm.Tables

/-!
# The boot tables

`setup_page_tables` of `kernel/arch/x86_64/boot/entry.S` builds three tables that map the first
GiB onto itself with 2 MiB entries; `vmm_init` takes them over from CR3.  This state is well
formed for every page allocator that keeps off the three tables, and the kernel's own allocator
is one.
-/

namespace GnuOS.Vmm

open GnuOS.Lib BitVec

variable {σ : Type} {A : PageAllocator σ} {s : VmmState σ} {b : BitVec 64}

/-! ## The assembly -/

/-- `setup_page_tables`: `pml4_table`, `pdpt_table` and `pd_table` are three consecutive pages,
cleared by the `rep stosl` and then filled. -/
def setupPageTables (mem : Tables) (pml4Table : BitVec 64) : Tables :=
  let pdptTable := pml4Table + 0x1000#64
  let pdTable := pml4Table + 0x2000#64
  let mem := writeAll mem pml4Table fun _ => 0#64
  let mem := writeAll mem pdptTable fun _ => 0#64
  let mem := writeAll mem pdTable fun _ => 0#64
  let mem := write mem pml4Table 0 (pdptTable ||| (vmmPagePresent ||| vmmPageWritable))
  let mem := write mem pdptTable 0 (pdTable ||| (vmmPagePresent ||| vmmPageWritable))
  writeAll mem pdTable fun i =>
    BitVec.ofNat 64 i * 0x200000#64 ||| (vmmPagePresent ||| vmmPageWritable ||| vmmPageSize)

/-- The state that `vmm_init` leaves, with the boot tables at `pml4Table` and in CR3. -/
def bootState (s : VmmState σ) (pml4Table : BitVec 64) : VmmState σ :=
  (vmmInit { s with mem := setupPageTables s.mem pml4Table } pml4Table).2

/-- What the linker guarantees of `pml4_table`: page alignment, an address that the 32-bit code
can name, and not 0 (the image starts at 1 MiB). -/
structure BootBase (b : BitVec 64) : Prop where
  aligned : b.toNat % 4096 = 0
  low : b.toNat + 0x3000 ≤ 2 ^ 32
  nonzero : b ≠ 0#64

def IsBootTable (b t : BitVec 64) : Prop := t = b ∨ t = b + 0x1000#64 ∨ t = b + 0x2000#64

/-! ## What the boot state holds -/

theorem vmmInit_mem (s : VmmState σ) (cr3 : BitVec 64) : (vmmInit s cr3).2.mem = s.mem := by
  unfold vmmInit
  simp only
  repeat' split
  all_goals rfl

theorem vmmInit_pmm (s : VmmState σ) (cr3 : BitVec 64) : (vmmInit s cr3).2.pmm = s.pmm := by
  unfold vmmInit
  simp only
  repeat' split
  all_goals rfl

theorem vmmInit_pml4 (s : VmmState σ) (cr3 : BitVec 64) :
    (vmmInit s cr3).2.pml4 = cr3 &&& vmmPhysMask := by
  unfold vmmInit
  simp only
  repeat' split
  all_goals rfl

theorem bootState_mem : (bootState s b).mem = setupPageTables s.mem b := by
  rw [bootState, vmmInit_mem]

theorem bootState_pmm : (bootState s b).pmm = s.pmm := by
  rw [bootState, vmmInit_pmm]

namespace BootBase

theorem isFrame (h : BootBase b) : IsFrame b := by
  have hlow := h.low
  exact ⟨h.aligned, by omega⟩

theorem isFrame_pdpt (h : BootBase b) : IsFrame (b + 0x1000#64) := by
  have hlow := h.low
  have hal := h.aligned
  have hadd : (b + 0x1000#64).toNat = b.toNat + 0x1000 := by
    rw [toNat_add]
    exact Nat.mod_eq_of_lt (by simp; omega)
  exact ⟨by omega, by omega⟩

theorem isFrame_pd (h : BootBase b) : IsFrame (b + 0x2000#64) := by
  have hlow := h.low
  have hal := h.aligned
  have hadd : (b + 0x2000#64).toNat = b.toNat + 0x2000 := by
    rw [toNat_add]
    exact Nat.mod_eq_of_lt (by simp; omega)
  exact ⟨by omega, by omega⟩

theorem bootState_pml4 (h : BootBase b) : (bootState s b).pml4 = b :=
  (vmmInit_pml4 _ _).trans h.isFrame.and_physMask

end BootBase

section Entries

variable (m : Tables) (b : BitVec 64)

theorem pdpt_ne_pml4 : b + 0x1000#64 ≠ b := by simp

theorem pd_ne_pml4 : b + 0x2000#64 ≠ b := by simp

theorem pd_ne_pdpt : b + 0x2000#64 ≠ b + 0x1000#64 := by simp

theorem boot_pml4_entry (i : Fin 512) :
    setupPageTables m b b i = if i = 0 then (b + 0x1000#64) ||| tableFlags else 0#64 := by
  unfold setupPageTables
  rw [writeAll_of_ne _ _ (pd_ne_pml4 b).symm, write_of_ne _ _ (.inl (pdpt_ne_pml4 b).symm)]
  by_cases hi : i = 0
  · rw [hi, write_self, if_pos rfl]
    rfl
  · rw [write_of_ne _ _ (.inr hi), writeAll_of_ne _ _ (pd_ne_pml4 b).symm,
      writeAll_of_ne _ _ (pdpt_ne_pml4 b).symm, writeAll_self, if_neg hi]

theorem boot_pdpt_entry (i : Fin 512) :
    setupPageTables m b (b + 0x1000#64) i =
      if i = 0 then (b + 0x2000#64) ||| tableFlags else 0#64 := by
  unfold setupPageTables
  rw [writeAll_of_ne _ _ (pd_ne_pdpt b).symm]
  by_cases hi : i = 0
  · rw [hi, write_self, if_pos rfl]
    rfl
  · rw [write_of_ne _ _ (.inr hi), write_of_ne _ _ (.inl (pdpt_ne_pml4 b)),
      writeAll_of_ne _ _ (pd_ne_pdpt b).symm, writeAll_self, if_neg hi]

/-- The 2 MiB entry `i` of the boot page directory. -/
def bootPde (i : Fin 512) : BitVec 64 :=
  BitVec.ofNat 64 i * 0x200000#64 ||| (vmmPagePresent ||| vmmPageWritable ||| vmmPageSize)

theorem boot_pd_entry (i : Fin 512) :
    setupPageTables m b (b + 0x2000#64) i = bootPde i := by
  unfold setupPageTables
  rw [writeAll_self]
  rfl

end Entries

theorem bootPde_large (i : Fin 512) : bootPde i &&& vmmPageSize ≠ 0#64 := by
  rw [bootPde, and_or_distrib_right]
  intro h
  have hbit := congrArg (fun z => getLsbD z 7) h
  simp [vmmPagePresent, vmmPageWritable, vmmPageSize] at hbit

theorem bootPde_aligned : ∀ i : Fin 512, (bootPde i &&& vmmPhysMask).toNat % 2 ^ 21 = 0 := by
  decide +kernel

/-! ## Well-formedness -/

/-- The three tables of the boot state. -/
theorem boot_tableAt (hb : BootBase b) {path : List (Fin 512)} {t : BitVec 64}
    (h : tableAt (bootState s b) path = some t) :
    (path = [] ∧ t = b) ∨ (path = [0] ∧ t = b + 0x1000#64) ∨
      (path = [0, 0] ∧ t = b + 0x2000#64) := by
  induction path using List.reverseRecOn generalizing t with
  | nil =>
    rw [tableAt_nil, hb.bootState_pml4] at h
    exact .inl ⟨rfl, (Option.some.inj h).symm⟩
  | append_singleton path i ih =>
    rcases tableAt_snoc_some path h with ⟨r, hr, hchild⟩
    rw [bootState_mem] at hchild
    rcases childTable_eq_some.mp hchild with ⟨hp, hsmall, htable⟩
    rcases ih hr with ⟨rfl, rfl⟩ | ⟨rfl, rfl⟩ | ⟨rfl, rfl⟩
    · rw [boot_pml4_entry] at hp htable
      by_cases hi : i = 0
      · rw [if_pos hi, ← hb.isFrame_pdpt.and_physMask, linkFlags_table.entry_table,
          hb.isFrame_pdpt.and_physMask] at htable
        exact .inr (.inl ⟨by rw [hi]; rfl, htable.symm⟩)
      · rw [if_neg hi] at hp
        exact absurd zero_and hp
    · rw [boot_pdpt_entry] at hp htable
      by_cases hi : i = 0
      · rw [if_pos hi, ← hb.isFrame_pd.and_physMask, linkFlags_table.entry_table,
          hb.isFrame_pd.and_physMask] at htable
        exact .inr (.inr ⟨by rw [hi]; rfl, htable.symm⟩)
      · rw [if_neg hi] at hp
        exact absurd zero_and hp
    · -- every entry of the page directory is large
      rw [boot_pd_entry] at hsmall
      rcases hsmall with hsmall | ⟨_, hsmall⟩
      · simp at hsmall
      · exact absurd hsmall (bootPde_large i)

theorem bootState_wellFormed (hb : BootBase b) (hsupply : Supplies A s.pmm (IsBootTable b)) :
    WellFormed A (bootState s b) where
  unshared path path' t h h' := by
    rcases boot_tableAt hb h with ⟨rfl, rfl⟩ | ⟨rfl, rfl⟩ | ⟨rfl, rfl⟩ <;>
      rcases boot_tableAt hb h' with ⟨rfl, ht⟩ | ⟨rfl, ht⟩ | ⟨rfl, ht⟩ <;>
      first
      | rfl
      | simp at ht
  aligned path t i hlen ht hp hlarge := by
    rw [bootState_mem] at hp hlarge ⊢
    rcases boot_tableAt hb ht with ⟨rfl, rfl⟩ | ⟨rfl, rfl⟩ | ⟨rfl, rfl⟩
    · simp at hlen
    · rw [boot_pdpt_entry] at hp hlarge
      split at hlarge
      · rw [← hb.isFrame_pd.and_physMask] at hlarge
        exact absurd linkFlags_table.entry_small hlarge
      · exact absurd zero_and hlarge
    · rw [boot_pd_entry]
      exact bootPde_aligned i
  supply := by
    rw [bootState_pmm]
    refine ⟨?_, hsupply.distinct⟩
    intro n hn
    refine ⟨(hsupply.frame n hn).1, ?_⟩
    intro htable
    rcases htable with ⟨path, hpath⟩
    apply (hsupply.frame n hn).2
    rcases boot_tableAt hb hpath with ⟨_, ht⟩ | ⟨_, ht⟩ | ⟨_, ht⟩
    · exact .inl ht
    · exact .inr (.inl ht)
    · exact .inr (.inr ht)

/-! ## The kernel's page allocator as a supply of frames -/

section Pmm

open GnuOS.Pmm

variable {a : PmmState}

/-- Without calls of `pmm_free_page` between them, the calls of `pmm_alloc_page` return addresses
of pages that are free now. -/
theorem answer_pmm (n : ℕ) {a : PmmState} (hI : Inv a) :
    answer pmmAllocator a n = 0#64 ∨
      ∃ x, x < a.totalPages ∧ pageStatus a x = .free ∧ answer pmmAllocator a n = pageAddr a x := by
  induction n generalizing a with
  | zero =>
    rcases pmmAllocPage_spec hI with ⟨hrun, _⟩ | ⟨x, a', hrun, hx, hst, _⟩
    · exact .inl (congrArg Prod.fst hrun)
    · exact .inr ⟨x, hx, hst, congrArg Prod.fst hrun⟩
  | succ n ih =>
    have hnext : answer pmmAllocator a (n + 1) = answer pmmAllocator (pmmAllocPage a).2 n := rfl
    rw [hnext]
    rcases pmmAllocPage_spec hI with ⟨hrun, _⟩ | ⟨x, a', hrun, hx, hst, hch⟩
    · rw [hrun]
      exact ih hI
    · rw [hrun]
      rcases ih hch.inv with hnull | ⟨y, hy, hfree, haddr⟩
      · exact .inl hnull
      · rw [hch.total] at hy
        rw [hch.status y hy] at hfree
        split at hfree
        · exact absurd hfree (by decide)
        · refine .inr ⟨y, hy, hfree, ?_⟩
          simp only [haddr, pageAddr, hch.base]

theorem answer_pmm_distinct (m n : ℕ) {a : PmmState} (hI : Inv a)
    (hw : a.base.toNat + a.totalPages * 4096 < 2 ^ 64) (hmn : m < n)
    (hne : answer pmmAllocator a n ≠ 0#64) :
    answer pmmAllocator a m ≠ answer pmmAllocator a n := by
  induction m generalizing a n with
  | zero =>
    cases n with
    | zero => omega
    | succ n =>
      intro heq
      have hfirst : answer pmmAllocator a 0 = (pmmAllocPage a).1 := rfl
      have hnext : answer pmmAllocator a (n + 1) = answer pmmAllocator (pmmAllocPage a).2 n := rfl
      rw [hnext] at hne heq
      rw [hfirst] at heq
      rcases pmmAllocPage_spec hI with ⟨hrun, _⟩ | ⟨x, a', hrun, hx, _, hch⟩
      · rw [hrun] at heq hne
        exact hne heq.symm
      · rw [hrun] at heq hne
        rcases answer_pmm n hch.inv with hnull | ⟨y, hy, hfree, haddr⟩
        · exact hne hnull
        · -- the page just handed out is no longer free
          rw [hch.total] at hy
          have haddr' : pageAddr a x = pageAddr a y := by
            simp only [haddr, pageAddr, hch.base] at heq
            exact heq
          rw [← pageAddr_injective hw hx hy haddr', hch.status x hx, if_pos rfl] at hfree
          exact absurd hfree (by decide)
  | succ m ih =>
    cases n with
    | zero => omega
    | succ n =>
      -- drop the first request; a request that fails changes nothing
      rcases pmmAllocPage_spec hI with ⟨hrun, _⟩ | ⟨x, a', hrun, _, _, hch⟩
      · have ha : (pmmAllocPage a).2 = a := congrArg Prod.snd hrun
        have hnext : ∀ k, answer pmmAllocator a (k + 1) = answer pmmAllocator a k := by
          intro k
          exact congrArg (fun a' => answer pmmAllocator a' k) ha
        rw [hnext, hnext] at *
        exact ih n hI hw (by omega) hne
      · have ha : (pmmAllocPage a).2 = a' := congrArg Prod.snd hrun
        have hnext : ∀ k, answer pmmAllocator a (k + 1) = answer pmmAllocator a' k := by
          intro k
          exact congrArg (fun a' => answer pmmAllocator a' k) ha
        rw [hnext] at hne
        rw [hnext, hnext]
        refine ih n hch.inv ?_ (by omega) hne
        rw [hch.base, hch.total]
        exact hw

/-- The page allocator supplies frames that are not tables, if no table lies in a free page. -/
theorem pmm_supplies {isTable : BitVec 64 → Prop} (hI : Inv a) (hbase : a.base.toNat % 4096 = 0)
    (hw : a.base.toNat + a.totalPages * 4096 ≤ 2 ^ 52)
    (hdisj : ∀ x, x < a.totalPages → pageStatus a x = .free → ¬ isTable (pageAddr a x)) :
    Supplies pmmAllocator a isTable where
  frame n hn := by
    rcases answer_pmm n hI with hnull | ⟨x, hx, hfree, haddr⟩
    · exact absurd hnull hn
    · have hnat := pageAddr_toNat (s := a) (by omega) hx
      rw [haddr]
      exact ⟨⟨by omega, by omega⟩, hdisj x hx hfree⟩
  distinct m n hmn hn := answer_pmm_distinct m n hI (by omega) hmn hn

/-! ## A small machine -/

/-- A machine with the boot tables at 2 MiB and eight managed pages from 16 MiB on. -/
def smallMachine : VmmState PmmState :=
  ⟨fun _ _ => 0#64, 0#64, ⟨0#64, 0#64, 0#64, 0#64, 0#64, 0#64, 0#64⟩, 0#64, 0#64,
    pmmInit 0x1000000#64 0x8000#64⟩

theorem smallMachine_base : BootBase 0x200000#64 := ⟨by decide, by decide, by decide⟩

theorem smallMachine_supplies :
    Supplies pmmAllocator smallMachine.pmm (IsBootTable 0x200000#64) := by
  rcases pmmInit_spec 0x1000000#64 0x8000#64 with ⟨hI, hbase, htotal, _⟩
  have hpmm : smallMachine.pmm = pmmInit 0x1000000#64 0x8000#64 := rfl
  have hlow : (pmmInit 0x1000000#64 0x8000#64).base.toNat = 0x1000000 := by
    rw [hbase]
    decide
  have hcount : (pmmInit 0x1000000#64 0x8000#64).totalPages = 8 := by
    rw [htotal]
    decide
  rw [hpmm]
  generalize pmmInit 0x1000000#64 0x8000#64 = a at *
  apply pmm_supplies hI (by omega) (by omega)
  -- the managed pages lie above the tables
  intro x hx _ htable
  have hnat := pageAddr_toNat (s := a) (p := x) (by omega) hx
  have hhigh : 0x1000000 ≤ (pageAddr a x).toNat := by omega
  rcases htable with h | h | h <;> rw [h] at hhigh <;> exact absurd hhigh (by decide)

end Pmm

end GnuOS.Vmm

import GnuOS.Vmm.Mapping

/-!
# Reported and effective permissions

`vmm_query_mapping` reports the flags of the entry that ends the walk.  The processor grants an
access only if every entry on the way allows it.  This file compares the two over all runs of
`vmm_map_page` and `vmm_unmap_page` from the boot tables.

Entries that refer to tables are always writable, so a reported `VMM_MAP_WRITABLE` is effective.
No entry of the PML4 ever has the user bit: neither the boot code nor
`vmm_get_or_create_next_table` sets it.  A reported `VMM_MAP_USER` is therefore never effective,
and the two agree on the user bit exactly as long as no user page is mapped.
-/

namespace GnuOS.Vmm

open GnuOS.Lib List

variable {σ : Type} {A : PageAllocator σ} {s s' : VmmState σ} {b : BitVec 64}

/-! ## Operations and runs -/

inductive VmmOp
  | mapPage (virtAddr physAddr flags : BitVec 64)
  | unmapPage (virtAddr : BitVec 64)

def VmmOp.exec (A : PageAllocator σ) (s : VmmState σ) : VmmOp → Bool × VmmState σ
  | .mapPage virtAddr physAddr flags => vmmMapPage A s virtAddr physAddr flags
  | .unmapPage virtAddr => vmmUnmapPage A s virtAddr

/-- The operation asks for a user page. -/
def VmmOp.MapsUser : VmmOp → Prop
  | .mapPage _ _ flags => flags &&& vmmMapUser ≠ 0#64
  | .unmapPage _ => False

def runOps (A : PageAllocator σ) (s : VmmState σ) (ops : List VmmOp) : VmmState σ :=
  ops.foldl (fun s op => (op.exec A s).2) s

theorem runOps_snoc (ops : List VmmOp) (op : VmmOp) :
    runOps A s (ops ++ [op]) = (op.exec A (runOps A s ops)).2 := by
  simp only [runOps, foldl_append, foldl_cons, foldl_nil]

/-! ## Effective permissions -/

/-- The paging-structure entries that the processor reads to translate `v`: PML4E, PDPTE, and,
unless the walk ends at a large page before, PDE and PTE. -/
def translationEntries (s : VmmState σ) (v : BitVec 64) : List (BitVec 64) :=
  let pml4e := s.mem s.pml4 (vmmPml4Index v)
  let pdpte := s.mem (vmmEntryToTable pml4e) (vmmPdptIndex v)
  if pdpte &&& vmmPageSize ≠ 0#64 then [pml4e, pdpte]
  else
    let pde := s.mem (vmmEntryToTable pdpte) (vmmPdIndex v)
    if pde &&& vmmPageSize ≠ 0#64 then [pml4e, pdpte, pde]
    else [pml4e, pdpte, pde, s.mem (vmmEntryToTable pde) (vmmPtIndex v)]

/-- Wherever the map flag is reported, the page flag is set in every entry of the translation. -/
def RightSound (s : VmmState σ) (mapFlag pageFlag : BitVec 64) : Prop :=
  ∀ v phys flags, vmmQueryMapping s v = some (phys, flags) → flags &&& mapFlag ≠ 0#64 →
    ∀ e ∈ translationEntries s v, e &&& pageFlag ≠ 0#64

/-- The reported permissions are effective. -/
def PermissionsSound (s : VmmState σ) : Prop :=
  RightSound s vmmMapUser vmmPageUser ∧ RightSound s vmmMapWritable vmmPageWritable

/-! ## The entries behind a query -/

/-- The entry `e` is in a table of the tree and refers to a table. -/
def IsLink (s : VmmState σ) (e : BitVec 64) : Prop :=
  ∃ path t i, tableAt s path = some t ∧ s.mem t i = e ∧ childTable path.length e ≠ none

theorem isLink_of_present {path : List (Fin 512)} {t : BitVec 64} {i : Fin 512}
    (ht : tableAt s path = some t) (hp : s.mem t i &&& vmmPagePresent ≠ 0#64)
    (hs : path.length = 0 ∨ (path.length ≤ 2 ∧ s.mem t i &&& vmmPageSize = 0#64)) :
    IsLink s (s.mem t i) := by
  refine ⟨path, t, i, ht, rfl, ?_⟩
  rw [childTable_eq_some.mpr ⟨hp, hs, rfl⟩]
  simp

/-- A mapped address: the flags are those of the last entry, the others refer to tables. -/
theorem query_entries {v phys flags : BitVec 64}
    (h : vmmQueryMapping s v = some (phys, flags)) :
    ∃ links last, translationEntries s v = links ++ [last] ∧
      flags = vmmEntryToMapFlags last ∧ (∀ e ∈ links, IsLink s e) ∧
      ∃ path t i, tableAt s path = some t ∧ s.mem t i = last := by
  simp only [vmmQueryMapping] at h
  simp only [translationEntries]
  split at h
  · simp at h
  split at h
  · simp at h
  rename_i _ hp4
  -- each table on the way is reached, so the entries above the last are links
  have t3 := tableAt_of_present tableAt_nil hp4 (.inl rfl)
  have l4 := isLink_of_present tableAt_nil hp4 (.inl rfl)
  generalize s.mem s.pml4 (vmmPml4Index v) = pml4e at *
  split at h
  · simp at h
  rename_i hp3
  split at h
  · rename_i hs3
    rw [if_pos hs3]
    simp only [Option.some.injEq, Prod.mk.injEq] at h
    exact ⟨[pml4e], _, rfl, h.2.symm, by simpa using l4, _, _, _, t3, rfl⟩
  rename_i hs3
  rw [if_neg hs3]
  have t2 := tableAt_of_present t3 hp3 (.inr ⟨by simp, not_not.mp hs3⟩)
  have l3 := isLink_of_present t3 hp3 (.inr ⟨by simp, not_not.mp hs3⟩)
  generalize s.mem (vmmEntryToTable pml4e) (vmmPdptIndex v) = pdpte at *
  split at h
  · simp at h
  rename_i hp2
  split at h
  · rename_i hs2
    rw [if_pos hs2]
    simp only [Option.some.injEq, Prod.mk.injEq] at h
    exact ⟨[pml4e, pdpte], _, rfl, h.2.symm, by simp [l4, l3], _, _, _, t2, rfl⟩
  rename_i hs2
  rw [if_neg hs2]
  have t1 := tableAt_of_present t2 hp2 (.inr ⟨by simp, not_not.mp hs2⟩)
  have l2 := isLink_of_present t2 hp2 (.inr ⟨by simp, not_not.mp hs2⟩)
  generalize s.mem (vmmEntryToTable pdpte) (vmmPdIndex v) = pde at *
  split at h
  · simp at h
  simp only [Option.some.injEq, Prod.mk.injEq] at h
  exact ⟨[pml4e, pdpte, pde], _, rfl, h.2.symm, by simp [l4, l3, l2], _, _, _, t1, rfl⟩

theorem pml4e_mem_translationEntries (v : BitVec 64) :
    s.mem s.pml4 (vmmPml4Index v) ∈ translationEntries s v := by
  simp only [translationEntries]
  repeat' split
  all_goals simp

/-- A mapped address has a present PML4 entry. -/
theorem pml4e_present {v phys flags : BitVec 64} (h : vmmQueryMapping s v = some (phys, flags)) :
    s.mem s.pml4 (vmmPml4Index v) &&& vmmPagePresent ≠ 0#64 := by
  intro hp
  have hnone : vmmQueryMapping s v = none :=
    query_of_not_present (ρ := []) (j := vmmPml4Index v) rfl tableAt_nil hp
  rw [hnone] at h
  exact absurd h (by simp)

theorem mapFlags_and_user (e : BitVec 64) :
    vmmEntryToMapFlags e &&& vmmMapUser = e &&& vmmPageUser := by
  rw [vmmEntryToMapFlags_eq, BitVec.and_assoc]
  congr 1

theorem mapFlags_and_writable (e : BitVec 64) :
    vmmEntryToMapFlags e &&& vmmMapWritable = e &&& vmmPageWritable := by
  rw [vmmEntryToMapFlags_eq, BitVec.and_assoc]
  congr 1

/-! ## The invariant of the links -/

/-- What holds of the entries that refer to tables in every state reached from boot. -/
structure LinkInv (A : PageAllocator σ) (s : VmmState σ) : Prop where
  wellFormed : WellFormed A s
  writable : ∀ e, IsLink s e → e &&& vmmPageWritable ≠ 0#64
  rootUser : ∀ i, s.mem s.pml4 i &&& vmmPagePresent ≠ 0#64 →
    s.mem s.pml4 i &&& vmmPageUser = 0#64

theorem LinkInv.step (h : LinkInv A s) (hwf : WellFormed A s') (hpml4 : s'.pml4 = s.pml4)
    (hlinks : LinksFrom s s') : LinkInv A s' where
  wellFormed := hwf
  writable e he := by
    rcases he with ⟨path, t, i, ht, rfl, hlink⟩
    rcases hlinks path t i ht hlink with ⟨ht', hmem⟩ | hnew
    · exact h.writable _ ⟨path, t, i, ht', hmem.symm, hlink⟩
    · exact hnew.1
  rootUser i hp := by
    have hlink : childTable ([] : List (Fin 512)).length (s'.mem s'.pml4 i) ≠ none := by
      simp [childTable, hp]
    rcases hlinks [] s'.pml4 i tableAt_nil hlink with ⟨_, hmem⟩ | hnew
    · rw [hmem, hpml4] at hp ⊢
      exact h.rootUser i hp
    · exact hnew.2 rfl

theorem LinkInv.exec (h : LinkInv A s) (op : VmmOp) : LinkInv A (op.exec A s).2 := by
  cases op with
  | mapPage v p flags =>
    have hmap := vmmMapPage_changes h.wellFormed v p flags
    exact h.step hmap.wellFormed hmap.pml4 hmap.links
  | unmapPage v =>
    have hunmap := vmmUnmapPage_changes h.wellFormed v
    exact h.step hunmap.wellFormed hunmap.pml4 hunmap.links

theorem LinkInv.runOps (h : LinkInv A s) (ops : List VmmOp) : LinkInv A (runOps A s ops) := by
  induction ops generalizing s with
  | nil => exact h
  | cons op ops ih => exact ih (h.exec op)

/-- Where links are writable, a reported `VMM_MAP_WRITABLE` is effective. -/
theorem LinkInv.writableSound (h : LinkInv A s) :
    RightSound s vmmMapWritable vmmPageWritable := by
  intro v phys flags hq hw e he
  rcases query_entries hq with ⟨links, last, hentries, rfl, hlinks, _⟩
  rw [mapFlags_and_writable] at hw
  rw [hentries, mem_append, mem_singleton] at he
  rcases he with he | rfl
  · exact h.writable e (hlinks e he)
  · exact hw

/-- No address is reported as a user page. -/
def NoUser (s : VmmState σ) : Prop :=
  ∀ v phys flags, vmmQueryMapping s v = some (phys, flags) → flags &&& vmmMapUser = 0#64

/-- The PML4 entry denies what a reported `VMM_MAP_USER` promises. -/
theorem LinkInv.permissionsSound_iff (h : LinkInv A s) : PermissionsSound s ↔ NoUser s := by
  constructor
  · intro hsound v phys flags hq
    by_contra huser
    have hset := hsound.1 v phys flags hq huser _ (pml4e_mem_translationEntries v)
    exact hset (h.rootUser _ (pml4e_present hq))
  · intro hno
    refine ⟨?_, h.writableSound⟩
    intro v phys flags hq huser
    exact absurd (hno v phys flags hq) huser

/-! ## The user bit along a run -/

/-- Only a successful mapping of a user page makes a user page appear. -/
theorem NoUser.exec (hwf : WellFormed A s) (h : NoUser s) (op : VmmOp)
    (hop : op.MapsUser → (op.exec A s).1 = false) : NoUser (op.exec A s).2 := by
  intro v phys flags hq
  cases op with
  | mapPage v' p flags' =>
    have hmap := vmmMapPage_changes hwf v' p flags'
    simp only [VmmOp.exec] at hop hq
    by_cases hv : SamePage v v'
    · rw [hmap.page v hv] at hq
      split at hq
      · rename_i hok
        rw [leafMapping_mapEntry, Option.some.injEq, Prod.mk.injEq] at hq
        by_contra huser
        rw [← hq.2, BitVec.and_assoc] at huser
        exact absurd (hop huser) (by rw [hok]; simp)
      · exact h v phys flags hq
    · rw [hmap.other v hv] at hq
      exact h v phys flags hq
  | unmapPage v' =>
    have hunmap := vmmUnmapPage_changes hwf v'
    simp only [VmmOp.exec] at hq
    by_cases hv : SamePage v v'
    · rw [hunmap.page v hv] at hq
      split at hq
      · simp at hq
      · exact h v phys flags hq
    · rw [hunmap.other v hv] at hq
      exact h v phys flags hq

/-- A successful mapping of a user page is reported as such. -/
theorem not_noUser_of_maps {op : VmmOp} (hwf : WellFormed A s) (hop : op.MapsUser)
    (hok : (op.exec A s).1 = true) : ¬ NoUser (op.exec A s).2 := by
  intro hno
  cases op with
  | mapPage v p flags =>
    have hmap := vmmMapPage_changes hwf v p flags
    simp only [VmmOp.exec] at hok hno
    have hq := hmap.page v (fun _ _ _ => rfl)
    rw [if_pos hok, leafMapping_mapEntry] at hq
    have hclear := hno v _ _ hq
    rw [BitVec.and_assoc] at hclear
    exact hop hclear
  | unmapPage v => exact hop

/-! ## Runs from boot -/

theorem boot_entry_user (hb : BootBase b) {path : List (Fin 512)} {t : BitVec 64}
    (ht : tableAt (bootState s b) path = some t) (i : Fin 512) :
    (bootState s b).mem t i &&& vmmPageUser = 0#64 := by
  have hpde : ∀ i : Fin 512, bootPde i &&& vmmPageUser = 0#64 := by decide +kernel
  have hlink : ∀ f, IsFrame f → (f ||| tableFlags) &&& vmmPageUser = 0#64 := by
    intro f hf
    rw [← hf.and_physMask, field_and_of_disjoint (by decide)]
    decide
  rw [bootState_mem]
  rcases boot_tableAt hb ht with ⟨_, rfl⟩ | ⟨_, rfl⟩ | ⟨_, rfl⟩
  · rw [boot_pml4_entry]
    split
    · exact hlink _ hb.isFrame_pdpt
    · exact BitVec.zero_and
  · rw [boot_pdpt_entry]
    split
    · exact hlink _ hb.isFrame_pd
    · exact BitVec.zero_and
  · rw [boot_pd_entry]
    exact hpde i

theorem boot_linkInv (hb : BootBase b) (hsupply : Supplies A s.pmm (IsBootTable b)) :
    LinkInv A (bootState s b) where
  wellFormed := bootState_wellFormed hb hsupply
  writable e he := by
    rcases he with ⟨path, t, i, ht, rfl, hlink⟩
    rw [bootState_mem] at hlink ⊢
    rcases boot_tableAt hb ht with ⟨_, rfl⟩ | ⟨_, rfl⟩ | ⟨rfl, rfl⟩
    · rw [boot_pml4_entry] at hlink ⊢
      split
      · rw [← hb.isFrame_pdpt.and_physMask]
        exact linkFlags_table.entry_writable
      · rename_i hi
        rw [if_neg hi] at hlink
        exact absurd (childTable_of_not_present BitVec.zero_and) hlink
    · rw [boot_pdpt_entry] at hlink ⊢
      split
      · rw [← hb.isFrame_pd.and_physMask]
        exact linkFlags_table.entry_writable
      · rename_i hi
        rw [if_neg hi] at hlink
        exact absurd (childTable_of_not_present BitVec.zero_and) hlink
    · rw [boot_pd_entry] at hlink
      exact absurd (childTable_of_large (by simp) (bootPde_large i)) hlink
  rootUser i _ := boot_entry_user hb tableAt_nil i

theorem boot_noUser (hb : BootBase b) : NoUser (bootState s b) := by
  intro v phys flags hq
  rcases query_entries hq with ⟨_, last, _, rfl, _, path, t, i, ht, rfl⟩
  rw [mapFlags_and_user]
  exact boot_entry_user hb ht i

/-- In every state of a run from the boot tables a reported `VMM_MAP_WRITABLE` is effective.  If no
call of the run asks for a user page, all reported permissions are effective in every state; and
the first call that maps a user page leaves a state in which they are not. -/
theorem runOps_permissions (hb : BootBase b) (hsupply : Supplies A s.pmm (IsBootTable b))
    (ops : List VmmOp) :
    (∀ pre, pre <+: ops →
      RightSound (runOps A (bootState s b) pre) vmmMapWritable vmmPageWritable) ∧
    ((∀ op ∈ ops, ¬ op.MapsUser) →
      ∀ pre, pre <+: ops → PermissionsSound (runOps A (bootState s b) pre)) ∧
    (∀ pre op, pre ++ [op] <+: ops → op.MapsUser →
      (op.exec A (runOps A (bootState s b) pre)).1 = true →
      ¬ PermissionsSound (runOps A (bootState s b) (pre ++ [op]))) := by
  have hinv : ∀ pre, LinkInv A (runOps A (bootState s b) pre) :=
    fun pre => (boot_linkInv hb hsupply).runOps pre
  refine ⟨fun pre _ => (hinv pre).writableSound, ?_, ?_⟩
  · intro hnone pre hpre
    apply (hinv pre).permissionsSound_iff.mpr
    induction pre using reverseRecOn with
    | nil => exact boot_noUser hb
    | append_singleton pre op ih =>
      rw [runOps_snoc]
      have hpre' : pre <+: ops := (prefix_append pre [op]).trans hpre
      have hop : op ∈ ops := hpre.subset (mem_append_right pre (mem_singleton.mpr rfl))
      apply (ih hpre').exec (hinv pre).wellFormed
      intro huser
      exact absurd huser (hnone op hop)
  · intro pre op _ huser hok hsound
    have hno := (hinv _).permissionsSound_iff.mp hsound
    rw [runOps_snoc] at hno
    exact not_noUser_of_maps (hinv pre).wellFormed huser hok hno

/-- A run that maps a kernel page and unmaps it again. -/
theorem runOps_permissions_kernel_page :
    PermissionsSound (runOps pmmAllocator (bootState smallMachine 0x200000#64)
      [.mapPage 0x40000000#64 0x5000#64 vmmMapWritable]) ∧
    PermissionsSound (runOps pmmAllocator (bootState smallMachine 0x200000#64)
      [.mapPage 0x40000000#64 0x5000#64 vmmMapWritable, .unmapPage 0x40000000#64]) := by
  have hrun := (runOps_permissions smallMachine_base smallMachine_supplies
    [.mapPage 0x40000000#64 0x5000#64 vmmMapWritable, .unmapPage 0x40000000#64]).2.1
  have hnone : ∀ op ∈ [VmmOp.mapPage 0x40000000#64 0x5000#64 vmmMapWritable,
      VmmOp.unmapPage 0x40000000#64], ¬ op.MapsUser := by
    intro op hop huser
    simp only [mem_cons, not_mem_nil, or_false] at hop
    rcases hop with rfl | rfl
    · exact absurd (by decide : vmmMapWritable &&& vmmMapUser = 0#64) huser
    · exact huser
  exact ⟨hrun hnone _ ⟨_, rfl⟩, hrun hnone _ (prefix_refl _)⟩

/-- The page that `kmain` maps for its user-pointer calls: the query reports it as a user page, the
PML4 entry of its translation is a supervisor entry. -/
theorem user_page_not_effective :
    vmmQueryMapping (runOps pmmAllocator (bootState smallMachine 0x200000#64)
      [.mapPage 0x80000000#64 0x5000#64 (vmmMapUser ||| vmmMapWritable)]) 0x80000000#64 =
        some (0x5000#64, vmmMapUser ||| vmmMapWritable) ∧
    ¬ PermissionsSound (runOps pmmAllocator (bootState smallMachine 0x200000#64)
      [.mapPage 0x80000000#64 0x5000#64 (vmmMapUser ||| vmmMapWritable)]) := by
  have hquery : vmmQueryMapping (runOps pmmAllocator (bootState smallMachine 0x200000#64)
      [.mapPage 0x80000000#64 0x5000#64 (vmmMapUser ||| vmmMapWritable)]) 0x80000000#64 =
        some (0x5000#64, vmmMapUser ||| vmmMapWritable) := by decide +kernel
  refine ⟨hquery, ?_⟩
  intro hsound
  apply hsound.1 _ _ _ hquery (by decide) _ (pml4e_mem_translationEntries _)
  decide +kernel

end GnuOS.Vmm

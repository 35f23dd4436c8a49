import GnuOS.Pmm.Runs

/-!
# The allocator refines a set of free, allocated and reserved pages

The purpose of `pmm.c` in its own terms: three sets of page numbers, and calls that move
pages between them. `AbsStep` is that machine; it leaves open which free page an allocation
takes. `sets` reads the three sets off the arrays, and every call of the source is a step of
the abstract machine with the same return value (`exec_absStep`).
-/

namespace GnuOS.Pmm

/-- The abstract allocator. The sets are disjoint, so a page has one status. -/
structure PageSets where
  free : Finset ℕ
  allocated : Finset ℕ
  reserved : Finset ℕ
  free_allocated : Disjoint free allocated
  free_reserved : Disjoint free reserved
  allocated_reserved : Disjoint allocated reserved

namespace PageSets

/-- A free page is handed out. -/
def handOut (A : PageSets) (p : ℕ) (hp : p ∈ A.free) : PageSets where
  free := A.free.erase p
  allocated := insert p A.allocated
  reserved := A.reserved
  free_allocated := by
    rw [Finset.disjoint_insert_right]
    exact ⟨Finset.notMem_erase p _, A.free_allocated.mono_left (Finset.erase_subset p _)⟩
  free_reserved := A.free_reserved.mono_left (Finset.erase_subset p _)
  allocated_reserved := by
    rw [Finset.disjoint_insert_left]
    exact ⟨Finset.disjoint_left.mp A.free_reserved hp, A.allocated_reserved⟩

/-- An allocated page is taken back. -/
def takeBack (A : PageSets) (p : ℕ) (hp : p ∈ A.allocated) : PageSets where
  free := insert p A.free
  allocated := A.allocated.erase p
  reserved := A.reserved
  free_allocated := by
    rw [Finset.disjoint_insert_left]
    exact ⟨Finset.notMem_erase p _, A.free_allocated.mono_right (Finset.erase_subset p _)⟩
  free_reserved := by
    rw [Finset.disjoint_insert_left]
    exact ⟨Finset.disjoint_left.mp A.allocated_reserved hp, A.free_reserved⟩
  allocated_reserved := A.allocated_reserved.mono_left (Finset.erase_subset p _)

/-- Free pages are set aside for good. -/
def setAside (A : PageSets) (R : Finset ℕ) (hR : R ⊆ A.free) : PageSets where
  free := A.free \ R
  allocated := A.allocated
  reserved := A.reserved ∪ R
  free_allocated := A.free_allocated.mono_left Finset.sdiff_subset
  free_reserved := by
    rw [Finset.disjoint_union_right]
    exact ⟨A.free_reserved.mono_left Finset.sdiff_subset, Finset.sdiff_disjoint⟩
  allocated_reserved := by
    rw [Finset.disjoint_union_right]
    exact ⟨A.allocated_reserved, (A.free_allocated.mono_left hR).symm⟩

theorem ext_sets {A B : PageSets} (hf : A.free = B.free) (ha : A.allocated = B.allocated)
    (hr : A.reserved = B.reserved) : A = B := by
  cases A
  cases B
  simp only at hf ha hr
  subst hf ha hr
  rfl

end PageSets

/-- One call of the abstract allocator: the sets before, the call, its return value, the
sets after. `addr` gives the address of a page. -/
inductive AbsStep (addr : ℕ → BitVec 64) : PageSets → PmmOp → BitVec 64 → PageSets → Prop
  | allocNone {A : PageSets} (h : A.free = ∅) : AbsStep addr A .allocPage 0#64 A
  | allocSome {A : PageSets} {p : ℕ} (hp : p ∈ A.free) (hne : addr p ≠ 0#64) :
      AbsStep addr A .allocPage (addr p) (A.handOut p hp)
  | freeHit {A : PageSets} {p : ℕ} (hp : p ∈ A.allocated) :
      AbsStep addr A (.freePage (addr p)) 0#64 (A.takeBack p hp)
  | freeMiss {A : PageSets} {a : BitVec 64} (h : ∀ p ∈ A.allocated, a ≠ addr p) :
      AbsStep addr A (.freePage a) 0#64 A
  | reserve {A : PageSets} (base size : BitVec 64) (R : Finset ℕ) (hR : R ⊆ A.free) :
      AbsStep addr A (.reserveRange base size) 0#64 (A.setAside R hR)

/-! ## The abstraction -/

/-- The managed pages with a given status. -/
def pagesWith (s : PmmState) (st : BlockState) : Finset ℕ :=
  (Finset.range s.totalPages).filter fun p => pageStatus s p = st

section
variable {s s' : PmmState} {p x : ℕ} {st st' : BlockState}

theorem mem_pagesWith : p ∈ pagesWith s st ↔ p < s.totalPages ∧ pageStatus s p = st := by
  rw [pagesWith, Finset.mem_filter, Finset.mem_range]

theorem pagesWith_disjoint (hne : st ≠ st') : Disjoint (pagesWith s st) (pagesWith s st') := by
  rw [Finset.disjoint_left]
  intro p hp hp'
  rw [mem_pagesWith] at hp hp'
  exact hne (hp.2.symm.trans hp'.2)

/-- The three sets a state of the arrays stands for. -/
def sets (s : PmmState) : PageSets where
  free := pagesWith s .free
  allocated := pagesWith s .allocated
  reserved := pagesWith s .reserved
  free_allocated := pagesWith_disjoint (by decide)
  free_reserved := pagesWith_disjoint (by decide)
  allocated_reserved := pagesWith_disjoint (by decide)

/-- Every managed page is in one of the sets. -/
theorem sets_cover (hI : Inv s) (hp : p < s.totalPages) :
    p ∈ (sets s).free ∨ p ∈ (sets s).allocated ∨ p ∈ (sets s).reserved := by
  show p ∈ pagesWith s .free ∨ p ∈ pagesWith s .allocated ∨ p ∈ pagesWith s .reserved
  simp only [mem_pagesWith]
  have hne := hI.status_ne_unused hp
  cases hst : pageStatus s p with
  | unused => exact absurd hst hne
  | free => exact .inl ⟨hp, rfl⟩
  | allocated => exact .inr (.inl ⟨hp, rfl⟩)
  | reserved => exact .inr (.inr ⟨hp, rfl⟩)

/-- `pmm_free_pages` is the number of free pages. -/
theorem freePages_eq_card (hI : Inv s) : pmmFreePages s = (sets s).free.card := by
  have hcount := HoleInv.count hI
  rw [freeWeight_eq_card (HoleInv.tiling hI)] at hcount
  rw [pmmFreePages, hcount]
  congr 1
  ext p
  rw [freePagesOutside, Finset.mem_filter, Finset.mem_range]
  show _ ↔ p ∈ pagesWith s .free
  rw [mem_pagesWith]
  simp [not_inHole_zero]

/-! ## The simulation -/

/-- How a status change of one page shows in the sets. -/
theorem Changes.mem_iff (hC : Changes s s' x st) :
    p ∈ pagesWith s' st' ↔
      p < s.totalPages ∧ (if p = x then st else pageStatus s p) = st' := by
  rw [mem_pagesWith, hC.total]
  exact and_congr_right fun hp => by rw [hC.status p hp]

/-- The page joins the pages with its new status, ... -/
theorem Changes.pagesWith_new (hC : Changes s s' x st) (hx : x < s.totalPages) :
    pagesWith s' st = insert x (pagesWith s st) := by
  ext p
  rw [hC.mem_iff, Finset.mem_insert, mem_pagesWith]
  by_cases hpx : p = x
  · simp [hpx, hx]
  · simp [hpx]

/-- ... and is missing from those with any other. -/
theorem Changes.pagesWith_other (hC : Changes s s' x st) (hst : st ≠ st') :
    pagesWith s' st' = (pagesWith s st').erase x := by
  ext p
  rw [hC.mem_iff, Finset.mem_erase, mem_pagesWith]
  by_cases hpx : p = x
  · simp [hpx, hst]
  · simp [hpx]

theorem sets_handOut (hC : Changes s s' x .allocated) (hx : x ∈ (sets s).free) :
    sets s' = (sets s).handOut x hx := by
  have hx' := mem_pagesWith.mp hx
  refine PageSets.ext_sets (hC.pagesWith_other (by simp)) (hC.pagesWith_new hx'.1) ?_
  refine (hC.pagesWith_other (by simp)).trans (Finset.erase_eq_of_notMem ?_)
  simp [mem_pagesWith, hx'.2]

theorem sets_takeBack (hC : Changes s s' x .free) (hx : x ∈ (sets s).allocated) :
    sets s' = (sets s).takeBack x hx := by
  have hx' := mem_pagesWith.mp hx
  refine PageSets.ext_sets (hC.pagesWith_new hx'.1) (hC.pagesWith_other (by simp)) ?_
  refine (hC.pagesWith_other (by simp)).trans (Finset.erase_eq_of_notMem ?_)
  simp [mem_pagesWith, hx'.2]

/-- `pmm_reserve_range` sets aside some of the free pages. -/
theorem sets_setAside (hI : Inv s) (base size : BitVec 64) :
    ∃ (R : Finset ℕ) (hR : R ⊆ (sets s).free),
      sets (pmmReserveRange s base size) = (sets s).setAside R hR := by
  classical
  obtain ⟨R, hRfree, _, _, ht, hst⟩ := pmmReserveRange_spec hI base size
  have hmem : ∀ p, p ∈ (pagesWith s .free).filter R ↔ p < s.totalPages ∧ R p := by
    intro p
    rw [Finset.mem_filter, mem_pagesWith]
    constructor
    · rintro ⟨⟨hp, _⟩, hr⟩
      exact ⟨hp, hr⟩
    · rintro ⟨hp, hr⟩
      exact ⟨⟨hp, hRfree p hr⟩, hr⟩
  refine ⟨(pagesWith s .free).filter R, Finset.filter_subset _ _, ?_⟩
  -- a page keeps its status, unless it is in `R` and becomes reserved
  have hkeep : ∀ st p, p ∈ pagesWith (pmmReserveRange s base size) st ↔
      p < s.totalPages ∧ (R p ∧ st = .reserved ∨ ¬ R p ∧ pageStatus s p = st) := by
    intro st p
    rw [mem_pagesWith, ht]
    constructor
    · rintro ⟨hp, h⟩
      rcases hst p hp with ⟨hr, h'⟩ | ⟨hr, h'⟩
      · exact ⟨hp, .inl ⟨hr, h.symm.trans h'⟩⟩
      · exact ⟨hp, .inr ⟨hr, h'.symm.trans h⟩⟩
    · rintro ⟨hp, h⟩
      rcases hst p hp with ⟨hr, h'⟩ | ⟨hr, h'⟩ <;> rcases h with ⟨hr', h⟩ | ⟨hr', h⟩
      · exact ⟨hp, h'.trans h.symm⟩
      · exact absurd hr hr'
      · exact absurd hr' hr
      · exact ⟨hp, h'.trans h⟩
  refine PageSets.ext_sets ?_ ?_ ?_
  · ext p
    show _ ↔ p ∈ pagesWith s .free \ (pagesWith s .free).filter R
    rw [Finset.mem_sdiff, hmem, mem_pagesWith]
    show p ∈ pagesWith (pmmReserveRange s base size) .free ↔ _
    rw [hkeep]
    constructor
    · rintro ⟨hp, ⟨_, h⟩ | ⟨hr, h⟩⟩
      · exact absurd h (by decide)
      · exact ⟨⟨hp, h⟩, fun hc => hr hc.2⟩
    · rintro ⟨⟨hp, h⟩, hr⟩
      exact ⟨hp, .inr ⟨fun hc => hr ⟨hp, hc⟩, h⟩⟩
  · ext p
    show p ∈ pagesWith (pmmReserveRange s base size) .allocated ↔ p ∈ pagesWith s .allocated
    rw [hkeep, mem_pagesWith]
    constructor
    · rintro ⟨hp, ⟨_, h⟩ | ⟨_, h⟩⟩
      · exact absurd h (by decide)
      · exact ⟨hp, h⟩
    · rintro ⟨hp, h⟩
      refine ⟨hp, .inr ⟨fun hr => ?_, h⟩⟩
      rw [hRfree p hr] at h
      exact absurd h (by decide)
  · ext p
    show p ∈ pagesWith (pmmReserveRange s base size) .reserved ↔
      p ∈ pagesWith s .reserved ∪ (pagesWith s .free).filter R
    rw [hkeep, Finset.mem_union, hmem, mem_pagesWith]
    constructor
    · rintro ⟨hp, ⟨hr, _⟩ | ⟨_, h⟩⟩
      · exact .inr ⟨hp, hr⟩
      · exact .inl ⟨hp, h⟩
    · rintro (⟨hp, h⟩ | ⟨hp, hr⟩)
      · refine ⟨hp, .inr ⟨fun hr => ?_, h⟩⟩
        rw [hRfree p hr] at h
        exact absurd h (by decide)
      · exact ⟨hp, .inl ⟨hr, rfl⟩⟩

/-- Every call of the source is a step of the abstract allocator. -/
theorem exec_absStep (hG : Good s) (op : PmmOp) :
    AbsStep (pageAddr s) (sets s) op (op.exec s).1 (sets (op.exec s).2) := by
  cases op with
  | allocPage =>
    rcases pmmAllocPage_spec hG.inv with ⟨hrun, hnone⟩ | ⟨x, s', hrun, hx, hst, hC⟩
    · rw [PmmOp.exec, hrun]
      refine AbsStep.allocNone (Finset.eq_empty_of_forall_notMem ?_)
      intro p hp
      have hp' := mem_pagesWith.mp hp
      exact hnone p hp'.1 hp'.2
    · have hmem : x ∈ (sets s).free := mem_pagesWith.mpr ⟨hx, hst⟩
      rw [PmmOp.exec, hrun, sets_handOut hC hmem]
      exact AbsStep.allocSome hmem
        (pageAddr_ne_zero hG.window hx (hG.ne_zero hx (by rw [hst]; decide)))
  | freePage addr =>
    by_cases hhit : ∃ p, p ∈ (sets s).allocated ∧ addr = pageAddr s p
    · obtain ⟨x, hx, rfl⟩ := hhit
      have hx' := mem_pagesWith.mp hx
      rw [PmmOp.exec, sets_takeBack (pmmFreePage_hit hG hx'.1 hx'.2) hx]
      exact AbsStep.freeHit hx
    · have hmiss : pmmFreePage s addr = s := by
        refine pmmFreePage_miss hG (fun p hp hst heq => hhit ⟨p, ?_, heq⟩)
        exact mem_pagesWith.mpr ⟨hp, hst⟩
      rw [PmmOp.exec, hmiss]
      exact AbsStep.freeMiss (fun p hp heq => hhit ⟨p, hp, heq⟩)
  | reserveRange base size =>
    obtain ⟨R, hR, hsets⟩ := sets_setAside hG.inv base size
    rw [PmmOp.exec, hsets]
    exact AbsStep.reserve base size R hR

/-- No step of the abstract allocator gives a reserved page up. -/
theorem AbsStep.reserved_subset {addr : ℕ → BitVec 64} {A B : PageSets} {op : PmmOp}
    {ret : BitVec 64} (h : AbsStep addr A op ret B) : A.reserved ⊆ B.reserved := by
  cases h with
  | allocNone _ => exact Finset.Subset.refl _
  | allocSome _ _ => exact Finset.Subset.refl _
  | freeHit _ => exact Finset.Subset.refl _
  | freeMiss _ => exact Finset.Subset.refl _
  | reserve _ _ R _ => exact Finset.subset_union_left

/-- Reserved pages stay reserved along every run. -/
theorem reserved_runOps (hG : Good s) (ops : List PmmOp) :
    (sets s).reserved ⊆ (sets (runOps s ops)).reserved := by
  induction ops generalizing s with
  | nil => exact Finset.Subset.refl _
  | cons op ops ih =>
    exact Finset.Subset.trans (exec_absStep hG op).reserved_subset (ih (good_exec hG op).1)

/-- `pmm_alloc_page` returns NULL exactly when no page is free. -/
theorem pmmAllocPage_eq_zero_iff (hG : Good s) :
    (pmmAllocPage s).1 = 0#64 ↔ (sets s).free = ∅ := by
  have hstep := exec_absStep hG .allocPage
  have hret : (PmmOp.exec s .allocPage).1 = (pmmAllocPage s).1 := rfl
  rw [hret] at hstep
  generalize (pmmAllocPage s).1 = ret at hstep
  generalize sets (PmmOp.exec s .allocPage).2 = B at hstep
  cases hstep with
  | allocNone h => exact ⟨fun _ => h, fun _ => rfl⟩
  | allocSome hp hne =>
    refine ⟨fun h => absurd h hne, fun h => ?_⟩
    rw [h] at hp
    exact absurd hp (Finset.notMem_empty _)

end

/-- **Refinement.** In every state reached after `pmm_init`: the three sets partition the
managed pages, different pages have different addresses, `pmm_free_pages` counts the free
set, every call is a step of the abstract allocator with the same return value, NULL is
returned exactly when nothing is free, `pmm_free_page` on an address that belongs to no
allocated page leaves the whole state as it is, and whatever calls follow, reserved pages
stay reserved. -/
theorem runOps_refines (base memorySize : BitVec 64) (ops : List PmmOp) :
    let s := runOps (pmmInit base memorySize) ops
    (∀ p, p < s.totalPages ↔
      p ∈ (sets s).free ∨ p ∈ (sets s).allocated ∨ p ∈ (sets s).reserved) ∧
    (∀ p q, p < s.totalPages → q < s.totalPages → pageAddr s p = pageAddr s q → p = q) ∧
    pmmFreePages s = (sets s).free.card ∧
    (∀ op, AbsStep (pageAddr s) (sets s) op (op.exec s).1 (sets (op.exec s).2)) ∧
    ((pmmAllocPage s).1 = 0#64 ↔ (sets s).free = ∅) ∧
    (∀ addr, (∀ p ∈ (sets s).allocated, addr ≠ pageAddr s p) → pmmFreePage s addr = s) ∧
    ∀ more, (sets s).reserved ⊆ (sets (runOps s more)).reserved := by
  intro s
  have hG : Good s := (good_runOps (good_pmmInit base memorySize) ops).1
  refine ⟨?_, ?_, freePages_eq_card hG.inv, exec_absStep hG, pmmAllocPage_eq_zero_iff hG, ?_,
    reserved_runOps hG⟩
  · intro p
    refine ⟨sets_cover hG.inv, ?_⟩
    rintro (hp | hp | hp) <;> exact (mem_pagesWith.mp hp).1
  · intro p q hp hq
    exact pageAddr_injective hG.window hp hq
  · intro addr hmiss
    exact pmmFreePage_miss hG (fun p hp hst => hmiss p (mem_pagesWith.mpr ⟨hp, hst⟩))

end GnuOS.Pmm

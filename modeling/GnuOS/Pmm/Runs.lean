import GnuOS.Pmm.Init

/-!
# Calls and runs of the page allocator

One specification lemma for each function of the interface, in terms of page statuses, and
from these the invariant of every reachable state. The main result of this file is the
representation invariant, spelled out over the arrays of the source
(`runOps_representation`).
-/

namespace GnuOS.Pmm

open GnuOS.Lib BitVec

/-- The address of a managed page, `g_base + page * MM_PAGE_SIZE`. -/
def pageAddr (s : PmmState) (p : ℕ) : BitVec 64 := s.base + BitVec.ofNat 64 (p * mmPageSize)

/-- What holds between two calls: the invariant of the arrays, a window inside the address
space, and page 0 reserved. -/
structure Good (s : PmmState) : Prop where
  inv : Inv s
  window : s.base.toNat + s.totalPages * 4096 < 2 ^ 64
  zero_reserved : 0 < s.totalPages → pageStatus s 0 = .reserved

section
variable {s s' : PmmState} {p q x : ℕ} {addr : BitVec 64}

/-! ## Addresses -/

section

variable (hw : s.base.toNat + s.totalPages * 4096 < 2 ^ 64)

include hw

theorem pageAddr_toNat (hp : p < s.totalPages) :
    (pageAddr s p).toNat = s.base.toNat + p * 4096 := by
  unfold pageAddr mmPageSize
  rw [toNat_add, toNat_ofNat]
  omega

/-- Different pages have different addresses. -/
theorem pageAddr_injective (hp : p < s.totalPages) (hq : q < s.totalPages)
    (heq : pageAddr s p = pageAddr s q) :
    p = q := by
  have h := congrArg BitVec.toNat heq
  rw [pageAddr_toNat hw hp, pageAddr_toNat hw hq] at h
  omega

theorem pageAddr_ne_zero (hp : p < s.totalPages) (hp0 : p ≠ 0) : pageAddr s p ≠ 0#64 := by
  intro heq
  have h := congrArg BitVec.toNat heq
  rw [pageAddr_toNat hw hp, toNat_ofNat] at h
  omega

/-- The page an address belongs to, if it is the address of a managed page. -/
theorem eq_pageAddr_iff (hp : p < s.totalPages) :
    addr = pageAddr s p ↔ s.base ≤ addr ∧ (addr - s.base).toNat = p * 4096 := by
  have haddr := addr.isLt
  constructor
  · rintro rfl
    have hnat := pageAddr_toNat hw hp
    have hle : s.base ≤ pageAddr s p := by
      rw [le_def, hnat]
      omega
    refine ⟨hle, ?_⟩
    rw [toNat_sub_of_le hle, hnat]
    omega
  · rintro ⟨hle, hdiff⟩
    apply eq_of_toNat_eq
    rw [pageAddr_toNat hw hp]
    rw [toNat_sub_of_le hle] at hdiff
    rw [le_def] at hle
    omega

end

/-! ## Statuses and block marks -/

/-- Every managed page has a status. -/
theorem Inv.status_ne_unused (hI : Inv s) (hp : p < s.totalPages) :
    pageStatus s p ≠ .unused :=
  (HoleInv.tiling hI |>.owner_covers p hp (not_inHole_zero 0 p)).1.1

/-- A page that is not free is a block of its own. -/
theorem Inv.owner_of_not_free (hI : Inv s) (hp : p < s.totalPages)
    (hst : pageStatus s p ≠ .free) : s.pageOwner p = p ∧ s.blockOrder p = 0 := by
  obtain ⟨hown, hcov⟩ := HoleInv.tiling hI |>.owner_covers p hp (not_inHole_zero 0 p)
  have hord := HoleInv.tiling hI |>.small _ hown hst
  rw [hord] at hcov
  have heq := covers_zero_iff.mp hcov
  refine ⟨heq.symm, ?_⟩
  rw [← heq] at hord
  exact hord

/-- A marked page has its mark as status. -/
theorem Inv.status_of_mark (hI : Inv s) (hst : s.blockState p ≠ .unused) :
    p < s.totalPages ∧ pageStatus s p = s.blockState p := by
  have hblk : IsBlock s 0 0 p := ⟨hst, not_inHole_zero 0 p⟩
  exact ⟨HoleInv.tiling hI |>.block_lt hblk,
    HoleInv.tiling hI |>.status_of_covers hblk (covers_start _ _)⟩

/-- Nothing is free exactly when every list is empty. -/
theorem Inv.no_free_page (hI : Inv s)
    (hempty : ∀ j, j ≤ pmmMaxOrder → s.freeHeads j = pmmInvalidIndex) (hp : p < s.totalPages) :
    pageStatus s p ≠ .free := by
  intro hst
  obtain ⟨hown, _⟩ := HoleInv.tiling hI |>.owner_covers p hp (not_inHole_zero 0 p)
  have hfo : freeOrder s 0 0 (s.pageOwner p) = some (s.blockOrder (s.pageOwner p)) :=
    freeOrder_eq_some_iff.mpr ⟨not_inHole_zero 0 _, hst, rfl⟩
  have hhead := hempty _ (HoleInv.tiling hI |>.order_le hown)
  exact (HoleInv.lists hI |>.head_eq_invalid_iff).mp hhead _ hfo

/-! ## The interface -/

/-- `s'` is `s` with the status of one page changed. -/
structure Changes (s s' : PmmState) (x : ℕ) (st : BlockState) : Prop where
  inv : Inv s'
  base : s'.base = s.base
  total : s'.totalPages = s.totalPages
  status : ∀ p, p < s.totalPages → pageStatus s' p = if p = x then st else pageStatus s p

theorem Changes.of_sameOutside {st : BlockState} (hI : Inv s') (hS : SameOutside s s' x 1)
    (hx : pageStatus s' x = st) : Changes s s' x st := by
  refine ⟨hI, hS.base, hS.total, ?_⟩
  intro p hp
  by_cases hpx : p = x
  · rw [if_pos hpx, hpx, hx]
  · rw [if_neg hpx, hS.status p hp (by unfold InHole; omega)]

/-- `pmm_alloc_page`: NULL and no change when nothing is free, else the address of a page
that was free and is allocated now. -/
theorem pmmAllocPage_spec (hI : Inv s) :
    (pmmAllocPage s = (0#64, s) ∧ ∀ p, p < s.totalPages → pageStatus s p ≠ .free) ∨
    ∃ x s', pmmAllocPage s = (pageAddr s x, s') ∧ x < s.totalPages ∧
      pageStatus s x = .free ∧ Changes s s' x .allocated := by
  rcases allocLoop_spec hI (pmmMaxOrder + 1) 0 (by omega) (fun j hj => absurd hj (by omega)) with
    ⟨hrun, hempty⟩ | ⟨b, s', hrun, hlt, hst, hI', hS', hst'⟩
  · left
    refine ⟨?_, fun p hp => hI.no_free_page hempty hp⟩
    rw [pmmAllocPage, allocBlock, Nat.sub_zero, hrun]
    exact if_pos rfl
  · right
    refine ⟨b, s', ?_, hlt, hst, Changes.of_sameOutside hI' hS' hst'⟩
    have hmax := HoleInv.tiling hI |>.total_le
    have hne : b ≠ pmmInvalidIndex := by
      unfold pmmInvalidIndex
      unfold pmmMaxPages at hmax
      omega
    rw [pmmAllocPage, allocBlock, Nat.sub_zero, hrun]
    simp only [if_neg hne]
    rw [hS'.base]
    rfl

/-- `pmm_free_page` on the address of an allocated page. -/
theorem pmmFreePage_hit (hG : Good s) (hx : x < s.totalPages)
    (hst : pageStatus s x = .allocated) :
    Changes s (pmmFreePage s (pageAddr s x)) x .free := by
  obtain ⟨hown, hord⟩ := hG.inv.owner_of_not_free hx (by rw [hst]; decide)
  have hmark : s.blockState x = .allocated := by
    rw [pageStatus, hown] at hst
    exact hst
  obtain ⟨hle, hdiff⟩ := (eq_pageAddr_iff hG.window hx).mp (rfl : pageAddr s x = pageAddr s x)
  have hpage : (pageAddr s x - s.base).toNat / mmPageSize = x := by
    rw [hdiff]
    exact Nat.mul_div_cancel x (by decide)
  have hmod : (pageAddr s x - s.base).toNat % mmPageSize = 0 := by
    rw [hdiff]
    exact Nat.mul_mod_left x _
  obtain ⟨hI₁, hS₁⟩ := hG.inv.clearAllocated hmark hord
  obtain ⟨hI₂, hS₂, hst₂⟩ := freeBlock_spec hI₁
  have hrun : pmmFreePage s (pageAddr s x) = freeBlock (clearBlockHead s x) x 0 := by
    have hnot : ¬ (s.totalPages = 0 ∨ pageAddr s x < s.base) := by
      rintro (h0 | hlt)
      · omega
      · rw [lt_def] at hlt
        rw [le_def] at hle
        omega
    rw [pmmFreePage, if_neg hnot]
    simp only [hmod, hpage]
    rw [if_neg (by decide), if_neg (by omega),
      if_neg (by rintro (h | h); exact h hmark; exact h hord)]
  rw [hrun]
  exact Changes.of_sameOutside hI₂ (hS₁.trans hS₂ fun _ h => h) hst₂

/-- `pmm_free_page` on any other address. -/
theorem pmmFreePage_miss (hG : Good s)
    (hmiss : ∀ p, p < s.totalPages → pageStatus s p = .allocated → addr ≠ pageAddr s p) :
    pmmFreePage s addr = s := by
  rw [pmmFreePage]
  split
  · rfl
  · next hrange =>
    simp only
    split
    · rfl
    split
    · rfl
    split
    · rfl
    · next hmod hpage hmark =>
      -- all checks passed: the address is that of an allocated page
      exfalso
      push Not at hrange hmod hmark
      have hlt : (addr - s.base).toNat / mmPageSize < s.totalPages := by omega
      have hst := (hG.inv.status_of_mark (by rw [hmark.1]; decide)).2
      refine hmiss _ hlt (by rw [hst]; exact hmark.1) ?_
      rw [eq_pageAddr_iff hG.window hlt]
      refine ⟨BitVec.not_lt.mp hrange.2, ?_⟩
      have := Nat.div_add_mod (addr - s.base).toNat mmPageSize
      unfold mmPageSize at *
      omega

/-- The loop of `pmm_reserve_range` reserves the free pages it passes. -/
theorem reserveRangeLoop_spec : ∀ (count : ℕ) (s : PmmState) (page : ℕ), Inv s →
    Inv (reserveRangeLoop count s page) ∧ (reserveRangeLoop count s page).base = s.base ∧
      (reserveRangeLoop count s page).totalPages = s.totalPages ∧
      ∀ p, p < s.totalPages → pageStatus (reserveRangeLoop count s page) p =
        if page ≤ p ∧ p < page + count ∧ pageStatus s p = .free then .reserved
        else pageStatus s p := by
  intro count
  induction count with
  | zero =>
    intro s page hI
    refine ⟨hI, rfl, rfl, ?_⟩
    intro p _
    rw [if_neg (by omega)]
    rfl
  | succ count ih =>
    intro s page hI
    rw [reserveRangeLoop]
    -- only a free page of the managed range changes; `reserve_page` refuses the others
    by_cases hfree : page < s.totalPages ∧ pageStatus s page = .free
    · obtain ⟨s', hrun, hI', hS', hst'⟩ := reservePage_free hI hfree.1 hfree.2
      obtain ⟨hI'', hb, ht, hst⟩ := ih s' (page + 1) hI'
      rw [hrun]
      refine ⟨hI'', hb.trans hS'.base, ht.trans hS'.total, ?_⟩
      intro p hp
      rw [hst p (by rw [hS'.total]; exact hp)]
      by_cases hpp : p = page
      · subst hpp
        rw [if_neg (by omega), hst', if_pos ⟨by omega, by omega, hfree.2⟩]
      · rw [hS'.status p hp (by unfold InHole; omega)]
        refine if_congr ?_ rfl rfl
        constructor
        · rintro ⟨h1, h2, h3⟩
          exact ⟨by omega, by omega, h3⟩
        · rintro ⟨h1, h2, h3⟩
          exact ⟨by omega, by omega, h3⟩
    · have hsame : (reservePage s page).2 = s :=
        reservePage_of_ne_free (fun hlt hst => hfree ⟨hlt, hst⟩)
      obtain ⟨hI'', hb, ht, hst⟩ := ih s (page + 1) hI
      rw [hsame]
      refine ⟨hI'', hb, ht, ?_⟩
      intro p hp
      rw [hst p hp]
      refine if_congr ?_ rfl rfl
      constructor
      · rintro ⟨h1, h2, h3⟩
        exact ⟨by omega, by omega, h3⟩
      · rintro ⟨h1, h2, h3⟩
        have hpp : p ≠ page := by
          rintro rfl
          exact hfree ⟨hp, h3⟩
        exact ⟨by omega, by omega, h3⟩

/-- `pmm_reserve_range`: some free pages become reserved, nothing else changes. -/
theorem pmmReserveRange_spec (hI : Inv s) (base size : BitVec 64) :
    ∃ R : ℕ → Prop, (∀ p, R p → pageStatus s p = .free) ∧
      Inv (pmmReserveRange s base size) ∧ (pmmReserveRange s base size).base = s.base ∧
      (pmmReserveRange s base size).totalPages = s.totalPages ∧
      ∀ p, p < s.totalPages → (R p ∧ pageStatus (pmmReserveRange s base size) p = .reserved) ∨
        (¬ R p ∧ pageStatus (pmmReserveRange s base size) p = pageStatus s p) := by
  rw [pmmReserveRange]
  cases reserveBounds s base size with
  | none => exact ⟨fun _ => False, fun _ h => h.elim, hI, rfl, rfl, fun p _ => .inr ⟨id, rfl⟩⟩
  | some bounds =>
    obtain ⟨hI', hb, ht, hst⟩ := reserveRangeLoop_spec (bounds.2 - bounds.1) s bounds.1 hI
    refine ⟨fun p => bounds.1 ≤ p ∧ p < bounds.1 + (bounds.2 - bounds.1) ∧
      pageStatus s p = .free, fun p h => h.2.2, hI', hb, ht, ?_⟩
    intro p hp
    have hp' := hst p hp
    split at hp'
    · next hR => exact .inl ⟨hR, hp'⟩
    · next hR => exact .inr ⟨hR, hp'⟩

/-! ## Reachable states -/

theorem Good.changes (hG : Good s) {st : BlockState} (hC : Changes s s' x st) (hx : x ≠ 0) :
    Good s' := by
  refine ⟨hC.inv, by rw [hC.base, hC.total]; exact hG.window, ?_⟩
  intro hpos
  rw [hC.total] at hpos
  rw [hC.status 0 hpos, if_neg hx.symm]
  exact hG.zero_reserved hpos

/-- The page a call hands out or takes back is not page 0. -/
theorem Good.ne_zero (hG : Good s) (hx : x < s.totalPages) (hst : pageStatus s x ≠ .reserved) :
    x ≠ 0 := by
  rintro rfl
  exact hst (hG.zero_reserved hx)

theorem good_pmmInit (base memorySize : BitVec 64) : Good (pmmInit base memorySize) := by
  obtain ⟨hI, hb, ht, hst⟩ := pmmInit_spec base memorySize
  refine ⟨hI, ?_, ?_⟩
  · rw [hb, ht]
    exact window_lt base memorySize
  · intro hpos
    rw [ht] at hpos
    rw [hst 0 hpos, if_pos rfl]

/-- Every call keeps the invariant and the window. -/
theorem good_exec (hG : Good s) (op : PmmOp) :
    Good (op.exec s).2 ∧ (op.exec s).2.base = s.base ∧
      (op.exec s).2.totalPages = s.totalPages := by
  cases op with
  | allocPage =>
    show Good (pmmAllocPage s).2 ∧ _
    rcases pmmAllocPage_spec hG.inv with ⟨hrun, _⟩ | ⟨x, s', hrun, hx, hst, hC⟩
    · rw [PmmOp.exec, hrun]
      exact ⟨hG, rfl, rfl⟩
    · rw [PmmOp.exec, hrun]
      exact ⟨hG.changes hC (hG.ne_zero hx (by rw [hst]; decide)), hC.base, hC.total⟩
  | freePage addr =>
    show Good (pmmFreePage s addr) ∧ (pmmFreePage s addr).base = _ ∧
      (pmmFreePage s addr).totalPages = _
    by_cases hhit : ∃ p, p < s.totalPages ∧ pageStatus s p = .allocated ∧ addr = pageAddr s p
    · obtain ⟨x, hx, hst, rfl⟩ := hhit
      have hC := pmmFreePage_hit hG hx hst
      exact ⟨hG.changes hC (hG.ne_zero hx (by rw [hst]; decide)), hC.base, hC.total⟩
    · have hmiss : pmmFreePage s addr = s :=
        pmmFreePage_miss hG (fun p hp hst heq => hhit ⟨p, hp, hst, heq⟩)
      rw [hmiss]
      exact ⟨hG, rfl, rfl⟩
  | reserveRange base size =>
    show Good (pmmReserveRange s base size) ∧ (pmmReserveRange s base size).base = _ ∧
      (pmmReserveRange s base size).totalPages = _
    obtain ⟨R, hR, hI', hb, ht, hst⟩ := pmmReserveRange_spec hG.inv base size
    refine ⟨⟨hI', by rw [hb, ht]; exact hG.window, ?_⟩, hb, ht⟩
    intro hpos
    rw [ht] at hpos
    rcases hst 0 hpos with ⟨_, h0⟩ | ⟨_, h0⟩
    · exact h0
    · rw [h0]
      exact hG.zero_reserved hpos

/-- The invariant holds along every run. -/
theorem good_runOps (hG : Good s) (ops : List PmmOp) :
    Good (runOps s ops) ∧ (runOps s ops).base = s.base ∧
      (runOps s ops).totalPages = s.totalPages := by
  induction ops generalizing s with
  | nil => exact ⟨hG, rfl, rfl⟩
  | cons op ops ih =>
    obtain ⟨hG', hb, ht⟩ := good_exec hG op
    obtain ⟨hG'', hb', ht'⟩ := ih hG'
    exact ⟨hG'', hb'.trans hb, ht'.trans ht⟩

end

/-! ## The representation invariant -/

/-- The marked pages and their orders tile `[0, totalPages)`: every block is aligned and
inside the window, every page lies in exactly one block, and `pageOwner` names it. -/
def TilesWindow (s : PmmState) : Prop :=
  (∀ b, s.blockState b ≠ .unused →
    2 ^ s.blockOrder b ∣ b ∧ b + 2 ^ s.blockOrder b ≤ s.totalPages) ∧
  ∀ p, p < s.totalPages → s.blockState (s.pageOwner p) ≠ .unused ∧
    Covers (s.pageOwner p) (s.blockOrder (s.pageOwner p)) p ∧
    ∀ b, s.blockState b ≠ .unused → Covers b (s.blockOrder b) p → b = s.pageOwner p

/-- The list of order `k` is finite, runs along `freeNext` with `freePrev` as its inverse,
repeats no page, and holds exactly the free blocks of order `k`. -/
def FreeListExact (s : PmmState) (k : ℕ) : Prop :=
  ∃ l : List ℕ, l.Nodup ∧
    Seg s.freeNext s.freePrev pmmInvalidIndex pmmInvalidIndex (s.freeHeads k) l ∧
    ∀ b, b ∈ l ↔ s.blockState b = .free ∧ s.blockOrder b = k

theorem Inv.tilesWindow {s : PmmState} (hI : Inv s) : TilesWindow s := by
  have hT := HoleInv.tiling hI
  have hblk : ∀ {b}, s.blockState b ≠ .unused → IsBlock s 0 0 b :=
    fun hb => ⟨hb, not_inHole_zero 0 _⟩
  refine ⟨fun b hb => ⟨hT.aligned b (hblk hb), hT.fits b (hblk hb)⟩, ?_⟩
  intro p hp
  obtain ⟨hown, hcov⟩ := hT.owner_covers p hp (not_inHole_zero 0 p)
  exact ⟨hown.1, hcov, fun b hb hbp => (hT.owner_eq b p (hblk hb) hbp).symm⟩

theorem freeOrder_zero_iff {s : PmmState} {b k : ℕ} :
    freeOrder s 0 0 b = some k ↔ s.blockState b = .free ∧ s.blockOrder b = k := by
  rw [freeOrder_eq_some_iff]
  simp [not_inHole_zero]

theorem Inv.freeListExact {s : PmmState} (hI : Inv s) (k : ℕ) : FreeListExact s k := by
  obtain ⟨l, hnd, hseg, hmem⟩ := HoleInv.lists hI k
  exact ⟨l, hnd, hseg, fun b => by rw [hmem, freeOrder_zero_iff]⟩

theorem Inv.freePages_eq_sum {s : PmmState} (hI : Inv s) :
    s.freePages = ∑ b ∈ (Finset.range s.totalPages).filter (fun b => s.blockState b = .free),
      2 ^ s.blockOrder b := by
  rw [HoleInv.count hI, freeWeight, Finset.sum_filter]
  apply Finset.sum_congr rfl
  intro b _
  unfold freeOrder
  rw [if_neg (not_inHole_zero 0 b)]
  by_cases hst : s.blockState b = .free
  · rw [if_pos hst, if_pos hst, weight]
  · rw [if_neg hst, if_neg hst, weight]

/-- **Representation invariant of the buddy allocator.** After `pmm_init` on any region and
any sequence of calls, the block marks tile the window, every free list is exact, and the
counter is the sum of the sizes of the free blocks. -/
theorem runOps_representation (base memorySize : BitVec 64) (ops : List PmmOp) :
    (runOps (pmmInit base memorySize) ops).totalPages ≤ pmmMaxPages ∧
    TilesWindow (runOps (pmmInit base memorySize) ops) ∧
    (∀ k, FreeListExact (runOps (pmmInit base memorySize) ops) k) ∧
    (runOps (pmmInit base memorySize) ops).freePages =
      ∑ b ∈ (Finset.range (runOps (pmmInit base memorySize) ops).totalPages).filter
        (fun b => (runOps (pmmInit base memorySize) ops).blockState b = .free),
        2 ^ (runOps (pmmInit base memorySize) ops).blockOrder b := by
  have hI := (good_runOps (good_pmmInit base memorySize) ops).1.inv
  exact ⟨(HoleInv.tiling hI).total_le, hI.tilesWindow, hI.freeListExact, hI.freePages_eq_sum⟩

end GnuOS.Pmm

import GnuOS.Pmm.Refinement

/-!
# Complete coalescing

No two free blocks are buddies, so the free blocks are determined by the set of free pages:
they are its maximal aligned blocks (`Coalesced.isMaximal_iff`). The order in which pages were
taken and given back leaves no trace.
-/

namespace GnuOS.Pmm

open GnuOS.Lib

/-- The free blocks, as pairs of first page and order. -/
def freeBlocks (s : PmmState) : Set (ℕ × ℕ) :=
  {b | s.blockState b.1 = .free ∧ s.blockOrder b.1 = b.2}

section
variable {s t u : PmmState} {p : ℕ}

/-- The free blocks cover the free pages and hold no pair of buddies. -/
theorem Inv.coalesced (hI : Inv s) :
    Coalesced (↑(sets s).free) (fun h k => (h, k) ∈ freeBlocks s) := by
  have hT := HoleInv.tiling hI
  have hblk : ∀ {h k}, (h, k) ∈ freeBlocks s → IsBlock s 0 0 h :=
    fun hb => ⟨by rw [hb.1]; decide, not_inHole_zero 0 _⟩
  constructor
  case aligned =>
    intro h k hb
    have hal := hT.aligned h (hblk hb)
    rwa [show s.blockOrder h = k from hb.2] at hal
  case covered =>
    intro h k p hb hp
    have hcov : Covers h (s.blockOrder h) p := by rwa [show s.blockOrder h = k from hb.2]
    have hfit := hT.fits h (hblk hb)
    refine Finset.mem_coe.mpr (mem_pagesWith.mpr ⟨?_, ?_⟩)
    · have := hcov.2
      omega
    · rw [hT.status_of_covers (hblk hb) hcov]
      exact hb.1
  case covers =>
    intro p hp
    obtain ⟨hlt, hst⟩ := mem_pagesWith.mp (Finset.mem_coe.mp hp)
    obtain ⟨_, hcov⟩ := hT.owner_covers p hlt (not_inHole_zero 0 p)
    exact ⟨s.pageOwner p, s.blockOrder (s.pageOwner p), ⟨hst, rfl⟩, hcov⟩
  case disjoint =>
    intro h k h' k' p hb hb' hp hp'
    have hk : s.blockOrder h = k := hb.2
    have hk' : s.blockOrder h' = k' := hb'.2
    have heq := hT.block_unique (hblk hb) (hblk hb') (by rwa [hk]) (by rwa [hk'])
    subst heq
    exact ⟨rfl, hk.symm.trans hk'⟩
  case no_buddies =>
    intro h k hal hb hb'
    have hno := HoleInv.no_buddies hI h k (freeOrder_zero_iff.mpr hb)
    rw [xor_two_pow_lower hal] at hno
    exact hno (freeOrder_zero_iff.mpr hb')

/-- The free pages determine the free blocks. -/
theorem freeBlocks_eq_of_free_eq (hs : Inv s) (ht : Inv t) (hfree : (sets s).free = (sets t).free) :
    freeBlocks s = freeBlocks t := by
  ext ⟨h, k⟩
  rw [hs.coalesced.isMaximal_iff, hfree]
  exact (ht.coalesced.isMaximal_iff h k).symm

/-! ## Giving everything back -/

/-- A call that takes no page away that was allocated in `s`, and sets none aside: an
allocation, or a `pmm_free_page` on another address. -/
def PmmOp.Spares (s : PmmState) : PmmOp → Prop
  | .allocPage => True
  | .freePage addr => ∀ p ∈ (sets s).allocated, addr ≠ pageAddr s p
  | .reserveRange _ _ => False

/-- What such calls can do to a page: nothing, or hand it out if it was free. -/
def Outstanding (s t : PmmState) : Prop :=
  ∀ p, p < s.totalPages → pageStatus t p = pageStatus s p ∨
    pageStatus s p = .free ∧ pageStatus t p = .allocated

theorem outstanding_exec (ht : Good t) (hb : t.base = s.base)
    (hn : t.totalPages = s.totalPages) (hO : Outstanding s t) {op : PmmOp} (hop : op.Spares s) :
    Outstanding s (op.exec t).2 := by
  intro p hp
  have hp' : p < t.totalPages := by rw [hn]; exact hp
  cases op with
  | allocPage =>
    rcases pmmAllocPage_spec ht.inv with ⟨hrun, _⟩ | ⟨x, t', hrun, hx, hst, hC⟩
    · rw [PmmOp.exec, hrun]
      exact hO p hp
    · rw [PmmOp.exec, hrun]
      show pageStatus t' p = _ ∨ _ ∧ pageStatus t' p = _
      rw [hC.status p hp']
      by_cases hpx : p = x
      · -- a page that is free in `t` was free in `s`
        rw [if_pos hpx]
        subst hpx
        rcases hO p hp with heq | ⟨_, halloc⟩
        · exact .inr ⟨heq.symm.trans hst, rfl⟩
        · rw [hst] at halloc
          exact absurd halloc (by decide)
      · rw [if_neg hpx]
        exact hO p hp
  | freePage addr =>
    by_cases hhit : ∃ q, q < t.totalPages ∧ pageStatus t q = .allocated ∧ addr = pageAddr t q
    · obtain ⟨x, hx, hst, rfl⟩ := hhit
      have hC := pmmFreePage_hit ht hx hst
      show pageStatus (pmmFreePage t (pageAddr t x)) p = _ ∨
        _ ∧ pageStatus (pmmFreePage t (pageAddr t x)) p = _
      rw [hC.status p hp']
      by_cases hpx : p = x
      · rw [if_pos hpx]
        subst hpx
        rcases hO p hp with heq | ⟨hfree, _⟩
        · -- the page was allocated in `s` already, so the call does not name it
          refine absurd ?_ (hop p (mem_pagesWith.mpr ⟨hp, heq.symm.trans hst⟩))
          rw [pageAddr, pageAddr, hb]
        · exact .inl hfree.symm
      · rw [if_neg hpx]
        exact hO p hp
    · have hmiss : pmmFreePage t addr = t :=
        pmmFreePage_miss ht (fun q hq hst heq => hhit ⟨q, hq, hst, heq⟩)
      rw [PmmOp.exec, hmiss]
      exact hO p hp
  | reserveRange base size => exact hop.elim

theorem outstanding_runOps (ht : Good t) (hb : t.base = s.base)
    (hn : t.totalPages = s.totalPages) (hO : Outstanding s t) {ops : List PmmOp}
    (hops : ∀ op ∈ ops, op.Spares s) : Outstanding s (runOps t ops) := by
  induction ops generalizing t with
  | nil => exact hO
  | cons op ops ih =>
    obtain ⟨ht', hb', hn'⟩ := good_exec ht op
    exact ih ht' (hb'.trans hb) (hn'.trans hn)
      (outstanding_exec ht hb hn hO (hops op List.mem_cons_self))
      (fun op' h => hops op' (List.mem_cons_of_mem op h))

/-- Freeing a list of pages one after the other. -/
theorem status_freeAll (ht : Good t) {L : List ℕ} (hL : ∀ x ∈ L, x < t.totalPages) :
    ∀ p, p < t.totalPages →
      pageStatus (runOps t (L.map fun x => .freePage (pageAddr t x))) p =
        if p ∈ L ∧ pageStatus t p = .allocated then .free else pageStatus t p := by
  induction L generalizing t with
  | nil =>
    intro p _
    rw [if_neg (by simp)]
    rfl
  | cons x L ih =>
    intro p hp
    have hx := hL x List.mem_cons_self
    have haddr : ∀ t' : PmmState, t'.base = t.base → pageAddr t' = pageAddr t := by
      intro t' hb
      funext y
      rw [pageAddr, pageAddr, hb]
    rw [List.map_cons]
    show pageStatus (runOps (pmmFreePage t (pageAddr t x)) _) p = _
    obtain ⟨ht', hb', hn'⟩ := good_exec ht (.freePage (pageAddr t x))
    have hrec := ih ht' (fun y hy => by rw [hn']; exact hL y (List.mem_cons_of_mem x hy)) p
      (by rw [hn']; exact hp)
    rw [haddr _ hb'] at hrec
    refine hrec.trans ?_
    show (if p ∈ L ∧ pageStatus (pmmFreePage t (pageAddr t x)) p = .allocated then _ else
      pageStatus (pmmFreePage t (pageAddr t x)) p) = _
    by_cases hst : pageStatus t x = .allocated
    · rw [(pmmFreePage_hit ht hx hst).status p hp]
      by_cases hpx : p = x
      · subst hpx
        simp [hst]
      · simp [hpx]
    · have hmiss : pmmFreePage t (pageAddr t x) = t := by
        refine pmmFreePage_miss ht (fun q hq hstq heq => hst ?_)
        rw [pageAddr_injective ht.window hx hq heq]
        exact hstq
      rw [hmiss]
      by_cases hpx : p = x
      · subst hpx
        simp [hst]
      · simp [hpx]

/-- Giving back what was handed out since `s` restores the free set of `s`. -/
theorem free_eq_of_giveBack (ht : Good t) (hn : t.totalPages = s.totalPages)
    (hO : Outstanding s t) {L : List ℕ}
    (hL : ∀ p, p ∈ L ↔ p ∈ (sets t).allocated ∧ p ∉ (sets s).allocated) :
    (sets (runOps t (L.map fun x => .freePage (pageAddr t x)))).free = (sets s).free := by
  have hLlt : ∀ x ∈ L, x < t.totalPages :=
    fun x hx => (mem_pagesWith.mp ((hL x).mp hx).1).1
  obtain ⟨_, _, hn'⟩ := good_runOps ht (L.map fun x => .freePage (pageAddr t x))
  ext p
  show p ∈ pagesWith _ .free ↔ p ∈ pagesWith s .free
  rw [mem_pagesWith, mem_pagesWith, hn', hn]
  refine and_congr_right (fun hp => ?_)
  have hp' : p < t.totalPages := by rw [hn]; exact hp
  rw [status_freeAll ht hLlt p hp']
  have hmemL : p ∈ L ↔ pageStatus t p = .allocated ∧ pageStatus s p ≠ .allocated := by
    rw [hL]
    show p ∈ pagesWith t .allocated ∧ p ∉ pagesWith s .allocated ↔ _
    rw [mem_pagesWith, mem_pagesWith]
    constructor
    · rintro ⟨⟨_, h1⟩, h2⟩
      exact ⟨h1, fun h => h2 ⟨hp, h⟩⟩
    · rintro ⟨h1, h2⟩
      exact ⟨⟨hp', h1⟩, fun h => h2 h.2⟩
  by_cases hin : p ∈ L ∧ pageStatus t p = .allocated
  · rw [if_pos hin]
    obtain ⟨halloc, hnot⟩ := hmemL.mp hin.1
    rcases hO p hp with heq | ⟨hfree, _⟩
    · exact absurd (heq.symm.trans halloc) hnot
    · simp [hfree]
  · rw [if_neg hin]
    rcases hO p hp with heq | ⟨hfree, halloc⟩
    · rw [heq]
    · exact absurd ⟨hmemL.mpr ⟨halloc, by rw [hfree]; decide⟩, halloc⟩ hin

end

/-- **History independence.** In every reachable state the free blocks are the maximal
aligned blocks inside the set of free pages. So two runs over windows of one size that end
with the same free pages end with the same free blocks; and when some pages have been handed
out since a state `s`, with any allocations and frees in between, giving all of them back, in
any order, restores the free blocks of `s`. -/
theorem runOps_coalesced (base memorySize : BitVec 64) (ops : List PmmOp) :
    let s := runOps (pmmInit base memorySize) ops
    (∀ h k, (h, k) ∈ freeBlocks s ↔ IsMaximal (↑(sets s).free) h k) ∧
    (∀ (base' memorySize' : BitVec 64) (ops' : List PmmOp),
      let s' := runOps (pmmInit base' memorySize') ops'
      s'.totalPages = s.totalPages → (sets s').free = (sets s).free →
        freeBlocks s' = freeBlocks s) ∧
    ∀ more : List PmmOp, (∀ op ∈ more, op.Spares s) →
      let t := runOps s more
      ∀ L : List ℕ, (∀ p, p ∈ L ↔ p ∈ (sets t).allocated ∧ p ∉ (sets s).allocated) →
        freeBlocks (runOps t (L.map fun p => .freePage (pageAddr t p))) = freeBlocks s := by
  intro s
  have hG : Good s := (good_runOps (good_pmmInit base memorySize) ops).1
  refine ⟨hG.inv.coalesced.isMaximal_iff, ?_, ?_⟩
  · intro base' memorySize' ops' s' _ hfree
    have hG' : Good s' := (good_runOps (good_pmmInit base' memorySize') ops').1
    exact freeBlocks_eq_of_free_eq hG'.inv hG.inv hfree
  · intro more hmore t L hL
    obtain ⟨ht, _, hn⟩ := good_runOps hG more
    have hO : Outstanding s t := outstanding_runOps hG rfl rfl (fun p _ => .inl rfl) hmore
    have hGu := (good_runOps ht (L.map fun p => .freePage (pageAddr t p))).1
    exact freeBlocks_eq_of_free_eq hGu.inv hG.inv (free_eq_of_giveBack ht hn hO hL)

/-- A window of five pages: three pages are taken, the second is given back at once, and the
other two are given back in the order opposite to the one they were taken in. -/
theorem runOps_coalesced_five_pages :
    let s := pmmInit 0x100000#64 0x5000#64
    let t := runOps s [.allocPage, .allocPage, .freePage 0x101000#64, .allocPage]
    (sets t).allocated = {1, 4} ∧
      freeBlocks (runOps t [.freePage 0x104000#64, .freePage 0x101000#64]) = freeBlocks s := by
  intro s t
  have halloc : (sets t).allocated = {1, 4} := by decide
  have hnone : (sets s).allocated = ∅ := by decide
  refine ⟨halloc, ?_⟩
  have h := (runOps_coalesced 0x100000#64 0x5000#64 []).2.2
    [.allocPage, .allocPage, .freePage 0x101000#64, .allocPage] (by
      show ∀ op ∈ _, PmmOp.Spares s op
      simp [PmmOp.Spares, hnone]) [4, 1] (by
      show ∀ p, p ∈ [4, 1] ↔ p ∈ (sets t).allocated ∧ p ∉ (sets s).allocated
      rw [halloc, hnone]
      intro p
      simp [or_comm])
  exact h

end GnuOS.Pmm

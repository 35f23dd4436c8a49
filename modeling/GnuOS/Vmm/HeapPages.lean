import GnuOS.Vmm.Frames

/-!
# The pages of the kernel heap

`vmm_alloc_kernel_pages` takes a frame for each page, maps it, and takes everything back when one
of these steps fails.  `HalfWay` says what holds at each step, and nothing is assumed of the heap
window: it may lie anywhere, and pages in it may be mapped already.  The rollback works because the
page table of a page that was just mapped is still there, so unmapping it cannot fail, and because
the frame it was mapped to is one that the page allocator has handed out.
-/

namespace GnuOS.Vmm

open GnuOS.Lib GnuOS.Pmm List
open BitVec hiding not_or append_assoc

/-! ## Addresses of heap pages -/

/-- Page `i` of the heap that starts at `base`. -/
def heapPage (base : BitVec 64) (i : ℕ) : BitVec 64 := base + BitVec.ofNat 64 (i * 4096)

/-- Consecutive heap pages with their frames, from page `k` on. -/
def pagesFrom : ℕ → List (BitVec 64) → List (ℕ × BitVec 64)
  | _, [] => []
  | k, p :: frames => (k, p) :: pagesFrom (k + 1) frames

theorem pagesFrom_snd (k : ℕ) (frames : List (BitVec 64)) :
    (pagesFrom k frames).map Prod.snd = frames := by
  induction frames generalizing k with
  | nil => rfl
  | cons p frames ih => rw [pagesFrom, map_cons, ih]

theorem mem_pagesFrom {k i : ℕ} {p : BitVec 64} {frames : List (BitVec 64)} :
    (i, p) ∈ pagesFrom k frames ↔ k ≤ i ∧ frames[i - k]? = some p := by
  induction frames generalizing k with
  | nil => simp [pagesFrom]
  | cons q frames ih =>
    rw [pagesFrom, mem_cons, ih, Prod.mk.injEq]
    by_cases hik : i = k
    · subst hik
      have hlt : ¬ i + 1 ≤ i := by omega
      simp [hlt, eq_comm]
    · by_cases hlt : k + 1 ≤ i
      · have hsub : i - k = (i - (k + 1)) + 1 := by omega
        have hle : k ≤ i := by omega
        rw [hsub, getElem?_cons_succ]
        simp [hik, hlt, hle]
      · have hle : ¬ k ≤ i := by omega
        simp [hik, hlt, hle]

section Address

variable {base : BitVec 64} {i j : ℕ}

theorem heapPage_toNat (hi : base.toNat + i * 4096 < 2 ^ 64) :
    (heapPage base i).toNat = base.toNat + i * 4096 := by
  unfold heapPage
  rw [toNat_add, toNat_ofNat]
  omega

theorem heapPage_injective (hi : base.toNat + i * 4096 < 2 ^ 64)
    (hj : base.toNat + j * 4096 < 2 ^ 64) (h : heapPage base i = heapPage base j) : i = j := by
  have heq := congrArg BitVec.toNat h
  rw [heapPage_toNat hi, heapPage_toNat hj] at heq
  omega

theorem heapPage_succ : heapPage base i + mmPageSize = heapPage base (i + 1) := by
  have hmul : (i + 1) * 4096 = i * 4096 + 4096 := by omega
  rw [heapPage, heapPage, hmul, ofNat_add, BitVec.add_assoc]
  rfl

theorem heapPage_zero : heapPage base 0 = base := by simp [heapPage]

theorem heapPage_add : heapPage base i + BitVec.ofNat 64 (j * 4096) = heapPage base (i + j) := by
  rw [heapPage, heapPage, Nat.add_mul, ofNat_add, BitVec.add_assoc]

/-- The number of pages between two heap pages. -/
theorem heapPage_sub_div (hj : j * 4096 < 2 ^ 64) :
    ((heapPage base (i + j) - heapPage base i) / mmPageSize).toNat = j := by
  have hsize : mmPageSize.toNat = 4096 := rfl
  rw [← heapPage_add, add_comm, add_sub_cancel, toNat_udiv, hsize,
    toNat_ofNat, Nat.mod_eq_of_lt hj, Nat.mul_div_cancel j (by decide)]

end Address

/-- `vmm_translate` and `vmm_query_mapping` agree. -/
theorem vmmTranslate_eq {σ : Type} (s : VmmState σ) (x : BitVec 64) :
    vmmTranslate s x = (vmmQueryMapping s x).map Prod.fst := by
  unfold vmmTranslate vmmQueryMapping
  simp only
  repeat' split
  all_goals rfl

theorem ChangesPage.query_eq {σ : Type} {A : PageAllocator σ} {s s' : VmmState σ} {v : BitVec 64}
    (h : ChangesPage A s s' v (vmmQueryMapping s)) (x : BitVec 64) :
    vmmQueryMapping s' x = vmmQueryMapping s x := by
  by_cases hpage : SamePage x v
  · exact h.page x hpage
  · exact h.other x hpage

/-! ## Pages that can be unmapped -/

section Walkable

variable {σ : Type} {A : PageAllocator σ} {s : VmmState σ} {v p flags pt : BitVec 64}

theorem Walkable.walk (h : Walkable s v pt) :
    vmmWalkToPt A s v false = (some (pt, vmmPtIndex v), s) := by
  obtain ⟨pd, hpd, hchild⟩ := tableAt_snoc_some [vmmPml4Index v, vmmPdptIndex v] h.table
  obtain ⟨hp4, hp3, hsmall3, hpd'⟩ := path_to_pd hpd
  obtain ⟨hp2, hzero | ⟨_, hsmall2⟩, hpt⟩ := childTable_eq_some.mp hchild
  · simp at hzero
  unfold vmmWalkToPt vmmWalkLevel vmmWalkLastLevel
  simp [h.pml4, hp4, h.root, hp3, hsmall3, hpd', hp2, hsmall2, hpt]

/-- A mapped page with a page table is unmapped. -/
theorem Walkable.unmap (h : Walkable s v pt) (hv : v.toNat % 4096 = 0)
    (hmapped : vmmQueryMapping s v ≠ none) : (vmmUnmapPage A s v).1 = true := by
  have hpresent : s.mem pt (vmmPtIndex v) &&& vmmPagePresent ≠ 0#64 := by
    intro hzero
    rw [query_pt h.pml4 h.table, leafMapping, if_pos hzero] at hmapped
    exact hmapped rfl
  unfold vmmUnmapPage
  rw [if_neg (not_not.mpr ((and_offsetMask_eq_zero_iff v).mpr hv)), h.walk]
  simp only
  rw [if_neg hpresent]

/-- What a successful `vmm_map_page` tells: the page was not mapped, and it can be unmapped. -/
structure Maps (A : PageAllocator σ) (s : VmmState σ) (v p flags : BitVec 64) : Prop where
  aligned : v.toNat % 4096 = 0
  fresh : ∀ x, SamePage x v → vmmQueryMapping s x = none
  walkable : ∃ pt, Walkable (vmmMapPage A s v p flags).2 v pt

theorem vmmMapPage_maps (hwf : WellFormed A s) (hok : (vmmMapPage A s v p flags).1 = true) :
    Maps A s v p flags := by
  have hstores := vmmMapPage_stores hwf v p flags
  generalize hr : vmmMapPage A s v p flags = r at hstores hok
  cases hstores with
  | failed _ _ _ => cases hok
  | stored hv hwf' hext _ hpt hvacant =>
    refine ⟨hv, ?_, ?_⟩
    · intro x hx
      obtain ⟨h4, h3, h2, h1⟩ := hx.indices
      have htable := hpt.table
      rw [← h4, ← h3, ← h2] at htable
      rw [← hext.query, query_pt hpt.pml4 htable, h1, leafMapping, if_pos hvacant]
    · rw [hr]
      exact ⟨_, hpt.keeps (keeps_write_leaf hwf' hpt.table rfl _)⟩

end Walkable

/-! ## Frames on loan -/

section Loan

variable {a₀ a a' : PmmState} {T T' : BitVec 64 → Prop} {old used used' : List (BitVec 64)}
  {p : BitVec 64}

/-- The address of a page that the page allocator has handed out. -/
def IsAllocated (a : PmmState) (p : BitVec 64) : Prop :=
  ∃ x, x < a.totalPages ∧ pageStatus a x = .allocated ∧ p = pageAddr a x

theorem pmmAllocPage_isAllocated (hG : Good a) (hgiven : (pmmAllocPage a).1 ≠ 0#64) :
    IsAllocated (pmmAllocPage a).2 (pmmAllocPage a).1 ∧
      ∀ q, IsAllocated a q → IsAllocated (pmmAllocPage a).2 q := by
  rcases pmmAllocPage_spec hG.inv with ⟨hrun, _⟩ | ⟨x, a', hrun, hx, _, hch⟩
  · rw [hrun] at hgiven
    exact absurd rfl hgiven
  rw [hrun]
  have hiff (q : BitVec 64) : IsAllocated a' q ↔ _ := hasStatus_changes hG hch hx
  refine ⟨(hiff _).mpr (by rw [if_pos rfl]), fun q hq => (hiff q).mpr ?_⟩
  split
  · rfl
  · exact hq

/-- A page that was handed out is taken back. -/
theorem IsAllocated.free (h : IsAllocated a p) (hG : Good a) :
    (∀ q, IsFree (pmmFreePage a p) q ↔ IsFree a q ∨ q = p) ∧
      ∀ q, IsAllocated a q → q ≠ p → IsAllocated (pmmFreePage a p) q := by
  obtain ⟨x, hx, hst, rfl⟩ := h
  have hch := pmmFreePage_hit hG hx hst
  refine ⟨fun q => (hasStatus_changes hG hch hx).trans ?_, fun q hq hne => ?_⟩
  · split
    · next heq => exact iff_of_true rfl (.inr heq)
    · next hne => exact (or_iff_left hne).symm
  · exact (hasStatus_changes hG hch hx).mpr (by rwa [if_neg hne])

/-- Every page that was free in `a₀` is free in `a`, one of the tables `T`, or one of the frames
`used`, which can all be given back.  The frames `old` are in use all the time. -/
structure Loan (a₀ a : PmmState) (T : BitVec 64 → Prop) (old used : List (BitVec 64)) : Prop where
  stock : Stock a T (used ++ old)
  account : ∀ p, IsFree a p ↔ IsFree a₀ p ∧ ¬ T p ∧ p ∉ used
  lent : ∀ p ∈ used, IsFree a₀ p ∧ IsAllocated a p

namespace Loan

section

variable (h : Loan a₀ a T old used)

include h

theorem perm (hperm : used.Perm used') : Loan a₀ a T old used' where
  stock := h.stock.perm (hperm.append_right old)
  account p := by
    rw [← hperm.mem_iff]
    exact h.account p
  lent p hp := h.lent p (hperm.mem_iff.mpr hp)

theorem null (hnull : (pmmAllocPage a).1 = 0#64) :
    Loan a₀ (pmmAllocPage a).2 T old used := by
  rw [pmmAllocPage_null h.stock.good hnull]
  exact h

theorem take (hgiven : (pmmAllocPage a).1 ≠ 0#64) :
    Loan a₀ (pmmAllocPage a).2 T old ((pmmAllocPage a).1 :: used) := by
  obtain ⟨_, hfree, hiff⟩ := pmmAllocPage_isFree h.stock.good hgiven
  obtain ⟨hnew, hold⟩ := pmmAllocPage_isAllocated h.stock.good hgiven
  refine ⟨h.stock.take hgiven, fun q => ?_, ?_⟩
  · rw [hiff, h.account, mem_cons, not_or]
    tauto
  · refine forall_mem_cons.mpr ⟨⟨((h.account _).mp hfree).1, hnew⟩, ?_⟩
    exact fun q hq => ⟨(h.lent q hq).1, hold q (h.lent q hq).2⟩

theorem table (hgiven : (pmmAllocPage a).1 ≠ 0#64) :
    Loan a₀ (pmmAllocPage a).2 (fun t => T t ∨ t = (pmmAllocPage a).1) old used := by
  obtain ⟨_, _, hiff⟩ := pmmAllocPage_isFree h.stock.good hgiven
  obtain ⟨_, hold⟩ := pmmAllocPage_isAllocated h.stock.good hgiven
  refine ⟨h.stock.table hgiven, fun q => ?_, fun q hq => ?_⟩
  · rw [hiff, h.account, not_or]
    tauto
  · exact ⟨(h.lent q hq).1, hold q (h.lent q hq).2⟩

theorem drawn (hdrawn : Drawn pmmAllocator a T a' T') :
    Loan a₀ a' T' old used := by
  induction hdrawn with
  | refl => exact h
  | failed _ hnull ih => exact ih.null hnull
  | table _ hgiven ih => exact ih.table hgiven

end

theorem giveBack (h : Loan a₀ a T old (p :: used)) : Loan a₀ (pmmFreePage a p) T old used := by
  have hp : p ∈ p :: used := mem_cons_self
  have hnew : p ∉ used := fun hmem =>
    (nodup_cons.mp h.stock.nodup).1 (mem_append_left old hmem)
  obtain ⟨hfree, hothers⟩ := (h.lent p hp).2.free h.stock.good
  refine ⟨h.stock.giveBack, fun q => ?_, fun q hq => ?_⟩
  · rw [hfree, h.account, mem_cons, not_or]
    by_cases hqp : q = p
    · subst hqp
      simp [(h.lent q hp).1, h.stock.noTable q (mem_append_left old hp), hnew]
    · simp [hqp]
  · have hmem := mem_cons_of_mem p hq
    refine ⟨(h.lent q hmem).1, hothers q (h.lent q hmem).2 ?_⟩
    rintro rfl
    exact hnew hq

end Loan

/-- Nothing is on loan at the start. -/
theorem Stock.loan (h : Stock a T old) : Loan a a T old [] :=
  ⟨h, fun p => ⟨fun hp => ⟨hp, (h.free p hp).2.1, not_mem_nil⟩, fun hp => hp.1⟩, by simp⟩

end Loan

/-! ## The loops -/

section Loops

variable {base : BitVec 64} {old : List (BitVec 64)} {s₀ s : VmmState PmmState}
  {pages : List (ℕ × BitVec 64)} {held : List (BitVec 64)} {k : ℕ} {p flags : BitVec 64}

/-- The address is mapped to `p`, and writable. -/
def MapsWritable (s : VmmState PmmState) (v p : BitVec 64) : Prop :=
  ∃ flags, vmmQueryMapping s v = some (p, flags) ∧ flags &&& vmmMapWritable ≠ 0#64

theorem MapsWritable.translate {v : BitVec 64} (h : MapsWritable s v p) :
    vmmTranslate s v = some p := by
  obtain ⟨flags, hquery, _⟩ := h
  rw [vmmTranslate_eq, hquery, Option.map_some]

/-- Half way through a call that started in `s₀` with the frames `old` in use: the pages `pages` are
mapped and were not before, the frames `held` are taken and not mapped, all other addresses have the
mappings they had, and all that was taken is accounted for. -/
structure HalfWay (base : BitVec 64) (old : List (BitVec 64)) (s₀ s : VmmState PmmState)
    (pages : List (ℕ × BitVec 64)) (held : List (BitVec 64)) : Prop where
  wellFormed : WellFormed pmmAllocator s
  loan : Loan s₀.pmm s.pmm s.tables old (pages.map Prod.snd ++ held)
  heap : s.heap = s₀.heap
  aligned : ∀ i p, (i, p) ∈ pages → (heapPage base i).toNat % 4096 = 0
  walkable : ∀ i p, (i, p) ∈ pages → ∃ pt, Walkable s (heapPage base i) pt
  mapped : ∀ i p, (i, p) ∈ pages → MapsWritable s (heapPage base i) p
  fresh : ∀ i p, (i, p) ∈ pages → ∀ x, SamePage x (heapPage base i) → vmmQueryMapping s₀ x = none
  apart : pages.Pairwise fun a b => ¬ SamePage (heapPage base a.1) (heapPage base b.1)
  other : ∀ x, (∀ i p, (i, p) ∈ pages → ¬ SamePage x (heapPage base i)) →
    vmmQueryMapping s x = vmmQueryMapping s₀ x

/-- A frame is its own address in the entry that maps it, for the first address of the page. -/
theorem leafMapping_frame (hp : IsFrame p) {v : BitVec 64} (hv : v.toNat % 4096 = 0) :
    leafMapping (mapEntry p flags) v = some (p, flags &&& mapFlagsMask) := by
  rw [leafMapping_mapEntry, hp.and_physMask, (and_offsetMask_eq_zero_iff v).mpr hv, or_zero]

theorem writable_of_or : (flags ||| vmmMapWritable) &&& mapFlagsMask &&& vmmMapWritable ≠ 0#64 := by
  have hmask : mapFlagsMask &&& vmmMapWritable = vmmMapWritable := by decide
  rw [BitVec.and_assoc, hmask, and_or_distrib_right, BitVec.and_self]
  intro h
  have hbit := congrArg (fun z => getLsbD z 1) h
  simp [vmmMapWritable] at hbit

namespace HalfWay

theorem start (base : BitVec 64) (hwf : WellFormed pmmAllocator s)
    (hstock : Stock s.pmm s.tables old) : HalfWay base old s s [] [] where
  wellFormed := hwf
  loan := hstock.loan
  heap := rfl
  aligned _ _ hi := absurd hi not_mem_nil
  walkable _ _ hi := absurd hi not_mem_nil
  mapped _ _ hi := absurd hi not_mem_nil
  fresh _ _ hi := absurd hi not_mem_nil
  apart := List.Pairwise.nil
  other _ _ := rfl

/-- Only the allocator changes. -/
theorem setPmm (h : HalfWay base old s₀ s pages held) {a : PmmState} {held' : List (BitVec 64)}
    (hloan : Loan s₀.pmm a s.tables old (pages.map Prod.snd ++ held')) :
    HalfWay base old s₀ { s with pmm := a } pages held' where
  wellFormed := ⟨h.wellFormed.unshared, h.wellFormed.aligned, hloan.stock.supplies⟩
  loan := hloan
  heap := h.heap
  aligned := h.aligned
  walkable i p hi := by
    obtain ⟨pt, hpt⟩ := h.walkable i p hi
    exact ⟨pt, hpt.pml4, hpt.table, hpt.root⟩
  mapped := h.mapped
  fresh := h.fresh
  apart := h.apart
  other := h.other

theorem take (h : HalfWay base old s₀ s pages []) (hgiven : (pmmAllocPage s.pmm).1 ≠ 0#64) :
    HalfWay base old s₀ { s with pmm := (pmmAllocPage s.pmm).2 } pages
      [(pmmAllocPage s.pmm).1] := by
  have hloan := h.loan.take hgiven
  rw [append_nil] at hloan
  exact h.setPmm (hloan.perm (perm_append_singleton _ _).symm)

theorem null (h : HalfWay base old s₀ s pages held) (hnull : (pmmAllocPage s.pmm).1 = 0#64) :
    HalfWay base old s₀ { s with pmm := (pmmAllocPage s.pmm).2 } pages held :=
  h.setPmm (h.loan.null hnull)

theorem giveBack (h : HalfWay base old s₀ s pages [p]) :
    HalfWay base old s₀ { s with pmm := pmmFreePage s.pmm p } pages [] := by
  have hloan := (h.loan.perm (perm_append_singleton p _)).giveBack
  apply h.setPmm
  rw [append_nil]
  exact hloan

/-- The page is not mapped: the tables may have grown, and nothing else has changed. -/
theorem map_failed (h : HalfWay base old s₀ s pages [p]) (v flags : BitVec 64)
    (hok : (vmmMapPage pmmAllocator s v p flags).1 = false) :
    HalfWay base old s₀ (vmmMapPage pmmAllocator s v p flags).2 pages [p] := by
  have hchange := vmmMapPage_changes h.wellFormed v p flags
  have hsteps := (vmmMapPage_stores h.wellFormed v p flags).steps
  rw [if_neg (by rw [hok]; decide)] at hchange
  refine ⟨hchange.wellFormed, h.loan.drawn hsteps.draws.drawn, hsteps.draws.heap.trans h.heap,
    h.aligned, ?_, ?_, h.fresh, h.apart, ?_⟩
  · intro i q hi
    obtain ⟨pt, hpt⟩ := h.walkable i q hi
    exact ⟨pt, hpt.keeps hsteps.keeps⟩
  · intro i q hi
    rw [MapsWritable, hchange.query_eq]
    exact h.mapped i q hi
  · intro x hx
    rw [hchange.query_eq]
    exact h.other x hx

/-- The pages that are mapped already are not the one that can be mapped. -/
theorem not_samePage (h : HalfWay base old s₀ s pages held) {v : BitVec 64}
    (hfresh : ∀ x, SamePage x v → vmmQueryMapping s x = none) {i : ℕ} {q : BitVec 64}
    (hi : (i, q) ∈ pages) : ¬ SamePage (heapPage base i) v := by
  intro hsame
  obtain ⟨_, hquery, _⟩ := h.mapped i q hi
  rw [hfresh _ hsame] at hquery
  cases hquery

/-- The frame that was taken is mapped at page `k`. -/
theorem map (h : HalfWay base old s₀ s pages [p]) (k : ℕ) (flags : BitVec 64)
    (hok : (vmmMapPage pmmAllocator s (heapPage base k) p (flags ||| vmmMapWritable)).1 = true) :
    HalfWay base old s₀
      (vmmMapPage pmmAllocator s (heapPage base k) p (flags ||| vmmMapWritable)).2
      (pages ++ [(k, p)]) [] := by
  have hchange := vmmMapPage_changes h.wellFormed (heapPage base k) p (flags ||| vmmMapWritable)
  have hsteps :=
    (vmmMapPage_stores h.wellFormed (heapPage base k) p (flags ||| vmmMapWritable)).steps
  have hmaps := vmmMapPage_maps h.wellFormed hok
  rw [if_pos hok] at hchange
  have hnew : ∀ {i q}, (i, q) ∈ pages → ¬ SamePage (heapPage base i) (heapPage base k) :=
    fun hi => h.not_samePage hmaps.fresh hi
  have hsplit : ∀ {P : ℕ → BitVec 64 → Prop}, (∀ i q, (i, q) ∈ pages → P i q) → P k p →
      ∀ i q, (i, q) ∈ pages ++ [(k, p)] → P i q := by
    intro P hold hlast i q hi
    rcases mem_append.mp hi with hi | hi
    · exact hold i q hi
    · rw [mem_singleton, Prod.mk.injEq] at hi
      rw [hi.1, hi.2]
      exact hlast
  refine ⟨hchange.wellFormed, ?_, hsteps.draws.heap.trans h.heap, hsplit h.aligned hmaps.aligned,
    hsplit ?_ hmaps.walkable, hsplit ?_ ?_, hsplit h.fresh ?_, ?_, ?_⟩
  · rw [map_append, append_nil]
    exact h.loan.drawn hsteps.draws.drawn
  · intro i q hi
    obtain ⟨pt, hpt⟩ := h.walkable i q hi
    exact ⟨pt, hpt.keeps hsteps.keeps⟩
  · intro i q hi
    rw [MapsWritable, hchange.other _ (hnew hi)]
    exact h.mapped i q hi
  · have hframe := h.loan.stock.frame p (by simp)
    rw [MapsWritable, hchange.page _ (fun b _ _ => rfl),
      leafMapping_frame hframe hmaps.aligned]
    exact ⟨_, rfl, writable_of_or⟩
  · intro x hx
    rw [← hmaps.fresh x hx]
    refine (h.other x fun i q hi hsame => hnew hi ?_).symm
    exact hsame.symm.trans hx
  · rw [pairwise_append]
    refine ⟨h.apart, pairwise_singleton _ _, ?_⟩
    rintro ⟨i, q⟩ hi b hb
    rw [mem_singleton.mp hb]
    exact hnew hi
  · intro x hx
    rw [hchange.other x (hx k p (by simp))]
    exact h.other x fun i q hi => hx i q (mem_append_left _ hi)

/-- The first of the pages is unmapped. -/
theorem unmap (h : HalfWay base old s₀ s ((k, p) :: pages) []) :
    HalfWay base old s₀ (vmmUnmapPage pmmAllocator s (heapPage base k)).2 pages [p] := by
  have hmem : (k, p) ∈ (k, p) :: pages := mem_cons_self
  have hrest : ∀ {i q}, (i, q) ∈ pages → (i, q) ∈ (k, p) :: pages :=
    fun hi => mem_cons_of_mem _ hi
  obtain ⟨pt, hwalkable⟩ := h.walkable k p hmem
  obtain ⟨flags, hquery, _⟩ := h.mapped k p hmem
  have hok : (vmmUnmapPage pmmAllocator s (heapPage base k)).1 = true :=
    hwalkable.unmap (h.aligned k p hmem) (by rw [hquery]; simp)
  have hchange := vmmUnmapPage_changes h.wellFormed (heapPage base k)
  have hsteps := (vmmUnmapPage_stores h.wellFormed (heapPage base k)).steps
  rw [if_pos hok] at hchange
  obtain ⟨hfirst, hapart⟩ := pairwise_cons.mp h.apart
  refine ⟨hchange.wellFormed, ?_, hsteps.draws.heap.trans h.heap,
    fun i q hi => h.aligned i q (hrest hi), ?_, ?_, fun i q hi => h.fresh i q (hrest hi), hapart,
    ?_⟩
  · have hloan := h.loan.drawn hsteps.draws.drawn
    rw [append_nil] at hloan
    exact hloan.perm (perm_append_singleton p _).symm
  · intro i q hi
    obtain ⟨pt', hpt'⟩ := h.walkable i q (hrest hi)
    exact ⟨pt', hpt'.keeps hsteps.keeps⟩
  · intro i q hi
    rw [MapsWritable, hchange.other _ fun hsame => hfirst (i, q) hi hsame.symm]
    exact h.mapped i q (hrest hi)
  · intro x hx
    by_cases hsame : SamePage x (heapPage base k)
    · rw [hchange.page x hsame, h.fresh k p hmem x hsame]
    · rw [hchange.other x hsame]
      apply h.other
      intro i q hi
      rcases mem_cons.mp hi with hi | hi
      · rw [Prod.mk.injEq] at hi
        rw [hi.1]
        exact hsame
      · exact hx i q hi

/-- One round of the mapping loop: the next frame is mapped at page `k`, or given back. -/
theorem addPage (h : HalfWay base old s₀ s pages []) (hgiven : (pmmAllocPage s.pmm).1 ≠ 0#64)
    (k : ℕ) (flags : BitVec 64) (ok : Bool) (s' : VmmState PmmState)
    (hr : vmmMapPage pmmAllocator { s with pmm := (pmmAllocPage s.pmm).2 } (heapPage base k)
      (pmmAllocPage s.pmm).1 (flags ||| vmmMapWritable) = (ok, s')) :
    if ok then HalfWay base old s₀ s' (pages ++ [(k, (pmmAllocPage s.pmm).1)]) []
    else HalfWay base old s₀ { s' with pmm := pmmFreePage s'.pmm (pmmAllocPage s.pmm).1 }
      pages [] := by
  have htaken := h.take hgiven
  have hmap := htaken.map k flags
  have hfailed := htaken.map_failed (heapPage base k) (flags ||| vmmMapWritable)
  rw [hr] at hmap hfailed
  cases ok with
  | true => exact hmap rfl
  | false => exact (hfailed rfl).giveBack

end HalfWay

/-- The mapping loop: some pages are mapped, from page `k` on. -/
theorem allocKernelPagesLoop_halfWay (flags : BitVec 64) (n k : ℕ)
    (h : HalfWay base old s₀ s pages []) :
    ∃ frames : List (BitVec 64), frames.length ≤ n ∧
      (allocKernelPagesLoop pmmAllocator flags n (heapPage base k) s).1 =
        heapPage base (k + frames.length) ∧
      HalfWay base old s₀ (allocKernelPagesLoop pmmAllocator flags n (heapPage base k) s).2
        (pages ++ pagesFrom k frames) [] := by
  induction n generalizing k s pages with
  | zero =>
    refine ⟨[], Nat.le_refl 0, rfl, ?_⟩
    rw [pagesFrom, append_nil]
    exact h
  | succ n ih =>
    rw [allocKernelPagesLoop]
    simp only [pmmAllocator]
    by_cases hnull : (pmmAllocPage s.pmm).1 = 0#64
    · simp only [hnull, if_true]
      refine ⟨[], Nat.zero_le _, rfl, ?_⟩
      rw [pagesFrom, append_nil]
      exact h.null hnull
    simp only [hnull, if_false]
    have hround := h.addPage hnull k flags
    split
    · rename_i s' hr
      refine ⟨[], Nat.zero_le _, rfl, ?_⟩
      rw [pagesFrom, append_nil]
      exact hround false s' hr
    · rename_i s' hr
      obtain ⟨frames, hlength, haddr, hrest⟩ := ih (k + 1) (hround true s' hr)
      have hk : k + 1 + frames.length = k + (frames.length + 1) := by omega
      refine ⟨(pmmAllocPage s.pmm).1 :: frames, Nat.succ_le_succ hlength, ?_, ?_⟩
      · rw [heapPage_succ, length_cons, ← hk]
        exact haddr
      · rw [heapPage_succ, pagesFrom, ← singleton_append, ← append_assoc]
        exact hrest

/-- The rollback loop takes all the pages back. -/
theorem releaseKernelPagesLoop_halfWay (frames : List (BitVec 64)) (k : ℕ)
    (h : HalfWay base old s₀ s (pagesFrom k frames) []) :
    HalfWay base old s₀ (releaseKernelPagesLoop pmmAllocator frames.length (heapPage base k) s) []
      [] := by
  induction frames generalizing k s with
  | nil => exact h
  | cons p frames ih =>
    have hmem : (k, p) ∈ pagesFrom k (p :: frames) := mem_cons_self
    have hframe : IsFrame p := h.loan.stock.frame p (by simp [pagesFrom])
    rw [length_cons, releaseKernelPagesLoop, (h.mapped k p hmem).translate]
    simp only [hframe.and_physMask, heapPage_succ]
    exact ih (k + 1) h.unmap.giveBack

/-- What the two loops leave when they stop before the end. -/
theorem loops_halfWay (hwf : WellFormed pmmAllocator s) (hstock : Stock s.pmm s.tables old)
    (start flags : BitVec 64) {count : ℕ} (hcount : count * 4096 < 2 ^ 64) :
    HalfWay start old s (releaseKernelPagesLoop pmmAllocator
      (((allocKernelPagesLoop pmmAllocator flags count start s).1 - start) / mmPageSize).toNat start
      (allocKernelPagesLoop pmmAllocator flags count start s).2) [] [] := by
  obtain ⟨frames, hlength, hcurrent, hloop⟩ :=
    allocKernelPagesLoop_halfWay flags count 0 (HalfWay.start start hwf hstock)
  have hbytes : frames.length * 4096 < 2 ^ 64 :=
    Nat.lt_of_le_of_lt (Nat.mul_le_mul_right 4096 hlength) hcount
  have hmapped : ((heapPage start (0 + frames.length) - heapPage start 0) / mmPageSize).toNat =
      frames.length := heapPage_sub_div hbytes
  have hrelease := releaseKernelPagesLoop_halfWay frames 0 hloop
  rw [← hmapped, ← hcurrent] at hrelease
  rw [heapPage_zero] at hrelease
  exact hrelease

end Loops

end GnuOS.Vmm

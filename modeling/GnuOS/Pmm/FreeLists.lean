import GnuOS.Lib.Counting
import GnuOS.Pmm.Tiling

/-!
# The free lists and the free-page counter

What the 17 lists and `g_free_pages` must say is a function of the block marks alone:
`freeOrder s lo len b` is the order of the free block that starts at `b` outside the hole,
if there is one. The list of order `k` holds the pages that this function maps to `k`
(`FreeLists`), and the counter is the sum of the sizes (`freeWeight`). Linking and unlinking
a block change the function at one page.
-/

namespace GnuOS.Pmm

open GnuOS.Lib Function List

/-- The order of the free block that starts at `b`, outside the hole. -/
def freeOrder (s : PmmState) (lo len b : ℕ) : Option ℕ :=
  if InHole lo len b then none
  else if s.blockState b = .free then some (s.blockOrder b) else none

/-- The pages a list entry stands for. -/
def weight : Option ℕ → ℕ
  | none => 0
  | some k => 2 ^ k

/-- The pages of all free blocks below `n`. -/
def freeWeight (f : ℕ → Option ℕ) (n : ℕ) : ℕ := ∑ b ∈ Finset.range n, weight (f b)

/-- Every list runs through exactly the blocks `f` gives it, without repetition and with
`freePrev` as the inverse of `freeNext`. -/
def FreeLists (s : PmmState) (f : ℕ → Option ℕ) : Prop :=
  ∀ k, ∃ l : List ℕ, l.Nodup ∧
    Seg s.freeNext s.freePrev pmmInvalidIndex pmmInvalidIndex (s.freeHeads k) l ∧
    ∀ b, b ∈ l ↔ f b = some k

section
variable {s s' : PmmState} {f : ℕ → Option ℕ} {lo len junk lo' len' junk' h k b p n : ℕ}

theorem freeOrder_eq_some_iff :
    freeOrder s lo len b = some k ↔
      ¬ InHole lo len b ∧ s.blockState b = .free ∧ s.blockOrder b = k := by
  unfold freeOrder
  by_cases hin : InHole lo len b
  · simp [hin]
  · by_cases hst : s.blockState b = .free <;> simp [hin, hst]

theorem freeOrder_of_inHole (hb : InHole lo len b) : freeOrder s lo len b = none := by
  unfold freeOrder
  rw [if_pos hb]

theorem isBlock_of_freeOrder (hb : freeOrder s lo len b = some k) : IsBlock s lo len b := by
  obtain ⟨hout, hst, _⟩ := freeOrder_eq_some_iff.mp hb
  exact ⟨by rw [hst]; decide, hout⟩

/-! ## Linking and unlinking -/

section

variable (hL : FreeLists s f)

include hL

/-- `free_list_push` adds one page to one list. -/
theorem FreeLists.push (hb : f b = none) (hbn : b ≠ pmmInvalidIndex) :
    FreeLists (freeListPush s k b) (update f b (some k)) := by
  intro i
  obtain ⟨l, hnd, hseg, hmem⟩ := hL i
  obtain ⟨lk, hndk, hsegk, hmemk⟩ := hL k
  have hbl : ∀ {j} {l : List ℕ}, (∀ c, c ∈ l ↔ f c = some j) → b ∉ l := by
    intro j l hl hin
    rw [hl, hb] at hin
    exact absurd hin (by simp)
  by_cases hik : i = k
  · subst hik
    refine ⟨b :: l, nodup_cons.mpr ⟨hbl hmem, hnd⟩, ?_, ?_⟩
    · have hpush := seg_push hseg hnd (hbl hmem) hbn
      show Seg _ _ _ _ (update s.freeHeads i b i) _
      rw [update_self]
      exact hpush
    · intro c
      rw [mem_cons, hmem]
      by_cases hcb : c = b
      · simp [hcb]
      · rw [update_of_ne hcb]
        simp [hcb]
  · -- the other lists share no node with list `k`, so their links are untouched
    refine ⟨l, hnd, ?_, ?_⟩
    · show Seg (update s.freeNext b (s.freeHeads k))
        (if s.freeHeads k ≠ pmmInvalidIndex then
          update (update s.freePrev b pmmInvalidIndex) (s.freeHeads k) b
          else update s.freePrev b pmmInvalidIndex) _ _
        (update s.freeHeads k b i) l
      rw [update_of_ne hik]
      have hne : ∀ c ∈ l, c ≠ b := fun c hc hcb => hbl hmem (hcb ▸ hc)
      refine hseg.congr (fun c hc => ?_) (fun c hc => ?_)
      · rw [update_of_ne (hne c hc)]
      · split
        · next hhead =>
          have hch : c ≠ s.freeHeads k := by
            rintro rfl
            rcases hsegk.head_eq with ⟨hnil, _⟩ | ⟨_, t, rfl⟩
            · exact hhead hnil
            · have h1 := (hmem _).mp hc
              have h2 := (hmemk (s.freeHeads k)).mp mem_cons_self
              rw [h1] at h2
              exact hik (Option.some.inj h2)
          rw [update_of_ne hch, update_of_ne (hne c hc)]
        · rw [update_of_ne (hne c hc)]
    · intro c
      rw [hmem]
      by_cases hcb : c = b
      · subst hcb
        rw [update_self, hb]
        simp [Ne.symm hik]
      · rw [update_of_ne hcb]

/-- `free_list_remove` takes one page from its list. -/
theorem FreeLists.remove (hb : f b = some k) :
    FreeLists (freeListRemove s k b) (update f b none) := by
  intro i
  obtain ⟨l, hnd, hseg, hmem⟩ := hL i
  obtain ⟨lk, hndk, hsegk, hmemk⟩ := hL k
  have hbk : b ∈ lk := (hmemk b).mpr hb
  have hnext : (freeListRemove s k b).freeNext =
      unlinkNext s.freeNext s.freePrev pmmInvalidIndex b := rfl
  have hprev : (freeListRemove s k b).freePrev =
      unlinkPrev s.freeNext s.freePrev pmmInvalidIndex b := rfl
  have hheads : (freeListRemove s k b).freeHeads = if s.freePrev b ≠ pmmInvalidIndex
      then s.freeHeads else update s.freeHeads k (s.freeNext b) := rfl
  rw [hnext, hprev]
  by_cases hik : i = k
  · subst hik
    have hbl : b ∈ l := (hmem b).mpr hb
    refine ⟨l.erase b, hnd.erase b, ?_, ?_⟩
    · have hrem := seg_remove hseg hnd hbl
      have hhead : (freeListRemove s i b).freeHeads i =
          if s.freePrev b ≠ pmmInvalidIndex then s.freeHeads i else s.freeNext b := by
        rw [hheads]
        split
        · rfl
        · rw [update_self]
      rw [hhead]
      exact hrem
    · intro c
      rw [hnd.mem_erase_iff, hmem]
      by_cases hcb : c = b
      · simp [hcb]
      · rw [update_of_ne hcb]
        simp [hcb]
  · have hdisj : ∀ c ∈ l, c ∉ lk := by
      intro c hc hck
      rw [hmem] at hc
      rw [hmemk, hc] at hck
      exact hik (Option.some.inj hck)
    refine ⟨l, hnd, ?_, ?_⟩
    · have hhead : (freeListRemove s k b).freeHeads i = s.freeHeads i := by
        rw [hheads]
        split
        · rfl
        · rw [update_of_ne hik]
      rw [hhead]
      -- the neighbours of `b` are nodes of list `k` or the end mark
      refine hseg.congr (fun c hc => ?_) (fun c hc => ?_)
      · refine unlinkNext_of_ne (fun hcb => hdisj c hc (hcb ▸ hbk)) (fun hcp => ?_)
        rcases hsegk.prev_mem hbk with hnil | hin
        · exact hseg.ne_nil hc (hcp.trans hnil)
        · exact hdisj c hc (hcp ▸ hin)
      · refine unlinkPrev_of_ne (fun hcb => hdisj c hc (hcb ▸ hbk)) (fun hcn => ?_)
        rcases hsegk.next_mem hbk with hnil | hin
        · exact hseg.ne_nil hc (hcn.trans hnil)
        · exact hdisj c hc (hcn ▸ hin)
    · intro c
      rw [hmem]
      by_cases hcb : c = b
      · subst hcb
        rw [update_self, hb]
        simp [Ne.symm hik]
      · rw [update_of_ne hcb]

/-- The lists only depend on the link arrays. -/
theorem FreeLists.congr (hn : s'.freeNext = s.freeNext) (hp : s'.freePrev = s.freePrev)
    (hh : s'.freeHeads = s.freeHeads) : FreeLists s' f := by
  intro k
  obtain ⟨l, hnd, hseg, hmem⟩ := hL k
  exact ⟨l, hnd, by rw [hn, hp, hh]; exact hseg, hmem⟩

/-- The head of a list is the end mark exactly when no block has that order. -/
theorem FreeLists.head_eq_invalid_iff :
    s.freeHeads k = pmmInvalidIndex ↔ ∀ b, f b ≠ some k := by
  obtain ⟨l, _, hseg, hmem⟩ := hL k
  constructor
  · intro hnil b hb
    rcases hseg.head_eq with ⟨_, rfl⟩ | ⟨hne, _⟩
    · exact absurd ((hmem b).mpr hb) not_mem_nil
    · exact hne hnil
  · intro hnone
    rcases hseg.head_eq with ⟨hnil, _⟩ | ⟨_, t, rfl⟩
    · exact hnil
    · exact absurd ((hmem _).mp mem_cons_self) (hnone _)

/-- A list head other than the end mark is a free block of that order. -/
theorem FreeLists.head_mem (hne : s.freeHeads k ≠ pmmInvalidIndex) :
    f (s.freeHeads k) = some k := by
  obtain ⟨l, _, hseg, hmem⟩ := hL k
  rcases hseg.head_eq with ⟨hnil, _⟩ | ⟨_, t, rfl⟩
  · exact absurd hnil hne
  · exact (hmem _).mp mem_cons_self

end

/-! ## The counter -/

/-- Changing the entry of one page changes the sum by the difference of the two sizes. -/
theorem freeWeight_update (f : ℕ → Option ℕ) (o : Option ℕ) (hb : b < n) :
    freeWeight (update f b o) n + weight (f b) = freeWeight f n + weight o := by
  unfold freeWeight
  exact sum_update weight f o hb

theorem weight_le_freeWeight (f : ℕ → Option ℕ) (hb : b < n) :
    weight (f b) ≤ freeWeight f n :=
  Finset.single_le_sum (f := fun b => weight (f b)) (fun _ _ => Nat.zero_le _)
    (Finset.mem_range.mpr hb)

/-! ## How the function changes with the tiling -/

/-- Inside the hole the marks do not matter. -/
theorem freeOrder_frame (hstate : ∀ p, ¬ InHole lo len p → s'.blockState p = s.blockState p)
    (horder : ∀ p, ¬ InHole lo len p → s'.blockOrder p = s.blockOrder p) :
    freeOrder s' lo len = freeOrder s lo len := by
  funext b
  unfold freeOrder
  by_cases hin : InHole lo len b
  · rw [if_pos hin, if_pos hin]
  · rw [if_neg hin, if_neg hin, hstate b hin, horder b hin]

/-- A block that joins the hole leaves its list. -/
theorem freeOrder_punch (hT : Tiling s lo len junk) (hb : IsBlock s lo len b)
    (hhole : ∀ p, InHole lo' len' p ↔ InHole lo len p ∨ Covers b (s.blockOrder b) p)
    (hstate : s'.blockState = update s.blockState b .unused)
    (horder : s'.blockOrder = update s.blockOrder b 0) :
    freeOrder s' lo' len' = update (freeOrder s lo len) b none := by
  funext c
  by_cases hcb : c = b
  · subst hcb
    rw [update_self]
    exact freeOrder_of_inHole ((hhole c).mpr (.inr (covers_start _ _)))
  · rw [update_of_ne hcb]
    apply Option.ext
    intro i
    rw [freeOrder_eq_some_iff, freeOrder_eq_some_iff, hhole, hstate, horder,
      update_of_ne hcb, update_of_ne hcb]
    constructor
    · rintro ⟨hout, hst, hord⟩
      exact ⟨fun hin => hout (.inl hin), hst, hord⟩
    · rintro ⟨hout, hst, hord⟩
      refine ⟨?_, hst, hord⟩
      rintro (hin | hcov)
      · exact hout hin
      · have hc : IsBlock s lo len c := ⟨by rw [hst]; decide, hout⟩
        exact hcb (hT.block_unique hc hb (covers_start _ _) hcov)

/-- A block that leaves the hole enters its list when it is free. -/
theorem freeOrder_fill (s' : PmmState) (st : BlockState) (hF : Fills s lo len lo' len' junk' h k)
    (hstate : s'.blockState = update s.blockState h st)
    (horder : s'.blockOrder = update s.blockOrder h k) :
    freeOrder s' lo' len' =
      update (freeOrder s lo len) h (if st = .free then some k else none) := by
  funext c
  by_cases hch : c = h
  · subst hch
    have hout : ¬ InHole lo' len' c := hF.apart c (covers_start c k)
    rw [update_self, freeOrder, if_neg hout, hstate, horder, update_self,
      update_self]
  · rw [update_of_ne hch]
    apply Option.ext
    intro i
    rw [freeOrder_eq_some_iff, freeOrder_eq_some_iff, hF.parts, hstate, horder,
      update_of_ne hch, update_of_ne hch]
    constructor
    · rintro ⟨hout, hst, hord⟩
      refine ⟨?_, hst, hord⟩
      rintro (hin | hcov)
      · exact hout hin
      · exact hch (hF.block_unused c hcov (by rw [hst]; decide))
    · rintro ⟨hout, hst, hord⟩
      exact ⟨fun hin => hout (.inl hin), hst, hord⟩

/-! ## Page statuses -/

/-- The state of the block a page belongs to. -/
def pageStatus (s : PmmState) (p : ℕ) : BlockState := s.blockState (s.pageOwner p)

/-- The free pages outside the hole. -/
def freePagesOutside (s : PmmState) (lo len : ℕ) : Finset ℕ :=
  (Finset.range s.totalPages).filter fun p =>
    ¬ InHole lo len p ∧ pageStatus s p = .free

/-- The pages a free block owns are as many as its size. -/
theorem card_owned (hT : Tiling s lo len junk) (hb : freeOrder s lo len b = some k) :
    ((freePagesOutside s lo len).filter (fun p => s.pageOwner p = b)).card = 2 ^ k := by
  have hblk := isBlock_of_freeOrder hb
  obtain ⟨_, hst, hord⟩ := freeOrder_eq_some_iff.mp hb
  have hset : (freePagesOutside s lo len).filter (fun p => s.pageOwner p = b) =
      Finset.Ico b (b + 2 ^ k) := by
    ext p
    rw [Finset.mem_filter, freePagesOutside, Finset.mem_filter, Finset.mem_range,
      Finset.mem_Ico]
    constructor
    · rintro ⟨⟨hp, hout, _⟩, rfl⟩
      obtain ⟨_, hcov⟩ := hT.owner_covers p hp hout
      rw [hord] at hcov
      exact hcov
    · intro hp
      have hcov : Covers b (s.blockOrder b) p := by rw [hord]; exact hp
      have hown := hT.owner_eq b p hblk hcov
      have hfit := hT.fits b hblk
      refine ⟨⟨?_, hT.clear b p hblk hcov, ?_⟩, hown⟩
      · rw [hord] at hfit
        omega
      · rw [pageStatus, hown, hst]
  rw [hset, Nat.card_Ico, Nat.add_sub_cancel_left]

/-- **Counting by blocks is counting by pages**: the sizes of the free blocks add up to the
number of free pages. -/
theorem freeWeight_eq_card (hT : Tiling s lo len junk) :
    freeWeight (freeOrder s lo len) s.totalPages = (freePagesOutside s lo len).card := by
  have hmaps : Set.MapsTo s.pageOwner ↑(freePagesOutside s lo len)
      ↑(Finset.range s.totalPages) := by
    intro p hp
    rw [Finset.mem_coe, freePagesOutside, Finset.mem_filter, Finset.mem_range] at hp
    rw [Finset.mem_coe, Finset.mem_range]
    exact hT.block_lt (hT.owner_covers p hp.1 hp.2.1).1
  rw [Finset.card_eq_sum_card_fiberwise hmaps]
  unfold freeWeight
  apply Finset.sum_congr rfl
  intro b _
  cases hb : freeOrder s lo len b with
  | some k => exact (card_owned hT hb).symm
  | none =>
    -- a page owned by `b` would make `b` a free block outside the hole
    symm
    rw [weight, Finset.card_eq_zero, Finset.filter_eq_empty_iff]
    rintro p hp rfl
    rw [freePagesOutside, Finset.mem_filter, Finset.mem_range] at hp
    obtain ⟨hp, hout, hst⟩ := hp
    have hown := (hT.owner_covers p hp hout).1
    have hsome : freeOrder s lo len (s.pageOwner p) = some (s.blockOrder (s.pageOwner p)) :=
      freeOrder_eq_some_iff.mpr ⟨hown.2, hst, rfl⟩
    rw [hb] at hsome
    exact absurd hsome (by simp)

theorem freeWeight_le_total (hT : Tiling s lo len junk) :
    freeWeight (freeOrder s lo len) s.totalPages ≤ s.totalPages := by
  rw [freeWeight_eq_card hT]
  calc (freePagesOutside s lo len).card ≤ (Finset.range s.totalPages).card :=
        Finset.card_filter_le _ _
    _ = s.totalPages := Finset.card_range _

end

end GnuOS.Pmm

import GnuOS.Pmm.FreeLists

/-!
# The allocator's invariant

`HoleInv s lo len junk` puts the parts together: the marks tile the pages outside the hole,
the lists and the counter agree with the marks, and no two free blocks are buddies. Each
primitive of `pmm.c` gets one lemma that says which hole it leaves behind and what happens
to the status of every page; the loops are then inductions over these.
-/

namespace GnuOS.Pmm

open GnuOS.Lib Function

/-- The invariant outside a hole. -/
structure HoleInv (s : PmmState) (lo len junk : ℕ) : Prop where
  tiling : Tiling s lo len junk
  lists : FreeLists s (freeOrder s lo len)
  count : s.freePages = freeWeight (freeOrder s lo len) s.totalPages
  no_buddies : ∀ b k, freeOrder s lo len b = some k → freeOrder s lo len (b ^^^ 2 ^ k) ≠ some k

/-- The invariant between two calls: no hole. -/
def Inv (s : PmmState) : Prop := HoleInv s 0 0 0

/-- `s` differs from `s₀` only in how the pages of the hole are marked: the window is the
same, and every page outside the hole has the status it had. -/
structure SameOutside (s₀ s : PmmState) (lo len : ℕ) : Prop where
  base : s.base = s₀.base
  total : s.totalPages = s₀.totalPages
  status : ∀ p, p < s₀.totalPages → ¬ InHole lo len p → pageStatus s p = pageStatus s₀ p

section
variable {s s' s₀ : PmmState} {lo len junk lo' len' junk' h k b p : ℕ}

/-- Changes outside a hole that are the same for a smaller one add up. -/
theorem SameOutside.trans (h₁ : SameOutside s₀ s lo len) (h₂ : SameOutside s s' lo' len')
    (hsub : ∀ p, ¬ InHole lo' len' p → ¬ InHole lo len p) : SameOutside s₀ s' lo' len' := by
  refine ⟨h₂.base.trans h₁.base, h₂.total.trans h₁.total, ?_⟩
  intro p hp hout
  rw [h₂.status p (by rw [h₁.total]; exact hp) hout, h₁.status p hp (hsub p hout)]

/-! ## Empty holes -/

theorem isBlock_empty_iff (lo' : ℕ) : IsBlock s lo 0 b ↔ IsBlock s lo' 0 b := by
  unfold IsBlock
  simp [not_inHole_zero]

theorem freeOrder_empty (s : PmmState) (lo lo' : ℕ) : freeOrder s lo 0 = freeOrder s lo' 0 := by
  funext b
  unfold freeOrder
  rw [if_neg (not_inHole_zero lo b), if_neg (not_inHole_zero lo' b)]

/-- Where an empty hole stands does not matter. -/
theorem Tiling.move_empty (hT : Tiling s lo 0 junk) (hle : lo' ≤ s.totalPages) :
    Tiling s lo' 0 junk' where
  total_le := hT.total_le
  hole_le := hle
  hole_unused := fun p hp => absurd hp (not_inHole_zero lo' p)
  fits := fun b hb => hT.fits b ((isBlock_empty_iff lo).mp hb)
  aligned := fun b hb => hT.aligned b ((isBlock_empty_iff lo).mp hb)
  clear := fun _ p _ _ => not_inHole_zero lo' p
  owner_covers := by
    intro p hp _
    obtain ⟨hown, hcov⟩ := hT.owner_covers p hp (not_inHole_zero lo p)
    exact ⟨(isBlock_empty_iff lo').mp hown, hcov⟩
  owner_eq := fun b p hb => hT.owner_eq b p ((isBlock_empty_iff lo).mp hb)
  small := fun b hb => hT.small b ((isBlock_empty_iff lo).mp hb)

theorem HoleInv.move_empty (hI : HoleInv s lo 0 junk) (hle : lo' ≤ s.totalPages) :
    HoleInv s lo' 0 junk' where
  tiling := hI.tiling.move_empty hle
  lists := by rw [freeOrder_empty s lo' lo]; exact hI.lists
  count := by rw [freeOrder_empty s lo' lo]; exact hI.count
  no_buddies := by rw [freeOrder_empty s lo' lo]; exact hI.no_buddies

theorem HoleInv.inv (hI : HoleInv s lo 0 junk) : Inv s := hI.move_empty (Nat.zero_le _)

/-! ## Statuses of pages -/

/-- The owner of a page outside the hole is a block, so writes inside the hole do not
change the page's status. -/
theorem Tiling.status_frame (hT : Tiling s lo len junk)
    (hstate : ∀ p, ¬ InHole lo len p → s'.blockState p = s.blockState p)
    (howner : ∀ p, ¬ InHole lo len p → s'.pageOwner p = s.pageOwner p)
    (hp : p < s.totalPages) (hout : ¬ InHole lo len p) : pageStatus s' p = pageStatus s p := by
  rw [pageStatus, pageStatus, howner p hout, hstate _ (hT.owner_covers p hp hout).1.2]

/-- Every page of a block has the block's state. -/
theorem Tiling.status_of_covers (hT : Tiling s lo len junk) (hb : IsBlock s lo len b)
    (hp : Covers b (s.blockOrder b) p) : pageStatus s p = s.blockState b := by
  rw [pageStatus, hT.owner_eq b p hb hp]

/-! ## The primitives -/

/-- Any write to the marks inside the hole keeps the invariant. -/
theorem HoleInv.frame (hI : HoleInv s lo len junk) (hbase : s'.base = s.base)
    (htot : s'.totalPages = s.totalPages) (hfree : s'.freePages = s.freePages)
    (hn : s'.freeNext = s.freeNext) (hp : s'.freePrev = s.freePrev)
    (hh : s'.freeHeads = s.freeHeads)
    (hstate : ∀ p, ¬ InHole lo len p → s'.blockState p = s.blockState p)
    (horder : ∀ p, ¬ InHole lo len p → s'.blockOrder p = s.blockOrder p)
    (howner : ∀ p, ¬ InHole lo len p → s'.pageOwner p = s.pageOwner p)
    (hjunk : ∀ p, InHole lo len p → s'.blockState p ≠ .unused → p = junk') :
    HoleInv s' lo len junk' ∧ SameOutside s s' lo len := by
  have hfo := freeOrder_frame hstate horder
  refine ⟨⟨hI.tiling.frame htot hstate horder howner hjunk, ?_, ?_, ?_⟩, hbase, htot, ?_⟩
  · rw [hfo]
    exact hI.lists.congr hn hp hh
  · rw [hfo, htot, hfree]
    exact hI.count
  · rw [hfo]
    exact hI.no_buddies
  · intro p hlt hout
    exact hI.tiling.status_frame hstate howner hlt hout

/-- `set_block` on pages of the hole only leaves a mark there. -/
theorem HoleInv.setBlock_junk (hI : HoleInv s lo len junk) (st : BlockState)
    (hin : ∀ p, Covers h k p → InHole lo len p)
    (hjunk : ∀ p, InHole lo len p → s.blockState p ≠ .unused → p = h) :
    HoleInv (setBlock s h k st) lo len h ∧ SameOutside s (setBlock s h k st) lo len := by
  have hne : ∀ p, ¬ InHole lo len p → p ≠ h := by
    rintro p hout rfl
    exact hout (hin p (covers_start _ _))
  refine hI.frame rfl rfl rfl rfl rfl rfl ?_ ?_ ?_ ?_
  · intro p hout
    rw [setBlock_blockState, update_of_ne (hne p hout)]
  · intro p hout
    rw [setBlock_blockOrder, update_of_ne (hne p hout)]
  · intro p hout
    rw [setBlock_pageOwner, if_neg (fun hcov => hout (hin p hcov))]
  · intro p hp hst
    by_cases hph : p = h
    · exact hph
    · rw [setBlock_blockState, update_of_ne hph] at hst
      exact hjunk p hp hst

/-- `clear_block_head` on a page of the hole. -/
theorem HoleInv.clearBlockHead_junk (junk' : ℕ) (hI : HoleInv s lo len junk) (hin : InHole lo len h)
    (hjunk : ∀ p, InHole lo len p → p ≠ h → s.blockState p ≠ .unused → p = junk') :
    HoleInv (clearBlockHead s h) lo len junk' ∧ SameOutside s (clearBlockHead s h) lo len := by
  have hne : ∀ p, ¬ InHole lo len p → p ≠ h := by
    rintro p hout rfl
    exact hout hin
  refine hI.frame rfl rfl rfl rfl rfl rfl ?_ ?_ ?_ ?_
  · intro p hout
    rw [clearBlockHead_blockState, update_of_ne (hne p hout)]
  · intro p hout
    rw [clearBlockHead_blockOrder, update_of_ne (hne p hout)]
  · intro p _
    rfl
  · intro p hp hst
    by_cases hph : p = h
    · rw [clearBlockHead_blockState, hph, update_self] at hst
      exact absurd rfl hst
    · rw [clearBlockHead_blockState, update_of_ne hph] at hst
      exact hjunk p hp hph hst

/-- Taking the entry of one page away keeps free blocks without buddies. -/
theorem no_buddies_remove {f : ℕ → Option ℕ}
    (hf : ∀ b k, f b = some k → f (b ^^^ 2 ^ k) ≠ some k) (c : ℕ) :
    ∀ b k, update f c none b = some k →
      update f c none (b ^^^ 2 ^ k) ≠ some k := by
  intro b k hb
  have hbc : b ≠ c := by
    rintro rfl
    rw [update_self] at hb
    exact absurd hb (by simp)
  rw [update_of_ne hbc] at hb
  by_cases hc : b ^^^ 2 ^ k = c
  · rw [hc, update_self]
    simp
  · rw [update_of_ne hc]
    exact hf b k hb

/-- A new free block whose buddy is not free keeps free blocks without buddies. -/
theorem no_buddies_add {f : ℕ → Option ℕ}
    (hf : ∀ b k, f b = some k → f (b ^^^ 2 ^ k) ≠ some k) (hbud : f (h ^^^ 2 ^ k) ≠ some k) :
    ∀ b i, update f h (some k) b = some i →
      update f h (some k) (b ^^^ 2 ^ i) ≠ some i := by
  intro b i hb
  by_cases hbh : b = h
  · subst hbh
    rw [update_self, Option.some.injEq] at hb
    subst hb
    have hne : b ^^^ 2 ^ k ≠ b := by
      intro heq
      have hz : b ^^^ (b ^^^ 2 ^ k) = b ^^^ b := by rw [heq]
      rw [← Nat.xor_assoc, Nat.xor_self, Nat.zero_xor] at hz
      exact absurd hz (Nat.two_pow_pos k).ne'
    rw [update_of_ne hne]
    exact hbud
  · rw [update_of_ne hbh] at hb
    by_cases hx : b ^^^ 2 ^ i = h
    · rw [hx, update_self]
      intro hki
      rw [Option.some.injEq] at hki
      subst hki
      -- then `b` is the buddy of `h`
      apply hbud
      rw [← hx, Nat.xor_assoc, Nat.xor_self, Nat.xor_zero]
      exact hb
    · rw [update_of_ne hx]
      exact hf b i hb

/-- `remove_free_block`: the block joins the hole. -/
theorem HoleInv.removeFreeBlock (lo' len' : ℕ) (hI : HoleInv s lo len junk)
    (hb : freeOrder s lo len b = some k) (hle : lo' + len' ≤ s.totalPages)
    (hhole : ∀ p, InHole lo' len' p ↔ InHole lo len p ∨ Covers b k p) :
    HoleInv (removeFreeBlock s b) lo' len' junk ∧
      SameOutside s (removeFreeBlock s b) lo' len' := by
  have hblk := isBlock_of_freeOrder hb
  obtain ⟨_, hst, hord⟩ := freeOrder_eq_some_iff.mp hb
  subst hord
  have hlt := hI.tiling.block_lt hblk
  have hfo : freeOrder (Pmm.removeFreeBlock s b) lo' len' =
      update (freeOrder s lo len) b none :=
    freeOrder_punch hI.tiling hblk hhole rfl rfl
  refine ⟨⟨hI.tiling.punch hblk hle hhole rfl rfl rfl rfl, ?_, ?_, ?_⟩, rfl, rfl, ?_⟩
  · rw [hfo]
    exact (hI.lists.remove hb).congr rfl rfl rfl
  · rw [hfo]
    have hupd := freeWeight_update (freeOrder s lo len) none hlt
    have hwle := weight_le_freeWeight (freeOrder s lo len) hlt
    have hcount := hI.count
    have htot := freeWeight_le_total hI.tiling
    have hmax := hI.tiling.total_le
    rw [hb] at hupd hwle
    simp only [weight, pmmMaxPages] at hupd hwle hmax
    show (s.freePages + (2 ^ 64 - blockPages (s.blockOrder b))) % 2 ^ 64 =
      freeWeight (update (freeOrder s lo len) b none) s.totalPages
    rw [blockPages_eq]
    generalize 2 ^ s.blockOrder b = size at *
    omega
  · rw [hfo]
    exact no_buddies_remove hI.no_buddies b
  · intro p hp hout
    rw [hhole] at hout
    push Not at hout
    obtain ⟨_, hcov⟩ := hI.tiling.owner_covers p hp hout.1
    have hne : s.pageOwner p ≠ b := by
      intro heq
      rw [heq] at hcov
      exact hout.2 hcov
    rw [pageStatus, pageStatus, removeFreeBlock_pageOwner, removeFreeBlock_blockState,
      update_of_ne hne]

/-- The pages of a block get the state the block is set to. -/
theorem setBlock_status_covers {st : BlockState} (hcov : Covers h k p) :
    pageStatus (setBlock s h k st) p = st := by
  rw [pageStatus, setBlock_pageOwner, if_pos hcov, setBlock_blockState, update_self]

/-- Marking a block inside the hole leaves the statuses outside alone. -/
theorem Tiling.setBlock_status_outside {st : BlockState} (hT : Tiling s lo len junk)
    (hin : ∀ p, Covers h k p → InHole lo len p) (hp : p < s.totalPages)
    (hout : ¬ InHole lo len p) : pageStatus (setBlock s h k st) p = pageStatus s p := by
  have hcov : ¬ Covers h k p := fun hcov => hout (hin p hcov)
  have hne : s.pageOwner p ≠ h := by
    intro heq
    have hown := (hT.owner_covers p hp hout).1
    rw [heq] at hown
    exact hown.2 (hin h (covers_start h k))
  rw [pageStatus, setBlock_pageOwner, if_neg hcov, setBlock_blockState,
    update_of_ne hne, pageStatus]

/-- `add_free_block`: a block of the hole becomes a free block. -/
theorem HoleInv.addFreeBlock (hI : HoleInv s lo len junk)
    (hF : Fills s lo len lo' len' junk' h k)
    (hbud : freeOrder s lo len (h ^^^ 2 ^ k) ≠ some k) :
    HoleInv (addFreeBlock s h k) lo' len' junk' ∧ SameOutside s (addFreeBlock s h k) lo len ∧
      ∀ p, Covers h k p → pageStatus (addFreeBlock s h k) p = .free := by
  have hhin : InHole lo len h := (hF.parts h).mpr (.inr (covers_start h k))
  have hlast : InHole lo len (h + 2 ^ k - 1) := by
    have := Nat.two_pow_pos k
    exact (hF.parts _).mpr (.inr ⟨by omega, by omega⟩)
  have hle := hI.tiling.hole_le
  have hmax := hI.tiling.total_le
  have hnone : freeOrder s lo len h = none := freeOrder_of_inHole hhin
  have hfo : freeOrder (Pmm.addFreeBlock s h k) lo' len' =
      update (freeOrder s lo len) h (some k) := by
    have := freeOrder_fill (Pmm.addFreeBlock s h k) .free hF rfl rfl
    rwa [if_pos rfl] at this
  unfold InHole at hhin hlast
  simp only [pmmMaxPages] at hmax
  refine ⟨⟨?_, ?_, ?_, ?_⟩, ⟨rfl, rfl, ?_⟩, ?_⟩
  · exact hI.tiling.fill hF (.inl rfl) rfl rfl rfl (setBlock_pageOwner s h k .free)
  · rw [hfo]
    have hset : FreeLists (setBlock s h k .free) (freeOrder s lo len) :=
      hI.lists.congr rfl rfl rfl
    exact (hset.push hnone (by unfold pmmInvalidIndex; omega)).congr rfl rfl rfl
  · rw [hfo]
    have hupd := freeWeight_update (freeOrder s lo len) (some k)
      (show h < s.totalPages by omega)
    have hcount := hI.count
    have htot := freeWeight_le_total hI.tiling
    rw [hnone] at hupd
    simp only [weight] at hupd
    show (s.freePages + blockPages k) % 2 ^ 64 =
      freeWeight (update (freeOrder s lo len) h (some k)) s.totalPages
    rw [blockPages_eq]
    have hpos := Nat.two_pow_pos k
    omega
  · rw [hfo]
    exact no_buddies_add hI.no_buddies hbud
  · intro p hp hout
    exact hI.tiling.setBlock_status_outside (fun q hq => (hF.parts q).mpr (.inr hq)) hp hout
  · intro p hcov
    exact setBlock_status_covers hcov

/-- `set_block` on the last page of the hole, with a state other than free, closes it. -/
theorem HoleInv.closeHole (st : BlockState) (hI : HoleInv s h 1 junk) (hused : st ≠ .unused)
    (hfree : st ≠ .free) :
    Inv (setBlock s h 0 st) ∧ SameOutside s (setBlock s h 0 st) h 1 ∧
      pageStatus (setBlock s h 0 st) h = st := by
  have hF : Fills s h 1 h 0 0 h 0 := by
    refine ⟨one_dvd h, ?_, ?_, ?_, ?_, ?_⟩
    · have := hI.tiling.hole_le
      omega
    · intro p
      rw [covers_zero_iff]
      unfold InHole
      omega
    · intro p _
      exact not_inHole_zero h p
    · intro p hp _
      exact covers_zero_iff.mp hp
    · intro p hp
      exact absurd hp (not_inHole_zero h p)
  have hin : InHole h 1 h := ⟨le_refl h, by omega⟩
  have hfo : freeOrder (setBlock s h 0 st) h 0 = freeOrder s h 1 := by
    have := freeOrder_fill (setBlock s h 0 st) st hF rfl rfl
    rw [if_neg hfree] at this
    rw [this, ← freeOrder_of_inHole (s := s) hin, update_eq_self]
  refine ⟨(⟨?_, ?_, ?_, ?_⟩ : HoleInv (setBlock s h 0 st) h 0 0).inv, ⟨rfl, rfl, ?_⟩, ?_⟩
  · exact hI.tiling.fill hF (.inr ⟨hused, rfl⟩) rfl rfl rfl (setBlock_pageOwner s h 0 st)
  · rw [hfo]
    exact hI.lists.congr rfl rfl rfl
  · rw [hfo]
    exact hI.count
  · rw [hfo]
    exact hI.no_buddies
  · intro p hp hout
    exact hI.tiling.setBlock_status_outside (fun q hq => (hF.parts q).mpr (.inr hq)) hp hout
  · exact setBlock_status_covers (covers_start h 0)

end

end GnuOS.Pmm

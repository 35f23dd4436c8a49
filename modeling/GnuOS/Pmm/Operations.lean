import GnuOS.Pmm.Invariant

/-!
# The loops of the allocator

One specification lemma for each function of `pmm.c` that contains a loop. A loop works on
a hole and compares with the state `s₀` before the call: every page that has left the hole
again has the status it had in `s₀`.
-/

namespace GnuOS.Pmm

open GnuOS.Lib

section
variable {s s' s₀ : PmmState} {lo len junk lo' len' h k b p x : ℕ}

/-- A page that leaves the hole with its old status extends the agreement with `s₀`. -/
theorem SameOutside.shrink (h₁ : SameOutside s₀ s lo len) (h₂ : SameOutside s s' lo len)
    (hleft : ∀ p, InHole lo len p → ¬ InHole lo' len' p → pageStatus s' p = pageStatus s₀ p) :
    SameOutside s₀ s' lo' len' := by
  refine ⟨h₂.base.trans h₁.base, h₂.total.trans h₁.total, ?_⟩
  intro p hp hout
  by_cases hin : InHole lo len p
  · exact hleft p hin hout
  · rw [h₂.status p (by rw [h₁.total]; exact hp) hin, h₁.status p hp hin]

/-- A free block has an order the arrays have room for. -/
theorem Tiling.order_le (hT : Tiling s lo len junk) (hb : IsBlock s lo len b) :
    s.blockOrder b ≤ pmmMaxOrder := by
  have hfit := hT.fits b hb
  have hmax := hT.total_le
  simp only [pmmMaxPages] at hmax
  have hpow : 2 ^ s.blockOrder b ≤ 2 ^ 16 := by omega
  exact (Nat.pow_le_pow_iff_right (by norm_num : 1 < 2)).mp hpow

/-! ## Halving a hole -/

/-- The upper half leaves the hole. -/
theorem Fills.upper (hT : Tiling s lo (2 ^ (k + 1)) lo) (hal : 2 ^ (k + 1) ∣ lo) :
    Fills s lo (2 ^ (k + 1)) lo (2 ^ k) lo (lo + 2 ^ k) k := by
  have hle := hT.hole_le
  have hpos := Nat.two_pow_pos k
  rw [pow_succ] at hle
  refine ⟨two_pow_dvd_upper hal, by omega, fun p => covers_succ_iff, ?_, ?_, ?_⟩
  · intro p hp hin
    have h1 := hp.1
    have h2 := hin.2
    omega
  · intro p hp hst
    have hplo := hT.hole_unused p (covers_succ_iff.mpr (.inr hp)) hst
    have h1 := hp.1
    omega
  · intro p hp hst
    exact hT.hole_unused p (covers_succ_iff.mpr (.inl hp)) hst

/-- The lower half leaves the hole. -/
theorem Fills.lower (hT : Tiling s lo (2 ^ (k + 1)) lo) (hal : 2 ^ (k + 1) ∣ lo) :
    Fills s lo (2 ^ (k + 1)) (lo + 2 ^ k) (2 ^ k) (lo + 2 ^ k) lo k := by
  have hle := hT.hole_le
  have hpos := Nat.two_pow_pos k
  rw [pow_succ] at hle
  refine ⟨two_pow_dvd_of_succ hal, by omega, ?_, ?_, ?_, ?_⟩
  · intro p
    rw [or_comm]
    exact covers_succ_iff
  · intro p hp hin
    have h1 := hp.2
    have h2 := hin.1
    omega
  · intro p hp hst
    exact hT.hole_unused p (covers_succ_iff.mpr (.inl hp)) hst
  · intro p hp hst
    have hplo := hT.hole_unused p (covers_succ_iff.mpr (.inr hp)) hst
    have h1 := hp.1
    omega

section

variable (hI : HoleInv s lo (2 ^ (k + 1)) lo) (hS : SameOutside s₀ s lo (2 ^ (k + 1)))
  (hfree : ∀ p, Covers lo (k + 1) p → pageStatus s₀ p = .free)

include hI hS hfree

/-- `add_free_block` on a half of a hole whose pages were free in `s₀`. -/
theorem HoleInv.addHalf (hF : Fills s lo (2 ^ (k + 1)) lo' (2 ^ k) lo' h k)
    (hbuddy : InHole lo (2 ^ (k + 1)) (h ^^^ 2 ^ k)) :
    HoleInv (Pmm.addFreeBlock s h k) lo' (2 ^ k) lo' ∧
      SameOutside s₀ (Pmm.addFreeBlock s h k) lo' (2 ^ k) := by
  obtain ⟨hI', hS', hst⟩ := hI.addFreeBlock hF (by rw [freeOrder_of_inHole hbuddy]; simp)
  refine ⟨hI', hS.shrink hS' ?_⟩
  intro p hin hout
  rcases (hF.parts p).mp hin with hleft | hblock
  · exact absurd hleft hout
  · rw [hst p hblock, hfree p hin]

theorem HoleInv.addUpper (hal : 2 ^ (k + 1) ∣ lo) :
    HoleInv (Pmm.addFreeBlock s (lo + 2 ^ k) k) lo (2 ^ k) lo ∧
      SameOutside s₀ (Pmm.addFreeBlock s (lo + 2 ^ k) k) lo (2 ^ k) := by
  refine hI.addHalf hS hfree (Fills.upper hI.tiling hal) ?_
  rw [xor_two_pow_upper hal]
  exact covers_start lo (k + 1)

theorem HoleInv.addLower (hal : 2 ^ (k + 1) ∣ lo) :
    HoleInv (Pmm.addFreeBlock s lo k) (lo + 2 ^ k) (2 ^ k) (lo + 2 ^ k) ∧
      SameOutside s₀ (Pmm.addFreeBlock s lo k) (lo + 2 ^ k) (2 ^ k) := by
  refine hI.addHalf hS hfree (Fills.lower hI.tiling hal) ?_
  rw [xor_two_pow_lower hal]
  exact covers_succ_iff.mpr (.inr (covers_start _ k))

end

/-! ## `alloc_block` -/

/-- The splitting loop gives back all of the block but its first page. -/
theorem splitLoop_spec {block : ℕ} : ∀ (n : ℕ) (s : PmmState),
    HoleInv s block (2 ^ n) block → 2 ^ n ∣ block → SameOutside s₀ s block (2 ^ n) →
    (∀ p, Covers block n p → pageStatus s₀ p = .free) →
    HoleInv (splitLoop block 0 n s) block 1 block ∧
      SameOutside s₀ (splitLoop block 0 n s) block 1 := by
  intro n
  induction n with
  | zero =>
    intro s hI _ hS _
    exact ⟨hI, hS⟩
  | succ n ih =>
    intro s hI hal hS hfree
    obtain ⟨hI', hS'⟩ := hI.addUpper hS hfree hal
    rw [splitLoop, blockPages_eq, Nat.zero_add]
    exact ih _ hI' (two_pow_dvd_of_succ hal) hS'
      (fun p hp => hfree p (covers_succ_iff.mpr (.inl hp)))

/-- Removing a free block of order `k` from a whole tiling leaves its pages as the hole. -/
theorem Inv.removeFreeBlock (hI : Inv s) (hb : freeOrder s 0 0 b = some k) :
    HoleInv (Pmm.removeFreeBlock s b) b (2 ^ k) b ∧
      SameOutside s (Pmm.removeFreeBlock s b) b (2 ^ k) ∧ 2 ^ k ∣ b ∧
      (∀ p, Covers b k p → pageStatus s p = .free) := by
  have hblk := isBlock_of_freeOrder hb
  obtain ⟨_, hst, hord⟩ := freeOrder_eq_some_iff.mp hb
  have hfit := HoleInv.tiling hI |>.fits b hblk
  rw [hord] at hfit
  have hI' : HoleInv s 0 0 b := hI.move_empty (Nat.zero_le _)
  have hrem := hI'.removeFreeBlock b (2 ^ k) hb hfit (fun p => by
    rw [inHole_two_pow_iff]
    simp [not_inHole_zero])
  refine ⟨hrem.1, hrem.2, ?_, ?_⟩
  · rw [← hord]
    exact hI'.tiling.aligned b hblk
  · intro p hp
    rw [hI'.tiling.status_of_covers hblk (by rw [hord]; exact hp), hst]

/-- What `alloc_block(0)` does: fail when every list is empty, or hand out one free page. -/
theorem allocLoop_spec (hI : Inv s) : ∀ (fuel n : ℕ), n + fuel = pmmMaxOrder + 1 →
    (∀ j, j < n → s.freeHeads j = pmmInvalidIndex) →
    (allocLoop s 0 fuel n = (pmmInvalidIndex, s) ∧
      ∀ j, j ≤ pmmMaxOrder → s.freeHeads j = pmmInvalidIndex) ∨
    ∃ b s', allocLoop s 0 fuel n = (b, s') ∧ b < s.totalPages ∧ pageStatus s b = .free ∧
      Inv s' ∧ SameOutside s s' b 1 ∧ pageStatus s' b = .allocated := by
  intro fuel
  induction fuel with
  | zero =>
    intro n hn hempty
    exact .inl ⟨rfl, fun j hj => hempty j (by omega)⟩
  | succ fuel ih =>
    intro n hn hempty
    rw [allocLoop, Nat.zero_add]
    by_cases hhead : s.freeHeads n = pmmInvalidIndex
    · rw [if_pos hhead]
      refine ih (n + 1) (by omega) ?_
      intro j hj
      rcases Nat.lt_succ_iff_lt_or_eq.mp hj with hj | rfl
      · exact hempty j hj
      · exact hhead
    · rw [if_neg hhead]
      right
      -- take the block out, split it down to one page, mark the page
      have hb := HoleInv.lists hI |>.head_mem hhead
      obtain ⟨hI₁, hS₁, hal, hfree⟩ := hI.removeFreeBlock hb
      obtain ⟨hI₂, hS₂⟩ := splitLoop_spec n _ hI₁ hal hS₁ hfree
      obtain ⟨hI₃, hS₃, hst⟩ := hI₂.closeHole .allocated (by decide) (by decide)
      exact ⟨_, _, rfl, HoleInv.tiling hI |>.block_lt (isBlock_of_freeOrder hb),
        hfree _ (covers_start _ _), hI₃, hS₂.trans hS₃ (fun _ h => h), hst⟩

/-! ## `free_block` -/

/-- One round of the merging loop: the buddy joins the hole, and the mark moves to the
first page of the parent. -/
theorem HoleInv.merge {current order : ℕ} (hI : HoleInv s current (2 ^ order) current)
    (hal : 2 ^ order ∣ current)
    (hb : freeOrder s current (2 ^ order) (current ^^^ 2 ^ order) = some order) :
    let buddy := current ^^^ 2 ^ order
    let low := if buddy < current then buddy else current
    let s₃ := setBlock (clearBlockHead (clearBlockHead (Pmm.removeFreeBlock s buddy) current)
      buddy) low (order + 1) .free
    HoleInv s₃ low (2 ^ (order + 1)) low ∧ SameOutside s s₃ low (2 ^ (order + 1)) ∧
      2 ^ (order + 1) ∣ low ∧
      ∀ p, Covers low (order + 1) p ↔ Covers current order p ∨ Covers buddy order p := by
  intro buddy low s₃
  have hpos := Nat.two_pow_pos order
  -- the parent block, and how it falls into the two halves
  have hparent : 2 ^ (order + 1) ∣ low ∧
      (∀ p, Covers low (order + 1) p ↔ Covers current order p ∨ Covers buddy order p) := by
    rcases xor_two_pow_cases hal with ⟨hdvd, hx⟩ | ⟨hle, hdvd, hx⟩
    · have hlow : low = current := if_neg (by show ¬ current ^^^ 2 ^ order < current; omega)
      rw [hlow]
      refine ⟨hdvd, fun p => ?_⟩
      show _ ↔ _ ∨ Covers (current ^^^ 2 ^ order) order p
      rw [hx]
      exact covers_succ_iff
    · have hlow : low = current - 2 ^ order := by
        rw [← hx]
        exact if_pos (by show current ^^^ 2 ^ order < current; omega)
      rw [hlow]
      refine ⟨hdvd, fun p => ?_⟩
      show _ ↔ _ ∨ Covers (current ^^^ 2 ^ order) order p
      rw [hx, covers_succ_iff, or_comm, Nat.sub_add_cancel hle]
  obtain ⟨hdvd, hparts⟩ := hparent
  have hblk := isBlock_of_freeOrder hb
  have hlow_le : low + 2 ^ (order + 1) ≤ s.totalPages := by
    have hlast := (hparts (low + 2 ^ (order + 1) - 1)).mp
      ⟨by have := Nat.two_pow_pos (order + 1); omega,
        by have := Nat.two_pow_pos (order + 1); omega⟩
    have hfit := hI.tiling.fits _ hblk
    rw [(freeOrder_eq_some_iff.mp hb).2.2] at hfit
    have hhole := hI.tiling.hole_le
    have hpos' := Nat.two_pow_pos (order + 1)
    rcases hlast with hl | hl
    · have h2 := hl.2
      omega
    · have h2 := hl.2
      omega
  obtain ⟨hI₁, hS₁⟩ := hI.removeFreeBlock low (2 ^ (order + 1)) hb hlow_le
    (fun p => hparts p)
  have hcur : InHole low (2 ^ (order + 1)) current :=
    (hparts current).mpr (.inl (covers_start _ _))
  have hbud : InHole low (2 ^ (order + 1)) buddy :=
    (hparts buddy).mpr (.inr (covers_start _ _))
  -- after the two `clear_block_head` no page of the hole is marked
  obtain ⟨hI₂, hS₂⟩ := hI₁.clearBlockHead_junk low hcur
    (fun p hp hne hst => absurd (hI₁.tiling.hole_unused p hp hst) hne)
  obtain ⟨hI₃, hS₃⟩ := hI₂.clearBlockHead_junk low hbud
    (fun p hp _ hst => hI₂.tiling.hole_unused p hp hst)
  obtain ⟨hI₄, hS₄⟩ := hI₃.setBlock_junk (h := low) (k := order + 1) .free
    (fun _ hp => hp) (fun p hp hst => hI₃.tiling.hole_unused p hp hst)
  exact ⟨hI₄, ((hS₁.trans hS₂ fun _ h => h).trans hS₃ fun _ h => h).trans hS₄ fun _ h => h,
    hdvd, hparts⟩

/-- The merging loop stops at a block whose buddy is not free, and takes in free pages
only. Its last possible round is stopped by the size of the window. -/
theorem mergeLoop_spec (s₀ : PmmState) (x : ℕ) : ∀ (fuel : ℕ) (s : PmmState) (current order : ℕ),
    fuel + order = pmmMaxOrder → HoleInv s current (2 ^ order) current → 2 ^ order ∣ current →
    SameOutside s₀ s current (2 ^ order) → Covers current order x →
    (∀ p, Covers current order p → p = x ∨ pageStatus s₀ p = .free) →
    ∃ s' c o, mergeLoop fuel s current order = (s', c, o) ∧ HoleInv s' c (2 ^ o) c ∧
      2 ^ o ∣ c ∧ freeOrder s' c (2 ^ o) (c ^^^ 2 ^ o) ≠ some o ∧
      SameOutside s₀ s' c (2 ^ o) ∧ Covers c o x ∧
      ∀ p, Covers c o p → p = x ∨ pageStatus s₀ p = .free := by
  intro fuel
  induction fuel with
  | zero =>
    intro s current order hfuel hI hal hS hx hfree
    refine ⟨s, current, order, rfl, hI, hal, ?_, hS, hx, hfree⟩
    -- the hole has the size of the whole window, so there is no block outside it
    intro hb
    have hblk := isBlock_of_freeOrder hb
    have hfit := hI.tiling.fits _ hblk
    rw [(freeOrder_eq_some_iff.mp hb).2.2] at hfit
    have horder : order = 16 := by
      rw [Nat.zero_add] at hfuel
      exact hfuel
    subst horder
    have hhole := hI.tiling.hole_le
    have hmax := hI.tiling.total_le
    simp only [pmmMaxPages] at hmax
    have hin : InHole current (2 ^ 16) (current ^^^ 2 ^ 16) := ⟨by omega, by omega⟩
    exact hblk.2 hin
  | succ fuel ih =>
    intro s current order hfuel hI hal hS hx hfree
    rw [mergeLoop, blockPages_eq]
    by_cases htot : current ^^^ 2 ^ order ≥ s.totalPages
    · rw [if_pos htot]
      refine ⟨s, current, order, rfl, hI, hal, ?_, hS, hx, hfree⟩
      intro hb
      have hlt := hI.tiling.block_lt (isBlock_of_freeOrder hb)
      omega
    rw [if_neg htot]
    by_cases hst : s.blockState (current ^^^ 2 ^ order) ≠ .free ∨
        s.blockOrder (current ^^^ 2 ^ order) ≠ order
    · rw [if_pos hst]
      refine ⟨s, current, order, rfl, hI, hal, ?_, hS, hx, hfree⟩
      intro hb
      obtain ⟨_, hfr, hord⟩ := freeOrder_eq_some_iff.mp hb
      rcases hst with hst | hst
      · exact hst hfr
      · exact hst hord
    rw [if_neg hst]
    push Not at hst
    have hout : ¬ InHole current (2 ^ order) (current ^^^ 2 ^ order) := by
      have hpos := Nat.two_pow_pos order
      rintro ⟨h1, h2⟩
      rcases xor_two_pow_cases hal with ⟨_, hxor⟩ | ⟨hle, _, hxor⟩ <;> omega
    have hb : freeOrder s current (2 ^ order) (current ^^^ 2 ^ order) = some order :=
      freeOrder_eq_some_iff.mpr ⟨hout, hst.1, hst.2⟩
    obtain ⟨hI', hS', hal', hparts⟩ := hI.merge hal hb
    refine ih _ _ (order + 1) (by omega) hI' hal' ?_ ?_ ?_
    · refine hS.trans hS' (fun p hp hin => hp ((hparts p).mpr (.inl hin)))
    · exact (hparts x).mpr (.inl hx)
    · intro p hp
      rcases (hparts p).mp hp with hp | hp
      · exact hfree p hp
      · -- the buddy's pages are outside the old hole and free
        right
        have hblk := isBlock_of_freeOrder hb
        have hcov : Covers (current ^^^ 2 ^ order) (s.blockOrder (current ^^^ 2 ^ order)) p := by
          rw [hst.2]
          exact hp
        have hfit := hI.tiling.fits _ hblk
        rw [hst.2] at hfit
        have hlt : p < s₀.totalPages := by
          rw [← hS.total]
          have := hp.2
          omega
        rw [← hS.status p hlt (hI.tiling.clear _ p hblk hcov),
          hI.tiling.status_of_covers hblk hcov, hst.1]

/-- `free_block` closes a hole of one page: the page becomes free, the others keep their
statuses. -/
theorem freeBlock_spec (hI : HoleInv s x 1 x) :
    Inv (freeBlock s x 0) ∧ SameOutside s (freeBlock s x 0) x 1 ∧
      pageStatus (freeBlock s x 0) x = .free := by
  have hcov : ∀ p, Covers x 0 p → InHole x 1 p := fun p hp => hp
  obtain ⟨hI₁, hS₁⟩ := hI.setBlock_junk (h := x) (k := 0) .free hcov
    (fun p hp _ => covers_zero_iff.mp hp)
  obtain ⟨s₂, c, o, hrun, hI₂, hal, hbud, hS₂, hx, hfree⟩ :=
    mergeLoop_spec s x 16 _ x 0 rfl hI₁ (one_dvd x) hS₁ (covers_start x 0)
      (fun p hp => .inl (covers_zero_iff.mp hp))
  have hF : Fills s₂ c (2 ^ o) c 0 c c o := by
    refine ⟨hal, ?_, ?_, ?_, ?_, ?_⟩
    · have := hI₂.tiling.hole_le
      have := Nat.two_pow_pos o
      omega
    · intro p
      simp [not_inHole_zero, inHole_two_pow_iff]
    · intro p _
      exact not_inHole_zero c p
    · intro p hp hst
      exact hI₂.tiling.hole_unused p hp hst
    · intro p hp
      exact absurd hp (not_inHole_zero c p)
  obtain ⟨hI₃, hS₃, hst⟩ := hI₂.addFreeBlock hF hbud
  have heq : freeBlock s x 0 = Pmm.addFreeBlock s₂ c o := by
    simp only [freeBlock, pmmMaxOrder, hrun]
  rw [heq]
  refine ⟨hI₃.inv, hS₂.shrink hS₃ ?_, hst x hx⟩
  intro p hin hout
  rcases hfree p hin with rfl | hfr
  · exact absurd ⟨le_refl p, by omega⟩ hout
  · rw [hst p hin, hfr]

/-- Unmarking an allocated page turns it into a hole. -/
theorem Inv.clearAllocated (hI : Inv s) (hx : s.blockState x = .allocated)
    (hord : s.blockOrder x = 0) :
    HoleInv (clearBlockHead s x) x 1 x ∧ SameOutside s (clearBlockHead s x) x 1 := by
  have hI' : HoleInv s 0 0 x := hI.move_empty (Nat.zero_le _)
  have hblk : IsBlock s 0 0 x := ⟨by rw [hx]; decide, not_inHole_zero 0 x⟩
  have hhole : ∀ p, InHole x 1 p ↔ InHole 0 0 p ∨ Covers x (s.blockOrder x) p := by
    intro p
    rw [hord]
    simp only [not_inHole_zero, false_or]
    exact Iff.rfl
  have hlt := hI'.tiling.block_lt hblk
  have hfo : freeOrder (clearBlockHead s x) x 1 = freeOrder s 0 0 := by
    rw [freeOrder_punch hI'.tiling hblk hhole rfl rfl]
    have hnone : freeOrder s 0 0 x = none := by
      rw [freeOrder, if_neg (not_inHole_zero 0 x), if_neg (by rw [hx]; decide)]
    rw [← hnone, Function.update_eq_self]
  refine ⟨⟨hI'.tiling.punch hblk (by omega) hhole rfl rfl rfl rfl, ?_, ?_, ?_⟩, rfl, rfl, ?_⟩
  · rw [hfo]
    exact hI'.lists.congr rfl rfl rfl
  · rw [hfo]
    exact hI'.count
  · rw [hfo]
    exact hI'.no_buddies
  · intro p hp hout
    obtain ⟨_, hcov⟩ := hI'.tiling.owner_covers p hp (not_inHole_zero 0 p)
    have hne : s.pageOwner p ≠ x := by
      intro heq
      rw [heq, hord] at hcov
      exact hout hcov
    rw [pageStatus, pageStatus, clearBlockHead_pageOwner, clearBlockHead_blockState,
      Function.update_of_ne hne]

/-! ## `reserve_page` -/

/-- The splitting loop of `reserve_page` ends at the page itself. -/
theorem reserveLoop_spec {page : ℕ} : ∀ (order : ℕ) (s : PmmState) (current : ℕ),
    HoleInv s current (2 ^ order) current → 2 ^ order ∣ current → Covers current order page →
    SameOutside s₀ s current (2 ^ order) →
    (∀ p, Covers current order p → pageStatus s₀ p = .free) →
    ∃ s', reserveLoop page order s current = (s', page) ∧ HoleInv s' page 1 page ∧
      SameOutside s₀ s' page 1 := by
  intro order
  induction order with
  | zero =>
    intro s current hI _ hpage hS _
    have hp := covers_zero_iff.mp hpage
    subst hp
    exact ⟨s, rfl, hI, hS⟩
  | succ k ih =>
    intro s current hI hal hpage hS hfree
    rw [reserveLoop, blockPages_eq]
    -- the half without the page goes back to the free lists
    by_cases hlt : page < current + 2 ^ k
    · rw [if_pos hlt]
      obtain ⟨hI₁, hS₁⟩ := hI.addUpper hS hfree hal
      obtain ⟨hI₂, hS₂⟩ := hI₁.setBlock_junk (h := current) (k := k) .allocated
        (fun _ hp => hp) (fun p hp hst => hI₁.tiling.hole_unused p hp hst)
      exact ih _ current hI₂ (two_pow_dvd_of_succ hal) ⟨hpage.1, hlt⟩
        (hS₁.trans hS₂ fun _ h => h)
        (fun p hp => hfree p (covers_succ_iff.mpr (.inl hp)))
    · rw [if_neg hlt]
      obtain ⟨hI₁, hS₁⟩ := hI.addLower hS hfree hal
      obtain ⟨hI₂, hS₂⟩ := hI₁.setBlock_junk (h := current + 2 ^ k) (k := k) .allocated
        (fun _ hp => hp) (fun p hp hst => hI₁.tiling.hole_unused p hp hst)
      have hpage' : Covers (current + 2 ^ k) k page := by
        rcases covers_succ_iff.mp hpage with hp | hp
        · exact absurd hp.2 hlt
        · exact hp
      exact ih _ (current + 2 ^ k) hI₂ (two_pow_dvd_upper hal) hpage'
        (hS₁.trans hS₂ fun _ h => h)
        (fun p hp => hfree p (covers_succ_iff.mpr (.inr hp)))

/-- `reserve_page` on a free page. -/
theorem reservePage_free (hI : Inv s) (hp : p < s.totalPages) (hst : pageStatus s p = .free) :
    ∃ s', reservePage s p = (true, s') ∧ Inv s' ∧ SameOutside s s' p 1 ∧
      pageStatus s' p = .reserved := by
  obtain ⟨hown, hcov⟩ := HoleInv.tiling hI |>.owner_covers p hp (not_inHole_zero 0 p)
  have hlt := HoleInv.tiling hI |>.block_lt hown
  have hmax := HoleInv.tiling hI |>.total_le
  simp only [pmmMaxPages] at hmax
  have hb : freeOrder s 0 0 (s.pageOwner p) = some (s.blockOrder (s.pageOwner p)) :=
    freeOrder_eq_some_iff.mpr ⟨not_inHole_zero 0 _, hst, rfl⟩
  obtain ⟨hI₁, hS₁, hal, hfree⟩ := hI.removeFreeBlock hb
  obtain ⟨s₂, hrun, hI₂, hS₂⟩ := reserveLoop_spec _ _ _ hI₁ hal hcov hS₁ hfree
  obtain ⟨hI₃, hS₃, hst₃⟩ := hI₂.closeHole .reserved (by decide) (by decide)
  refine ⟨setBlock s₂ p 0 .reserved, ?_, hI₃, hS₂.trans hS₃ (fun _ h => h), hst₃⟩
  have hne : s.pageOwner p ≠ pmmInvalidIndex := by
    unfold pmmInvalidIndex
    omega
  rw [pageStatus] at hst
  rw [reservePage, if_neg (by omega), if_neg hne, hst]
  simp only [hrun]

/-- `reserve_page` on any other page changes nothing. -/
theorem reservePage_of_ne_free (hst : p < s.totalPages → pageStatus s p ≠ .free) :
    (reservePage s p).2 = s := by
  rw [reservePage]
  split
  · rfl
  · next hp =>
    simp only
    split
    · rfl
    · have hne := hst (by omega)
      rw [pageStatus] at hne
      cases hb : s.blockState (s.pageOwner p) with
      | free => exact absurd hb hne
      | _ => rfl

end

end GnuOS.Pmm

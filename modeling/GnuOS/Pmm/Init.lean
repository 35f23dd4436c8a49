import GnuOS.Lib.Bits
import GnuOS.Pmm.Operations

/-!
# `pmm_init`

The greedy decomposition of `add_free_range` starts at page 0 and takes the largest power of
two that fits, so the orders strictly decrease: every block that is there already is larger
than the one to come, and no two blocks are buddies. After it page 0 is reserved.
-/

namespace GnuOS.Pmm

open GnuOS.Lib

/-! ## The two order loops -/

theorem maxOrderLoop_spec (pages : ℕ) : ∀ (fuel order : ℕ), fuel + order = pmmMaxOrder →
    2 ^ order ≤ pages → pages < 2 ^ (pmmMaxOrder + 1) →
    2 ^ maxOrderLoop pages fuel order ≤ pages ∧
      pages < 2 ^ (maxOrderLoop pages fuel order + 1) := by
  intro fuel
  induction fuel with
  | zero =>
    intro order hfuel hle hlt
    rw [Nat.zero_add] at hfuel
    rw [maxOrderLoop, hfuel]
    exact ⟨by rw [← hfuel]; exact hle, hlt⟩
  | succ fuel ih =>
    intro order hfuel hle hlt
    rw [maxOrderLoop, Nat.shiftLeft_eq, one_mul]
    by_cases hbig : 2 ^ (order + 1) > pages
    · rw [if_pos hbig]
      exact ⟨hle, hbig⟩
    · rw [if_neg hbig]
      exact ih (order + 1) (by omega) (by omega) hlt

/-- `max_order_for_pages` is the base-2 logarithm on the sizes that occur. -/
theorem maxOrderForPages_spec {pages : ℕ} (hpos : 0 < pages)
    (hlt : pages < 2 ^ (pmmMaxOrder + 1)) :
    2 ^ maxOrderForPages pages ≤ pages ∧ pages < 2 ^ (maxOrderForPages pages + 1) :=
  maxOrderLoop_spec pages pmmMaxOrder 0 rfl hpos hlt

/-- The alignment loop keeps an order at which the page is aligned. -/
theorem alignLoop_of_dvd {page order : ℕ} (hal : 2 ^ order ∣ page) :
    alignLoop page order = order := by
  cases order with
  | zero => rfl
  | succ k =>
    rw [alignLoop, blockPages_eq, Nat.and_two_pow_sub_one_eq_mod, Nat.mod_eq_zero_of_dvd hal,
      if_neg (by omega)]

/-! ## `add_free_range` -/

/-- A block at the start of the hole leaves it. -/
theorem Fills.front {s : PmmState} {lo len k : ℕ} (hT : Tiling s lo len lo) (hal : 2 ^ k ∣ lo)
    (hlen : 2 ^ k ≤ len) :
    Fills s lo len (lo + 2 ^ k) (len - 2 ^ k) (lo + 2 ^ k) lo k := by
  have hle := hT.hole_le
  have hpos := Nat.two_pow_pos k
  have hsub : ∀ p, InHole (lo + 2 ^ k) (len - 2 ^ k) p → InHole lo len p ∧ p ≠ lo := by
    intro p hp
    unfold InHole at hp ⊢
    omega
  refine ⟨hal, by omega, ?_, ?_, ?_, ?_⟩
  · intro p
    unfold InHole Covers
    omega
  · intro p hp hin
    have h1 := hp.2
    have h2 := hin.1
    omega
  · intro p hp hst
    exact hT.hole_unused p ⟨hp.1, by have := hp.2; omega⟩ hst
  · intro p hp hst
    exact absurd (hT.hole_unused p (hsub p hp).1 hst) (hsub p hp).2

/-- The outer loop of `add_free_range`. `K` bounds the orders from below: the page is
aligned to it, what remains is smaller than it, and no block so far is smaller. -/
theorem addFreeRangeLoop_spec : ∀ (fuel : ℕ) (s : PmmState) (page remaining K : ℕ),
    remaining ≤ fuel → HoleInv s page remaining page → page + remaining = s.totalPages →
    2 ^ K ∣ page → remaining < 2 ^ K → K ≤ pmmMaxOrder + 1 →
    (∀ b k, freeOrder s page remaining b = some k → K ≤ k) →
    (∀ p, p < page → pageStatus s p = .free) →
    Inv (addFreeRangeLoop fuel s page remaining) ∧
      (addFreeRangeLoop fuel s page remaining).base = s.base ∧
      (addFreeRangeLoop fuel s page remaining).totalPages = s.totalPages ∧
      ∀ p, p < s.totalPages → pageStatus (addFreeRangeLoop fuel s page remaining) p = .free := by
  intro fuel
  induction fuel with
  | zero =>
    intro s page remaining K hfuel hI htot _ _ _ _ hst
    have hrem : remaining = 0 := by omega
    subst hrem
    exact ⟨hI.inv, rfl, rfl, fun p hp => hst p (by omega)⟩
  | succ fuel ih =>
    intro s page remaining K hfuel hI htot hal hlt hK horders hst
    rw [addFreeRangeLoop]
    by_cases hrem : remaining = 0
    · rw [if_pos hrem]
      subst hrem
      exact ⟨hI.inv, rfl, rfl, fun p hp => hst p (by omega)⟩
    rw [if_neg hrem]
    -- the order found is below `K`, so the page is aligned to it
    have hlt' : remaining < 2 ^ (pmmMaxOrder + 1) :=
      lt_of_lt_of_le hlt (Nat.pow_le_pow_right (by norm_num) hK)
    obtain ⟨hole, holt⟩ := maxOrderForPages_spec (Nat.pos_of_ne_zero hrem) hlt'
    generalize maxOrderForPages remaining = o at hole holt ⊢
    have hoK : o < K := (Nat.pow_lt_pow_iff_right (by norm_num : 1 < 2)).mp (by omega)
    have hpage : 2 ^ o ∣ page := Dvd.dvd.trans (pow_dvd_pow 2 (by omega)) hal
    simp only [alignLoop_of_dvd hpage, blockPages_eq]
    have hF := Fills.front hI.tiling hpage hole
    have hbud : freeOrder s page remaining (page ^^^ 2 ^ o) ≠ some o := by
      intro hb
      have := horders _ _ hb
      omega
    obtain ⟨hI', hS', hfree⟩ := hI.addFreeBlock hF hbud
    have hpos := Nat.two_pow_pos o
    rw [pow_succ] at holt
    have hrec := ih (Pmm.addFreeBlock s page o) (page + 2 ^ o) (remaining - 2 ^ o) o (by omega)
      hI' (by rw [addFreeBlock_totalPages]; omega) (Nat.dvd_add hpage (dvd_refl _)) (by omega)
      (by omega) ?_ ?_
    · exact hrec
    · intro b k hb
      have hfo := freeOrder_fill (Pmm.addFreeBlock s page o) .free hF rfl rfl
      rw [hfo, if_pos rfl] at hb
      by_cases hbp : b = page
      · rw [hbp, Function.update_self, Option.some.injEq] at hb
        omega
      · rw [Function.update_of_ne hbp] at hb
        have := horders b k hb
        omega
    · intro p hp
      by_cases hpp : p < page
      · rw [hS'.status p (by omega) (by unfold InHole; omega)]
        exact hst p hpp
      · exact hfree p ⟨by omega, hp⟩

/-! ## The reset state -/

/-- After `reset_allocator_state` the whole window is a hole. -/
theorem holeInv_reset (base : BitVec 64) {total : ℕ} (htot : total ≤ pmmMaxPages) :
    HoleInv (resetAllocatorState base total) 0 total 0 := by
  have hno : ∀ lo len b, ¬ IsBlock (resetAllocatorState base total) lo len b :=
    fun _ _ _ hb => hb.1 rfl
  have hfo : freeOrder (resetAllocatorState base total) 0 total = fun _ => none := by
    funext b
    unfold freeOrder
    split
    · rfl
    · exact if_neg (by show ¬ BlockState.unused = BlockState.free; decide)
  refine ⟨⟨htot, by show 0 + total ≤ total; omega, fun _ _ hst => absurd rfl hst,
    fun b hb => absurd hb (hno _ _ b), fun b hb => absurd hb (hno _ _ b),
    fun b _ hb => absurd hb (hno _ _ b), ?_, fun b _ hb => absurd hb (hno _ _ b),
    fun b hb => absurd hb (hno _ _ b)⟩, ?_, ?_, ?_⟩
  · intro p hp hout
    exact absurd ⟨Nat.zero_le p, by rw [Nat.zero_add]; exact hp⟩ hout
  · rw [hfo]
    intro k
    exact ⟨[], List.nodup_nil, rfl, fun b => by simp⟩
  · rw [hfo]
    show 0 = freeWeight (fun _ => none) _
    unfold freeWeight
    simp [weight]
  · rw [hfo]
    intro b k hb
    exact absurd hb (by simp)

/-- `add_free_range(0, total)` on the reset state makes every page free. -/
theorem addFreeRange_spec (base : BitVec 64) {total : ℕ} (htot : total ≤ pmmMaxPages) :
    Inv (addFreeRange (resetAllocatorState base total) 0 total) ∧
      (addFreeRange (resetAllocatorState base total) 0 total).base = base ∧
      (addFreeRange (resetAllocatorState base total) 0 total).totalPages = total ∧
      ∀ p, p < total →
        pageStatus (addFreeRange (resetAllocatorState base total) 0 total) p = .free := by
  refine addFreeRangeLoop_spec total (resetAllocatorState base total) 0 total (pmmMaxOrder + 1)
    (le_refl _) (holeInv_reset base htot) (Nat.zero_add _) (dvd_zero _) ?_ (le_refl _) ?_ ?_
  · unfold pmmMaxPages at htot
    unfold pmmMaxOrder
    omega
  · intro b k hb
    have hblk := isBlock_of_freeOrder hb
    exact absurd rfl hblk.1
  · intro p hp
    omega

/-! ## The managed window -/

/-- `pmm_init` clamps the page count. -/
theorem initTotalPages_eq (base memorySize : BitVec 64) :
    initTotalPages base memorySize =
      min pmmMaxPages (if base + memorySize < base ∨ pageAlignUp base ≥ base + memorySize then 0
        else (base + memorySize - pageAlignUp base).toNat / mmPageSize) := by
  simp only [initTotalPages]
  generalize (if base + memorySize < base ∨ pageAlignUp base ≥ base + memorySize then 0
    else (base + memorySize - pageAlignUp base).toNat / mmPageSize) = total
  by_cases hbig : total > pmmMaxPages
  · rw [if_pos hbig, Nat.min_eq_left (by omega)]
  · rw [if_neg hbig, Nat.min_eq_right (by omega)]

theorem initTotalPages_le (base memorySize : BitVec 64) :
    initTotalPages base memorySize ≤ pmmMaxPages := by
  rw [initTotalPages_eq]
  exact Nat.min_le_left _ _

/-- The managed window ends inside the address space. -/
theorem window_lt (base memorySize : BitVec 64) :
    (pageAlignUp base).toNat + initTotalPages base memorySize * 4096 < 2 ^ 64 := by
  have hlt := (pageAlignUp base).isLt
  have hend := (base + memorySize).isLt
  rw [initTotalPages_eq]
  by_cases hbad : base + memorySize < base ∨ pageAlignUp base ≥ base + memorySize
  · rw [if_pos hbad, Nat.min_zero]
    omega
  · rw [if_neg hbad]
    have hle : (pageAlignUp base).toNat ≤ (base + memorySize).toNat := by
      have hge := fun h => hbad (.inr h)
      exact Nat.le_of_lt (BitVec.lt_def.mp (BitVec.not_le.mp hge))
    have hsub : (base + memorySize - pageAlignUp base).toNat =
        (base + memorySize).toNat - (pageAlignUp base).toNat := BitVec.toNat_sub_of_le hle
    have hmin := Nat.min_le_right pmmMaxPages
      ((base + memorySize - pageAlignUp base).toNat / mmPageSize)
    rw [hsub] at hmin ⊢
    unfold mmPageSize at hmin ⊢
    omega

/-- **`pmm_init`** establishes the invariant: page 0 is reserved and every other page of the
window is free. -/
theorem pmmInit_spec (base memorySize : BitVec 64) :
    Inv (pmmInit base memorySize) ∧ (pmmInit base memorySize).base = pageAlignUp base ∧
      (pmmInit base memorySize).totalPages = initTotalPages base memorySize ∧
      ∀ p, p < initTotalPages base memorySize →
        pageStatus (pmmInit base memorySize) p = if p = 0 then .reserved else .free := by
  have htot := initTotalPages_le base memorySize
  simp only [pmmInit]
  generalize initTotalPages base memorySize = total at htot ⊢
  by_cases hpos : total > 0
  · rw [if_pos hpos]
    obtain ⟨hI, hbase, htotal, hfree⟩ := addFreeRange_spec (pageAlignUp base) htot
    obtain ⟨s', hrun, hI', hS', hst⟩ := reservePage_free (p := 0) hI
      (by rw [htotal]; exact hpos) (hfree 0 hpos)
    rw [hrun]
    refine ⟨hI', hS'.base.trans hbase, hS'.total.trans htotal, ?_⟩
    intro p hp
    by_cases hp0 : p = 0
    · rw [if_pos hp0, hp0]
      exact hst
    · rw [if_neg hp0]
      show pageStatus s' p = .free
      rw [hS'.status p (by rw [htotal]; exact hp) (by unfold InHole; omega)]
      exact hfree p hp
  · rw [if_neg hpos]
    have h0 : total = 0 := by omega
    subst h0
    exact ⟨holeInv_reset _ htot, rfl, rfl, fun p hp => absurd hp (by omega)⟩

end GnuOS.Pmm

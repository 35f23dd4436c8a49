import GnuOS.Pmm.Basic
import Mathlib.Algebra.Order.BigOperators.Group.Finset
import Mathlib.Algebra.BigOperators.Intervals

/-!
# Block tilings with a hole

Every operation of the allocator takes blocks out of the tiling and puts others back, and in
between the pages it works on belong to no block. `Tiling s lo len junk` is the invariant of
the block marks outside the hole `[lo, lo + len)`: the blocks there are aligned, disjoint,
and cover every managed page outside the hole. Inside the hole only the page `junk` may
carry a mark (`free_block` and `reserve_page` write one at the block they work on). An empty
hole gives the invariant that holds between two calls.

Three lemmas move between tilings: `Tiling.frame` for writes inside the hole,
`Tiling.punch` for a block that joins the hole, `Tiling.fill` for a block that leaves it.
-/

namespace GnuOS.Pmm

open GnuOS.Lib Function

theorem blockPages_eq (order : ℕ) : blockPages order = 2 ^ order := by
  rw [blockPages, Nat.shiftLeft_eq, one_mul]

/-! ## Field lemmas -/

/-- `mark_block_owner` writes exactly the pages of the block. -/
theorem markLoop_apply (h n : ℕ) (owner : ℕ → ℕ) (p : ℕ) :
    markLoop h n owner p = if h ≤ p ∧ p < h + n then h else owner p := by
  induction n with
  | zero => rw [markLoop, if_neg (by omega)]
  | succ n ih =>
    rw [markLoop]
    by_cases hp : p = h + n
    · rw [hp, update_self, if_pos (by omega)]
    · rw [update_of_ne hp, ih]
      by_cases hin : h ≤ p ∧ p < h + n
      · rw [if_pos hin, if_pos (by omega)]
      · rw [if_neg hin, if_neg (by omega)]

section Fields
variable (s : PmmState) (h k : ℕ) (st : BlockState)

theorem setBlock_pageOwner (p : ℕ) :
    (setBlock s h k st).pageOwner p = if Covers h k p then h else s.pageOwner p := by
  show markLoop h (blockPages k) s.pageOwner p = _
  rw [markLoop_apply, blockPages_eq]
  rfl

@[simp] theorem setBlock_blockState :
    (setBlock s h k st).blockState = update s.blockState h st := rfl
@[simp] theorem setBlock_blockOrder :
    (setBlock s h k st).blockOrder = update s.blockOrder h k := rfl
@[simp] theorem addFreeBlock_totalPages : (addFreeBlock s h k).totalPages = s.totalPages := rfl
@[simp] theorem removeFreeBlock_blockState :
    (removeFreeBlock s h).blockState = update s.blockState h .unused := rfl
@[simp] theorem removeFreeBlock_pageOwner : (removeFreeBlock s h).pageOwner = s.pageOwner := rfl
@[simp] theorem clearBlockHead_blockState :
    (clearBlockHead s h).blockState = update s.blockState h .unused := rfl
@[simp] theorem clearBlockHead_blockOrder :
    (clearBlockHead s h).blockOrder = update s.blockOrder h 0 := rfl
@[simp] theorem clearBlockHead_pageOwner : (clearBlockHead s h).pageOwner = s.pageOwner := rfl

end Fields

/-! ## Tilings -/

/-- The page lies in the hole `[lo, lo + len)`. -/
def InHole (lo len p : ℕ) : Prop := lo ≤ p ∧ p < lo + len

instance (lo len p : ℕ) : Decidable (InHole lo len p) := inferInstanceAs (Decidable (_ ∧ _))

theorem not_inHole_zero (lo p : ℕ) : ¬ InHole lo 0 p := by
  unfold InHole
  omega

theorem inHole_two_pow_iff {lo k p : ℕ} : InHole lo (2 ^ k) p ↔ Covers lo k p := Iff.rfl

/-- `b` is the first page of a block outside the hole. -/
def IsBlock (s : PmmState) (lo len b : ℕ) : Prop :=
  s.blockState b ≠ .unused ∧ ¬ InHole lo len b

/-- The block marks tile `[0, totalPages)` outside the hole `[lo, lo + len)`. -/
structure Tiling (s : PmmState) (lo len junk : ℕ) : Prop where
  total_le : s.totalPages ≤ pmmMaxPages
  hole_le : lo + len ≤ s.totalPages
  hole_unused : ∀ p, InHole lo len p → s.blockState p ≠ .unused → p = junk
  fits : ∀ b, IsBlock s lo len b → b + 2 ^ s.blockOrder b ≤ s.totalPages
  aligned : ∀ b, IsBlock s lo len b → 2 ^ s.blockOrder b ∣ b
  clear : ∀ b p, IsBlock s lo len b → Covers b (s.blockOrder b) p → ¬ InHole lo len p
  owner_covers : ∀ p, p < s.totalPages → ¬ InHole lo len p →
    IsBlock s lo len (s.pageOwner p) ∧ Covers (s.pageOwner p) (s.blockOrder (s.pageOwner p)) p
  owner_eq : ∀ b p, IsBlock s lo len b → Covers b (s.blockOrder b) p → s.pageOwner p = b
  small : ∀ b, IsBlock s lo len b → s.blockState b ≠ .free → s.blockOrder b = 0

section
variable {s s' : PmmState} {lo len junk lo' len' junk' h k b p : ℕ}

section

variable (hT : Tiling s lo len junk)

include hT

theorem Tiling.block_lt (hb : IsBlock s lo len b) :
    b < s.totalPages := by
  have hfit := hT.fits b hb
  have hpos := Nat.two_pow_pos (s.blockOrder b)
  omega

/-- Two blocks that share a page are one block. -/
theorem Tiling.block_unique {c : ℕ} (hb : IsBlock s lo len b) (hc : IsBlock s lo len c)
    (hpb : Covers b (s.blockOrder b) p) (hpc : Covers c (s.blockOrder c) p) : b = c := by
  rw [← hT.owner_eq b p hb hpb, hT.owner_eq c p hc hpc]

/-- Writes to the marks and owners inside the hole keep the tiling, as long as at most one
page of the hole is marked afterwards. -/
theorem Tiling.frame (htot : s'.totalPages = s.totalPages)
    (hstate : ∀ p, ¬ InHole lo len p → s'.blockState p = s.blockState p)
    (horder : ∀ p, ¬ InHole lo len p → s'.blockOrder p = s.blockOrder p)
    (howner : ∀ p, ¬ InHole lo len p → s'.pageOwner p = s.pageOwner p)
    (hjunk : ∀ p, InHole lo len p → s'.blockState p ≠ .unused → p = junk') :
    Tiling s' lo len junk' := by
  have hblock : ∀ b, IsBlock s' lo len b ↔ IsBlock s lo len b := by
    intro b
    exact and_congr_left fun hout => by rw [hstate b hout]
  constructor
  case total_le => rw [htot]; exact hT.total_le
  case hole_le => rw [htot]; exact hT.hole_le
  case hole_unused => exact hjunk
  case fits =>
    intro b hb
    rw [horder b hb.2, htot]
    exact hT.fits b ((hblock b).mp hb)
  case aligned =>
    intro b hb
    rw [horder b hb.2]
    exact hT.aligned b ((hblock b).mp hb)
  case clear =>
    intro b p hb hp
    rw [horder b hb.2] at hp
    exact hT.clear b p ((hblock b).mp hb) hp
  case owner_covers =>
    intro p hp hout
    rw [htot] at hp
    obtain ⟨hown, hcov⟩ := hT.owner_covers p hp hout
    rw [howner p hout, horder _ hown.2]
    exact ⟨(hblock _).mpr hown, hcov⟩
  case owner_eq =>
    intro b p hb hp
    rw [horder b hb.2] at hp
    have hb' := (hblock b).mp hb
    rw [howner p (hT.clear b p hb' hp)]
    exact hT.owner_eq b p hb' hp
  case small =>
    intro b hb hst
    rw [hstate b hb.2] at hst
    rw [horder b hb.2]
    exact hT.small b ((hblock b).mp hb) hst

/-- Unmarking a block lets it join the hole. -/
theorem Tiling.punch (hb : IsBlock s lo len b) (hle : lo' + len' ≤ s.totalPages)
    (hhole : ∀ p, InHole lo' len' p ↔ InHole lo len p ∨ Covers b (s.blockOrder b) p)
    (htot : s'.totalPages = s.totalPages)
    (hstate : s'.blockState = update s.blockState b .unused)
    (horder : s'.blockOrder = update s.blockOrder b 0)
    (howner : s'.pageOwner = s.pageOwner) : Tiling s' lo' len' junk := by
  -- the blocks left are those outside the larger hole; `b` itself is in it
  have hblock : ∀ c, IsBlock s' lo' len' c → IsBlock s lo len c ∧ c ≠ b := by
    rintro c ⟨hst, hout⟩
    rw [hhole] at hout
    push Not at hout
    have hcb : c ≠ b := by
      rintro rfl
      exact hout.2 (covers_start _ _)
    rw [hstate, update_of_ne hcb] at hst
    exact ⟨⟨hst, hout.1⟩, hcb⟩
  have horder' : ∀ c, c ≠ b → s'.blockOrder c = s.blockOrder c := by
    intro c hc
    rw [horder, update_of_ne hc]
  constructor
  case total_le => rw [htot]; exact hT.total_le
  case hole_le => rw [htot]; exact hle
  case hole_unused =>
    intro p hp hst
    have hpb : p ≠ b := by
      rintro rfl
      rw [hstate, update_self] at hst
      exact hst rfl
    rw [hstate, update_of_ne hpb] at hst
    rcases (hhole p).mp hp with hin | hcov
    · exact hT.hole_unused p hin hst
    · -- a marked page inside the block `b` would be a second block there
      have hblk : IsBlock s lo len p := ⟨hst, hT.clear b p hb hcov⟩
      exact absurd (hT.block_unique hblk hb (covers_start _ _) hcov) hpb
  case fits =>
    intro c hc
    obtain ⟨hc, hcb⟩ := hblock c hc
    rw [horder' c hcb, htot]
    exact hT.fits c hc
  case aligned =>
    intro c hc
    obtain ⟨hc, hcb⟩ := hblock c hc
    rw [horder' c hcb]
    exact hT.aligned c hc
  case clear =>
    intro c p hc hp hin
    obtain ⟨hc, hcb⟩ := hblock c hc
    rw [horder' c hcb] at hp
    rcases (hhole p).mp hin with hin | hcov
    · exact hT.clear c p hc hp hin
    · exact hcb (hT.block_unique hc hb hp hcov)
  case owner_covers =>
    intro p hp hout
    rw [htot] at hp
    rw [hhole] at hout
    push Not at hout
    obtain ⟨hown, hcov⟩ := hT.owner_covers p hp hout.1
    have hne : s.pageOwner p ≠ b := by
      intro heq
      rw [heq] at hcov
      exact hout.2 hcov
    rw [howner, horder' _ hne]
    refine ⟨⟨?_, ?_⟩, hcov⟩
    · rw [hstate, update_of_ne hne]
      exact hown.1
    · rw [hhole]
      rintro (hin | hin)
      · exact hown.2 hin
      · exact hne (hT.block_unique hown hb (covers_start _ _) hin)
  case owner_eq =>
    intro c p hc hp
    obtain ⟨hc, hcb⟩ := hblock c hc
    rw [horder' c hcb] at hp
    rw [howner]
    exact hT.owner_eq c p hc hp
  case small =>
    intro c hc hst
    obtain ⟨hc, hcb⟩ := hblock c hc
    rw [hstate, update_of_ne hcb] at hst
    rw [horder' c hcb]
    exact hT.small c hc hst

end

/-- What has to be known of the block `(h, k)` and the smaller hole `[lo', lo' + len')` that
together make up the hole `[lo, lo + len)`. -/
structure Fills (s : PmmState) (lo len lo' len' junk' h k : ℕ) : Prop where
  aligned : 2 ^ k ∣ h
  hole_le : lo' + len' ≤ s.totalPages
  parts : ∀ p, InHole lo len p ↔ InHole lo' len' p ∨ Covers h k p
  apart : ∀ p, Covers h k p → ¬ InHole lo' len' p
  block_unused : ∀ p, Covers h k p → s.blockState p ≠ .unused → p = h
  hole_unused : ∀ p, InHole lo' len' p → s.blockState p ≠ .unused → p = junk'

/-- Marking a block inside the hole, and writing its owner, takes it out of the hole. -/
theorem Tiling.fill {st : BlockState} (hT : Tiling s lo len junk)
    (hF : Fills s lo len lo' len' junk' h k) (hst : st = .free ∨ st ≠ .unused ∧ k = 0)
    (htot : s'.totalPages = s.totalPages)
    (hstate : s'.blockState = update s.blockState h st)
    (horder : s'.blockOrder = update s.blockOrder h k)
    (howner : ∀ p, s'.pageOwner p = if Covers h k p then h else s.pageOwner p) :
    Tiling s' lo' len' junk' := by
  have hused : st ≠ .unused := by
    rcases hst with rfl | ⟨hst, _⟩
    · decide
    · exact hst
  have hhin : InHole lo len h := (hF.parts h).mpr (.inr (covers_start h k))
  have hhout : ¬ InHole lo' len' h := hF.apart h (covers_start h k)
  have hself : s'.blockState h = st := by rw [hstate, update_self]
  have horderh : s'.blockOrder h = k := by rw [horder, update_self]
  have hkeep : ∀ c, c ≠ h → s'.blockState c = s.blockState c ∧
      s'.blockOrder c = s.blockOrder c := by
    intro c hc
    rw [hstate, horder, update_of_ne hc, update_of_ne hc]
    exact ⟨rfl, rfl⟩
  -- the blocks of the new tiling are the old ones and `h`
  have hblock : ∀ c, IsBlock s' lo' len' c → c ≠ h → IsBlock s lo len c := by
    rintro c ⟨hcst, hcout⟩ hch
    rw [(hkeep c hch).1] at hcst
    refine ⟨hcst, ?_⟩
    rw [hF.parts]
    rintro (hin | hin)
    · exact hcout hin
    · exact hch (hF.block_unused c hin hcst)
  have hblock' : ∀ c, IsBlock s lo len c → IsBlock s' lo' len' c ∧ c ≠ h := by
    rintro c ⟨hcst, hcout⟩
    have hch : c ≠ h := by
      rintro rfl
      exact hcout hhin
    refine ⟨⟨?_, fun hin => hcout ((hF.parts c).mpr (.inl hin))⟩, hch⟩
    rw [(hkeep c hch).1]
    exact hcst
  have hcovout : ∀ c p, IsBlock s lo len c → Covers c (s.blockOrder c) p → ¬ Covers h k p := by
    intro c p hc hp hin
    exact hT.clear c p hc hp ((hF.parts p).mpr (.inr hin))
  constructor
  case total_le => rw [htot]; exact hT.total_le
  case hole_le => rw [htot]; exact hF.hole_le
  case hole_unused =>
    intro p hp hpst
    have hph : p ≠ h := by
      rintro rfl
      exact hhout hp
    rw [(hkeep p hph).1] at hpst
    exact hF.hole_unused p hp hpst
  case fits =>
    intro c hc
    by_cases hch : c = h
    · subst hch
      rw [horderh, htot]
      have hlast : InHole lo len (c + 2 ^ k - 1) := (hF.parts _).mpr (.inr (by
        have := Nat.two_pow_pos k
        exact ⟨by omega, by omega⟩))
      have hle := hT.hole_le
      have hpos := Nat.two_pow_pos k
      unfold InHole at hlast
      omega
    · rw [(hkeep c hch).2, htot]
      exact hT.fits c (hblock c hc hch)
  case aligned =>
    intro c hc
    by_cases hch : c = h
    · subst hch
      rw [horderh]
      exact hF.aligned
    · rw [(hkeep c hch).2]
      exact hT.aligned c (hblock c hc hch)
  case clear =>
    intro c p hc hp
    by_cases hch : c = h
    · subst hch
      rw [horderh] at hp
      exact hF.apart p hp
    · rw [(hkeep c hch).2] at hp
      intro hin
      exact hT.clear c p (hblock c hc hch) hp ((hF.parts p).mpr (.inl hin))
  case owner_covers =>
    intro p hp hout
    rw [htot] at hp
    rw [howner]
    by_cases hcov : Covers h k p
    · rw [if_pos hcov, horderh]
      exact ⟨⟨by rw [hself]; exact hused, hhout⟩, hcov⟩
    · rw [if_neg hcov]
      have hout' : ¬ InHole lo len p := by
        rw [hF.parts]
        rintro (hin | hin)
        · exact hout hin
        · exact hcov hin
      obtain ⟨hown, hcovp⟩ := hT.owner_covers p hp hout'
      obtain ⟨hown', hne⟩ := hblock' _ hown
      rw [(hkeep _ hne).2]
      exact ⟨hown', hcovp⟩
  case owner_eq =>
    intro c p hc hp
    rw [howner]
    by_cases hch : c = h
    · subst hch
      rw [horderh] at hp
      rw [if_pos hp]
    · rw [(hkeep c hch).2] at hp
      have hc' := hblock c hc hch
      rw [if_neg (hcovout c p hc' hp)]
      exact hT.owner_eq c p hc' hp
  case small =>
    intro c hc hcst
    by_cases hch : c = h
    · subst hch
      rw [hself] at hcst
      rw [horderh]
      rcases hst with rfl | ⟨_, hk⟩
      · exact absurd rfl hcst
      · exact hk
    · rw [(hkeep c hch).1] at hcst
      rw [(hkeep c hch).2]
      exact hT.small c (hblock c hc hch) hcst

end

end GnuOS.Pmm

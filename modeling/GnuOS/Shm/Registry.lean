import GnuOS.Ipc.Names
import GnuOS.Lib.Bits
import GnuOS.Shm.Basic
import Mathlib.Data.List.Pairwise

/-!
# The registry of segments

What a call does is said once, by `Outcome`; the invariant of a run and the life of a segment are
derived from it.  Beside the registry a run keeps its history: who has attached to a segment and not
detached since, and which ranges `vmm_alloc_kernel_pages` has returned.
-/

namespace GnuOS.Shm

open GnuOS.Lib GnuOS.Ipc

/-! ## Calls -/

inductive ShmOp
  | create (a : CreateArgs)
  | find (name : Option (ℕ → Byte))
  | attach (a : AttachArgs)
  | detach (a : AttachArgs)

/-- The status that a call returns and the registry after it. -/
def shmCall (s : ShmState) : ShmOp → ℤ × ShmState
  | .create a => shmCreate s a
  | .find name => (shmFind s name, s)
  | .attach a => ((shmAttach s a).1, (shmAttach s a).2.2)
  | .detach a => shmDetach s a

/-- A segment as `shm_create` leaves it. -/
def newSegment (s : ShmState) (i : ℕ) (a : CreateArgs) (text : ℕ → Byte) (owner : BitVec 64) :
    Segment where
  inUse := true
  name := shmNameCopy (s.segments i).name text
  base := a.mapping
  size := alignedSize a.size
  ownerTid := owner
  attachments := 0
  attachedTids := clearTids (s.segments i).attachedTids

/-- The segment with one more task. -/
def Segment.attach (segment : Segment) (tid : BitVec 64) : Segment :=
  { segment with
    attachedTids := Function.update segment.attachedTids segment.attachments tid
    attachments := segment.attachments + 1 }

/-- The segment without the task at index `k` of its array. -/
def Segment.detach (segment : Segment) (k : ℕ) : Segment :=
  { segment with
    attachedTids := Function.update
      (shiftDown segment.attachedTids (segment.attachments - 1 - k) k)
      (segment.attachments - 1) 0#64
    attachments := segment.attachments - 1 }

/-- What a call can do. -/
inductive Outcome (s : ShmState) : ShmOp → ℤ × ShmState → Prop
  | failed (op : ShmOp) (status : ℤ) (hneg : status < 0) : Outcome s op (status, s)
  | existing (a : CreateArgs) (i : ℕ) (hpages : pageCount a.size ≠ 0#64)
      (huse : (s.segments i).inUse = true) : Outcome s (.create a) (i, s)
  | found (name : Option (ℕ → Byte)) (i : ℕ) : Outcome s (.find name) (i, s)
  | created (a : CreateArgs) (text : ℕ → Byte) (owner : BitVec 64) (i : ℕ) (hi : i < 32)
      (hlen : nameLen text < 32) (hpages : pageCount a.size ≠ 0#64)
      (hfresh : shmFindLocked s text = none) (hfree : (s.segments i).inUse = false)
      (hbefore : ∀ j < i, (s.segments j).inUse = true) :
      Outcome s (.create a) (i, { s.setSegment i (newSegment s i a text owner) with
        segmentCount := s.segmentCount + 1 })
  | present (a : AttachArgs) (tid : BitVec 64) (k : ℕ)
      (hindex : segmentIndex a.segmentId < 32)
      (htid : shmResolveTid a.currentTid a.requesterTid = some tid)
      (huse : (s.segments (segmentIndex a.segmentId)).inUse = true)
      (hfind : shmFindAttachmentLocked (s.segments (segmentIndex a.segmentId)) tid = some k) :
      Outcome s (.attach a) (0, s)
  | attached (a : AttachArgs) (tid : BitVec 64) (hindex : segmentIndex a.segmentId < 32)
      (htid : shmResolveTid a.currentTid a.requesterTid = some tid)
      (huse : (s.segments (segmentIndex a.segmentId)).inUse = true)
      (hfind : shmFindAttachmentLocked (s.segments (segmentIndex a.segmentId)) tid = none)
      (hroom : (s.segments (segmentIndex a.segmentId)).attachments < 32) :
      Outcome s (.attach a) (0, s.setSegment (segmentIndex a.segmentId)
        ((s.segments (segmentIndex a.segmentId)).attach tid))
  | detached (a : AttachArgs) (tid : BitVec 64) (k : ℕ)
      (hindex : segmentIndex a.segmentId < 32)
      (htid : shmResolveTid a.currentTid a.requesterTid = some tid)
      (huse : (s.segments (segmentIndex a.segmentId)).inUse = true)
      (hfind : shmFindAttachmentLocked (s.segments (segmentIndex a.segmentId)) tid = some k) :
      Outcome s (.detach a) (0, s.setSegment (segmentIndex a.segmentId)
        ((s.segments (segmentIndex a.segmentId)).detach k))

section Calls

variable {s s' : ShmState}

theorem outcome_create (s : ShmState) (a : CreateArgs) :
    Outcome s (.create a) (shmCreate s a) := by
  unfold shmCreate
  split
  · exact .failed _ _ (by decide)
  next text _ =>
  split
  · exact .failed _ _ (by decide)
  split
  · exact .failed _ _ (by decide)
  next owner _ =>
  split
  · exact .failed _ _ (by decide)
  next hlen =>
  split
  · exact .failed _ _ (by decide)
  next hpages =>
  split
  · next i hfind =>
    have hboth := List.find?_some hfind
    rw [Bool.and_eq_true] at hboth
    exact .existing a i hpages hboth.1
  next hfresh =>
  split
  · exact .failed _ _ (by decide)
  next i hslot =>
  split
  · exact .failed _ _ (by decide)
  · rw [List.find?_range_eq_some] at hslot
    refine .created a text owner i (List.mem_range.mp hslot.2.1) (Nat.lt_of_not_le hlen) hpages
      hfresh ?_ ?_
    · simpa using hslot.1
    · intro j hj
      simpa using hslot.2.2 j hj

theorem outcome_find (s : ShmState) (name : Option (ℕ → Byte)) :
    Outcome s (.find name) (shmFind s name, s) := by
  unfold shmFind
  split
  · exact .failed _ _ (by decide)
  split
  · exact .found _ _
  · exact .failed _ _ (by decide)

theorem outcome_attach (s : ShmState) (a : AttachArgs) :
    Outcome s (.attach a) ((shmAttach s a).1, (shmAttach s a).2.2) := by
  unfold shmAttach
  split
  · exact .failed _ (-1) (by decide)
  next hvalid =>
  have hindex : segmentIndex a.segmentId < 32 := by
    rw [not_or, not_or] at hvalid
    exact Nat.lt_of_not_le hvalid.2.2
  split
  · exact .failed _ (-1) (by decide)
  next tid htid =>
  simp only
  split
  · exact .failed _ (-2) (by decide)
  next huse =>
  have huse' : (s.segments (segmentIndex a.segmentId)).inUse = true := by simpa using huse
  split
  · next k hfind => exact .present a tid k hindex htid huse' hfind
  next hfind =>
  split
  · exact .failed _ (-3) (by decide)
  · next hroom => exact .attached a tid hindex htid huse' hfind (Nat.lt_of_not_le hroom)

theorem outcome_detach (s : ShmState) (a : AttachArgs) :
    Outcome s (.detach a) (shmDetach s a) := by
  unfold shmDetach
  split
  · exact .failed _ _ (by decide)
  next hvalid =>
  have hindex : segmentIndex a.segmentId < 32 := by
    rw [not_or] at hvalid
    exact Nat.lt_of_not_le hvalid.2
  split
  · exact .failed _ _ (by decide)
  next tid htid =>
  simp only
  split
  · exact .failed _ _ (by decide)
  next huse =>
  have huse' : (s.segments (segmentIndex a.segmentId)).inUse = true := by simpa using huse
  split
  · exact .failed _ _ (by decide)
  · next k hfind =>
    -- an entry was found, so there is one
    have hk : k < (s.segments (segmentIndex a.segmentId)).attachments :=
      List.mem_range.mp (List.mem_of_find?_eq_some hfind)
    rw [if_pos (by omega)]
    exact .detached a tid k hindex htid huse' hfind

theorem outcome_call (s : ShmState) (op : ShmOp) : Outcome s op (shmCall s op) := by
  cases op with
  | create a => exact outcome_create s a
  | find name => exact outcome_find s name
  | attach a => exact outcome_attach s a
  | detach a => exact outcome_detach s a

end Calls

/-! ## The life of a segment -/

/-- The segments in use stay, with their base, size, owner and name. -/
structure Stays (s s' : ShmState) : Prop where
  inUse : ∀ i < 32, (s.segments i).inUse = true → (s'.segments i).inUse = true
  base : ∀ i < 32, (s.segments i).inUse = true → (s'.segments i).base = (s.segments i).base
  size : ∀ i < 32, (s.segments i).inUse = true → (s'.segments i).size = (s.segments i).size
  ownerTid : ∀ i < 32, (s.segments i).inUse = true →
    (s'.segments i).ownerTid = (s.segments i).ownerTid
  name : ∀ i < 32, (s.segments i).inUse = true → (s'.segments i).name = (s.segments i).name

section Life

variable {s s' s'' : ShmState} {i : ℕ}

theorem setSegment_self (s : ShmState) (i : ℕ) (segment : Segment) :
    (s.setSegment i segment).segments i = segment :=
  Function.update_self _ _ _

theorem setSegment_of_ne {j : ℕ} (h : j ≠ i) (s : ShmState) (segment : Segment) :
    (s.setSegment i segment).segments j = s.segments j :=
  Function.update_of_ne h _ _

theorem Stays.refl (s : ShmState) : Stays s s :=
  ⟨fun _ _ h => h, fun _ _ _ => rfl, fun _ _ _ => rfl, fun _ _ _ => rfl, fun _ _ _ => rfl⟩

theorem Stays.trans (h : Stays s s') (h' : Stays s' s'') : Stays s s'' where
  inUse i hi huse := h'.inUse i hi (h.inUse i hi huse)
  base i hi huse := (h'.base i hi (h.inUse i hi huse)).trans (h.base i hi huse)
  size i hi huse := (h'.size i hi (h.inUse i hi huse)).trans (h.size i hi huse)
  ownerTid i hi huse := (h'.ownerTid i hi (h.inUse i hi huse)).trans (h.ownerTid i hi huse)
  name i hi huse := (h'.name i hi (h.inUse i hi huse)).trans (h.name i hi huse)

/-- A segment is replaced that was not in use. -/
theorem stays_of_free (hfree : (s.segments i).inUse = false)
    (hother : ∀ j, j ≠ i → s'.segments j = s.segments j) : Stays s s' := by
  have hsame : ∀ j, (s.segments j).inUse = true → s'.segments j = s.segments j := by
    intro j huse
    apply hother
    rintro rfl
    rw [hfree] at huse
    cases huse
  constructor
  · intro j _ huse
    rw [hsame j huse]
    exact huse
  all_goals
    intro j _ huse
    rw [hsame j huse]

/-- A segment is replaced by one that differs in the attached tasks only. -/
theorem stays_of_attached {tids : ℕ → BitVec 64} {n : ℕ}
    (hself : s'.segments i = { s.segments i with attachedTids := tids, attachments := n })
    (hother : ∀ j, j ≠ i → s'.segments j = s.segments j) : Stays s s' := by
  have hsame : ∀ j, (s'.segments j).inUse = (s.segments j).inUse ∧
      (s'.segments j).base = (s.segments j).base ∧ (s'.segments j).size = (s.segments j).size ∧
      (s'.segments j).ownerTid = (s.segments j).ownerTid ∧
      (s'.segments j).name = (s.segments j).name := by
    intro j
    by_cases hj : j = i
    · subst hj
      rw [hself]
      exact ⟨rfl, rfl, rfl, rfl, rfl⟩
    · rw [hother j hj]
      exact ⟨rfl, rfl, rfl, rfl, rfl⟩
  exact ⟨fun j _ huse => (hsame j).1.trans huse, fun j _ _ => (hsame j).2.1,
    fun j _ _ => (hsame j).2.2.1, fun j _ _ => (hsame j).2.2.2.1, fun j _ _ => (hsame j).2.2.2.2⟩

theorem Outcome.stays {op : ShmOp} {r : ℤ × ShmState} (h : Outcome s op r) : Stays s r.2 := by
  cases h with
  | failed => exact Stays.refl s
  | existing => exact Stays.refl s
  | found => exact Stays.refl s
  | created a text owner i hi hlen hpages hfresh hfree hbefore =>
    exact stays_of_free hfree fun j hj => setSegment_of_ne hj s _
  | present => exact Stays.refl s
  | attached a tid hindex htid huse hfind hroom =>
    exact stays_of_attached (setSegment_self s _ _) fun j hj => setSegment_of_ne hj s _
  | detached a tid k hindex htid huse hfind =>
    exact stays_of_attached (setSegment_self s _ _) fun j hj => setSegment_of_ne hj s _

/-- A negative status means that nothing has changed. -/
theorem Outcome.unchanged_of_neg {op : ShmOp} {r : ℤ × ShmState} (h : Outcome s op r)
    (hneg : r.1 < 0) : r.2 = s := by
  cases h with
  | failed => rfl
  | existing => rfl
  | found => rfl
  | created a text owner i => exact absurd hneg (by simp)
  | present => rfl
  | attached => exact absurd hneg (by simp)
  | detached => exact absurd hneg (by simp)

end Life

/-! ## Sizes -/

theorem toNat_alignedSize (size : BitVec 64) :
    (alignedSize size).toNat = (size.toNat + 4095) % 2 ^ 64 / 4096 * 4096 := by
  have hmask : mmPageSize - 1#64 = BitVec.ofNat 64 (2 ^ 12 - 1) := by decide
  rw [alignedSize, hmask]
  exact toNat_round_up size (n := 12) (by decide)

theorem toNat_pageCount (size : BitVec 64) :
    (pageCount size).toNat = (size.toNat + 4095) % 2 ^ 64 / 4096 := by
  rw [pageCount, BitVec.toNat_udiv, toNat_alignedSize]
  exact Nat.mul_div_cancel _ (by decide)

/-- A size whose rounding would wrap around is rejected by its number of pages. -/
theorem pageCount_ne_zero_iff (size : BitVec 64) :
    pageCount size ≠ 0#64 ↔ size ≠ 0#64 ∧ size.toNat + 4095 < 2 ^ 64 := by
  have hpages := toNat_pageCount size
  have hlt := size.isLt
  rw [Ne, Ne, ← BitVec.toNat_inj, ← BitVec.toNat_inj, hpages, BitVec.toNat_zero]
  omega

theorem toNat_alignedSize_of_pages {size : BitVec 64} (h : pageCount size ≠ 0#64) :
    (alignedSize size).toNat = (size.toNat + 4095) / 4096 * 4096 := by
  rw [toNat_alignedSize, Nat.mod_eq_of_lt ((pageCount_ne_zero_iff size).mp h).2]

/-- A request whose rounding would wrap around fails, and a new segment has the size of its request,
rounded up. -/
theorem shmCreate_size (s : ShmState) (a : CreateArgs) :
    (2 ^ 64 ≤ a.size.toNat + 4095 → (shmCreate s a).1 < 0) ∧
      (0 ≤ (shmCreate s a).1 → (s.segments (shmCreate s a).1.toNat).inUse = false →
        ((shmCreate s a).2.segments (shmCreate s a).1.toNat).inUse = true ∧
          ((shmCreate s a).2.segments (shmCreate s a).1.toNat).size.toNat =
            (a.size.toNat + 4095) / 4096 * 4096) := by
  have hout := outcome_create s a
  generalize shmCreate s a = r at hout
  cases hout with
  | failed op status hneg => exact ⟨fun _ => hneg, fun hpos => absurd hneg (by simpa using hpos)⟩
  | existing a i hpages huse =>
    have hfits := ((pageCount_ne_zero_iff a.size).mp hpages).2
    refine ⟨fun hwrap => absurd hwrap (by omega), fun _ hfree => ?_⟩
    rw [Int.toNat_natCast, huse] at hfree
    cases hfree
  | created a text owner i hi hlen hpages hfresh hfree hbefore =>
    have hfits := ((pageCount_ne_zero_iff a.size).mp hpages).2
    refine ⟨fun hwrap => absurd hwrap (by omega), fun _ _ => ?_⟩
    simp only [Int.toNat_natCast]
    rw [setSegment_self]
    exact ⟨rfl, toNat_alignedSize_of_pages hpages⟩

end GnuOS.Shm

import GnuOS.Shm.Registry

/-!
# Runs of the registry

The invariant of a run relates the registry to its history, call by call.
-/

namespace GnuOS.Shm

open GnuOS.Lib GnuOS.Ipc Function List

/-! ## History -/

/-- The registry with its history: for each segment the tids that attached and have not detached
since, in their order, and the ranges that `vmm_alloc_kernel_pages` has returned, each as an address
and a number of bytes. -/
structure ShmSystem where
  shm : ShmState
  attached : ℕ → List (BitVec 64)
  allocated : List (BitVec 64 × ℕ)

/-- Who is attached after a call with the given status. -/
def attachedAfter (attached : ℕ → List (BitVec 64)) (status : ℤ) : ShmOp → ℕ → List (BitVec 64)
  | .attach a =>
    match shmResolveTid a.currentTid a.requesterTid with
    | some tid =>
      if status = 0 ∧ (attached (segmentIndex a.segmentId)).contains tid = false then
        update attached (segmentIndex a.segmentId)
          (attached (segmentIndex a.segmentId) ++ [tid])
      else attached
    | none => attached
  | .detach a =>
    match shmResolveTid a.currentTid a.requesterTid with
    | some tid =>
      if status = 0 then
        update attached (segmentIndex a.segmentId)
          ((attached (segmentIndex a.segmentId)).erase tid)
      else attached
    | none => attached
  | _ => attached

/-- A call has created a segment if it returns the id of one that was not in use; then it has
allocated the pages for it. -/
def allocatedAfter (sys : ShmSystem) (status : ℤ) : ShmOp → List (BitVec 64 × ℕ)
  | .create a =>
    if 0 ≤ status ∧ (sys.shm.segments status.toNat).inUse = false then
      sys.allocated ++ [(a.mapping, (pageCount a.size).toNat * 4096)]
    else sys.allocated
  | _ => sys.allocated

def shmStep (sys : ShmSystem) (op : ShmOp) : ShmSystem where
  shm := (shmCall sys.shm op).2
  attached := attachedAfter sys.attached (shmCall sys.shm op).1 op
  allocated := allocatedAfter sys (shmCall sys.shm op).1 op

def shmStart (s : ShmState) : ShmSystem := ⟨shmInit s, fun _ => [], []⟩

/-- A run after `shm_init`, from whatever the variables held before it. -/
def shmRun (s : ShmState) (ops : List ShmOp) : ShmSystem := ops.foldl shmStep (shmStart s)

/-! ## Ranges -/

def InRange (range : BitVec 64 × ℕ) (a : BitVec 64) : Prop := (a - range.1).toNat < range.2

def RangesApart (range range' : BitVec 64 × ℕ) : Prop :=
  ∀ a, InRange range a → ¬ InRange range' a

def Segment.range (segment : Segment) : BitVec 64 × ℕ := (segment.base, segment.size.toNat)

/-! ## The invariant -/

structure ShmInv (sys : ShmSystem) : Prop where
  used : ∀ i < 32, (sys.shm.segments i).inUse = true ↔ i < sys.allocated.length
  range : ∀ i < 32, (sys.shm.segments i).inUse = true →
    sys.allocated[i]? = some (sys.shm.segments i).range
  terminated : ∀ i < 32, (sys.shm.segments i).inUse = true →
    nameLen (sys.shm.segments i).name < 32
  distinct : ∀ i < 32, ∀ j < 32, (sys.shm.segments i).inUse = true →
    (sys.shm.segments j).inUse = true →
    nameOf (sys.shm.segments i).name = nameOf (sys.shm.segments j).name → i = j
  compact : ∀ i < 32, Compact (sys.shm.segments i).attachedTids 0#64 32 (sys.attached i)
  attachments : ∀ i < 32, (sys.shm.segments i).attachments = (sys.attached i).length
  nodup : ∀ i < 32, (sys.attached i).Nodup
  unused : ∀ i < 32, (sys.shm.segments i).inUse = false → sys.attached i = []

section Invariant

variable {sys : ShmSystem} {s : ShmState} {i : ℕ}

theorem shmInv_start (s : ShmState) : ShmInv (shmStart s) := by
  have hsegment : ∀ i < 32, ((shmInit s).segments i).inUse = false ∧
      ((shmInit s).segments i).attachments = 0 ∧
      ((shmInit s).segments i).attachedTids = clearTids (s.segments i).attachedTids := by
    intro i hi
    have hif : (shmInit s).segments i = _ := if_pos hi
    rw [hif]
    exact ⟨rfl, rfl, rfl⟩
  have hunused : ∀ i < 32, ((shmInit s).segments i).inUse ≠ true := by
    intro i hi
    rw [(hsegment i hi).1]
    decide
  constructor
  · intro i hi
    exact iff_of_false (hunused i hi) (Nat.not_lt_zero _)
  · exact fun i hi huse => absurd huse (hunused i hi)
  · exact fun i hi huse => absurd huse (hunused i hi)
  · exact fun i hi j _ huse => absurd huse (hunused i hi)
  · intro i hi
    apply Compact.empty
    intro k hk
    show ((shmInit s).segments i).attachedTids k = _
    rw [(hsegment i hi).2.2]
    exact if_pos hk
  · exact fun i hi => (hsegment i hi).2.1
  · exact fun i _ => nodup_nil
  · exact fun i _ _ => rfl

/-- The registry and the history stay as they are. -/
theorem ShmInv.unchanged (h : ShmInv sys) {status : ℤ} {op : ShmOp}
    (hattached : attachedAfter sys.attached status op = sys.attached)
    (hallocated : allocatedAfter sys status op = sys.allocated) :
    ShmInv ⟨sys.shm, attachedAfter sys.attached status op, allocatedAfter sys status op⟩ := by
  rw [hattached, hallocated]
  exact h

variable {attached : ℕ → List (BitVec 64)}

theorem attachedAfter_of_neg {status : ℤ} (hneg : status < 0) (op : ShmOp) :
    attachedAfter attached status op = attached := by
  unfold attachedAfter
  split
  · split
    · rw [if_neg fun h => absurd h.1 (by omega)]
    · rfl
  · split
    · rw [if_neg (by omega)]
    · rfl
  · rfl

theorem attachedAfter_attach {a : AttachArgs} {tid : BitVec 64}
    (htid : shmResolveTid a.currentTid a.requesterTid = some tid)
    (hnot : tid ∉ attached (segmentIndex a.segmentId)) :
    attachedAfter attached 0 (.attach a) =
      update attached (segmentIndex a.segmentId)
        (attached (segmentIndex a.segmentId) ++ [tid]) := by
  unfold attachedAfter
  simp only [htid]
  rw [if_pos (by simp [hnot])]

theorem attachedAfter_detach {a : AttachArgs} {tid : BitVec 64}
    (htid : shmResolveTid a.currentTid a.requesterTid = some tid) :
    attachedAfter attached 0 (.detach a) =
      update attached (segmentIndex a.segmentId)
        ((attached (segmentIndex a.segmentId)).erase tid) := by
  unfold attachedAfter
  simp only [htid]
  rw [if_pos trivial]

theorem allocatedAfter_of_neg {status : ℤ} (hneg : status < 0) (op : ShmOp) :
    allocatedAfter sys status op = sys.allocated := by
  unfold allocatedAfter
  split
  · rw [if_neg fun h => absurd h.1 (by omega)]
  · rfl

section

variable (h : ShmInv sys)

include h

/-- No segment in use has a name that was not found. -/
theorem ShmInv.name_ne_of_fresh {text : ℕ → Byte} (hfresh : shmFindLocked sys.shm text = none)
    (hi : i < 32) (huse : (sys.shm.segments i).inUse = true) :
    nameOf (sys.shm.segments i).name ≠ nameOf text := by
  intro hname
  have hnot := find?_eq_none.mp hfresh i (mem_range.mpr hi)
  have hequal := (ipcNameEqual_iff (h.terminated i hi huse) text).mpr hname
  rw [huse] at hnot
  exact hnot hequal

/-- A new segment takes the first slot behind those in use. -/
theorem ShmInv.slot_eq (hi : i < 32) (hfree : (sys.shm.segments i).inUse = false)
    (hbefore : ∀ j < i, (sys.shm.segments j).inUse = true) : i = sys.allocated.length := by
  have hge : ¬ i < sys.allocated.length := by
    rw [← h.used i hi, hfree]
    decide
  by_contra hne
  have hlt : sys.allocated.length < i := by omega
  exact absurd ((h.used _ (by omega)).mp (hbefore _ hlt)) (Nat.lt_irrefl _)

/-- Segment `i` changes into one in use whose name no other has. -/
theorem ShmInv.setSegment {segment : Segment} {count : ℕ} {l : List (BitVec 64)}
    {allocated : List (BitVec 64 × ℕ)} (huse : segment.inUse = true)
    (hused : ∀ j, j < allocated.length ↔ j < sys.allocated.length ∨ j = i)
    (hranges : ∀ j < sys.allocated.length, j ≠ i → allocated[j]? = sys.allocated[j]?)
    (hrange : allocated[i]? = some segment.range) (hlen : nameLen segment.name < 32)
    (hname : ∀ j < 32, j ≠ i → (sys.shm.segments j).inUse = true →
      nameOf (sys.shm.segments j).name ≠ nameOf segment.name)
    (hcompact : Compact segment.attachedTids 0#64 32 l) (hcount : segment.attachments = l.length)
    (hnodup : l.Nodup) :
    ShmInv ⟨{ sys.shm.setSegment i segment with segmentCount := count },
      update sys.attached i l, allocated⟩ := by
  have hself := setSegment_self sys.shm i segment
  have hother : ∀ j, j ≠ i → (sys.shm.setSegment i segment).segments j = sys.shm.segments j :=
    fun j hj => setSegment_of_ne hj _ _
  constructor <;> simp only <;> intro j hj
  case used =>
    by_cases hji : j = i
    · exact iff_of_true (by rw [hji, hself, huse]) ((hused j).mpr (.inr hji))
    · rw [hother j hji, h.used j hj, hused]
      exact ⟨.inl, fun h => h.resolve_right hji⟩
  case range =>
    by_cases hji : j = i
    · rw [hji, hself]
      exact fun _ => hrange
    · rw [hother j hji]
      intro husej
      rw [hranges j ((h.used j hj).mp husej) hji]
      exact h.range j hj husej
  case terminated =>
    by_cases hji : j = i
    · rw [hji, hself]
      exact fun _ => hlen
    · rw [hother j hji]
      exact h.terminated j hj
  case distinct =>
    by_cases hji : j = i
    · intro k hk _ husek heq
      by_contra hne
      have hki : k ≠ i := fun hki => hne (hji.trans hki.symm)
      rw [hji, hself, hother k hki] at heq
      rw [hother k hki] at husek
      exact hname k hk hki husek heq.symm
    · intro k hk husej husek heq
      rw [hother j hji] at husej heq
      by_cases hki : k = i
      · rw [hki, hself] at heq
        exact absurd heq (hname j hj hji husej)
      · rw [hother k hki] at husek heq
        exact h.distinct j hj k hk husej husek heq
  case compact =>
    by_cases hji : j = i
    · rwa [hji, hself, update_self]
    · rw [hother j hji, update_of_ne hji]
      exact h.compact j hj
  case attachments =>
    by_cases hji : j = i
    · rwa [hji, hself, update_self]
    · rw [hother j hji, update_of_ne hji]
      exact h.attachments j hj
  case nodup =>
    by_cases hji : j = i
    · rwa [hji, update_self]
    · rw [update_of_ne hji]
      exact h.nodup j hj
  case unused =>
    by_cases hji : j = i
    · rw [hji, hself, huse]
      exact fun hunused => absurd hunused (by decide)
    · rw [hother j hji, update_of_ne hji]
      exact h.unused j hj

/-- A new segment. -/
theorem ShmInv.created {a : CreateArgs} {text : ℕ → Byte} (owner : BitVec 64) (hi : i < 32)
    (hlen : nameLen text < 32) (hfresh : shmFindLocked sys.shm text = none)
    (hfree : (sys.shm.segments i).inUse = false)
    (hbefore : ∀ j < i, (sys.shm.segments j).inUse = true) :
    ShmInv ⟨{ sys.shm.setSegment i (newSegment sys.shm i a text owner) with
        segmentCount := sys.shm.segmentCount + 1 }, sys.attached,
      sys.allocated ++ [(a.mapping, (pageCount a.size).toNat * 4096)]⟩ := by
  have hslot := h.slot_eq hi hfree hbefore
  have hname : nameOf (newSegment sys.shm i a text owner).name = nameOf text ∧
      nameLen (newSegment sys.shm i a text owner).name < 32 := nameOf_ipcNameCopy hlen _
  rw [← update_eq_self i sys.attached, h.unused i hi hfree]
  refine h.setSegment rfl ?_ ?_ ?_ hname.2 ?_ (Compact.empty 32 fun k hk => if_pos hk) rfl nodup_nil
  · intro j
    rw [length_append, length_singleton, hslot]
    omega
  · intro j hj _
    rw [getElem?_append_left hj]
  · have hsize : (alignedSize a.size).toNat = (pageCount a.size).toNat * 4096 := by
      rw [toNat_alignedSize, toNat_pageCount]
    rw [hslot, getElem?_append_right (Nat.le_refl _), Nat.sub_self, Segment.range]
    simp [newSegment, hsize]
  · intro j hj _ husej
    rw [hname.1]
    exact h.name_ne_of_fresh hfresh hj husej

/-- The tasks of one segment in use change, in its array and in the history. -/
theorem ShmInv.setAttached {tids : ℕ → BitVec 64} {l : List (BitVec 64)} (hi : i < 32)
    (huse : (sys.shm.segments i).inUse = true) (hcompact : Compact tids 0#64 32 l)
    (hnodup : l.Nodup) :
    ShmInv ⟨sys.shm.setSegment i
        { sys.shm.segments i with attachedTids := tids, attachments := l.length },
      update sys.attached i l, sys.allocated⟩ := by
  refine h.setSegment huse (fun j => ?_) (fun _ _ _ => rfl) (h.range i hi huse)
    (h.terminated i hi huse) ?_ hcompact rfl hnodup
  · have hlt := (h.used i hi).mp huse
    omega
  · exact fun j hj hji husej heq => hji (h.distinct j hj i hi husej huse heq)

/-- The array holds the tid exactly if the task is attached. -/
theorem ShmInv.findAttachment_eq_none_iff (hi : i < 32) (tid : BitVec 64) :
    shmFindAttachmentLocked (sys.shm.segments i) tid = none ↔ tid ∉ sys.attached i := by
  unfold shmFindAttachmentLocked
  rw [h.attachments i hi]
  exact (h.compact i hi).find?_eq_none_iff

theorem ShmInv.step (op : ShmOp) : ShmInv (shmStep sys op) := by
  have hout := outcome_call sys.shm op
  unfold shmStep
  generalize shmCall sys.shm op = r at hout
  cases hout with
  | failed op status hneg =>
    exact h.unchanged (attachedAfter_of_neg hneg op) (allocatedAfter_of_neg hneg op)
  | existing a i hpages huse =>
    apply h.unchanged rfl
    refine if_neg fun hnew => ?_
    have hfree := hnew.2
    rw [Int.toNat_natCast, huse] at hfree
    cases hfree
  | found name i => exact h.unchanged rfl rfl
  | created a text owner i hi hlen hpages hfresh hfree hbefore =>
    have hallocated : allocatedAfter sys i (.create a) =
        sys.allocated ++ [(a.mapping, (pageCount a.size).toNat * 4096)] := by
      refine if_pos ⟨Int.natCast_nonneg i, ?_⟩
      rw [Int.toNat_natCast]
      exact hfree
    simp only [hallocated, attachedAfter]
    exact h.created owner hi hlen hfresh hfree hbefore
  | present a tid k hindex htid huse hfind =>
    apply h.unchanged _ rfl
    have hmem : tid ∈ sys.attached (segmentIndex a.segmentId) := by
      by_contra hnot
      rw [(h.findAttachment_eq_none_iff hindex tid).mpr hnot] at hfind
      cases hfind
    unfold attachedAfter
    simp only [htid]
    rw [if_neg (by simp [hmem])]
  | attached a tid hindex htid huse hfind hroom =>
    have hnot := (h.findAttachment_eq_none_iff hindex tid).mp hfind
    have hcount := h.attachments _ hindex
    have hattached := attachedAfter_attach htid hnot
    have hcompact := (h.compact _ hindex).append (by omega) tid
    have hnodup : (sys.attached (segmentIndex a.segmentId) ++ [tid]).Nodup := by
      rw [← concat_eq_append]
      exact List.Nodup.concat hnot (h.nodup _ hindex)
    have hset := h.setAttached hindex huse hcompact hnodup
    rw [length_append, length_singleton, ← hcount] at hset
    simp only [hattached, allocatedAfter]
    exact hset
  | detached a tid k hindex htid huse hfind =>
    have hcount := h.attachments _ hindex
    have hattached := @attachedAfter_detach sys.attached a tid htid
    unfold shmFindAttachmentLocked at hfind
    rw [hcount] at hfind
    obtain ⟨hk, herase⟩ := (h.compact _ hindex).eraseIdx_of_find? (h.nodup _ hindex) hfind
    have hcompact := (h.compact _ hindex).eraseIdx hk
    have hset := h.setAttached hindex huse hcompact ((h.nodup _ hindex).eraseIdx k)
    rw [length_eraseIdx_of_lt hk, herase, ← hcount] at hset
    simp only [hattached, allocatedAfter]
    exact hset

theorem ShmInv.run (ops : List ShmOp) : ShmInv (ops.foldl shmStep sys) := by
  induction ops generalizing sys with
  | nil => exact h
  | cons op ops ih => exact ih (h.step op)

end

theorem stays_run (sys : ShmSystem) (ops : List ShmOp) :
    Stays sys.shm (ops.foldl shmStep sys).shm := by
  induction ops generalizing sys with
  | nil => exact Stays.refl _
  | cons op ops ih => exact (outcome_call sys.shm op).stays.trans (ih (shmStep sys op))

/-- The ranges of two segments are two of the ranges that were allocated. -/
theorem ShmInv.rangesApart (h : ShmInv sys) (hvmm : sys.allocated.Pairwise RangesApart) {j : ℕ}
    (hi : i < 32) (hj : j < 32) (husei : (sys.shm.segments i).inUse = true)
    (husej : (sys.shm.segments j).inUse = true) (hne : i ≠ j) :
    RangesApart (sys.shm.segments i).range (sys.shm.segments j).range := by
  rw [pairwise_iff_getElem] at hvmm
  obtain ⟨hlti, hgeti⟩ := List.getElem?_eq_some_iff.mp (h.range i hi husei)
  obtain ⟨hltj, hgetj⟩ := List.getElem?_eq_some_iff.mp (h.range j hj husej)
  rcases Nat.lt_or_gt_of_ne hne with hlt | hgt
  · have hapart := hvmm i j hlti hltj hlt
    rwa [hgeti, hgetj] at hapart
  · have hapart := hvmm j i hltj hlti hgt
    rw [hgeti, hgetj] at hapart
    exact fun a ha ha' => hapart a ha' ha

/-- The second of two equal calls of `shm_attach` does nothing. -/
theorem ShmInv.attach_attach (h : ShmInv sys) (a : AttachArgs) :
    (shmCall (shmCall sys.shm (.attach a)).2 (.attach a)).2 =
      (shmCall sys.shm (.attach a)).2 := by
  have hafter := h.step (.attach a)
  unfold shmStep at hafter
  have hout := outcome_call sys.shm (.attach a)
  generalize hr : shmCall sys.shm (.attach a) = r at hout hafter
  cases hout with
  | failed op status hneg => rw [hr]
  | present b tid k hindex htid huse hfind => rw [hr]
  | attached b tid hindex htid huse hfind hroom =>
    have hnot := (h.findAttachment_eq_none_iff hindex tid).mp hfind
    have hmem : tid ∈ attachedAfter sys.attached 0 (.attach a) (segmentIndex a.segmentId) := by
      rw [attachedAfter_attach htid hnot, update_self]
      exact mem_append_right _ (mem_singleton_self tid)
    -- the task is attached now, so it is found
    generalize sys.shm.setSegment _ _ = s' at hafter
    have hout' := outcome_call s' (.attach a)
    generalize shmCall s' (.attach a) = r' at hout'
    cases hout' with
    | failed => rfl
    | present => rfl
    | attached b tid' hindex' htid' huse' hfind' hroom' =>
      rw [htid, Option.some_inj] at htid'
      subst htid'
      exact absurd hmem ((hafter.findAttachment_eq_none_iff hindex' tid).mp hfind')

/-- A task that detaches was attached, and it alone leaves. -/
theorem ShmInv.detach (h : ShmInv sys) {a : AttachArgs} {tid : BitVec 64}
    (htid : shmResolveTid a.currentTid a.requesterTid = some tid)
    (hok : (shmDetach sys.shm a).1 = 0) :
    tid ∈ sys.attached (segmentIndex a.segmentId) ∧
      ((shmDetach sys.shm a).2.segments (segmentIndex a.segmentId)).attachments =
        ((sys.attached (segmentIndex a.segmentId)).erase tid).length ∧
      Compact ((shmDetach sys.shm a).2.segments (segmentIndex a.segmentId)).attachedTids 0#64 32
        ((sys.attached (segmentIndex a.segmentId)).erase tid) := by
  have hafter := h.step (.detach a)
  have hattached := @attachedAfter_detach sys.attached a tid htid
  have hout := outcome_detach sys.shm a
  unfold shmStep shmCall at hafter
  simp only [hok, hattached] at hafter
  generalize shmDetach sys.shm a = r at hout hok hafter
  cases hout with
  | failed op status hneg => exact absurd hok (by simp only; omega)
  | detached b tid' k hindex htid' huse hfind =>
    rw [htid, Option.some_inj] at htid'
    subst htid'
    have hmem : tid ∈ sys.attached (segmentIndex a.segmentId) := by
      by_contra hnot
      rw [(h.findAttachment_eq_none_iff hindex tid).mpr hnot] at hfind
      cases hfind
    have hcount := hafter.attachments _ hindex
    have hcompact := hafter.compact _ hindex
    simp only [update_self] at hcount hcompact
    exact ⟨hmem, hcount, hcompact⟩

end Invariant

/-- The text with one character. -/
def oneChar (c : Byte) (i : ℕ) : Byte := if i = 0 then c else 0#8

/-- Two segments, of two pages and one page, and a task that attaches to the first. -/
def twoSegments : List ShmOp :=
  [.create ⟨some (oneChar 0x61#8), 5000#64, 7#64, 7#64, 0x10000#64⟩,
    .create ⟨some (oneChar 0x62#8), 1#64, 7#64, 7#64, 0x20000#64⟩,
    .attach ⟨0#32, 7#64, 7#64, true⟩]

def emptyShm : ShmState :=
  ⟨fun _ => ⟨false, fun _ => 0#8, 0#64, 0#64, 0#64, 0, fun _ => 0#64⟩, 0⟩

end GnuOS.Shm

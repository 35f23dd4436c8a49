import GnuOS.Ipc.Basic
import GnuOS.Lib.CompactArray

/-!
# Shared memory segments

A model of `kernel/ipc/shm.c`: 32 named segments with up to 32 attached tasks each.  What a function
does under `g_shm_lock` is one atomic step.

A text is the memory behind the pointer, `none` for `NULL`.  The tid of the caller is a parameter:
`shm_current_tid` reads the task that executes the call.  What `vmm_alloc_kernel_pages` returns is a
parameter as well.
-/

namespace GnuOS.Shm

open GnuOS.Lib GnuOS.Ipc

/-! ## Data -/

def shmMaxSegments : ℕ := 32
def shmSegmentNameMax : ℕ := 32
def shmMaxAttachments : ℕ := 32

def mmPageSize : BitVec 64 := 4096#64

/-- `shm_segment_t` -/
structure Segment where
  inUse : Bool
  name : ℕ → Byte
  base : BitVec 64
  size : BitVec 64
  ownerTid : BitVec 64
  attachments : ℕ
  attachedTids : ℕ → BitVec 64

structure ShmState where
  segments : ℕ → Segment
  segmentCount : ℕ

def ShmState.setSegment (s : ShmState) (i : ℕ) (segment : Segment) : ShmState :=
  { s with segments := Function.update s.segments i segment }

/-! ## Names and tids

The loops over characters and the check of the tid have the same text as those of `ipc.c`. -/

def shmStrnlen (text : ℕ → Byte) (limit : ℕ) : ℕ := strnlenLoop text limit 0

def shmNameCopy (dst src : ℕ → Byte) : ℕ → Byte :=
  nameCopyLoop src (shmSegmentNameMax - 1) 0
    fun i => if i < shmSegmentNameMax then 0#8 else dst i

def shmNameEqual (left right : ℕ → Byte) : Bool := nameEqualLoop left right shmSegmentNameMax 0

/-- The tid that a call works for, or `none` when the caller names another task. -/
def shmResolveTid (currentTid requestedTid : BitVec 64) : Option (BitVec 64) :=
  ipcResolveSenderTid currentTid requestedTid

def shmFindLocked (s : ShmState) (name : ℕ → Byte) : Option ℕ :=
  (List.range shmMaxSegments).find? fun i =>
    (s.segments i).inUse && shmNameEqual (s.segments i).name name

def shmFindAttachmentLocked (segment : Segment) (tid : BitVec 64) : Option ℕ :=
  (List.range segment.attachments).find? fun i => segment.attachedTids i = tid

/-! ## Operations -/

/-- The entries of the array are cleared. -/
def clearTids (tids : ℕ → BitVec 64) (i : ℕ) : BitVec 64 :=
  if i < shmMaxAttachments then 0#64 else tids i

def shmInit (s : ShmState) : ShmState where
  segments := fun i =>
    if i < shmMaxSegments then
      { inUse := false
        name := shmNameCopy (s.segments i).name fun _ => 0#8
        base := 0#64
        size := 0#64
        ownerTid := 0#64
        attachments := 0
        attachedTids := clearTids (s.segments i).attachedTids }
    else s.segments i
  segmentCount := 0

def alignedSize (size : BitVec 64) : BitVec 64 :=
  (size + (mmPageSize - 1#64)) &&& ~~~(mmPageSize - 1#64)

def pageCount (size : BitVec 64) : BitVec 64 := alignedSize size / mmPageSize

/-- What a caller of `shm_create` passes, and where the pages for a new segment are mapped, 0 if
they cannot be. -/
structure CreateArgs where
  name : Option (ℕ → Byte)
  size : BitVec 64
  ownerTid : BitVec 64
  currentTid : BitVec 64
  mapping : BitVec 64

/-- The id of the segment, or a negative status. -/
def shmCreate (s : ShmState) (a : CreateArgs) : ℤ × ShmState :=
  match a.name with
  | none => (-1, s)
  | some text =>
    if a.size = 0#64 then (-1, s)
    else
      match shmResolveTid a.currentTid a.ownerTid with
      | none => (-1, s)
      | some owner =>
        if shmSegmentNameMax ≤ shmStrnlen text shmSegmentNameMax then (-1, s)
        else if pageCount a.size = 0#64 then (-1, s)
        else
          match shmFindLocked s text with
          | some existing => (existing, s)
          | none =>
            match (List.range shmMaxSegments).find? fun i => !(s.segments i).inUse with
            | none => (-2, s)
            | some freeSlot =>
              if a.mapping = 0#64 then (-3, s)
              else
                (freeSlot, { s.setSegment freeSlot
                  { inUse := true
                    name := shmNameCopy (s.segments freeSlot).name text
                    base := a.mapping
                    size := alignedSize a.size
                    ownerTid := owner
                    attachments := 0
                    attachedTids := clearTids (s.segments freeSlot).attachedTids } with
                  segmentCount := s.segmentCount + 1 })

def shmFind (s : ShmState) (name : Option (ℕ → Byte)) : ℤ :=
  match name with
  | none => -1
  | some text =>
    match shmFindLocked s text with
    | some i => i
    | none => -1

/-- The index that `(uint16_t)segment_id` takes from an `int`. -/
def segmentIndex (segmentId : BitVec 32) : ℕ := (segmentId.setWidth 16).toNat

/-- What a caller of `shm_attach` and `shm_detach` passes; for `shm_attach` also whether neither of
the two pointers for its results is `NULL`. -/
structure AttachArgs where
  segmentId : BitVec 32
  requesterTid : BitVec 64
  currentTid : BitVec 64
  outPointers : Bool

/-- The status, and the address and the size that are returned through the pointers. -/
def shmAttach (s : ShmState) (a : AttachArgs) : ℤ × Option (BitVec 64 × BitVec 64) × ShmState :=
  if !a.outPointers ∨ a.segmentId.toInt < 0 ∨ shmMaxSegments ≤ segmentIndex a.segmentId then
    (-1, none, s)
  else
    match shmResolveTid a.currentTid a.requesterTid with
    | none => (-1, none, s)
    | some tid =>
      let segment := s.segments (segmentIndex a.segmentId)
      if !segment.inUse then (-2, none, s)
      else
        match shmFindAttachmentLocked segment tid with
        | some _ => (0, some (segment.base, segment.size), s)
        | none =>
          if shmMaxAttachments ≤ segment.attachments then (-3, none, s)
          else
            (0, some (segment.base, segment.size), s.setSegment (segmentIndex a.segmentId)
              { segment with
                attachedTids := Function.update segment.attachedTids segment.attachments tid
                attachments := segment.attachments + 1 })

def shmDetach (s : ShmState) (a : AttachArgs) : ℤ × ShmState :=
  if a.segmentId.toInt < 0 ∨ shmMaxSegments ≤ segmentIndex a.segmentId then (-1, s)
  else
    match shmResolveTid a.currentTid a.requesterTid with
    | none => (-1, s)
    | some tid =>
      let segment := s.segments (segmentIndex a.segmentId)
      if !segment.inUse then (-2, s)
      else
        match shmFindAttachmentLocked segment tid with
        | none => (-3, s)
        | some i =>
          let shifted := shiftDown segment.attachedTids (segment.attachments - 1 - i) i
          (0, s.setSegment (segmentIndex a.segmentId)
            (if 0 < segment.attachments then
              { segment with
                attachedTids := Function.update shifted (segment.attachments - 1) 0#64
                attachments := segment.attachments - 1 }
            else { segment with attachedTids := shifted }))

end GnuOS.Shm

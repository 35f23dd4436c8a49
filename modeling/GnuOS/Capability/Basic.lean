import Mathlib.Data.BitVec

/-!
# Capabilities

A model of `kernel/security/capability.c`: a table of 128 slots, named by the identifiers
1 to 128.  Each function runs under `g_capability_lock` and is one atomic step.  Statuses are the
return values of the source; an out parameter that is filled on success is returned in an
`Except`.
-/

namespace GnuOS.Capability

def capabilityMaxEntries : ℕ := 128

def capRightTransfer : BitVec 16 := 0x0008#16

structure CapabilitySlot where
  inUse : Bool
  ownerTid : BitVec 64
  objectId : BitVec 64
  rights : BitVec 16
  deriving DecidableEq, Repr

structure CapabilityState where
  slots : ℕ → CapabilitySlot
  count : ℕ

def capabilityIsValidId (capabilityId : ℕ) : Bool :=
  0 < capabilityId && capabilityId ≤ capabilityMaxEntries

def capabilityIndexFromId (capabilityId : ℕ) : ℕ := capabilityId - 1

def capabilityRightsAllow (current requested : BitVec 16) : Bool :=
  current &&& requested = requested

def capabilityInit (s : CapabilityState) : CapabilityState where
  slots := fun i =>
    if i < capabilityMaxEntries then ⟨false, 0#64, 0#64, 0#16⟩ else s.slots i
  count := 0

/-- The first slot that is not in use. -/
def freeSlot (s : CapabilityState) : Option ℕ :=
  (List.range capabilityMaxEntries).find? fun i => !(s.slots i).inUse

/-- The loop that fills the first free slot; `-2` when there is none. -/
def fillFreeSlot (s : CapabilityState) (slot : CapabilitySlot) : Except ℤ ℕ × CapabilityState :=
  match freeSlot s with
  | none => (.error (-2), s)
  | some i =>
    (.ok (i + 1), { slots := Function.update s.slots i slot, count := s.count + 1 })

/-- `outPresent` says that `out_capability_id` is not `NULL`. -/
def capabilityCreate (s : CapabilityState) (ownerTid objectId : BitVec 64) (rights : BitVec 16)
    (outPresent : Bool) : Except ℤ ℕ × CapabilityState :=
  if outPresent = false ∨ rights = 0#16 then (.error (-1), s)
  else fillFreeSlot s ⟨true, ownerTid, objectId, rights⟩

/-- The checks of a transfer, in the order of the source; 0 when it is allowed. -/
def transferStatus (slot : CapabilitySlot) (ownerTid : BitVec 64) (rightsMask : BitVec 16) : ℤ :=
  if slot.inUse = false then -2
  else if slot.ownerTid ≠ ownerTid then -3
  else if slot.rights &&& capRightTransfer = 0#16 then -4
  else if capabilityRightsAllow slot.rights rightsMask = false then -5
  else 0

def capabilityValidateTransfer (s : CapabilityState) (capabilityId : ℕ) (ownerTid : BitVec 64)
    (rightsMask : BitVec 16) : ℤ :=
  if capabilityIsValidId capabilityId = false ∨ rightsMask = 0#16 then -1
  else transferStatus (s.slots (capabilityIndexFromId capabilityId)) ownerTid rightsMask

def capabilityCopyForOwner (s : CapabilityState) (capabilityId : ℕ) (ownerTid : BitVec 64)
    (rightsMask : BitVec 16) (targetTid : BitVec 64) (outPresent : Bool) :
    Except ℤ ℕ × CapabilityState :=
  if outPresent = false ∨ capabilityIsValidId capabilityId = false ∨ rightsMask = 0#16 then
    (.error (-1), s)
  else
    let source := s.slots (capabilityIndexFromId capabilityId)
    if transferStatus source ownerTid rightsMask ≠ 0 then
      (.error (transferStatus source ownerTid rightsMask), s)
    else fillFreeSlot s ⟨true, targetTid, source.objectId, rightsMask⟩

def capabilityCount (s : CapabilityState) : ℕ := s.count

end GnuOS.Capability

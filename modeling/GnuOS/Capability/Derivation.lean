import GnuOS.Ipc.Fifo
import GnuOS.Lib.Counting
import GnuOS.Lib.Derivation
import Mathlib.Algebra.BigOperators.Group.Finset.Piecewise

/-!
# Where capabilities come from

Capabilities are copied by the calls of their owners and by messages between tasks.  In every run
each capability in use is derived from one that `capability_create` made for the same object, by
transfers that their owners were entitled to, with rights that never grow.
-/

namespace GnuOS.Capability

open GnuOS.Lib GnuOS.Ipc Function List

/-- The slot that an id names. -/
def CapabilityState.slot (s : CapabilityState) (id : ℕ) : CapabilitySlot :=
  s.slots (capabilityIndexFromId id)

/-- Capability `b` is a copy of capability `a` that was made on behalf of the owner of `a`, who may
transfer it, and has some of the rights of `a`. -/
structure DerivedFrom (y : IpcSystem) (a b : ℕ) : Prop where
  copied : .capabilityCopied a b (y.caps.slot a).ownerTid ∈ y.log
  source : (y.caps.slot a).inUse = true
  target : (y.caps.slot b).inUse = true
  transfer : (y.caps.slot a).rights &&& capRightTransfer ≠ 0#16
  nonempty : (y.caps.slot b).rights ≠ 0#16
  subset : (y.caps.slot a).rights &&& (y.caps.slot b).rights = (y.caps.slot b).rights
  object : (y.caps.slot b).objectId = (y.caps.slot a).objectId

/-- A capability has a derivation from one that was created for its object. -/
def Derived (y : IpcSystem) (id : ℕ) : Prop :=
  ∃ root chain, .capabilityCreated root (y.caps.slot id).objectId ∈ y.log ∧
    DerivesTo (DerivedFrom y) root id chain

/-- The number of slots in use. -/
def CapabilityState.used (s : CapabilityState) : ℕ :=
  ((Finset.range 128).filter fun i => (s.slots i).inUse = true).card

/-- The capability table in a state of a run. -/
structure CapabilitySpec (y : IpcSystem) : Prop where
  derived : ∀ id, capabilityIsValidId id = true → (y.caps.slot id).inUse = true → Derived y id
  /-- No slot in use is ever modified. -/
  fixed : ∀ (ops : List IpcStep) (y' : IpcSystem), ops.foldlM IpcSystem.step y = some y' →
    ∀ id, capabilityIsValidId id = true → (y.caps.slot id).inUse = true →
      y'.caps.slot id = y.caps.slot id
  count : capabilityCount y.caps = y.caps.used

variable {s s' : CapabilityState} {y y' : IpcSystem} {r : Reply}

/-! ## The table -/

theorem capabilityIsValidId_iff {id : ℕ} :
    capabilityIsValidId id = true ↔ 0 < id ∧ id ≤ 128 := by
  rw [capabilityIsValidId, Bool.and_eq_true, decide_eq_true_eq, decide_eq_true_eq]
  rfl

variable {slot : CapabilitySlot}

/-- A call that makes a capability fills a free slot. -/
theorem fillFreeSlot_ok {id : ℕ} (h : fillFreeSlot s slot = (.ok id, s')) :
    ∃ i, i < 128 ∧ (s.slots i).inUse = false ∧ id = i + 1 ∧
      s' = ⟨update s.slots i slot, s.count + 1⟩ := by
  unfold fillFreeSlot at h
  split at h
  · simp at h
  rename_i i hfree
  simp only [Prod.mk.injEq, Except.ok.injEq] at h
  have hunused := find?_some hfree
  refine ⟨i, mem_range.mp (mem_of_find?_eq_some hfree), by simpa using hunused,
    h.1.symm, h.2.symm⟩

theorem capabilityCreate_ok {owner object : BitVec 64} {rights : BitVec 16} {id : ℕ}
    (h : capabilityCreate s owner object rights true = (.ok id, s')) :
    rights ≠ 0#16 ∧ fillFreeSlot s ⟨true, owner, object, rights⟩ = (.ok id, s') := by
  unfold capabilityCreate at h
  split at h
  · simp at h
  · rename_i hchecks
    exact ⟨(not_or.mp hchecks).2, h⟩

/-- None of the four checks fails. -/
theorem transferStatus_eq_zero {owner : BitVec 64} {mask : BitVec 16} :
    transferStatus slot owner mask = 0 ↔ slot.inUse = true ∧ slot.ownerTid = owner ∧
      slot.rights &&& capRightTransfer ≠ 0#16 ∧ slot.rights &&& mask = mask := by
  unfold transferStatus
  split
  · simp_all
  split
  · simp_all
  split
  · simp_all
  split
  · simp_all [capabilityRightsAllow]
  · simp_all [capabilityRightsAllow]

/-- What a copy checks, and the slot that it fills. -/
theorem capabilityCopyForOwner_ok {source id : ℕ} {owner target : BitVec 64} {mask : BitVec 16}
    (h : capabilityCopyForOwner s source owner mask target true = (.ok id, s')) :
    (s.slot source).inUse = true ∧ (s.slot source).ownerTid = owner ∧
      (s.slot source).rights &&& capRightTransfer ≠ 0#16 ∧ mask ≠ 0#16 ∧
      (s.slot source).rights &&& mask = mask ∧ capabilityIsValidId source = true ∧
      fillFreeSlot s ⟨true, target, (s.slot source).objectId, mask⟩ = (.ok id, s') := by
  unfold capabilityCopyForOwner at h
  split at h
  · simp at h
  rename_i hchecks
  rw [not_or, not_or] at hchecks
  simp only at h
  split at h
  · simp at h
  rename_i hstatus
  obtain ⟨huse, howner, htransfer, hallow⟩ := transferStatus_eq_zero.mp (not_not.mp hstatus)
  exact ⟨huse, howner, htransfer, hchecks.2.2, hallow, by simpa using hchecks.2.1, h⟩

/-- Filling a free slot adds one to the number of slots in use. -/
theorem used_fill {i : ℕ} (hi : i < 128) (hunused : (s.slots i).inUse = false)
    (hslot : slot.inUse = true) (count : ℕ) :
    (⟨update s.slots i slot, count⟩ : CapabilityState).used = s.used + 1 := by
  have hsum := sum_update (fun slot => if slot.inUse = true then 1 else 0) s.slots slot hi
  rw [if_pos hslot, hunused, if_neg Bool.false_ne_true, Nat.add_zero] at hsum
  rw [CapabilityState.used, CapabilityState.used, Finset.card_filter, Finset.card_filter]
  exact hsum

/-! ## What a step does to the table -/

/-- Slots in use stay as they are, and the log only grows. -/
structure Grows (y y' : IpcSystem) : Prop where
  slots : ∀ id, (y.caps.slot id).inUse = true → y'.caps.slot id = y.caps.slot id
  log : ∀ e, e ∈ y.log → e ∈ y'.log

theorem Grows.of_log (hcaps : y'.caps = y.caps) {events : List Event}
    (hlog : y'.log = y.log ++ events) : Grows y y' where
  slots id _ := by rw [hcaps]
  log e he := by
    rw [hlog]
    exact mem_append_left _ he

theorem Grows.of_fill {i : ℕ} {count : ℕ} {e : Event} (hunused : (y.caps.slots i).inUse = false)
    (hcaps : y'.caps = ⟨update y.caps.slots i slot, count⟩) (hlog : y'.log = y.log ++ [e]) :
    Grows y y' where
  slots id huse := by
    have hne : capabilityIndexFromId id ≠ i := by
      intro heq
      rw [CapabilityState.slot, heq, hunused] at huse
      exact absurd huse (by simp)
    rw [CapabilityState.slot, hcaps]
    exact update_of_ne hne _ _
  log e' he := by
    rw [hlog]
    exact mem_append_left _ he

/-- A step creates a capability, copies one, or leaves the table alone. -/
inductive TableStep (y y' : IpcSystem) : Prop
  | same (events : List Event) : y'.caps = y.caps → y'.log = y.log ++ events → TableStep y y'
  | created (owner object : BitVec 64) (rights : BitVec 16) (id : ℕ) :
      capabilityCreate y.caps owner object rights true = (.ok id, y'.caps) →
      y'.log = y.log ++ [.capabilityCreated id object] → TableStep y y'
  | copied (source : ℕ) (owner : BitVec 64) (mask : BitVec 16) (target : BitVec 64) (id : ℕ) :
      capabilityCopyForOwner y.caps source owner mask target true = (.ok id, y'.caps) →
      y'.log = y.log ++ [.capabilityCopied source id owner] → TableStep y y'

theorem tableStep (htrans : Transition y r y') : TableStep y y' := by
  cases htrans with
  | idle r calls hcalls => exact .same [] rfl (append_nil _).symm
  | begun k call _ _ _ => exact .same [] rfl (append_nil _).symm
  | channelCreated text => exact .same [] rfl (append_nil _).symm
  | sent o ipc calls hresolved hsend hcalls => exact .same [.sent o] rfl rfl
  | received id capacity m ipc hrecv => exact .same [.received (channelIndex id) m] rfl rfl
  | receivedCapability k tid id capacity m ipc hcall hrecv =>
    exact .same [.received (channelIndex id) m] rfl rfl
  | posted k o base ipc hcall hpost => exact .same [.posted o] rfl rfl
  | taken k id capacity m ipc htake => exact .same [.taken (channelIndex id) m] rfl rfl
  | capabilityCreated owner object rights id caps hcreate =>
    exact .created owner object rights id hcreate rfl
  | capabilityCopied r source owner mask target id caps calls _ hcopy _ =>
    exact .copied source owner mask target id hcopy rfl

theorem TableStep.grows (h : TableStep y y') : Grows y y' := by
  cases h with
  | same events hcaps hlog => exact Grows.of_log hcaps hlog
  | created owner object rights id hcreate hlog =>
    rcases fillFreeSlot_ok (capabilityCreate_ok hcreate).2 with ⟨i, _, hunused, _, hcaps⟩
    exact Grows.of_fill hunused hcaps hlog
  | copied source owner mask target id hcopy hlog =>
    rcases capabilityCopyForOwner_ok hcopy with ⟨_, _, _, _, _, _, hfill⟩
    rcases fillFreeSlot_ok hfill with ⟨i, _, hunused, _, hcaps⟩
    exact Grows.of_fill hunused hcaps hlog

/-! ## Derivations -/

theorem DerivedFrom.grows (hgrows : Grows y y') {a b : ℕ} (h : DerivedFrom y a b) :
    DerivedFrom y' a b := by
  have ha := hgrows.slots a h.source
  have hb := hgrows.slots b h.target
  refine ⟨?_, ?_, ?_, ?_, ?_, ?_, ?_⟩ <;> simp only [ha, hb]
  · exact hgrows.log _ h.copied
  · exact h.source
  · exact h.target
  · exact h.transfer
  · exact h.nonempty
  · exact h.subset
  · exact h.object

theorem Derived.grows (hgrows : Grows y y') {id : ℕ} (huse : (y.caps.slot id).inUse = true)
    (h : Derived y id) : Derived y' id := by
  rcases h with ⟨root, chain, hroot, hchain⟩
  refine ⟨root, chain, ?_, hchain.imp fun a b => DerivedFrom.grows hgrows⟩
  rw [hgrows.slots id huse]
  exact hgrows.log _ hroot

/-- The table in every state of a run. -/
structure TableInv (y : IpcSystem) : Prop where
  derived : ∀ id, capabilityIsValidId id = true → (y.caps.slot id).inUse = true → Derived y id
  count : y.caps.count = y.caps.used

/-- A slot in use after a slot was filled was in use before, or is the new one. -/
theorem slot_fill {i : ℕ} {count : ℕ} {id : ℕ} (hvalid : capabilityIsValidId id = true) :
    (id = i + 1 ∧
      (⟨update s.slots i slot, count⟩ : CapabilityState).slot id = slot) ∨
      (⟨update s.slots i slot, count⟩ : CapabilityState).slot id = s.slot id := by
  rw [capabilityIsValidId_iff] at hvalid
  unfold CapabilityState.slot capabilityIndexFromId
  by_cases hid : id - 1 = i
  · left
    refine ⟨by omega, ?_⟩
    rw [hid]
    exact update_self i slot s.slots
  · right
    exact update_of_ne hid _ _

theorem slot_new {i : ℕ} {count : ℕ} :
    (⟨update s.slots i slot, count⟩ : CapabilityState).slot (i + 1) = slot := by
  unfold CapabilityState.slot capabilityIndexFromId
  rw [Nat.add_sub_cancel]
  exact update_self i slot s.slots

/-- Filling a slot keeps the table in order if the new capability has a derivation. -/
theorem TableInv.fill (h : TableInv y) (hgrows : Grows y y') {i : ℕ} (hi : i < 128)
    (hunused : (y.caps.slots i).inUse = false) (hslot : slot.inUse = true)
    (hcaps : y'.caps = ⟨update y.caps.slots i slot, y.caps.count + 1⟩) (hnew : Derived y' (i + 1)) :
    TableInv y' where
  derived id hvalid huse := by
    rw [hcaps] at huse
    rcases slot_fill (s := y.caps) hvalid with hid | hsame
    · rw [hid.1]
      exact hnew
    · rw [hsame] at huse
      exact (h.derived id hvalid huse).grows hgrows huse
  count := by
    rw [hcaps, used_fill hi hunused hslot, ← h.count]

theorem TableInv.step (h : TableInv y) (htable : TableStep y y') : TableInv y' := by
  have hgrows := htable.grows
  cases htable with
  | same events hcaps hlog =>
    refine ⟨?_, by rw [hcaps]; exact h.count⟩
    intro id hvalid huse
    rw [hcaps] at huse
    exact (h.derived id hvalid huse).grows hgrows huse
  | created owner object rights id hcreate hlog =>
    rcases fillFreeSlot_ok (capabilityCreate_ok hcreate).2 with ⟨i, hi, hunused, rfl, hcaps⟩
    apply h.fill hgrows hi hunused rfl hcaps
    refine ⟨i + 1, [i + 1], ?_, DerivesTo.root_only _ _⟩
    rw [hcaps, slot_new, hlog]
    exact mem_append_right _ (mem_singleton.mpr rfl)
  | copied source owner mask target id hcopy hlog =>
    rcases capabilityCopyForOwner_ok hcopy with
      ⟨huse, howner, htransfer, hmask, hallow, hvalid, hfill⟩
    rcases fillFreeSlot_ok hfill with ⟨i, hi, hunused, rfl, hcaps⟩
    have hsource := hgrows.slots source huse
    have htarget : y'.caps.slot (i + 1) = ⟨true, target, (y.caps.slot source).objectId, mask⟩ := by
      rw [hcaps, slot_new]
    apply h.fill hgrows hi hunused rfl hcaps
    -- the derivation of the source, which the step kept, goes on to the new slot
    rcases (h.derived source hvalid huse).grows hgrows huse with ⟨root, chain, hroot, hchain⟩
    refine ⟨root, chain ++ [i + 1], ?_, hchain.snoc ?_⟩
    · rw [hsource] at hroot
      rw [htarget]
      exact hroot
    · refine ⟨?_, ?_, ?_, ?_, ?_, ?_, ?_⟩ <;> simp only [hsource, htarget]
      · rw [howner, hlog]
        exact mem_append_right _ (mem_singleton.mpr rfl)
      · exact huse
      · exact htransfer
      · exact hmask
      · exact hallow

/-! ## Runs -/

theorem start_tableInv (ipc : IpcState) (caps : CapabilityState) :
    TableInv (IpcSystem.start ipc (capabilityInit caps)) := by
  have hfree : ∀ i, i < 128 → ((capabilityInit caps).slots i).inUse = false := by
    intro i hi
    simp [capabilityInit, capabilityMaxEntries, hi]
  refine ⟨?_, ?_⟩
  · intro id hvalid huse
    rw [capabilityIsValidId_iff] at hvalid
    rw [CapabilityState.slot, capabilityIndexFromId] at huse
    have hunused := hfree (id - 1) (by omega)
    exact absurd (huse.symm.trans hunused) (by simp)
  · show 0 = (capabilityInit caps).used
    unfold CapabilityState.used
    rw [eq_comm, Finset.card_eq_zero, Finset.filter_eq_empty_iff]
    intro i hi
    rw [hfree i (Finset.mem_range.mp hi)]
    simp

theorem tableInv_run {ipc : IpcState} {caps : CapabilityState} {ops : List IpcStep}
    (hrun : ops.foldlM IpcSystem.step (IpcSystem.start ipc (capabilityInit caps)) = some y) :
    SystemInv y ∧ TableInv y := by
  refine run_invariant (P := fun y => SystemInv y ∧ TableInv y) ?_
    ⟨start_systemInv ipc _, start_tableInv ipc caps⟩ hrun
  intro y₁ op y₂ h hstep
  rcases step_eq_some.mp hstep with ⟨r, hexec⟩
  have htrans := exec_transition h.1.resolved hexec
  exact ⟨htrans.systemInv h.1, h.2.step (tableStep htrans)⟩

/-- Slots in use stay as they are along a run. -/
theorem grows_run (hinv : SystemInv y) {ops : List IpcStep}
    (hrun : ops.foldlM IpcSystem.step y = some y') : Grows y y' := by
  have hall : SystemInv y' ∧ Grows y y' := by
    refine run_invariant (P := fun z => SystemInv z ∧ Grows y z) ?_
      ⟨hinv, ⟨fun _ _ => rfl, fun _ he => he⟩⟩ hrun
    intro y₁ op y₂ h hstep
    rcases step_eq_some.mp hstep with ⟨r, hexec⟩
    have htrans := exec_transition h.1.resolved hexec
    have hgrows := (tableStep htrans).grows
    refine ⟨htrans.systemInv h.1, ?_, ?_⟩
    · intro id huse
      have hsame := h.2.slots id huse
      rw [hgrows.slots id (by rw [hsame]; exact huse), hsame]
    · intro e he
      exact hgrows.log e (h.2.log e he)
  exact hall.2

/-- In every run of calls from any tasks, no capability is amplified: each one in use derives from
one that was created, slots in use are never modified, and their number is the count. -/
theorem capabilities_run_spec (ipc : IpcState) (caps : CapabilityState) (ops : List IpcStep)
    (y : IpcSystem)
    (hrun : ops.foldlM IpcSystem.step (IpcSystem.start ipc (capabilityInit caps)) = some y) :
    CapabilitySpec y := by
  rcases tableInv_run hrun with ⟨hinv, htable⟩
  exact {
    derived := htable.derived
    fixed := fun ops' y' hrun' id _ huse => (grows_run hinv hrun').slots id huse
    count := htable.count }

/-- Task 5 creates a capability and sends task 6 the right to read. -/
def oneTransfer : List IpcStep :=
  [.channelCreate (some fun i => if i < 1 then 97#8 else 0#8),
    .capabilityCreate 5#64 42#64 11#16 true,
    .sendCapability 0 5#64 0#32 (some fun _ => 1#8) 1 0#64 1 1#16,
    .recvCapability 1 6#64 0#32 64 true, .resume 0,
    .recvCapability 1 6#64 0#32 64 true, .resume 1]

theorem capabilities_run_spec_transfer :
    ∃ y : IpcSystem,
      oneTransfer.foldlM IpcSystem.step
        (IpcSystem.start staleIpc (capabilityInit staleCaps)) = some y ∧
      y.caps.slot 2 = ⟨true, 6#64, 42#64, 1#16⟩ ∧ CapabilitySpec y := by
  have hslot : (oneTransfer.foldlM IpcSystem.step
      (IpcSystem.start staleIpc (capabilityInit staleCaps))).map (·.caps.slot 2) =
      some ⟨true, 6#64, 42#64, 1#16⟩ := by
    decide +kernel
  obtain ⟨y, hrun, hy⟩ := Option.map_eq_some_iff.mp hslot
  exact ⟨y, hrun, hy, capabilities_run_spec staleIpc staleCaps oneTransfer y hrun⟩

end GnuOS.Capability

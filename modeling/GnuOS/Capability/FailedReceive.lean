import GnuOS.Capability.Redeem

/-!
# Receives that fail

`ipc_channel_recv_capability` takes a message from the channel and then copies its capability.  A
receive that fails before the message is taken has no effect.  When the copy fails, the message is
gone: this happens exactly if the table is full and the next message carries a capability.
-/

namespace GnuOS.Capability

open GnuOS.Lib GnuOS.Ipc

/-- `ipc_channel_recv_capability`, not interrupted by other calls: the message and the id of the new
capability, or the status. -/
def ipcChannelRecvCapability (s : IpcState) (caps : CapabilityState) (currentTid : BitVec 64)
    (channelId : BitVec 32) (payloadCapacity : ℕ) (outsPresent : Bool) :
    Except ℤ (Received × ℕ) × IpcState × CapabilityState :=
  match ipcChannelRecvInternal s channelId payloadCapacity outsPresent with
  | (.error status, s) => (.error status, s, caps)
  | (.ok m, s) =>
    match recvCapabilityCopy caps currentTid m with
    | (.error status, caps) => (.error status, s, caps)
    | (.ok id, caps) => (.ok (m, id), s, caps)

/-- Every channel's queue and the capability table are the same. -/
def ConsumesNothing (s s' : IpcState) (caps caps' : CapabilityState) : Prop :=
  (∀ c, (s'.channels c).queue = (s.channels c).queue) ∧ caps' = caps

def TableFull (caps : CapabilityState) : Prop :=
  ∀ id, capabilityIsValidId id = true → (caps.slot id).inUse = true

/-- The next message on the channel fits in the buffer and carries a capability. -/
def CapabilityNext (s : IpcState) (channelId : BitVec 32) (payloadCapacity : ℕ) : Prop :=
  ipcIsValidChannelId s channelId = true ∧ ∃ m rest,
    s.contents (channelIndex channelId) = m :: rest ∧ m.size ≤ payloadCapacity ∧
      m.hasCapability = true

section
variable {y : IpcSystem} {s s' : IpcState} {caps : CapabilityState} {m : Received}
  {channelId : BitVec 32} {payloadCapacity : ℕ} {outsPresent : Bool}

/-- A receive takes the next message if it fits. -/
theorem ipcChannelRecvInternal_ok_iff (hq : QueuesInv s) :
    (∃ s', ipcChannelRecvInternal s channelId payloadCapacity outsPresent = (.ok m, s')) ↔
      outsPresent = true ∧ ipcIsValidChannelId s channelId = true ∧
        (∃ rest, s.contents (channelIndex channelId) = m :: rest) ∧ m.size ≤ payloadCapacity := by
  constructor
  · rintro ⟨s', h⟩
    obtain ⟨_, _, hcont, _⟩ := ipcChannelRecvInternal_succeeds hq h
    unfold ipcChannelRecvInternal at h
    split at h
    · simp at h
    rename_i houts
    split at h
    · simp at h
    rename_i hvalid
    simp only at h
    split at h
    · simp at h
    rename_i message queue hpop
    split at h
    · simp at h
    rename_i hsize
    simp only [Prod.mk.injEq, Except.ok.injEq] at h
    rw [← h.1] at hcont ⊢
    exact ⟨by simpa using houts, by simpa using hvalid, ⟨_, hcont⟩, Nat.le_of_not_lt hsize⟩
  · rintro ⟨houts, hvalid, ⟨rest, hcont⟩, hsize⟩
    have hi := (inUse_of_valid hvalid).1
    unfold ipcChannelRecvInternal
    rw [if_neg (by simp [houts]), if_neg (by simp [hvalid])]
    cases hpop : (s.channels (channelIndex channelId)).queue.pop ipcChannelQueueCapacity with
    | none =>
      have hempty := RingBuffer.pop_eq_none_iff.mp hpop
      rw [IpcState.contents,
        show RingBuffer.contents 32 (s.channels _).queue = [] from hempty] at hcont
      simp at hcont
    | some taken =>
      obtain ⟨message, queue⟩ := taken
      obtain ⟨_, hnext⟩ := RingBuffer.pop_contents (hq.valid _ hi) hpop
      rw [IpcState.contents,
        show RingBuffer.contents 32 (s.channels _).queue = message :: _ from hnext,
        List.map_cons, List.cons.injEq] at hcont
      have hfits : ¬ payloadCapacity < message.size := by
        rw [← hcont.1] at hsize
        exact Nat.not_lt.mpr hsize
      simp only [hpop, if_neg hfits, hcont.1]
      exact ⟨_, rfl⟩

/-- A capability that can be redeemed is refused exactly if the table is full. -/
theorem Redeemable.copy_refused_iff (h : Redeemable caps m) (hcap : m.hasCapability = true)
    (tid : BitVec 64) :
    (recvCapabilityCopy caps tid m = (.error (-5), caps) ∨
      ∃ id caps', recvCapabilityCopy caps tid m = (.ok id, caps')) ∧
    (recvCapabilityCopy caps tid m = (.error (-5), caps) ↔ TableFull caps) := by
  unfold recvCapabilityCopy
  rw [hcap, if_neg (by simp), h.copy tid]
  generalize CapabilitySlot.mk true tid _ m.capabilityRights = slot
  match hfill : fillFreeSlot caps slot with
  | (.error z, caps') =>
    rw [fillFreeSlot_error hfill]
    exact ⟨.inl rfl, fun _ _ hvalid => fillFreeSlot_full hfill hvalid, fun _ => rfl⟩
  | (.ok id, caps') =>
    refine ⟨.inr ⟨id, caps', rfl⟩, by simp, ?_⟩
    intro hfull
    obtain ⟨i, hi, hunused, rfl, _⟩ := fillFreeSlot_ok hfill
    have hused := hfull (i + 1) (by rw [capabilityIsValidId_iff]; omega)
    rw [CapabilityState.slot, capabilityIndexFromId, Nat.add_sub_cancel] at hused
    rw [hused] at hunused
    simp at hunused

/-- A message that was taken is missing in its queue. -/
theorem not_consumesNothing (hq : QueuesInv s)
    (h : ipcChannelRecvInternal s channelId payloadCapacity outsPresent = (.ok m, s'))
    (caps' : CapabilityState) : ¬ ConsumesNothing s s' caps caps' := by
  intro hsame
  obtain ⟨_, _, hcont, _⟩ := ipcChannelRecvInternal_succeeds hq h
  have hlength := congrArg List.length hcont
  rw [length_contents, List.length_cons, length_contents, hsame.1] at hlength
  omega

/-- How a call ends that begins with a receive. -/
theorem recvCapability_of_ok {s' : IpcState}
    (h : ipcChannelRecvInternal s channelId payloadCapacity outsPresent = (.ok m, s'))
    (tid : BitVec 64) :
    ipcChannelRecvCapability s caps tid channelId payloadCapacity outsPresent =
      ((recvCapabilityCopy caps tid m).1.map fun id => (m, id), s',
        (recvCapabilityCopy caps tid m).2) := by
  unfold ipcChannelRecvCapability
  rw [h]
  simp only
  split <;> simp [*, Except.map]

/-- How a receive ends.  A message is lost if its capability does not fit in the table; otherwise a
receive that fails has no effect. -/
inductive RecvOutcome (s : IpcState) (caps : CapabilityState) (channelId : BitVec 32)
    (payloadCapacity : ℕ) (outsPresent : Bool) :
    Except ℤ (Received × ℕ) × IpcState × CapabilityState → Prop
  | refused {z : ℤ} (hz : z ≠ -5)
      (hkept : ¬ (outsPresent = true ∧ CapabilityNext s channelId payloadCapacity ∧
        TableFull caps)) :
      RecvOutcome s caps channelId payloadCapacity outsPresent (.error z, s, caps)
  | received (r : Received × ℕ) (s' : IpcState) (caps' : CapabilityState)
      (hkept : ¬ (outsPresent = true ∧ CapabilityNext s channelId payloadCapacity ∧
        TableFull caps)) :
      RecvOutcome s caps channelId payloadCapacity outsPresent (.ok r, s', caps')
  | lost (s' : IpcState) (hgone : ∀ caps', ¬ ConsumesNothing s s' caps caps')
      (hlost : outsPresent = true ∧ CapabilityNext s channelId payloadCapacity ∧
        TableFull caps) :
      RecvOutcome s caps channelId payloadCapacity outsPresent (.error (-5), s', caps)

/-- A receive whose first section takes nothing. -/
theorem recvCapability_refused {z : ℤ} (hq : QueuesInv s)
    (hfail : ipcChannelRecvInternal s channelId payloadCapacity outsPresent = (.error z, s))
    (tid : BitVec 64) :
    RecvOutcome s caps channelId payloadCapacity outsPresent
      (ipcChannelRecvCapability s caps tid channelId payloadCapacity outsPresent) := by
  have hstatus := ipcChannelRecvInternal_status hfail
  unfold ipcChannelRecvCapability
  rw [hfail]
  refine .refused (by omega) ?_
  rintro ⟨houts, ⟨hvalid, m, rest, hcont, hsize, _⟩, _⟩
  obtain ⟨s', hok⟩ :=
    (ipcChannelRecvInternal_ok_iff hq).mpr ⟨houts, hvalid, ⟨rest, hcont⟩, hsize⟩
  rw [hfail] at hok
  simp at hok

theorem recvCapability_outcome (hq : QueuesInv s)
    (hnext : ∀ m rest, ipcIsValidChannelId s channelId = true →
      s.contents (channelIndex channelId) = m :: rest → m.hasCapability = true → Redeemable caps m)
    (tid : BitVec 64) (payloadCapacity : ℕ) (outsPresent : Bool) :
    RecvOutcome s caps channelId payloadCapacity outsPresent
      (ipcChannelRecvCapability s caps tid channelId payloadCapacity outsPresent) := by
  rcases ipcChannelRecvInternal_fails s channelId payloadCapacity outsPresent with
    ⟨m, s₁, hok⟩ | ⟨z, _, hfail⟩
  swap
  · exact recvCapability_refused hq hfail tid
  -- the message is taken; what follows depends on the copy
  obtain ⟨houts, hvalid, ⟨rest, hcont⟩, hsize⟩ :=
    (ipcChannelRecvInternal_ok_iff hq).mp ⟨s₁, hok⟩
  rw [recvCapability_of_ok hok tid]
  cases hcap : m.hasCapability with
  | false =>
    have hplain : recvCapabilityCopy caps tid m = (.ok 0, caps) := by
      simp [recvCapabilityCopy, hcap]
    rw [hplain]
    refine .received _ _ _ ?_
    rintro ⟨_, ⟨_, m', rest', hcont', _, hcap'⟩, _⟩
    rw [hcont, List.cons.injEq] at hcont'
    rw [hcont'.1, hcap'] at hcap
    simp at hcap
  | true =>
    obtain ⟨hends, hfull⟩ := (hnext m rest hvalid hcont hcap).copy_refused_iff hcap tid
    rcases hends with hrefused | ⟨id, caps₁, hgranted⟩
    · rw [hrefused]
      exact .lost s₁ (not_consumesNothing hq hok)
        ⟨houts, ⟨hvalid, m, rest, hcont, hsize, hcap⟩, hfull.mp hrefused⟩
    · rw [hgranted]
      refine .received _ _ _ ?_
      rintro ⟨_, _, htable⟩
      rw [hfull.mpr htable] at hgranted
      simp at hgranted

end

/-- **Failed receives.**  In every run, a receive that fails consumes nothing exactly if its status
is not `-5`; and the status is `-5` exactly if the capability table is full and the next message
carries a capability. -/
theorem failed_receive_consumes_nothing_iff (ipc : IpcState) (caps : CapabilityState)
    (ops : List IpcStep) (y : IpcSystem)
    (hrun : ops.foldlM IpcSystem.step (IpcSystem.start ipc (capabilityInit caps)) = some y)
    (tid : BitVec 64) (channelId : BitVec 32) (payloadCapacity : ℕ) (outsPresent : Bool) :
    (∀ z s' caps', ipcChannelRecvCapability y.ipc y.caps tid channelId payloadCapacity
        outsPresent = (.error z, s', caps') →
      (ConsumesNothing y.ipc s' y.caps caps' ↔ z ≠ -5)) ∧
    ((∃ s' caps', ipcChannelRecvCapability y.ipc y.caps tid channelId payloadCapacity
        outsPresent = (.error (-5), s', caps')) ↔
      outsPresent = true ∧ CapabilityNext y.ipc channelId payloadCapacity ∧ TableFull y.caps) := by
  obtain ⟨hinv, hcarried⟩ := carriedInv_run hrun
  have hnext : ∀ m rest, ipcIsValidChannelId y.ipc channelId = true →
      y.ipc.contents (channelIndex channelId) = m :: rest → m.hasCapability = true →
        Redeemable y.caps m := by
    intro m rest hvalid hcont hcap
    have hi := (inUse_of_valid hvalid).1
    exact hcarried m (.queued _ hi (hcont ▸ List.mem_cons_self)) hcap
  have houtcome := recvCapability_outcome hinv.queues hnext tid payloadCapacity outsPresent
  generalize ipcChannelRecvCapability y.ipc y.caps tid channelId payloadCapacity outsPresent = r
    at houtcome
  cases houtcome with
  | refused hz hkept =>
    refine ⟨?_, ?_, fun hlost => absurd hlost hkept⟩
    · intro z s' caps' heq
      simp only [Prod.mk.injEq, Except.error.injEq] at heq
      obtain ⟨rfl, rfl, rfl⟩ := heq
      exact ⟨fun _ => hz, fun _ => ⟨fun _ => rfl, rfl⟩⟩
    · rintro ⟨s', caps', heq⟩
      simp only [Prod.mk.injEq, Except.error.injEq] at heq
      exact absurd heq.1 hz
  | received r s' caps' hkept =>
    exact ⟨by simp, by simp, fun hlost => absurd hlost hkept⟩
  | lost s' hgone hlost =>
    refine ⟨?_, fun _ => hlost, fun _ => ⟨s', y.caps, rfl⟩⟩
    intro z s'' caps'' heq
    simp only [Prod.mk.injEq, Except.error.injEq] at heq
    obtain ⟨rfl, rfl, rfl⟩ := heq
    exact ⟨fun hsame => absurd hsame (hgone y.caps), fun hne => absurd rfl hne⟩

/-- Task 5 sends a capability on channel 0. -/
def capabilityQueued : List IpcStep :=
  [.channelCreate (some fun i => if i < 1 then 97#8 else 0#8),
    .capabilityCreate 5#64 42#64 11#16 true,
    .sendCapability 0 5#64 0#32 (some fun _ => 1#8) 1 0#64 1 1#16, .resume 0]

/-- The status of the receive of task 6. -/
def recvStatus (y : IpcSystem) (payloadCapacity : ℕ) : Option ℤ :=
  match (ipcChannelRecvCapability y.ipc y.caps 6#64 0#32 payloadCapacity true).1 with
  | .error z => some z
  | .ok _ => none

theorem eq_of_recvStatus {y : IpcSystem} {payloadCapacity : ℕ} {z : ℤ}
    (h : recvStatus y payloadCapacity = some z) :
    ∃ s' caps', ipcChannelRecvCapability y.ipc y.caps 6#64 0#32 payloadCapacity true =
      (.error z, s', caps') := by
  unfold recvStatus at h
  split at h
  · rename_i z' hz
    rw [Option.some.injEq] at h
    exact ⟨_, _, Prod.ext (h ▸ hz) rfl⟩
  · simp at h

/-- The buffer is too small. -/
theorem failed_receive_consumes_nothing_iff_small_buffer :
    ∃ y s' caps', capabilityQueued.foldlM IpcSystem.step
        (IpcSystem.start staleIpc (capabilityInit staleCaps)) = some y ∧
      ipcChannelRecvCapability y.ipc y.caps 6#64 0#32 0 true = (.error (-4), s', caps') ∧
      ConsumesNothing y.ipc s' y.caps caps' := by
  have heval : (capabilityQueued.foldlM IpcSystem.step
      (IpcSystem.start staleIpc (capabilityInit staleCaps))).map
        (fun y => recvStatus y 0) = some (some (-4)) := by
    decide +kernel
  obtain ⟨y, hrun, hstatus⟩ := Option.map_eq_some_iff.mp heval
  obtain ⟨s', caps', hcall⟩ := eq_of_recvStatus hstatus
  have hsame := (failed_receive_consumes_nothing_iff staleIpc staleCaps capabilityQueued y hrun
    6#64 0#32 0 true).1 (-4) s' caps' hcall
  exact ⟨y, s', caps', hrun, hcall, hsame.mpr (by decide)⟩

/-- The message is queued and the table is filled up: the receive fails with `-5`, and the message
is gone. -/
theorem failed_receive_loses_message :
    ∃ y s' caps', (capabilityQueued ++
        List.replicate 127 (IpcStep.capabilityCreate 5#64 43#64 1#16 true)).foldlM IpcSystem.step
        (IpcSystem.start staleIpc (capabilityInit staleCaps)) = some y ∧
      ipcChannelRecvCapability y.ipc y.caps 6#64 0#32 64 true = (.error (-5), s', caps') ∧
      (y.ipc.contents 0).map Received.capabilityId = [1] ∧ s'.contents 0 = [] := by
  have heval : ((capabilityQueued ++
      List.replicate 127 (IpcStep.capabilityCreate 5#64 43#64 1#16 true)).foldlM IpcSystem.step
      (IpcSystem.start staleIpc (capabilityInit staleCaps))).map
        (fun y => (recvStatus y 64, (y.ipc.contents 0).map Received.capabilityId,
          (ipcChannelRecvCapability y.ipc y.caps 6#64 0#32 64 true).2.1.contents 0)) =
        some (some (-5), [1], []) := by
    decide +kernel
  obtain ⟨y, hrun, hstate⟩ := Option.map_eq_some_iff.mp heval
  simp only [Prod.mk.injEq] at hstate
  obtain ⟨hstatus, hqueued, hgone⟩ := hstate
  obtain ⟨s', caps', hcall⟩ := eq_of_recvStatus hstatus
  rw [hcall] at hgone
  exact ⟨y, s', caps', hrun, hcall, hqueued, hgone⟩

end GnuOS.Capability

import GnuOS.Capability.FailedReceive
import GnuOS.Shm.Runs

/-!
# Channel and segment ids

The entry points of `ipc.c` and `shm.c` that take an id check its sign as an `int`, and its size
after a conversion to `uint16_t`.  An id of 65536 or more is therefore taken for the channel or the
segment that the low 16 bits name.
-/

namespace GnuOS.Ipc

open GnuOS.Capability GnuOS.Shm

/-! ## The entry points -/

/-- What the calls read and write. -/
structure Objects where
  ipc : IpcState
  caps : CapabilityState
  shm : ShmState

/-- A call of one of the entry points that take an id, with its other arguments. -/
inductive IdCall
  | send (currentTid : BitVec 64) (payload : Option (ℕ → Byte)) (size : ℕ) (senderTid : BitVec 64)
  | sendCapability (currentTid : BitVec 64) (payload : Option (ℕ → Byte)) (size : ℕ)
      (senderTid : BitVec 64) (capabilityId : ℕ) (capabilityRights : BitVec 16)
  | recv (payloadCapacity : ℕ) (outsPresent : Bool)
  | recvCapability (currentTid : BitVec 64) (payloadCapacity : ℕ) (outsPresent : Bool)
  /-- Up to the first round of the first loop; later rounds of it are the same call again. -/
  | rendezvousSend (currentTid : BitVec 64) (payload : Option (ℕ → Byte)) (size : ℕ)
      (senderTid : BitVec 64)
  /-- A round of the second loop of `ipc_channel_rendezvous_send`. -/
  | rendezvousPoll (baseGeneration : BitVec 64)
  | rendezvousRecv (payloadCapacity : ℕ) (outsPresent : Bool)
  | shmAttach (requesterTid currentTid : BitVec 64) (outPointers : Bool)
  | shmDetach (requesterTid currentTid : BitVec 64)

/-- `ipc_channel_send_internal` -/
def ipcChannelSendInternal (s : IpcState) (caps : CapabilityState) (currentTid : BitVec 64)
    (a : SendArgs) : ℤ × IpcState :=
  match sendCheck caps currentTid a with
  | .error status => (status, s)
  | .ok (payload, sender) => sendLocked s a payload sender

/-- The status of a call, `none` if it goes on with another round, and the objects after it. -/
def IdCall.run (o : Objects) (id : BitVec 32) : IdCall → Option ℤ × Objects
  | .send currentTid payload size senderTid =>
    match ipcChannelSendInternal o.ipc o.caps currentTid (sendArgs id payload size senderTid) with
    | (status, ipc) => (some status, { o with ipc := ipc })
  | .sendCapability currentTid payload size senderTid capabilityId capabilityRights =>
    match sendCapabilityArgs id payload size senderTid capabilityId capabilityRights with
    | .error status => (some status, o)
    | .ok a =>
      match ipcChannelSendInternal o.ipc o.caps currentTid a with
      | (status, ipc) => (some status, { o with ipc := ipc })
  | .recv payloadCapacity outsPresent =>
    match ipcChannelRecvInternal o.ipc id payloadCapacity outsPresent with
    | (.error status, ipc) => (some status, { o with ipc := ipc })
    | (.ok _, ipc) => (some 0, { o with ipc := ipc })
  | .recvCapability currentTid payloadCapacity outsPresent =>
    match ipcChannelRecvCapability o.ipc o.caps currentTid id payloadCapacity outsPresent with
    | (.error status, ipc, caps) => (some status, { o with ipc := ipc, caps := caps })
    | (.ok _, ipc, caps) => (some 0, { o with ipc := ipc, caps := caps })
  | .rendezvousSend currentTid payload size senderTid =>
    match rendezvousSendCheck currentTid payload size senderTid with
    | .error status => (some status, o)
    | .ok (payload, sender) =>
      match rendezvousPost o.ipc id payload size sender with
      | (.done (.error status), ipc) => (some status, { o with ipc := ipc })
      | (_, ipc) => (none, { o with ipc := ipc })
  | .rendezvousPoll baseGeneration =>
    match Ipc.rendezvousPoll o.ipc id baseGeneration with
    | .done status => (some status, o)
    | .again => (none, o)
  | .rendezvousRecv payloadCapacity outsPresent =>
    if outsPresent = false then (some (-1), o)
    else
      match rendezvousTake o.ipc id payloadCapacity with
      | (.done (.error status), ipc) => (some status, { o with ipc := ipc })
      | (.done (.ok _), ipc) => (some 0, { o with ipc := ipc })
      | (.again, ipc) => (none, { o with ipc := ipc })
  | .shmAttach requesterTid currentTid outPointers =>
    match Shm.shmAttach o.shm ⟨id, requesterTid, currentTid, outPointers⟩ with
    | (status, _, shm) => (some status, { o with shm := shm })
  | .shmDetach requesterTid currentTid =>
    match Shm.shmDetach o.shm ⟨id, requesterTid, currentTid, true⟩ with
    | (status, shm) => (some status, { o with shm := shm })

/-! ## What ids should name -/

/-- The id, as an `int`, is that of a channel in use. -/
def NamesChannel (o : Objects) (id : BitVec 32) : Prop :=
  ∃ i : ℕ, id.toInt = i ∧ i < 16 ∧ (o.ipc.channels i).inUse = true

def NamesSegment (o : Objects) (id : BitVec 32) : Prop :=
  ∃ i : ℕ, id.toInt = i ∧ i < 32 ∧ (o.shm.segments i).inUse = true

def IdCall.Names (o : Objects) (id : BitVec 32) : IdCall → Prop
  | .shmAttach .. | .shmDetach .. => NamesSegment o id
  | _ => NamesChannel o id

/-- The call fails and changes nothing. -/
def IdCall.Rejected (o : Objects) (id : BitVec 32) (call : IdCall) : Prop :=
  ∃ status : ℤ, status < 0 ∧ call.run o id = (some status, o)

/-- The id is too large, but its low 16 bits name a channel or a segment in use. -/
def Aliases (o : Objects) (id : BitVec 32) : Prop :=
  65536 ≤ id.toInt ∧
    ((channelIndex id < 16 ∧ (o.ipc.channels (channelIndex id)).inUse = true) ∨
      (segmentIndex id < 32 ∧ (o.shm.segments (segmentIndex id)).inUse = true))

/-! ## The checks -/

section
variable {o : Objects} {id : BitVec 32}

/-- An `int` that is not negative is its low 16 bits, or at least 65536. -/
theorem toInt_channelIndex (hsign : ¬ id.toInt < 0) :
    id.toInt = channelIndex id ∨ 65536 ≤ id.toInt := by
  have hid := id.isLt
  unfold channelIndex
  rw [BitVec.toNat_setWidth]
  rw [BitVec.toInt_eq_toNat_cond] at hsign ⊢
  split at hsign
  · rename_i hlt
    rw [if_pos hlt]
    omega
  · omega

/-- What the check of a channel id accepts. -/
theorem names_or_aliases_of_channel (h : ipcIsValidChannelId o.ipc id = true) :
    NamesChannel o id ∨ Aliases o id := by
  obtain ⟨hlt, huse⟩ := inUse_of_valid h
  have hsign : ¬ id.toInt < 0 := by
    intro hneg
    simp [ipcIsValidChannelId, hneg] at h
  rcases toInt_channelIndex hsign with hid | hlarge
  · exact .inl ⟨channelIndex id, hid, hlt, huse⟩
  · exact .inr ⟨hlarge, .inl ⟨hlt, huse⟩⟩

theorem names_or_aliases_of_segment (hsign : ¬ id.toInt < 0) (hlt : segmentIndex id < 32)
    (huse : (o.shm.segments (segmentIndex id)).inUse = true) :
    NamesSegment o id ∨ Aliases o id := by
  rcases toInt_channelIndex hsign with hid | hlarge
  · exact .inl ⟨segmentIndex id, hid, hlt, huse⟩
  · exact .inr ⟨hlarge, .inr ⟨hlt, huse⟩⟩

/-! ## Rejected ids -/

theorem rendezvousSendCheck_error {tid senderTid : BitVec 64} {payload : Option (ℕ → Byte)}
    {size : ℕ} {z : ℤ} (h : rendezvousSendCheck tid payload size senderTid = .error z) : z < 0 := by
  unfold rendezvousSendCheck at h
  split at h
  · cases h
    decide
  split at h
  · cases h
    decide
  split at h
  · cases h
    decide
  · simp at h

theorem ipcChannelSendInternal_invalid {s : IpcState} {a : SendArgs}
    (h : ipcIsValidChannelId s a.channelId = false) (caps : CapabilityState) (tid : BitVec 64) :
    ∃ z, z < 0 ∧ ipcChannelSendInternal s caps tid a = (z, s) := by
  unfold ipcChannelSendInternal
  split
  · rename_i z hcheck
    exact ⟨z, sendCheck_error hcheck, rfl⟩
  · exact ⟨-2, by decide, by rw [sendLocked, if_pos h]⟩

section

variable (halias : ¬ Aliases o id)

include halias

theorem invalid_of_not_names (hnames : ¬ NamesChannel o id) :
    ipcIsValidChannelId o.ipc id = false := by
  rw [← Bool.not_eq_true]
  intro hvalid
  rcases names_or_aliases_of_channel hvalid with h | h
  · exact hnames h
  · exact halias h

theorem unused_of_not_names (hnames : ¬ NamesSegment o id) (hsign : ¬ id.toInt < 0)
    (hlt : segmentIndex id < 32) :
    (o.shm.segments (segmentIndex id)).inUse = false := by
  rw [← Bool.not_eq_true]
  intro huse
  rcases names_or_aliases_of_segment hsign hlt huse with h | h
  · exact hnames h
  · exact halias h

theorem shmAttach_rejects (hnames : ¬ NamesSegment o id) (requesterTid currentTid : BitVec 64)
    (outPointers : Bool) :
    ∃ z, z < 0 ∧ shmAttach o.shm ⟨id, requesterTid, currentTid, outPointers⟩ =
      (z, none, o.shm) := by
  unfold shmAttach
  split
  · exact ⟨-1, by decide, rfl⟩
  rename_i hchecks
  rw [not_or, not_or] at hchecks
  split
  · exact ⟨-1, by decide, rfl⟩
  simp only
  have hunused := unused_of_not_names halias hnames hchecks.2.1 (Nat.lt_of_not_le hchecks.2.2)
  rw [if_pos (by simp [hunused])]
  exact ⟨-2, by decide, rfl⟩

theorem shmDetach_rejects (hnames : ¬ NamesSegment o id) (requesterTid currentTid : BitVec 64) :
    ∃ z, z < 0 ∧ shmDetach o.shm ⟨id, requesterTid, currentTid, true⟩ = (z, o.shm) := by
  unfold shmDetach
  split
  · exact ⟨-1, by decide, rfl⟩
  rename_i hchecks
  rw [not_or] at hchecks
  split
  · exact ⟨-1, by decide, rfl⟩
  simp only
  have hunused := unused_of_not_names halias hnames hchecks.1 (Nat.lt_of_not_le hchecks.2)
  rw [if_pos (by simp [hunused])]
  exact ⟨-2, by decide, rfl⟩

/-- Every call rejects an id that names nothing and aliases nothing. -/
theorem rejected_of_not_aliases {call : IdCall} (hnames : ¬ call.Names o id) :
    call.Rejected o id := by
  cases call with
  | send currentTid payload size senderTid =>
    obtain ⟨z, hneg, hsend⟩ := ipcChannelSendInternal_invalid
      (a := sendArgs id payload size senderTid) (invalid_of_not_names halias hnames) o.caps
      currentTid
    exact ⟨z, hneg, by simp only [IdCall.run, hsend]⟩
  | sendCapability currentTid payload size senderTid capabilityId capabilityRights =>
    have hinvalid := invalid_of_not_names halias hnames
    by_cases hargs : capabilityId = 0 ∨ capabilityRights = 0#16
    · exact ⟨-1, by decide, by simp only [IdCall.run, sendCapabilityArgs, if_pos hargs]⟩
    · obtain ⟨z, hneg, hsend⟩ := ipcChannelSendInternal_invalid
        (a := ⟨id, payload, size, senderTid, true, capabilityId, capabilityRights⟩) hinvalid o.caps
        currentTid
      exact ⟨z, hneg, by simp only [IdCall.run, sendCapabilityArgs, if_neg hargs, hsend]⟩
  | recv payloadCapacity outsPresent =>
    have hinvalid := invalid_of_not_names halias hnames
    by_cases houts : outsPresent = false
    · exact ⟨-1, by decide, by simp only [IdCall.run, ipcChannelRecvInternal, if_pos houts]⟩
    · exact ⟨-2, by decide, by
        simp only [IdCall.run, ipcChannelRecvInternal, if_neg houts, if_pos hinvalid]⟩
  | recvCapability currentTid payloadCapacity outsPresent =>
    have hinvalid := invalid_of_not_names halias hnames
    by_cases houts : outsPresent = false
    · exact ⟨-1, by decide, by
        simp only [IdCall.run, ipcChannelRecvCapability, ipcChannelRecvInternal, if_pos houts]⟩
    · exact ⟨-2, by decide, by
        simp only [IdCall.run, ipcChannelRecvCapability, ipcChannelRecvInternal, if_neg houts,
          if_pos hinvalid]⟩
  | rendezvousSend currentTid payload size senderTid =>
    have hinvalid := invalid_of_not_names halias hnames
    cases hcheck : rendezvousSendCheck currentTid payload size senderTid with
    | error z => exact ⟨z, rendezvousSendCheck_error hcheck, by simp only [IdCall.run, hcheck]⟩
    | ok checked =>
      exact ⟨-2, by decide, by simp only [IdCall.run, hcheck, rendezvousPost, if_pos hinvalid]⟩
  | rendezvousPoll baseGeneration =>
    have hinvalid := invalid_of_not_names halias hnames
    exact ⟨-2, by decide, by simp only [IdCall.run, Ipc.rendezvousPoll, if_pos hinvalid]⟩
  | rendezvousRecv payloadCapacity outsPresent =>
    have hinvalid := invalid_of_not_names halias hnames
    by_cases houts : outsPresent = false
    · exact ⟨-1, by decide, by simp only [IdCall.run, if_pos houts]⟩
    · exact ⟨-2, by decide, by
        simp only [IdCall.run, if_neg houts, rendezvousTake, if_pos hinvalid]⟩
  | shmAttach requesterTid currentTid outPointers =>
    obtain ⟨z, hneg, hattach⟩ := shmAttach_rejects halias hnames requesterTid currentTid
      outPointers
    exact ⟨z, hneg, by simp only [IdCall.run, hattach]⟩
  | shmDetach requesterTid currentTid =>
    obtain ⟨z, hneg, hdetach⟩ := shmDetach_rejects halias hnames requesterTid currentTid
    exact ⟨z, hneg, by simp only [IdCall.run, hdetach]⟩

end

/-! ## Aliases are accepted -/

/-- A rendezvous receive on an alias takes the pending message or waits for one. -/
theorem rendezvousRecv_of_aliases (hlarge : 65536 ≤ id.toInt) (hlt : channelIndex id < 16)
    (huse : (o.ipc.channels (channelIndex id)).inUse = true) :
    ∃ call : IdCall, ¬ call.Names o id ∧ ¬ call.Rejected o id := by
  have hvalid : ipcIsValidChannelId o.ipc id = true := by
    rw [ipcIsValidChannelId, if_neg (by omega),
      if_neg (show ¬ ipcMaxChannels ≤ _ from Nat.not_le.mpr hlt)]
    exact huse
  refine ⟨.rendezvousRecv (o.ipc.channels (channelIndex id)).rendezvousMessage.size true, ?_, ?_⟩
  · rintro ⟨i, hid, hi, _⟩
    omega
  · rintro ⟨z, hneg, hrun⟩
    simp only [IdCall.run, rendezvousTake, hvalid] at hrun
    cases hpending : (o.ipc.channels (channelIndex id)).rendezvousPending with
    | false => simp [hpending] at hrun
    | true =>
      simp only [hpending, Nat.lt_irrefl] at hrun
      have hzero : 0 = z := by simpa using congrArg Prod.fst hrun
      omega

theorem shmResolveTid_of_idle (tid : BitVec 64) : shmResolveTid 0#64 tid = some tid := by
  unfold shmResolveTid ipcResolveSenderTid
  by_cases htid : tid = 0#64
  · rw [if_pos htid, htid]
  · rw [if_neg htid, if_neg (by simp)]

/-- An attachment to an alias succeeds: for a task that is attached already, or for the first
one. -/
theorem shmAttach_of_aliases (hlarge : 65536 ≤ id.toInt) (hlt : segmentIndex id < 32)
    (huse : (o.shm.segments (segmentIndex id)).inUse = true) :
    ∃ call : IdCall, ¬ call.Names o id ∧ ¬ call.Rejected o id := by
  generalize htid : (o.shm.segments (segmentIndex id)).attachedTids 0 = tid
  have hchecks : ¬ ((!true) = true ∨ id.toInt < 0 ∨ shmMaxSegments ≤ segmentIndex id) := by
    rintro (h | h | h)
    · simp at h
    · omega
    · exact absurd hlt (Nat.not_lt.mpr h)
  have hstatus : (shmAttach o.shm ⟨id, tid, 0#64, true⟩).1 = 0 := by
    unfold shmAttach
    rw [if_neg hchecks, shmResolveTid_of_idle]
    simp only [huse, Bool.not_true, Bool.false_eq_true, if_false]
    cases hfind : shmFindAttachmentLocked (o.shm.segments (segmentIndex id)) tid with
    | some k => rfl
    | none =>
      have hempty : (o.shm.segments (segmentIndex id)).attachments = 0 := by
        by_contra hne
        have hfirst := List.find?_eq_none.mp hfind 0 (List.mem_range.mpr (Nat.pos_of_ne_zero hne))
        exact hfirst (by simp [htid])
      simp only [hempty]
      rw [if_neg (by decide)]
  refine ⟨.shmAttach tid 0#64 true, ?_, ?_⟩
  · rintro ⟨i, hid, hi, _⟩
    omega
  · rintro ⟨z, hneg, hrun⟩
    have hz : (shmAttach o.shm ⟨id, tid, 0#64, true⟩).1 = z := by
      simpa [IdCall.run] using congrArg Prod.fst hrun
    omega

end

/-- **Channel and segment ids.**  All entry points together reject every `int` that does not name a
channel or segment in use, exactly if the `int` is not an alias of one. -/
theorem id_validation_exact_iff (o : Objects) (id : BitVec 32) :
    (∀ call : IdCall, ¬ call.Names o id → call.Rejected o id) ↔ ¬ Aliases o id := by
  constructor
  · rintro hall ⟨hlarge, ⟨hlt, huse⟩ | ⟨hlt, huse⟩⟩
    · obtain ⟨call, hnames, haccepted⟩ := rendezvousRecv_of_aliases hlarge hlt huse
      exact haccepted (hall call hnames)
    · obtain ⟨call, hnames, haccepted⟩ := shmAttach_of_aliases hlarge hlt huse
      exact haccepted (hall call hnames)
  · exact fun halias call hnames => rejected_of_not_aliases halias hnames

/-- Channel 0 and segment 0 have been created, and nothing else. -/
def oneOfEach : Objects where
  ipc := (ipcChannelCreate (ipcInit staleIpc) (some (oneChar 0x61#8))).2
  caps := capabilityInit staleCaps
  shm := (shmRun emptyShm
    [.create ⟨some (oneChar 0x61#8), 4096#64, 0#64, 5#64, 0x44200000#64⟩]).shm

/-- The id 65536 is taken for 0: a message that is sent there arrives on channel 0, and a task is
attached to segment 0. -/
theorem id_65536_is_accepted :
    ¬ NamesChannel oneOfEach 65536#32 ∧ ¬ NamesSegment oneOfEach 65536#32 ∧
    ((IdCall.send 5#64 (some fun _ => 7#8) 1 0#64).run oneOfEach 65536#32).1 = some 0 ∧
    (((IdCall.send 5#64 (some fun _ => 7#8) 1 0#64).run oneOfEach 65536#32).2.ipc.contents 0).map
      Received.payload = [[7#8]] ∧
    ((IdCall.shmAttach 0#64 6#64 true).run oneOfEach 65536#32).1 = some 0 ∧
    (((IdCall.shmAttach 0#64 6#64 true).run oneOfEach 65536#32).2.shm.segments 0).attachments =
      1 := by
  have hint : (65536#32).toInt = 65536 := by decide
  refine ⟨?_, ?_, by decide +kernel, by decide +kernel, by decide +kernel, by decide +kernel⟩
  · rintro ⟨i, hid, hi, _⟩
    omega
  · rintro ⟨i, hid, hi, _⟩
    omega

end GnuOS.Ipc

import GnuOS.Ipc.Names

/-!
# Sending and receiving

The contents of a channel are the messages its ring holds, each as a receiver would get it; the
rendezvous slot holds at most one more.  A send appends to the contents of one channel and a
receive takes the first message; posting fills the slot of one channel and a rendezvous receive
empties it.  Every other outcome leaves the state as it was.
-/

namespace GnuOS.Ipc

open GnuOS.Lib Function

/-- The messages of a channel, oldest first, as they will be received. -/
def IpcState.contents (s : IpcState) (i : ℕ) : List Received :=
  ((s.channels i).queue.contents 32).map readMessage

/-- The message that waits in the rendezvous slot of a channel, if any. -/
def IpcState.slot (s : IpcState) (i : ℕ) : List Received :=
  if (s.channels i).rendezvousPending then [readMessage (s.channels i).rendezvousMessage] else []

/-- The number of rendezvous messages received on a channel, modulo 2^64. -/
def IpcState.generation (s : IpcState) (i : ℕ) : BitVec 64 :=
  (s.channels i).rendezvousGeneration

/-- The rings are in order, and the channels that are not in use hold nothing. -/
structure QueuesInv (s : IpcState) : Prop where
  valid : ∀ i, i < 16 → (s.channels i).queue.Valid 32
  unused : ∀ i, i < 16 → (s.channels i).inUse = false → s.contents i = [] ∧ s.slot i = []

variable {s s' : IpcState} {i j : ℕ} {c : Channel}

theorem length_contents : (s.contents i).length = (s.channels i).queue.size := by
  simp [IpcState.contents]

theorem QueuesInv.length_le (h : QueuesInv s) (hi : i < 16) : (s.contents i).length ≤ 32 := by
  rw [length_contents]
  exact (h.valid i hi).size_le

theorem slot_eq_nil : s.slot i = [] ↔ (s.channels i).rendezvousPending = false := by
  unfold IpcState.slot
  cases (s.channels i).rendezvousPending <;> simp

/-! ## Changes of one channel -/

theorem setChannel_self (c : Channel) : (s.setChannel i c).channels i = c := by
  simp [IpcState.setChannel]

theorem setChannel_other (c : Channel) (h : j ≠ i) :
    (s.setChannel i c).channels j = s.channels j := by
  simp [IpcState.setChannel, h]

/-- Nothing but channel `i` changes, and it keeps its name. -/
structure ChangesOnly (i : ℕ) (s s' : IpcState) : Prop where
  index_lt : i < 16
  inUse : (s.channels i).inUse = true
  registry : SameRegistry s s'
  other : ∀ j, j ≠ i → s'.channels j = s.channels j

theorem changesOnly_setChannel (hi : i < 16) (huse : (s.channels i).inUse = true)
    (hc : c.inUse = true) (hname : c.name = (s.channels i).name) :
    ChangesOnly i s (s.setChannel i c) where
  index_lt := hi
  inUse := huse
  registry j := by
    by_cases hji : j = i
    · rw [hji, setChannel_self, huse]
      exact ⟨hc, hname⟩
    · rw [setChannel_other c hji]
      exact ⟨rfl, rfl⟩
  other j hj := setChannel_other c hj

namespace ChangesOnly

section

variable (h : ChangesOnly i s s')

include h

theorem contents_other (hj : j ≠ i) : s'.contents j = s.contents j := by
  rw [IpcState.contents, h.other j hj]
  rfl

theorem slot_other (hj : j ≠ i) : s'.slot j = s.slot j := by
  rw [IpcState.slot, h.other j hj]
  rfl

theorem generation_other (hj : j ≠ i) :
    s'.generation j = s.generation j := by
  rw [IpcState.generation, h.other j hj]
  rfl

/-- What channel `i` keeps, all channels keep. -/
theorem contents_eq (hi : s'.contents i = s.contents i) : s'.contents = s.contents :=
  (eq_update_iff.mpr ⟨hi, fun _ => h.contents_other⟩).trans (update_eq_self i s.contents)

theorem slot_update {l : List Received} (hi : s'.slot i = l) : s'.slot = update s.slot i l :=
  eq_update_iff.mpr ⟨hi, fun _ => h.slot_other⟩

theorem slot_eq (hi : s'.slot i = s.slot i) : s'.slot = s.slot :=
  (h.slot_update hi).trans (update_eq_self i s.slot)

theorem generation_update {g : BitVec 64} (hi : s'.generation i = g) :
    s'.generation = update s.generation i g :=
  eq_update_iff.mpr ⟨hi, fun _ => h.generation_other⟩

theorem generation_eq (hi : s'.generation i = s.generation i) : s'.generation = s.generation :=
  (h.generation_update hi).trans (update_eq_self i s.generation)

theorem queuesInv (hq : QueuesInv s) (hvalid : (s'.channels i).queue.Valid 32) : QueuesInv s' where
  valid j hj := by
    by_cases hji : j = i
    · rw [hji]
      exact hvalid
    · rw [h.other j hji]
      exact hq.valid j hj
  unused j hj hunused := by
    rw [(h.registry j).1] at hunused
    -- channel `i` is in use, so `j` is another one
    have hji : j ≠ i := by
      intro hji
      rw [hji, h.inUse] at hunused
      exact absurd hunused (by simp)
    rw [h.contents_other hji, h.slot_other hji]
    exact hq.unused j hj hunused

end

end ChangesOnly

/-! ## Channel ids -/

variable {id : BitVec 32}

theorem inUse_of_valid (h : ipcIsValidChannelId s id = true) :
    channelIndex id < 16 ∧ (s.channels (channelIndex id)).inUse = true := by
  unfold ipcIsValidChannelId at h
  split at h
  · simp at h
  split at h
  · simp at h
  rename_i hlt
  unfold ipcMaxChannels at hlt
  exact ⟨by omega, h⟩

theorem ipcIsValidChannelId_mono (h : ipcIsValidChannelId s id = true)
    (huse : ∀ i, (s.channels i).inUse = true → (s'.channels i).inUse = true) :
    ipcIsValidChannelId s' id = true := by
  unfold ipcIsValidChannelId at h ⊢
  split at h
  · simp at h
  split at h
  · simp at h
  rename_i hsign hlt
  rw [if_neg hsign, if_neg hlt]
  exact huse _ h

/-- A call writes the channel `c` back that it found under a valid id. -/
theorem changesOnly_of_valid (h : s.setChannel (channelIndex id) c = s')
    (hvalid : ¬ipcIsValidChannelId s id = false)
    (huse : c.inUse = (s.channels (channelIndex id)).inUse)
    (hname : c.name = (s.channels (channelIndex id)).name) :
    ChangesOnly (channelIndex id) s s' ∧ s'.channels (channelIndex id) = c := by
  rcases inUse_of_valid (Bool.not_eq_false _ ▸ hvalid) with ⟨hi, hin⟩
  rw [← h]
  exact ⟨changesOnly_setChannel hi hin (huse.trans hin) hname, setChannel_self c⟩

/-- The indices that `ipc_channel_create` returns name their channel. -/
theorem channelIndex_ofNat (hi : i < 16) : channelIndex (BitVec.ofNat 32 i) = i := by
  unfold channelIndex
  rw [BitVec.toNat_setWidth, BitVec.toNat_ofNat]
  omega

/-! ## Messages -/

/-- A message on its way: the tid of the task that sends it, what the task passed, the memory
behind the payload pointer, and the sender that was resolved. -/
structure Outgoing where
  tid : BitVec 64
  args : SendArgs
  payload : ℕ → Byte
  sender : BitVec 64

namespace Outgoing

def channel (o : Outgoing) : ℕ := channelIndex o.args.channelId

/-- What a receiver should get: the first `size` bytes, and the tid of the sending task unless that
is 0. -/
def delivered (o : Outgoing) : Received where
  payload := (List.range o.args.size).map o.payload
  size := o.args.size
  senderTid := if o.tid ≠ 0#64 then o.tid else o.args.senderTid
  hasCapability := o.args.hasCapability
  capabilityId := if o.args.hasCapability then o.args.capabilityId else 0
  capabilityRights := if o.args.hasCapability then o.args.capabilityRights else 0#16

/-- The sender is the one that the receiver should get. -/
def Resolved (o : Outgoing) : Prop :=
  o.sender = if o.tid ≠ 0#64 then o.tid else o.args.senderTid

end Outgoing

theorem ipcResolveSenderTid_some {tid arg sender : BitVec 64}
    (h : ipcResolveSenderTid tid arg = some sender) :
    sender = if tid ≠ 0#64 then tid else arg := by
  unfold ipcResolveSenderTid at h
  split at h
  · rename_i harg
    rw [← Option.some.inj h, harg]
    split
    · rfl
    · rename_i htid
      exact not_not.mp htid
  split at h
  · simp at h
  rename_i hsame
  rw [← Option.some.inj h]
  split
  · rename_i htid
    by_contra hne
    exact hsame ⟨htid, hne⟩
  · rfl

/-- A stored message is read back without the stale bytes behind it. -/
theorem readMessage_fillMessage (m : Message) {o : Outgoing} (hresolved : o.Resolved) :
    readMessage (fillMessage m o.args o.payload o.sender) = o.delivered := by
  unfold readMessage fillMessage Outgoing.delivered
  simp only [show o.sender = _ from hresolved, Received.mk.injEq, and_true]
  apply List.map_congr_left
  intro i hi
  rw [List.mem_range] at hi
  simp only [hi, if_true]

theorem sendCheck_error {caps : Capability.CapabilityState} {tid : BitVec 64} {a : SendArgs} {z : ℤ}
    (h : sendCheck caps tid a = .error z) : z < 0 := by
  unfold sendCheck at h
  split at h
  · cases h
    decide
  split at h
  · cases h
    decide
  split at h
  · cases h
    decide
  split at h
  · cases h
    decide
  · simp at h

/-- The result of `sendCheck` is the payload argument and the sender. -/
theorem sendCheck_ok {caps : Capability.CapabilityState} {tid sender : BitVec 64} {a : SendArgs}
    {payload : ℕ → Byte} (h : sendCheck caps tid a = .ok (payload, sender)) :
    a.payload = some payload ∧ Outgoing.Resolved ⟨tid, a, payload, sender⟩ := by
  unfold sendCheck at h
  split at h
  · simp at h
  rename_i payload' hpayload
  split at h
  · simp at h
  split at h
  · simp at h
  rename_i sender' hresolve
  split at h
  · simp at h
  · simp only [Except.ok.injEq, Prod.mk.injEq] at h
    rw [← h.1, ← h.2]
    exact ⟨hpayload, ipcResolveSenderTid_some hresolve⟩

theorem rendezvousSendCheck_ok {tid sender arg : BitVec 64} {p : Option (ℕ → Byte)} {size : ℕ}
    {payload : ℕ → Byte} (h : rendezvousSendCheck tid p size arg = .ok (payload, sender)) :
    p = some payload ∧ sender = if tid ≠ 0#64 then tid else arg := by
  unfold rendezvousSendCheck at h
  split at h
  · simp at h
  split at h
  · simp at h
  split at h
  · simp at h
  rename_i sender' hresolve
  simp only [Except.ok.injEq, Prod.mk.injEq] at h
  rw [← h.1, ← h.2]
  exact ⟨rfl, ipcResolveSenderTid_some hresolve⟩

/-! ## Sending -/

/-- A send that fails has no effect. -/
theorem sendLocked_fails (s : IpcState) (a : SendArgs) (payload : ℕ → Byte) (sender : BitVec 64) :
    (∃ s', sendLocked s a payload sender = (0, s')) ∨
      ∃ z, z < 0 ∧ sendLocked s a payload sender = (z, s) := by
  unfold sendLocked
  split
  · exact .inr ⟨-2, by decide, rfl⟩
  · simp only
    split
    · exact .inr ⟨-3, by decide, rfl⟩
    · exact .inl ⟨_, rfl⟩

/-- A send that succeeds appends its message to the channel. -/
theorem sendLocked_succeeds (hq : QueuesInv s) {o : Outgoing} (hresolved : o.Resolved)
    (h : sendLocked s o.args o.payload o.sender = (0, s')) :
    ChangesOnly o.channel s s' ∧ QueuesInv s' ∧
      s'.contents o.channel = s.contents o.channel ++ [o.delivered] ∧
      s'.slot = s.slot ∧ s'.generation = s.generation := by
  unfold Outgoing.channel
  unfold sendLocked at h
  split at h
  · simp at h
  rename_i hvalid
  simp only at h
  split at h
  · simp at h
  rename_i q hpush
  simp only [Prod.mk.injEq, true_and] at h
  obtain ⟨honly, hself⟩ := changesOnly_of_valid h hvalid rfl rfl
  generalize channelIndex o.args.channelId = i at *
  rcases RingBuffer.push_contents (hq.valid i honly.index_lt) hpush with ⟨hqv, hcont⟩
  refine ⟨honly, honly.queuesInv hq (by rw [hself]; exact hqv), ?_,
    honly.slot_eq (by rw [IpcState.slot, hself]; rfl),
    honly.generation_eq (by rw [IpcState.generation, hself]; rfl)⟩
  rw [IpcState.contents, hself]
  show (q.contents 32).map readMessage = _
  have hread := readMessage_fillMessage ((s.channels i).queue.slots (s.channels i).queue.tail)
    hresolved
  rw [show q.contents 32 = _ from hcont, List.map_append, List.map_singleton, hread]
  rfl

/-! ## Receiving -/

/-- A receive that fails has no effect. -/
theorem ipcChannelRecvInternal_fails (s : IpcState) (id : BitVec 32) (capacity : ℕ)
    (outs : Bool) :
    (∃ m s', ipcChannelRecvInternal s id capacity outs = (.ok m, s')) ∨
      ∃ z, z < 0 ∧ ipcChannelRecvInternal s id capacity outs = (.error z, s) := by
  unfold ipcChannelRecvInternal
  split
  · exact .inr ⟨-1, by decide, rfl⟩
  split
  · exact .inr ⟨-2, by decide, rfl⟩
  simp only
  split
  · exact .inr ⟨-3, by decide, rfl⟩
  split
  · exact .inr ⟨-4, by decide, rfl⟩
  · exact .inl ⟨_, _, rfl⟩

/-- A receive that succeeds takes the first message of the channel. -/
theorem ipcChannelRecvInternal_succeeds (hq : QueuesInv s) {capacity : ℕ} {outs : Bool}
    {m : Received} (h : ipcChannelRecvInternal s id capacity outs = (.ok m, s')) :
    ChangesOnly (channelIndex id) s s' ∧ QueuesInv s' ∧
      s.contents (channelIndex id) = m :: s'.contents (channelIndex id) ∧
      s'.slot = s.slot ∧ s'.generation = s.generation := by
  unfold ipcChannelRecvInternal at h
  split at h
  · simp at h
  split at h
  · simp at h
  rename_i hvalid
  simp only at h
  split at h
  · simp at h
  rename_i message q hpop
  split at h
  · simp at h
  simp only [Prod.mk.injEq, Except.ok.injEq] at h
  rcases h with ⟨hm, h⟩
  obtain ⟨honly, hself⟩ := changesOnly_of_valid h hvalid rfl rfl
  generalize channelIndex id = i at *
  rcases RingBuffer.pop_contents (hq.valid i honly.index_lt) hpop with ⟨hqv, hcont⟩
  refine ⟨honly, honly.queuesInv hq (by rw [hself]; exact hqv), ?_,
    honly.slot_eq (by rw [IpcState.slot, hself]; rfl),
    honly.generation_eq (by rw [IpcState.generation, hself]; rfl)⟩
  rw [IpcState.contents, IpcState.contents, hself,
    show (s.channels i).queue.contents 32 = _ from hcont, List.map_cons, hm]

/-! ## Rendezvous -/

/-- A round of posting that does not post has no effect. -/
theorem rendezvousPost_fails (s : IpcState) (id : BitVec 32) (payload : ℕ → Byte) (size : ℕ)
    (sender : BitVec 64) :
    (∃ base s', rendezvousPost s id payload size sender = (.done (.ok base), s')) ∨
      rendezvousPost s id payload size sender = (.again, s) ∨
      rendezvousPost s id payload size sender = (.done (.error (-2)), s) := by
  unfold rendezvousPost
  split
  · exact .inr (.inr rfl)
  simp only
  split
  · exact .inl ⟨_, _, rfl⟩
  · exact .inr (.inl rfl)

/-- A message is posted into an empty slot. -/
theorem rendezvousPost_succeeds (hq : QueuesInv s) {o : Outgoing} {base : BitVec 64}
    (hcap : o.args.hasCapability = false) (hresolved : o.Resolved)
    (h : rendezvousPost s o.args.channelId o.payload o.args.size o.sender =
      (.done (.ok base), s')) :
    ChangesOnly o.channel s s' ∧ QueuesInv s' ∧ s'.contents = s.contents ∧
      s.slot o.channel = [] ∧ s'.slot o.channel = [o.delivered] ∧
      s'.generation = s.generation ∧ base = s.generation o.channel ∧
      ipcIsValidChannelId s o.args.channelId = true := by
  unfold Outgoing.channel
  unfold rendezvousPost at h
  split at h
  · simp at h
  rename_i hvalid
  simp only at h
  split at h
  swap
  · simp at h
  rename_i hpending
  simp only [Prod.mk.injEq, Round.done.injEq, Except.ok.injEq] at h
  rcases h with ⟨hbase, h⟩
  obtain ⟨honly, hself⟩ := changesOnly_of_valid h hvalid rfl rfl
  generalize hindex : channelIndex o.args.channelId = i at *
  -- the source stores the same message as a send without a capability does
  have hread : readMessage (fillMessage (s.channels i).rendezvousMessage
      (sendArgs o.args.channelId none o.args.size 0#64) o.payload o.sender) = o.delivered := by
    rw [← readMessage_fillMessage (s.channels i).rendezvousMessage hresolved]
    simp only [fillMessage, sendArgs, hcap, Bool.false_eq_true, if_false]
    rfl
  refine ⟨honly, honly.queuesInv hq (by rw [hself]; exact hq.valid i honly.index_lt),
    honly.contents_eq (by rw [IpcState.contents, hself]; rfl), slot_eq_nil.mpr hpending, ?_,
    honly.generation_eq (by rw [IpcState.generation, hself]; rfl), hbase.symm,
    Bool.not_eq_false _ ▸ hvalid⟩
  rw [IpcState.slot, hself, if_pos rfl, hread]

/-- A round of receiving that takes no message has no effect. -/
theorem rendezvousTake_fails (s : IpcState) (id : BitVec 32) (capacity : ℕ) :
    (∃ m s', rendezvousTake s id capacity = (.done (.ok m), s')) ∨
      rendezvousTake s id capacity = (.again, s) ∨
      ∃ z, z < 0 ∧ rendezvousTake s id capacity = (.done (.error z), s) := by
  unfold rendezvousTake
  split
  · exact .inr (.inr ⟨-2, by decide, rfl⟩)
  simp only
  split
  · split
    · exact .inr (.inr ⟨-4, by decide, rfl⟩)
    · exact .inl ⟨_, _, rfl⟩
  · exact .inr (.inl rfl)

/-- A rendezvous receive empties the slot and counts the message. -/
theorem rendezvousTake_succeeds (hq : QueuesInv s) {capacity : ℕ} {m : Received}
    (h : rendezvousTake s id capacity = (.done (.ok m), s')) :
    ChangesOnly (channelIndex id) s s' ∧ QueuesInv s' ∧ s'.contents = s.contents ∧
      s.slot (channelIndex id) = [m] ∧ s'.slot (channelIndex id) = [] ∧
      s'.generation (channelIndex id) = s.generation (channelIndex id) + 1#64 := by
  unfold rendezvousTake at h
  split at h
  · simp at h
  rename_i hvalid
  simp only at h
  split at h
  swap
  · simp at h
  rename_i hpending
  split at h
  · simp at h
  simp only [Prod.mk.injEq, Round.done.injEq, Except.ok.injEq] at h
  rcases h with ⟨hm, h⟩
  obtain ⟨honly, hself⟩ := changesOnly_of_valid h hvalid rfl rfl
  generalize channelIndex id = i at *
  refine ⟨honly, honly.queuesInv hq (by rw [hself]; exact hq.valid i honly.index_lt),
    honly.contents_eq (by rw [IpcState.contents, hself]; rfl), ?_,
    slot_eq_nil.mpr (by rw [hself]), ?_⟩
  · rw [IpcState.slot, if_pos hpending, hm]
  · rw [IpcState.generation, hself]
    rfl

/-! ## Creating -/

/-- A new channel is empty, like the unused slot it is made in. -/
theorem QueuesInv.created (h : QueuesInv s) (text : ℕ → Byte) (hi : i < 16)
    (hunused : (s.channels i).inUse = false) :
    QueuesInv (createdState s i text) ∧
      (createdState s i text).contents = s.contents ∧ (createdState s i text).slot = s.slot := by
  have hcont : (createdState s i text).contents = s.contents := by
    funext j
    by_cases hji : j = i
    · rw [hji, (h.unused i hi hunused).1]
      simp [IpcState.contents, createdState_self, clearChannel]
    · simp only [IpcState.contents, createdState_other hji]
  have hslot : (createdState s i text).slot = s.slot := by
    funext j
    by_cases hji : j = i
    · rw [hji, (h.unused i hi hunused).2, slot_eq_nil, createdState_self]
      rfl
    · simp only [IpcState.slot, createdState_other hji]
  refine ⟨⟨?_, ?_⟩, hcont, hslot⟩
  · intro j hj
    by_cases hji : j = i
    · rw [hji, createdState_self]
      exact RingBuffer.reset_valid (by decide)
    · rw [createdState_other hji]
      exact h.valid j hj
  · intro j hj hun
    rw [hcont, hslot]
    by_cases hji : j = i
    · rw [hji, createdState_self] at hun
      exact absurd hun (by simp [clearChannel])
    · rw [createdState_other hji] at hun
      exact h.unused j hj hun

/-- After `ipc_init` no channel is in use, and all are empty. -/
theorem ipcInit_inv (s : IpcState) : QueuesInv (ipcInit s) ∧ NamesInv (ipcInit s) ∧
    ∀ i, i < 16 → (ipcInit s).contents i = [] ∧ (ipcInit s).slot i = [] ∧
      (ipcInit s).generation i = 0#64 := by
  have hchan : ∀ i, i < 16 → (ipcInit s).channels i =
      clearChannel (s.channels i) false (fun _ => 0#8) := by
    intro i hi
    simp [ipcInit, ipcMaxChannels, hi]
  have hempty : ∀ i, i < 16 → (ipcInit s).contents i = [] ∧ (ipcInit s).slot i = [] ∧
      (ipcInit s).generation i = 0#64 := by
    intro i hi
    rw [slot_eq_nil, IpcState.generation, IpcState.contents, hchan i hi]
    exact ⟨by simp [clearChannel], rfl, rfl⟩
  have hunused : ∀ i, i < 16 → ((ipcInit s).channels i).inUse ≠ true := by
    intro i hi
    rw [hchan i hi]
    simp [clearChannel]
  refine ⟨⟨?_, fun i hi _ => ⟨(hempty i hi).1, (hempty i hi).2.1⟩⟩, ⟨?_, ?_, ?_⟩, hempty⟩
  · intro i hi
    rw [hchan i hi]
    exact RingBuffer.reset_valid (by decide)
  · intro i hi huse
    exact absurd huse (hunused i hi)
  · intro i hi huse
    exact absurd huse (hunused i hi)
  · intro i j hi hj huse
    exact absurd huse (hunused i hi)

end GnuOS.Ipc

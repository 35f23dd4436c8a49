import GnuOS.Ipc.Fifo

/-!
# What the callers of the channels see

The replies to calls in any state of a run, in terms of the histories of the channels and of the
map of names.
-/

namespace GnuOS.Ipc

open GnuOS.Lib GnuOS.Capability Function

/-- Between `y` and `y'` a message was sent on its channel, and nothing else was sent or
received. -/
structure SendsOn (y y' : IpcSystem) (o : Outgoing) : Prop where
  sent : y'.sentOn o.channel = y.sentOn o.channel ++ [o.delivered]
  sent_other : ∀ c, c ≠ o.channel → y'.sentOn c = y.sentOn c
  received : y'.receivedOn = y.receivedOn

/-- Between `y` and `y'` the message `m` was received from channel `c`, and nothing else was sent or
received. -/
structure ReceivesOn (y y' : IpcSystem) (c : ℕ) (m : Received) : Prop where
  received : y'.receivedOn c = y.receivedOn c ++ [m]
  received_other : ∀ c', c' ≠ c → y'.receivedOn c' = y.receivedOn c'
  sent : y'.sentOn = y.sentOn

/-- The channels in a state: queues of at most 32 messages, with authentic senders, under an
injective map of names of 1 to 31 characters to at most 16 ids. -/
structure ChannelSpec (y : IpcSystem) : Prop where
  /-- What was sent on a channel was received or is still held, in the order of the sends. -/
  queue : ∀ c, c < 16 → y.sentOn c = y.receivedOn c ++ y.ipc.contents c
  bounded : ∀ c, c < 16 → (y.ipc.contents c).length ≤ 32
  /-- A send that returns 0 sent the bytes of the payload under the name of the caller. -/
  send : ∀ tid id payload size senderTid y',
    y.exec (.send tid id payload size senderTid) = some (.status 0, y') →
    ∃ p sender, payload = some p ∧
      SendsOn y y' ⟨tid, sendArgs id payload size senderTid, p, sender⟩
  /-- So did a send with a capability: it keeps its arguments from its first step until the step
  that returns 0. -/
  begun : ∀ k tid id payload size senderTid capabilityId rights y',
    y.exec (.sendCapability k tid id payload size senderTid capabilityId rights) =
      some (.continues, y') →
    ∃ p sender, payload = some p ∧ y' = y.setCall k
      (.sending ⟨tid, ⟨id, payload, size, senderTid, true, capabilityId, rights⟩, p, sender⟩)
  kept : CallsKept y
  sendCapability : ∀ k o y', y.calls k = some (.sending o) →
    y.exec (.resume k) = some (.status 0, y') → SendsOn y y' o
  /-- A receive returns the oldest message that was not received. -/
  recv : ∀ id capacity outs m y', y.exec (.recv id capacity outs) = some (.message m, y') →
    (y.sentOn (channelIndex id))[(y.receivedOn (channelIndex id)).length]? = some m ∧
      ReceivesOn y y' (channelIndex id) m
  /-- A step that returns a negative status changes no channel, and neither does the part of
  `ipc_channel_send_capability` before the lock.  Only `ipc_channel_recv_capability` can return a
  negative status, `-5`, after an earlier step of the same call took a message. -/
  refused : ∀ op z y', y.exec op = some (.status z, y') → z < 0 → y'.ipc = y.ipc
  checked : ∀ k tid id payload size senderTid capabilityId rights r y',
    y.exec (.sendCapability k tid id payload size senderTid capabilityId rights) = some (r, y') →
    y'.ipc = y.ipc
  /-- The map from names to ids. -/
  injective : ∀ name name' i, y.ipc.idOf name = some i → y.ipc.idOf name' = some i → name = name'
  names : ∀ name i, y.ipc.idOf name = some i → i < 16 ∧ 1 ≤ name.length ∧ name.length ≤ 31
  stable : ∀ op r y', y.exec op = some (r, y') → ∀ name i, y.ipc.idOf name = some i →
    y'.ipc.idOf name = some i
  create : ∀ text z y', y.exec (.channelCreate (some text)) = some (.status z, y') →
    CreateSpec y.ipc text z y'.ipc
  find : ∀ text z y', y.exec (.channelFind (some text)) = some (.status z, y') →
    y' = y ∧ (∀ i, y.ipc.idOf (nameOf text) = some i → z = i) ∧
      (y.ipc.idOf (nameOf text) = none → z = -1)

variable {y y' : IpcSystem}

/-! ## Sends and receives -/

theorem sendsOn_record (y : IpcSystem) (ipc : IpcState) (calls : ℕ → Option Call)
    (o : Outgoing) :
    SendsOn y (({ y with ipc := ipc, calls := calls } : IpcSystem).record (.sent o)) o := by
  have hsent : (({ y with ipc := ipc, calls := calls } : IpcSystem).record (.sent o)).sentOn =
      update y.sentOn o.channel (y.sentOn o.channel ++ [o.delivered]) :=
    IpcSystem.history_grows fun _ => rfl
  refine ⟨?_, ?_, IpcSystem.history_same fun _ => rfl⟩
  · rw [hsent, update_self]
  · intro c hc
    rw [hsent, update_of_ne hc]

theorem receivesOn_record (y : IpcSystem) (ipc : IpcState) (c : ℕ) (m : Received) :
    ReceivesOn y (({ y with ipc := ipc } : IpcSystem).record (.received c m)) c m := by
  have hreceived : (({ y with ipc := ipc } : IpcSystem).record (.received c m)).receivedOn =
      update y.receivedOn c (y.receivedOn c ++ [m]) :=
    IpcSystem.history_grows fun _ => rfl
  refine ⟨?_, ?_, IpcSystem.history_same fun _ => rfl⟩
  · rw [hreceived, update_self]
  · intro c' hc'
    rw [hreceived, update_of_ne hc']

theorem exec_send {tid : BitVec 64} {id : BitVec 32} {payload : Option (ℕ → Byte)} {size : ℕ}
    {senderTid : BitVec 64}
    (h : y.exec (.send tid id payload size senderTid) = some (.status 0, y')) :
    ∃ p sender, payload = some p ∧
      SendsOn y y' ⟨tid, sendArgs id payload size senderTid, p, sender⟩ := by
  simp only [IpcSystem.exec] at h
  cases hcheck : sendCheck y.caps tid (sendArgs id payload size senderTid) with
  | error z =>
    rw [hcheck] at h
    simp only [Option.some.injEq, Prod.mk.injEq, Reply.status.injEq] at h
    have hneg := sendCheck_error hcheck
    omega
  | ok pair =>
    rcases pair with ⟨p, sender⟩
    rw [hcheck] at h
    rcases y.sendSection_cases ⟨tid, sendArgs id payload size senderTid, p, sender⟩ with
      ⟨z, hneg, hfail⟩ | ⟨ipc, _, hok⟩
    · simp only [hfail, Option.some.injEq, Prod.mk.injEq, Reply.status.injEq] at h
      omega
    · simp only [hok, Option.some.injEq, Prod.mk.injEq] at h
      refine ⟨p, sender, (sendCheck_ok hcheck).1, ?_⟩
      rw [← h.2]
      exact sendsOn_record y ipc y.calls _

theorem exec_resume_sending {k : ℕ} {o : Outgoing} (hcall : y.calls k = some (.sending o))
    (h : y.exec (.resume k) = some (.status 0, y')) : SendsOn y y' o := by
  simp only [IpcSystem.exec, hcall, IpcSystem.resume] at h
  rcases y.sendSection_cases o with ⟨z, hneg, hfail⟩ | ⟨ipc, _, hok⟩
  · simp only [hfail, Option.some.injEq, Prod.mk.injEq, Reply.status.injEq] at h
    omega
  · simp only [hok, Option.some.injEq, Prod.mk.injEq] at h
    rw [← h.2]
    exact sendsOn_record y ipc _ o

theorem exec_recv (hinv : ChannelInv y) {id : BitVec 32} {capacity : ℕ} {outs : Bool}
    {m : Received} (h : y.exec (.recv id capacity outs) = some (.message m, y')) :
    (y.sentOn (channelIndex id))[(y.receivedOn (channelIndex id)).length]? = some m ∧
      ReceivesOn y y' (channelIndex id) m := by
  simp only [IpcSystem.exec] at h
  rcases y.recvSection_cases id capacity outs with ⟨z, _, hfail⟩ | ⟨m', ipc, hrecv, hok⟩
  · simp [hfail] at h
  · simp only [hok, Option.some.injEq, Prod.mk.injEq, Reply.message.injEq] at h
    rcases h with ⟨rfl, rfl⟩
    rcases ipcChannelRecvInternal_succeeds hinv.1.queues hrecv with ⟨honly, _, hcont, _⟩
    exact ⟨(hinv.2 _ honly.index_lt).next hcont, receivesOn_record y ipc _ m'⟩

theorem exec_sendCapability {k : ℕ} {tid : BitVec 64} {id : BitVec 32}
    {payload : Option (ℕ → Byte)} {size : ℕ} {senderTid : BitVec 64} {capabilityId : ℕ}
    {rights : BitVec 16} {r : Reply}
    (h : y.exec (.sendCapability k tid id payload size senderTid capabilityId rights) =
      some (r, y')) : y'.ipc = y.ipc := by
  rcases begin_eq_some h with ⟨_, hfirst⟩
  have hstate := congrArg (fun first => first.2.ipc) hfirst
  rw [← hstate]
  split
  · rfl
  · split <;> rfl

/-! ## The channels of a run -/

theorem ChannelInv.names_bounds (h : ChannelInv y) {name : List Byte} {i : ℕ}
    (hname : y.ipc.idOf name = some i) : i < 16 ∧ 1 ≤ name.length ∧ name.length ≤ 31 := by
  rcases (idOf_eq_some h.1.names).mp hname with ⟨hi, huse, rfl⟩
  have hpos := h.1.names.nonempty i hi huse
  have hlt := h.1.names.terminated i hi huse
  rw [length_nameOf]
  exact ⟨hi, by omega, by omega⟩

theorem ipcChannelFind_spec {s : IpcState} (hn : NamesInv s) (text : ℕ → Byte) :
    (∀ i, s.idOf (nameOf text) = some i → ipcChannelFind s (some text) = i) ∧
      (s.idOf (nameOf text) = none → ipcChannelFind s (some text) = -1) := by
  rw [← ipcFindChannelLocked_eq_idOf hn text]
  constructor
  · intro i hfind
    simp only [ipcChannelFind, hfind]
  · intro hfind
    simp only [ipcChannelFind, hfind]

/-- In every run of calls from any tasks the channels are queues with authentic senders, and
creating and finding them implements an injective map. -/
theorem channels_run_spec (s : IpcState) (caps : CapabilityState) (ops : List IpcStep)
    (y : IpcSystem) (hrun : ops.foldlM IpcSystem.step (IpcSystem.start s caps) = some y) :
    ChannelSpec y := by
  have hinv := channelInv_run hrun
  have htrans : ∀ op r y', y.exec op = some (r, y') → Transition y r y' :=
    fun op r y' hexec => exec_transition hinv.1.resolved hexec
  exact {
    queue := hinv.2
    bounded := fun c hc => hinv.1.queues.length_le hc
    send := fun _ _ _ _ _ _ h => exec_send h
    begun := fun _ _ _ _ _ _ _ _ _ h => sendCapability_begins h
    kept := callsKept y
    sendCapability := fun _ _ _ hcall h => exec_resume_sending hcall h
    recv := fun _ _ _ _ _ h => exec_recv hinv h
    refused := fun op z y' h hz => (htrans op _ y' h).refused hz
    checked := fun _ _ _ _ _ _ _ _ _ _ h => exec_sendCapability h
    injective := fun _ _ _ h h' => idOf_injective hinv.1.names h h'
    names := fun _ _ h => hinv.names_bounds h
    stable := fun op r y' h _ _ hname => (htrans op r y' h).idOf_stable hinv.1 hname
    create := by
      intro text z y' h
      simp only [IpcSystem.exec, Option.some.injEq, Prod.mk.injEq, Reply.status.injEq] at h
      rw [← h.1, ← h.2]
      exact ipcChannelCreate_spec hinv.1.names text
    find := by
      intro text z y' h
      simp only [IpcSystem.exec, Option.some.injEq, Prod.mk.injEq, Reply.status.injEq] at h
      rw [← h.1]
      exact ⟨h.2.symm, ipcChannelFind_spec hinv.1.names text⟩ }

/-- A channel is created, task 5 sends three bytes and then one, a send under another name is
refused, and both messages are received. -/
def twoMessages : List IpcStep :=
  [.channelCreate (some fun i => if i < 2 then 97#8 else 0#8),
    .send 5#64 0#32 (some fun i => BitVec.ofNat 8 (i + 1)) 3 0#64,
    .send 5#64 0#32 (some fun _ => 7#8) 1 9#64,
    .send 5#64 0#32 (some fun _ => 7#8) 1 5#64,
    .recv 0#32 64 true, .recv 0#32 64 true]

theorem channels_run_spec_two_messages :
    ∃ y : IpcSystem,
      twoMessages.foldlM IpcSystem.step (IpcSystem.start staleIpc staleCaps) = some y ∧
      y.receivedOn 0 = [⟨[1#8, 2#8, 3#8], 3, 5#64, false, 0, 0#16⟩,
        ⟨[7#8], 1, 5#64, false, 0, 0#16⟩] ∧ ChannelSpec y := by
  have hreceived : (twoMessages.foldlM IpcSystem.step
      (IpcSystem.start staleIpc staleCaps)).map (·.receivedOn 0) =
      some [⟨[1#8, 2#8, 3#8], 3, 5#64, false, 0, 0#16⟩, ⟨[7#8], 1, 5#64, false, 0, 0#16⟩] := by
    decide +kernel
  obtain ⟨y, hrun, hy⟩ := Option.map_eq_some_iff.mp hreceived
  exact ⟨y, hrun, hy, channels_run_spec staleIpc staleCaps twoMessages y hrun⟩

end GnuOS.Ipc

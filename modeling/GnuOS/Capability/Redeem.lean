import GnuOS.Capability.Derivation

/-!
# Capabilities on their way

A capability that is sent is checked when the message is sent and again when it is received.  In
every run a message that passed the first check passes the second one, however long it was queued:
its receiver gets the capability unless the table is full.
-/

namespace GnuOS.Capability

open GnuOS.Lib GnuOS.Ipc

/-- The capability that a message carries can be copied on behalf of the sender. -/
structure Redeemable (caps : CapabilityState) (m : Received) : Prop where
  valid : capabilityIsValidId m.capabilityId = true
  inUse : (caps.slot m.capabilityId).inUse = true
  owner : (caps.slot m.capabilityId).ownerTid = m.senderTid
  transfer : (caps.slot m.capabilityId).rights &&& capRightTransfer ≠ 0#16
  nonempty : m.capabilityRights ≠ 0#16
  allowed : (caps.slot m.capabilityId).rights &&& m.capabilityRights = m.capabilityRights

/-- What senders and receivers of capabilities can rely on in a state of a run. -/
structure TransferSpec (y : IpcSystem) : Prop where
  queued : ∀ c m, c < 16 → m ∈ y.ipc.contents c → m.hasCapability = true →
    Redeemable y.caps m
  /-- The first section of `ipc_channel_recv_capability` takes the oldest message of the channel,
  and the call goes on for its own caller with that message. -/
  begun : ∀ k tid channelId capacity outs y',
    y.exec (.recvCapability k tid channelId capacity outs) = some (.continues, y') →
    ∃ m, y.ipc.contents (channelIndex channelId) = m :: y'.ipc.contents (channelIndex channelId) ∧
      y'.calls k = some (.copying tid m) ∧ y'.caps = y.caps
  kept : CallsKept y
  /-- It does not return `-5`. -/
  received : ∀ k tid channelId capacity outs y',
    y.exec (.recvCapability k tid channelId capacity outs) ≠ some (.status (-5), y')
  /-- The second section returns `-5` only if the table is full. -/
  refused : ∀ k tid m y', y.calls k = some (.copying tid m) →
    y.exec (.resume k) = some (.status (-5), y') →
    ∀ id, capabilityIsValidId id = true → (y.caps.slot id).inUse = true
  /-- Otherwise the receiver owns a new capability for the object, with the rights sent. -/
  granted : ∀ k tid m, y.calls k = some (.copying tid m) → m.hasCapability = true →
    (∃ id, capabilityIsValidId id = true ∧ (y.caps.slot id).inUse = false) →
    ∃ id y', y.exec (.resume k) = some (.messageCapability m id, y') ∧
      capabilityIsValidId id = true ∧ (y.caps.slot id).inUse = false ∧
      y'.caps.slot id = ⟨true, tid, (y.caps.slot m.capabilityId).objectId, m.capabilityRights⟩

variable {caps : CapabilityState} {y y' : IpcSystem} {r : Reply} {m : Received}

/-! ## The checks -/

/-- The check of a send. -/
theorem redeemable_of_sendCheck {tid sender : BitVec 64} {a : SendArgs} {payload : ℕ → Byte}
    (h : sendCheck y.caps tid a = .ok (payload, sender)) (hcap : a.hasCapability = true) :
    Redeemable y.caps (Outgoing.delivered ⟨tid, a, payload, sender⟩) := by
  have hresolved : sender = if tid ≠ 0#64 then tid else a.senderTid := (sendCheck_ok h).2
  unfold sendCheck at h
  split at h
  · simp at h
  split at h
  · simp at h
  split at h
  · simp at h
  split at h
  · simp at h
  rename_i hvalidate
  simp only [Except.ok.injEq, Prod.mk.injEq] at h
  rw [h.2, hcap] at hvalidate
  have hzero : capabilityValidateTransfer y.caps a.capabilityId sender a.capabilityRights = 0 := by
    simpa using hvalidate
  unfold capabilityValidateTransfer at hzero
  split at hzero
  · simp at hzero
  rename_i hid
  rw [not_or, Bool.not_eq_false] at hid
  rcases transferStatus_eq_zero.mp hzero with ⟨huse, howner, htransfer, hallow⟩
  unfold Outgoing.delivered
  refine ⟨?_, ?_, ?_, ?_, ?_, ?_⟩ <;> simp only [hcap, if_true]
  · exact hid.1
  · exact huse
  · rw [← hresolved]
    exact howner
  · exact htransfer
  · exact hid.2
  · exact hallow

theorem Redeemable.grows (hgrows : Grows y y') (h : Redeemable y.caps m) :
    Redeemable y'.caps m := by
  have hslot := hgrows.slots m.capabilityId h.inUse
  refine ⟨h.valid, ?_, ?_, ?_, h.nonempty, ?_⟩ <;> rw [hslot]
  · exact h.inUse
  · exact h.owner
  · exact h.transfer
  · exact h.allowed

/-- The check of a receive: only the table can refuse. -/
theorem Redeemable.copy (h : Redeemable caps m) (tid : BitVec 64) :
    capabilityCopyForOwner caps m.capabilityId m.senderTid m.capabilityRights tid true =
      fillFreeSlot caps
        ⟨true, tid, (caps.slot m.capabilityId).objectId, m.capabilityRights⟩ := by
  have hstatus := transferStatus_eq_zero.mpr ⟨h.inUse, h.owner, h.transfer, h.allowed⟩
  unfold CapabilityState.slot at hstatus
  unfold capabilityCopyForOwner CapabilityState.slot
  simp [h.valid, h.nonempty, hstatus]

theorem fillFreeSlot_full {slot : CapabilitySlot} {z : ℤ} {caps' : CapabilityState}
    (h : fillFreeSlot caps slot = (.error z, caps')) {id : ℕ}
    (hvalid : capabilityIsValidId id = true) : (caps.slot id).inUse = true := by
  unfold fillFreeSlot at h
  split at h
  swap
  · simp at h
  rename_i hnone
  rw [capabilityIsValidId_iff] at hvalid
  have hall := List.find?_eq_none.mp hnone (capabilityIndexFromId id)
    (List.mem_range.mpr (show id - 1 < 128 by omega))
  simpa [CapabilityState.slot] using hall

/-! ## Where the messages of a state come from -/

/-- A message that is queued, that is about to be queued, or whose capability is about to be
copied. -/
inductive Carried (y : IpcSystem) (m : Received) : Prop
  | queued (c : ℕ) : c < 16 → m ∈ y.ipc.contents c → Carried y m
  | sending (k : ℕ) (o : Outgoing) : y.calls k = some (.sending o) → o.delivered = m → Carried y m
  | copying (k : ℕ) (tid : BitVec 64) : y.calls k = some (.copying tid m) → Carried y m

theorem Carried.of_calls (h : Carried y' m) (hcalls : CallsEnd y.calls y'.calls) :
    (∃ c, c < 16 ∧ m ∈ y'.ipc.contents c) ∨ Carried y m := by
  cases h with
  | queued c hc hm => exact .inl ⟨c, hc, hm⟩
  | sending k o hcall hm => exact .inr (.sending k o (hcalls k _ hcall) hm)
  | copying k tid hcall => exact .inr (.copying k tid (hcalls k _ hcall))

theorem Carried.of_callsEnd (h : Carried y' m) (hcalls : CallsEnd y.calls y'.calls)
    (hcont : y'.ipc.contents = y.ipc.contents) : Carried y m := by
  rcases h.of_calls hcalls with ⟨c, hc, hm⟩ | hold
  · exact .queued c hc (hcont ▸ hm)
  · exact hold

/-- Only a sending or a copying call that is begun carries something new. -/
theorem Carried.of_setCall {k : ℕ} {call : Call} (h : Carried (y.setCall k call) m) :
    Carried y m ∨ (∃ o, call = .sending o ∧ o.delivered = m) ∨ ∃ tid, call = .copying tid m := by
  have hcalls : ∀ j c, (y.setCall k call).calls j = some c → y.calls j = some c ∨ call = c := by
    intro j c hcall
    by_cases hjk : j = k
    · rw [hjk] at hcall
      right
      simpa [IpcSystem.setCall] using hcall
    · left
      simpa [IpcSystem.setCall, hjk] using hcall
  cases h with
  | queued c hc hm => exact .inl (.queued c hc hm)
  | sending j o hcall hm =>
    rcases hcalls j _ hcall with hold | hnew
    · exact .inl (.sending j o hold hm)
    · exact .inr (.inl ⟨o, hnew, hm⟩)
  | copying j tid hcall =>
    rcases hcalls j _ hcall with hold | hnew
    · exact .inl (.copying j tid hold)
    · exact .inr (.inr ⟨tid, hnew⟩)

theorem Carried.of_setCall_plain {k : ℕ} {call : Call} (h : Carried (y.setCall k call) m)
    (hsending : ∀ o, call ≠ .sending o) (hcopying : ∀ tid m, call ≠ .copying tid m) :
    Carried y m := by
  rcases h.of_setCall with hold | ⟨o, ho, _⟩ | ⟨tid, htid⟩
  · exact hold
  · exact absurd ho (hsending o)
  · exact absurd htid (hcopying tid m)

section

variable (hinv : SystemInv y)

include hinv

/-- A send adds its own message. -/
theorem Carried.of_send {o : Outgoing} (hresolved : o.Resolved)
    (h : Carried (y.sendSection o).2 m) :
    Carried y m ∨ o.delivered = m := by
  rcases y.sendSection_cases o with ⟨z, _, hfail⟩ | ⟨ipc, hsend, hok⟩
  · rw [hfail] at h
    exact .inl h
  rw [hok] at h
  rcases sendLocked_succeeds hinv.queues hresolved hsend with ⟨honly, _, hcont, _⟩
  rcases h.of_calls (callsEnd_refl y.calls) with ⟨c, hc, hm⟩ | hold
  · change m ∈ ipc.contents c at hm
    by_cases hco : c = o.channel
    · rw [hco, hcont, List.mem_append, List.mem_singleton] at hm
      rcases hm with hm | hm
      · exact .inl (.queued o.channel (hco ▸ hc) hm)
      · exact .inr hm.symm
    · rw [honly.contents_other hco] at hm
      exact .inl (.queued c hc hm)
  · exact .inl hold

/-- A receive takes its message from the queue. -/
theorem carried_of_recv {id : BitVec 32} {capacity : ℕ} {outs : Bool} {m₀ : Received}
    {ipc : IpcState} {e : Event}
    (hrecv : ipcChannelRecvInternal y.ipc id capacity outs = (.ok m₀, ipc)) :
    Carried y m₀ ∧ ∀ m, Carried ({ y with ipc := ipc }.record e) m → Carried y m := by
  rcases ipcChannelRecvInternal_succeeds hinv.queues hrecv with ⟨honly, _, hcont, _⟩
  refine ⟨.queued (channelIndex id) honly.index_lt (hcont ▸ List.mem_cons_self), ?_⟩
  intro m h
  rcases h.of_calls (callsEnd_refl y.calls) with ⟨c, hc, hm⟩ | hold
  · change m ∈ ipc.contents c at hm
    by_cases hci : c = channelIndex id
    · rw [hci] at hm
      refine .queued _ honly.index_lt ?_
      rw [hcont]
      exact List.mem_cons_of_mem _ hm
    · rw [honly.contents_other hci] at hm
      exact .queued c hc hm
  · exact hold

/-- A call in progress that goes on stores the message that it carries, or nothing. -/
theorem Carried.of_resume {k : ℕ} {call : Call} (hcall : y.calls k = some call)
    (h : Carried (y.resume k call).2 m) : Carried y m := by
  cases call with
  | sending o =>
    have hsent : Carried (y.sendSection o).2 m := h.of_callsEnd (callsEnd_update _ k) rfl
    rcases hsent.of_send hinv (hinv.resolved k _ hcall) with hold | hnew
    · exact hold
    · exact .sending k o hcall hnew
  | copying tid m' =>
    have hsame : (y.copySection k tid m').2.ipc = y.ipc ∧
        CallsEnd y.calls (y.copySection k tid m').2.calls := by
      unfold IpcSystem.copySection
      repeat' split
      all_goals exact ⟨rfl, callsEnd_update _ k⟩
    exact h.of_callsEnd hsame.2 (congrArg IpcState.contents hsame.1)
  | posting o =>
    change Carried (y.postSection k o).2 m at h
    unfold IpcSystem.postSection at h
    rcases rendezvousPost_fails y.ipc o.args.channelId o.payload o.args.size o.sender with
      ⟨base, ipc, hok⟩ | hagain | herror
    · rcases hinv.resolved k _ hcall with ⟨hcap, hresolved⟩
      rcases rendezvousPost_succeeds hinv.queues hcap hresolved hok with ⟨_, _, hcont, _⟩
      rw [hok] at h
      exact (h.of_setCall_plain (by simp) (by simp)).of_callsEnd (callsEnd_refl _) hcont
    · rw [hagain] at h
      exact h
    · rw [herror] at h
      exact h.of_callsEnd (callsEnd_update _ k) rfl
  | waiting o base position =>
    change Carried (y.pollSection k o.args.channelId base).2 m at h
    unfold IpcSystem.pollSection at h
    split at h
    · exact h
    · exact h.of_callsEnd (callsEnd_update _ k) rfl
  | taking id capacity =>
    change Carried (y.takeSection k id capacity).2 m at h
    unfold IpcSystem.takeSection at h
    rcases rendezvousTake_fails y.ipc id capacity with ⟨m', ipc, hok⟩ | hagain | ⟨z, _, herror⟩
    · rcases rendezvousTake_succeeds hinv.queues hok with ⟨_, _, hcont, _⟩
      rw [hok] at h
      exact h.of_callsEnd (callsEnd_update _ k) hcont
    · rw [hagain] at h
      exact h
    · rw [herror] at h
      exact h.of_callsEnd (callsEnd_update _ k) rfl

/-- A message in the system after a step was there before, carries no capability, or was checked
in the step. -/
theorem Carried.of_exec {op : IpcStep} (hexec : y.exec op = some (r, y')) (h : Carried y' m) :
    Carried y m ∨ m.hasCapability = false ∨ Redeemable y.caps m := by
  have hof : ∀ first : Reply × IpcSystem, first = (r, y') → Carried first.2 m := by
    intro first hfirst
    rw [hfirst]
    exact h
  cases op with
  | channelCreate name =>
    left
    have h := hof _ (Option.some.inj hexec)
    cases name with
    | none => exact h
    | some text =>
      exact h.of_callsEnd (callsEnd_refl _)
        (ipcChannelCreate_keeps hinv.names hinv.queues text).2.2.1
  | channelFind name => exact .inl (hof _ (Option.some.inj hexec))
  | send tid id payload size senderTid =>
    simp only [IpcSystem.exec] at hexec
    split at hexec
    · exact .inl (hof _ (Option.some.inj hexec))
    rename_i hcheck
    rcases (hof _ (Option.some.inj hexec)).of_send hinv (sendCheck_ok hcheck).2 with hold | hnew
    · exact .inl hold
    · rw [← hnew]
      exact .inr (.inl rfl)
  | sendCapability k tid id payload size senderTid capabilityId rights =>
    have h := hof _ (begin_eq_some hexec).2
    split at h
    · exact .inl h
    rename_i a hargs
    split at h
    · exact .inl h
    rename_i hcheck
    rcases h.of_setCall with hold | ⟨o, ho, rfl⟩ | ⟨tid', hcopying⟩
    · exact .inl hold
    · rw [Call.sending.injEq] at ho
      rw [← ho]
      cases hcap : a.hasCapability with
      | false => exact .inr (.inl hcap)
      | true => exact .inr (.inr (redeemable_of_sendCheck hcheck hcap))
    · simp at hcopying
  | recv id capacity outs =>
    simp only [IpcSystem.exec] at hexec
    rcases y.recvSection_cases id capacity outs with ⟨z, _, hfail⟩ | ⟨m', ipc, hrecv, hok⟩
    · rw [hfail] at hexec
      exact .inl (hof _ (Option.some.inj hexec))
    · rw [hok] at hexec
      exact .inl ((carried_of_recv hinv hrecv).2 m (hof _ (Option.some.inj hexec)))
  | recvCapability k tid id capacity outs =>
    have h := hof _ (begin_eq_some hexec).2
    rcases y.recvSection_cases id capacity outs with ⟨z, _, hfail⟩ | ⟨m', ipc, hrecv, hok⟩
    · rw [hfail] at h
      exact .inl h
    rw [hok] at h
    rcases carried_of_recv hinv hrecv with ⟨hm', hrest⟩
    rcases h.of_setCall with hold | ⟨o, ho, _⟩ | ⟨tid', hcopying⟩
    · exact .inl (hrest m hold)
    · simp at ho
    · rw [Call.copying.injEq] at hcopying
      rw [← hcopying.2]
      exact .inl hm'
  | rendezvousSend k tid id payload size senderTid =>
    have h := hof _ (begin_eq_some hexec).2
    split at h
    · exact .inl h
    · exact .inl (h.of_setCall_plain (by simp) (by simp))
  | rendezvousRecv k id capacity outs =>
    have h := hof _ (begin_eq_some hexec).2
    split at h
    · exact .inl h
    · exact .inl (h.of_setCall_plain (by simp) (by simp))
  | capabilityCreate owner object rights out =>
    simp only [IpcSystem.exec] at hexec
    split at hexec
    all_goals exact .inl ((hof _ (Option.some.inj hexec)).of_callsEnd (callsEnd_refl _) rfl)
  | capabilityCopyForOwner capabilityId owner mask target out =>
    simp only [IpcSystem.exec] at hexec
    split at hexec
    all_goals exact .inl ((hof _ (Option.some.inj hexec)).of_callsEnd (callsEnd_refl _) rfl)
  | resume k =>
    simp only [IpcSystem.exec] at hexec
    split at hexec
    · simp at hexec
    · rename_i call hcall
      exact .inl ((hof _ (Option.some.inj hexec)).of_resume hinv hcall)

end

/-! ## Runs -/

/-- Every capability on its way can be redeemed. -/
def CarriedInv (y : IpcSystem) : Prop :=
  ∀ m, Carried y m → m.hasCapability = true → Redeemable y.caps m

theorem CarriedInv.step (hinv : SystemInv y) (h : CarriedInv y) {op : IpcStep}
    (hexec : y.exec op = some (r, y')) : CarriedInv y' := by
  intro m hm hcap
  have hgrows := (tableStep (exec_transition hinv.resolved hexec)).grows
  apply Redeemable.grows hgrows
  rcases hm.of_exec hinv hexec with hold | hplain | hchecked
  · exact h m hold hcap
  · rw [hplain] at hcap
    simp at hcap
  · exact hchecked

theorem start_carriedInv (ipc : IpcState) (caps : CapabilityState) :
    CarriedInv (IpcSystem.start ipc caps) := by
  intro m hm _
  cases hm with
  | queued c hc hm =>
    change m ∈ (ipcInit ipc).contents c at hm
    rw [((ipcInit_inv ipc).2.2 c hc).1] at hm
    simp at hm
  | sending k o hcall _ => simp [IpcSystem.start] at hcall
  | copying k tid hcall => simp [IpcSystem.start] at hcall

theorem carriedInv_run {ipc : IpcState} {caps : CapabilityState} {ops : List IpcStep}
    (hrun : ops.foldlM IpcSystem.step (IpcSystem.start ipc caps) = some y) :
    SystemInv y ∧ CarriedInv y := by
  refine run_invariant (P := fun y => SystemInv y ∧ CarriedInv y) ?_
    ⟨start_systemInv ipc caps, start_carriedInv ipc caps⟩ hrun
  intro y₁ op y₂ h hstep
  rcases step_eq_some.mp hstep with ⟨r, hexec⟩
  exact ⟨(exec_transition h.1.resolved hexec).systemInv h.1, h.2.step h.1 hexec⟩

/-- The statuses of a receive are those of its own four checks. -/
theorem ipcChannelRecvInternal_status {s s' : IpcState} {id : BitVec 32} {capacity : ℕ}
    {outs : Bool} {z : ℤ} (h : ipcChannelRecvInternal s id capacity outs = (.error z, s')) :
    -5 < z := by
  unfold ipcChannelRecvInternal at h
  split at h
  · cases h
    decide
  split at h
  · cases h
    decide
  simp only at h
  split at h
  · cases h
    decide
  split at h
  · cases h
    decide
  · simp at h

theorem recvCapability_status {k : ℕ} {tid : BitVec 64} {id : BitVec 32} {capacity : ℕ}
    {outs : Bool} {z : ℤ}
    (h : y.exec (.recvCapability k tid id capacity outs) = some (.status z, y')) : -5 < z := by
  have hfirst := (begin_eq_some h).2
  unfold IpcSystem.recvSection at hfirst
  split at hfirst
  · rename_i hrecv
    split at hrecv
    · simp at hrecv
    · rename_i hinternal
      rw [Prod.mk.injEq, Except.error.injEq] at hrecv
      rw [Prod.mk.injEq, Reply.status.injEq] at hfirst
      rw [← hfirst.1, ← hrecv.1]
      exact ipcChannelRecvInternal_status hinternal
  · simp at hfirst

theorem recvCapability_begins (hq : QueuesInv y.ipc) {k : ℕ} {tid : BitVec 64} {id : BitVec 32}
    {capacity : ℕ} {outs : Bool}
    (h : y.exec (.recvCapability k tid id capacity outs) = some (.continues, y')) :
    ∃ m, y.ipc.contents (channelIndex id) = m :: y'.ipc.contents (channelIndex id) ∧
      y'.calls k = some (.copying tid m) ∧ y'.caps = y.caps := by
  obtain ⟨_, hfirst⟩ := begin_eq_some h
  rcases y.recvSection_cases id capacity outs with ⟨z, _, hfail⟩ | ⟨m, ipc, hrecv, hok⟩
  · simp [hfail] at hfirst
  · rw [hok, Prod.mk.injEq] at hfirst
    obtain ⟨_, _, hcont, _⟩ := ipcChannelRecvInternal_succeeds hq hrecv
    rw [← hfirst.2]
    exact ⟨m, hcont, Function.update_self .., rfl⟩

/-- How the second section of `ipc_channel_recv_capability` ends for a capability that can be
redeemed. -/
theorem copySection_redeemable (h : Redeemable y.caps m) (hcap : m.hasCapability = true) (k : ℕ)
    (tid : BitVec 64) :
    (∀ id, capabilityIsValidId id = true → (y.caps.slot id).inUse = true) ∨
      ∃ id y', y.copySection k tid m = (.messageCapability m id, y') ∧
        capabilityIsValidId id = true ∧ (y.caps.slot id).inUse = false ∧
        y'.caps.slot id =
          ⟨true, tid, (y.caps.slot m.capabilityId).objectId, m.capabilityRights⟩ := by
  unfold IpcSystem.copySection recvCapabilityCopy
  rw [hcap, if_neg (by simp), h.copy tid]
  rcases hfill : fillFreeSlot y.caps
    ⟨true, tid, (y.caps.slot m.capabilityId).objectId, m.capabilityRights⟩ with ⟨result, caps⟩
  cases result with
  | error z => exact .inl fun id => fillFreeSlot_full hfill
  | ok id =>
    rcases fillFreeSlot_ok hfill with ⟨i, hi, hunused, rfl, hcaps⟩
    refine .inr ⟨i + 1, _, rfl, ?_, hunused, ?_⟩
    · rw [capabilityIsValidId_iff]
      omega
    · show caps.slot (i + 1) = _
      rw [hcaps, slot_new]

/-- In every run of calls from any tasks a capability that was accepted for a transfer stays
redeemable, and its receiver is only refused when the table is full. -/
theorem transfers_run_redeemable (ipc : IpcState) (caps : CapabilityState) (ops : List IpcStep)
    (y : IpcSystem) (hrun : ops.foldlM IpcSystem.step (IpcSystem.start ipc caps) = some y) :
    TransferSpec y := by
  obtain ⟨hinv, hcarried⟩ := carriedInv_run hrun
  have hresume : ∀ {k tid m}, y.calls k = some (.copying tid m) →
      y.exec (.resume k) = some (y.copySection k tid m) := by
    intro k tid m hcall
    simp only [IpcSystem.exec, hcall, IpcSystem.resume]
  refine ⟨?_, fun _ _ _ _ _ _ h => recvCapability_begins hinv.queues h, callsKept y, ?_, ?_, ?_⟩
  · intro c m hc hm hcap
    exact hcarried m (.queued c hc hm) hcap
  · intro k tid id capacity outs y' hexec
    have hstatus := recvCapability_status hexec
    omega
  · intro k tid m y' hcall hexec
    rw [hresume hcall, Option.some.injEq] at hexec
    cases hcap : m.hasCapability with
    | false =>
      -- a message without a capability is delivered
      simp [IpcSystem.copySection, recvCapabilityCopy, hcap] at hexec
    | true =>
      have hredeem := hcarried m (.copying k tid hcall) hcap
      rcases copySection_redeemable hredeem hcap k tid with hfull | ⟨id, y₁, hcopy, _⟩
      · exact hfull
      · rw [hcopy] at hexec
        simp at hexec
  · intro k tid m hcall hcap hfree
    have hredeem := hcarried m (.copying k tid hcall) hcap
    rcases copySection_redeemable hredeem hcap k tid with hfull | ⟨id, y₁, hcopy, hnew⟩
    · rcases hfree with ⟨id, hvalid, hunused⟩
      rw [hfull id hvalid] at hunused
      simp at hunused
    · refine ⟨id, y₁, ?_, hnew⟩
      rw [hresume hcall, hcopy]

/-- Task 5 sends task 6 the right to read; the message waits in the channel, and task 6 is about to
copy the capability of an earlier one. -/
def waitingTransfer : List IpcStep :=
  [.channelCreate (some fun i => if i < 1 then 97#8 else 0#8),
    .capabilityCreate 5#64 42#64 11#16 true,
    .sendCapability 0 5#64 0#32 (some fun _ => 1#8) 1 0#64 1 1#16, .resume 0,
    .sendCapability 0 5#64 0#32 (some fun _ => 2#8) 1 0#64 1 2#16, .resume 0,
    .recvCapability 1 6#64 0#32 64 true]

theorem transfers_run_redeemable_waiting :
    ∃ y : IpcSystem,
      waitingTransfer.foldlM IpcSystem.step
        (IpcSystem.start staleIpc (capabilityInit staleCaps)) = some y ∧
      (y.ipc.contents 0).map (·.capabilityRights) = [2#16] ∧ TransferSpec y := by
  have hcont : (waitingTransfer.foldlM IpcSystem.step
      (IpcSystem.start staleIpc (capabilityInit staleCaps))).map
        (fun y => (y.ipc.contents 0).map (·.capabilityRights)) = some [2#16] := by
    decide +kernel
  obtain ⟨y, hrun, hy⟩ := Option.map_eq_some_iff.mp hcont
  exact ⟨y, hrun, hy,
    transfers_run_redeemable staleIpc (capabilityInit staleCaps) waitingTransfer y hrun⟩

end GnuOS.Capability

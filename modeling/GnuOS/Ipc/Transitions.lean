import GnuOS.Ipc.System

/-!
# What a step can do

Each step of the system is one of the few transitions below.  The invariants of the system are
proved over transitions; only this module looks into the definition of a step.
-/

namespace GnuOS.Ipc

open GnuOS.Lib GnuOS.Capability Function

/-- In a call that is going to store a message the sender is resolved, and a rendezvous message
carries no capability. -/
def Call.Resolved : Call → Prop
  | .sending o => o.Resolved
  | .posting o => o.args.hasCapability = false ∧ o.Resolved
  | _ => True

def IpcSystem.Resolved (y : IpcSystem) : Prop :=
  ∀ k call, y.calls k = some call → call.Resolved

/-- No call is in progress that was not before. -/
def CallsEnd (calls calls' : ℕ → Option Call) : Prop :=
  ∀ k call, calls' k = some call → calls k = some call

variable {y y' : IpcSystem} {r : Reply}

inductive Transition (y : IpcSystem) : Reply → IpcSystem → Prop
  /-- Nothing changes; a call may return. -/
  | idle (r : Reply) (calls : ℕ → Option Call) : CallsEnd y.calls calls →
      Transition y r { y with calls := calls }
  | begun (k : ℕ) (call : Call) : y.calls k = none → call.Resolved →
      (∀ o base n, call ≠ .waiting o base n) →
      Transition y .continues (y.setCall k call)
  | channelCreated (text : ℕ → Byte) :
      Transition y (.status (ipcChannelCreate y.ipc (some text)).1)
        { y with ipc := (ipcChannelCreate y.ipc (some text)).2 }
  | sent (o : Outgoing) (ipc : IpcState) (calls : ℕ → Option Call) :
      o.Resolved → sendLocked y.ipc o.args o.payload o.sender = (0, ipc) →
      CallsEnd y.calls calls →
      Transition y (.status 0) ({ y with ipc := ipc, calls := calls }.record (.sent o))
  | received (channelId : BitVec 32) (payloadCapacity : ℕ) (m : Received) (ipc : IpcState) :
      ipcChannelRecvInternal y.ipc channelId payloadCapacity true = (.ok m, ipc) →
      Transition y (.message m)
        ({ y with ipc := ipc }.record (.received (channelIndex channelId) m))
  | receivedCapability (k : ℕ) (tid : BitVec 64) (channelId : BitVec 32) (payloadCapacity : ℕ)
      (m : Received) (ipc : IpcState) :
      y.calls k = none →
      ipcChannelRecvInternal y.ipc channelId payloadCapacity true = (.ok m, ipc) →
      Transition y .continues
        (({ y with ipc := ipc }.record (.received (channelIndex channelId) m)).setCall k
          (.copying tid m))
  | posted (k : ℕ) (o : Outgoing) (base : BitVec 64) (ipc : IpcState) :
      y.calls k = some (.posting o) →
      rendezvousPost y.ipc o.args.channelId o.payload o.args.size o.sender =
        (.done (.ok base), ipc) →
      Transition y .continues
        (({ y with ipc := ipc }.record (.posted o)).setCall k
          (.waiting o base (y.postedOn o.channel).length))
  | taken (k : ℕ) (channelId : BitVec 32) (payloadCapacity : ℕ) (m : Received) (ipc : IpcState) :
      rendezvousTake y.ipc channelId payloadCapacity = (.done (.ok m), ipc) →
      Transition y (.message m)
        (({ y with ipc := ipc }.record (.taken (channelIndex channelId) m)).endCall k)
  | capabilityCreated (ownerTid objectId : BitVec 64) (rights : BitVec 16) (id : ℕ)
      (caps : CapabilityState) :
      capabilityCreate y.caps ownerTid objectId rights true = (.ok id, caps) →
      Transition y (.capability id)
        ({ y with caps := caps }.record (.capabilityCreated id objectId))
  | capabilityCopied (r : Reply) (capabilityId : ℕ) (ownerTid : BitVec 64)
      (rightsMask : BitVec 16) (targetTid : BitVec 64) (id : ℕ) (caps : CapabilityState)
      (calls : ℕ → Option Call) :
      (∀ z, r ≠ .status z) →
      capabilityCopyForOwner y.caps capabilityId ownerTid rightsMask targetTid true =
        (.ok id, caps) →
      CallsEnd y.calls calls →
      Transition y r
        ({ y with caps := caps, calls := calls }.record
          (.capabilityCopied capabilityId id ownerTid))

/-! ## Calls that return -/

theorem callsEnd_refl (calls : ℕ → Option Call) : CallsEnd calls calls := fun _ _ h => h

theorem callsEnd_update (calls : ℕ → Option Call) (k : ℕ) :
    CallsEnd calls (update calls k none) := by
  intro j call hj
  by_cases hjk : j = k
  · rw [hjk, update_self] at hj
    exact absurd hj (by simp)
  · rwa [update_of_ne hjk] at hj

theorem Transition.same (y : IpcSystem) (r : Reply) : Transition y r y :=
  .idle r y.calls (callsEnd_refl y.calls)

theorem Transition.ended (y : IpcSystem) (r : Reply) (k : ℕ) : Transition y r (y.endCall k) :=
  .idle r _ (callsEnd_update y.calls k)

/-! ## Capability calls that fail -/

theorem fillFreeSlot_error {s s' : CapabilityState} {slot : CapabilitySlot} {z : ℤ}
    (h : fillFreeSlot s slot = (.error z, s')) : s' = s := by
  unfold fillFreeSlot at h
  split at h
  · simp only [Prod.mk.injEq] at h
    exact h.2.symm
  · simp at h

theorem capabilityCreate_error {s s' : CapabilityState} {owner object : BitVec 64}
    {rights : BitVec 16} {out : Bool} {z : ℤ}
    (h : capabilityCreate s owner object rights out = (.error z, s')) : s' = s := by
  unfold capabilityCreate at h
  split at h
  · simp only [Prod.mk.injEq] at h
    exact h.2.symm
  · exact fillFreeSlot_error h

theorem capabilityCopyForOwner_error {s s' : CapabilityState} {id : ℕ} {owner target : BitVec 64}
    {mask : BitVec 16} {out : Bool} {z : ℤ}
    (h : capabilityCopyForOwner s id owner mask target out = (.error z, s')) : s' = s := by
  unfold capabilityCopyForOwner at h
  split at h
  · simp only [Prod.mk.injEq] at h
    exact h.2.symm
  simp only at h
  split at h
  · simp only [Prod.mk.injEq] at h
    exact h.2.symm
  · exact fillFreeSlot_error h

/-- Output parameters are needed for a success. -/
theorem capabilityCreate_out {s s' : CapabilityState} {owner object : BitVec 64}
    {rights : BitVec 16} {out : Bool} {id : ℕ}
    (h : capabilityCreate s owner object rights out = (.ok id, s')) : out = true := by
  unfold capabilityCreate at h
  split at h
  · simp at h
  · rename_i hout
    simpa using not_or.mp hout |>.1

theorem capabilityCopyForOwner_out {s s' : CapabilityState} {id target : ℕ}
    {owner targetTid : BitVec 64} {mask : BitVec 16} {out : Bool}
    (h : capabilityCopyForOwner s id owner mask targetTid out = (.ok target, s')) :
    out = true := by
  unfold capabilityCopyForOwner at h
  split at h
  · simp at h
  · rename_i hout
    simpa using not_or.mp hout |>.1

/-! ## Sections -/

namespace IpcSystem

theorem sendSection_cases (y : IpcSystem) (o : Outgoing) :
    (∃ z, z < 0 ∧ y.sendSection o = (.status z, y)) ∨
      ∃ ipc, sendLocked y.ipc o.args o.payload o.sender = (0, ipc) ∧
        y.sendSection o = (.status 0, { y with ipc := ipc }.record (.sent o)) := by
  unfold sendSection
  rcases sendLocked_fails y.ipc o.args o.payload o.sender with ⟨ipc, hok⟩ | ⟨z, hneg, hfail⟩
  · rw [hok]
    exact .inr ⟨ipc, rfl, rfl⟩
  · obtain ⟨n, rfl⟩ := Int.eq_negSucc_of_lt_zero hneg
    rw [hfail]
    exact .inl ⟨_, hneg, rfl⟩

theorem recvSection_cases (y : IpcSystem) (id : BitVec 32) (capacity : ℕ) (outs : Bool) :
    (∃ z, z < 0 ∧ y.recvSection id capacity outs = (.error z, y)) ∨
      ∃ m ipc, ipcChannelRecvInternal y.ipc id capacity outs = (.ok m, ipc) ∧
        y.recvSection id capacity outs =
          (.ok m, { y with ipc := ipc }.record (.received (channelIndex id) m)) := by
  unfold recvSection
  rcases ipcChannelRecvInternal_fails y.ipc id capacity outs with ⟨m, ipc, hok⟩ | ⟨z, hneg, hfail⟩
  · refine .inr ⟨m, ipc, hok, ?_⟩
    rw [hok]
  · refine .inl ⟨z, hneg, ?_⟩
    rw [hfail]

end IpcSystem

/-- Output parameters are needed for a success. -/
theorem ipcChannelRecvInternal_outs {s s' : IpcState} {id : BitVec 32} {capacity : ℕ}
    {outs : Bool} {m : Received} (h : ipcChannelRecvInternal s id capacity outs = (.ok m, s')) :
    outs = true := by
  unfold ipcChannelRecvInternal at h
  split at h
  · simp at h
  · rename_i houts
    simpa using houts

theorem sendSection_transition {o : Outgoing} (hresolved : o.Resolved) :
    Transition y (y.sendSection o).1 (y.sendSection o).2 := by
  rcases y.sendSection_cases o with ⟨z, _, hfail⟩ | ⟨ipc, hsend, hok⟩
  · rw [hfail]
    exact Transition.same y _
  · rw [hok]
    exact .sent o ipc y.calls hresolved hsend (callsEnd_refl y.calls)

theorem copySection_transition (y : IpcSystem) (k : ℕ) (tid : BitVec 64) (m : Received) :
    Transition y (y.copySection k tid m).1 (y.copySection k tid m).2 := by
  unfold IpcSystem.copySection recvCapabilityCopy
  cases hcap : m.hasCapability with
  | false => exact Transition.ended y _ k
  | true =>
    rcases hcopy : capabilityCopyForOwner y.caps m.capabilityId m.senderTid m.capabilityRights tid
      true with ⟨result, caps⟩
    cases result with
    | error z =>
      -- the message is lost to the receiver, but the table is as it was
      have hcaps := capabilityCopyForOwner_error hcopy
      subst hcaps
      exact Transition.ended y _ k
    | ok id =>
      exact .capabilityCopied _ _ _ _ _ _ _ _ (by simp) hcopy (callsEnd_update y.calls k)

theorem postSection_transition {k : ℕ} {o : Outgoing} (hcall : y.calls k = some (.posting o)) :
    Transition y (y.postSection k o).1 (y.postSection k o).2 := by
  unfold IpcSystem.postSection
  rcases rendezvousPost_fails y.ipc o.args.channelId o.payload o.args.size o.sender with
    ⟨base, ipc, hok⟩ | hagain | herror
  · rw [hok]
    exact .posted k o base ipc hcall hok
  · rw [hagain]
    exact Transition.same y _
  · rw [herror]
    exact Transition.ended y _ k

theorem takeSection_transition (y : IpcSystem) (k : ℕ) (id : BitVec 32) (capacity : ℕ) :
    Transition y (y.takeSection k id capacity).1 (y.takeSection k id capacity).2 := by
  unfold IpcSystem.takeSection
  rcases rendezvousTake_fails y.ipc id capacity with ⟨m, ipc, hok⟩ | hagain | ⟨z, _, herror⟩
  · rw [hok]
    exact .taken k id capacity m ipc hok
  · rw [hagain]
    exact Transition.same y _
  · rw [herror]
    exact Transition.ended y _ k

/-- The section that a call in progress executes next. -/
theorem resume_transition {k : ℕ} {call : Call} (hcall : y.calls k = some call)
    (hresolved : call.Resolved) : Transition y (y.resume k call).1 (y.resume k call).2 := by
  cases call with
  | sending o =>
    show Transition y (y.sendSection o).1 ((y.sendSection o).2.endCall k)
    rcases y.sendSection_cases o with ⟨z, _, hfail⟩ | ⟨ipc, hsend, hok⟩
    · rw [hfail]
      exact Transition.ended y _ k
    · rw [hok]
      exact .sent o ipc _ hresolved hsend (callsEnd_update y.calls k)
  | copying tid m => exact copySection_transition y k tid m
  | posting o => exact postSection_transition hcall
  | waiting o base position =>
    show Transition y (y.pollSection k o.args.channelId base).1
      (y.pollSection k o.args.channelId base).2
    unfold IpcSystem.pollSection
    split
    · exact Transition.same y _
    · exact Transition.ended y _ k
  | taking id capacity => exact takeSection_transition y k id capacity

/-! ## Steps -/

theorem begin_eq_some {k : ℕ} {first : Reply × IpcSystem} (h : y.begin k first = some (r, y')) :
    y.calls k = none ∧ first = (r, y') := by
  unfold IpcSystem.begin at h
  split at h
  · rename_i hcall
    exact ⟨hcall, Option.some.inj h⟩
  · simp at h

/-- `ipc_channel_send_capability` that passes its checks goes on with its own arguments. -/
theorem sendCapability_begins {k : ℕ} {tid : BitVec 64} {id : BitVec 32}
    {payload : Option (ℕ → Byte)} {size : ℕ} {senderTid : BitVec 64} {capabilityId : ℕ}
    {rights : BitVec 16}
    (h : y.exec (.sendCapability k tid id payload size senderTid capabilityId rights) =
      some (.continues, y')) :
    ∃ p sender, payload = some p ∧ y' = y.setCall k
      (.sending ⟨tid, ⟨id, payload, size, senderTid, true, capabilityId, rights⟩, p, sender⟩) := by
  obtain ⟨_, hfirst⟩ := begin_eq_some h
  unfold sendCapabilityArgs at hfirst
  split_ifs at hfirst
  · simp at hfirst
  simp only at hfirst
  split at hfirst
  · simp at hfirst
  · rename_i p sender hcheck
    rw [Prod.mk.injEq] at hfirst
    exact ⟨p, sender, (sendCheck_ok hcheck).1, hfirst.2.symm⟩

theorem rendezvousSend_begins {k : ℕ} {tid : BitVec 64} {id : BitVec 32}
    {payload : Option (ℕ → Byte)} {size : ℕ} {senderTid : BitVec 64}
    (h : y.exec (.rendezvousSend k tid id payload size senderTid) = some (.continues, y')) :
    ∃ p sender, payload = some p ∧ y' = y.setCall k
      (.posting ⟨tid, sendArgs id payload size senderTid, p, sender⟩) := by
  obtain ⟨_, hfirst⟩ := begin_eq_some h
  split at hfirst
  · simp at hfirst
  · rename_i p sender hcheck
    rw [Prod.mk.injEq] at hfirst
    exact ⟨p, sender, (rendezvousSendCheck_ok hcheck).1, hfirst.2.symm⟩

/-- Every step is a transition. -/
theorem exec_transition (hresolved : y.Resolved) {op : IpcStep}
    (h : y.exec op = some (r, y')) : Transition y r y' := by
  -- it is enough to look at the pair that the step returns
  have hof : ∀ first : Reply × IpcSystem, Transition y first.1 first.2 → first = (r, y') →
      Transition y r y' := by
    intro first htrans hfirst
    rwa [hfirst] at htrans
  cases op with
  | channelCreate name =>
    refine hof _ ?_ (Option.some.inj h)
    cases name with
    | none => exact Transition.same y _
    | some text => exact .channelCreated text
  | channelFind name => exact hof _ (Transition.same y _) (Option.some.inj h)
  | send tid id payload size senderTid =>
    simp only [IpcSystem.exec] at h
    split at h
    · exact hof _ (Transition.same y _) (Option.some.inj h)
    · rename_i hcheck
      exact hof _ (sendSection_transition (sendCheck_ok hcheck).2) (Option.some.inj h)
  | sendCapability k tid id payload size senderTid capabilityId rights =>
    rcases begin_eq_some h with ⟨hcall, hfirst⟩
    refine hof _ ?_ hfirst
    split
    · exact Transition.same y _
    · split
      · exact Transition.same y _
      · rename_i hcheck
        exact .begun k _ hcall (sendCheck_ok hcheck).2 (by simp)
  | recv id capacity outs =>
    simp only [IpcSystem.exec] at h
    rcases y.recvSection_cases id capacity outs with ⟨z, _, hfail⟩ | ⟨m, ipc, hrecv, hok⟩
    · rw [hfail] at h
      exact hof _ (Transition.same y _) (Option.some.inj h)
    · rw [hok] at h
      rw [ipcChannelRecvInternal_outs hrecv] at hrecv
      exact hof _ (.received id capacity m ipc hrecv) (Option.some.inj h)
  | recvCapability k tid id capacity outs =>
    rcases begin_eq_some h with ⟨hcall, hfirst⟩
    refine hof _ ?_ hfirst
    rcases y.recvSection_cases id capacity outs with ⟨z, _, hfail⟩ | ⟨m, ipc, hrecv, hok⟩
    · rw [hfail]
      exact Transition.same y _
    · rw [hok]
      rw [ipcChannelRecvInternal_outs hrecv] at hrecv
      exact .receivedCapability k tid id capacity m ipc hcall hrecv
  | rendezvousSend k tid id payload size senderTid =>
    rcases begin_eq_some h with ⟨hcall, hfirst⟩
    refine hof _ ?_ hfirst
    split
    · exact Transition.same y _
    · rename_i hcheck
      exact .begun k _ hcall ⟨rfl, (rendezvousSendCheck_ok hcheck).2⟩ (by simp)
  | rendezvousRecv k id capacity outs =>
    rcases begin_eq_some h with ⟨hcall, hfirst⟩
    refine hof _ ?_ hfirst
    split
    · exact Transition.same y _
    · exact .begun k _ hcall trivial (by simp)
  | capabilityCreate owner object rights out =>
    simp only [IpcSystem.exec] at h
    split at h
    · rename_i hcreate
      rw [capabilityCreate_error hcreate] at h
      exact hof _ (Transition.same y _) (Option.some.inj h)
    · rename_i hcreate
      rw [capabilityCreate_out hcreate] at hcreate
      exact hof _ (.capabilityCreated owner object rights _ _ hcreate) (Option.some.inj h)
  | capabilityCopyForOwner capabilityId owner mask target out =>
    simp only [IpcSystem.exec] at h
    split at h
    · rename_i hcopy
      rw [capabilityCopyForOwner_error hcopy] at h
      exact hof _ (Transition.same y _) (Option.some.inj h)
    · rename_i hcopy
      rw [capabilityCopyForOwner_out hcopy] at hcopy
      exact hof _ (.capabilityCopied _ capabilityId owner mask target _ _ y.calls (by simp) hcopy
        (callsEnd_refl y.calls)) (Option.some.inj h)
  | resume k =>
    simp only [IpcSystem.exec] at h
    split at h
    · simp at h
    · rename_i call hcall
      exact hof _ (resume_transition hcall (hresolved k call hcall)) (Option.some.inj h)

/-! ## Calls in progress -/

/-- The step of the system that an event of the history comes from. -/
def Event.MadeBy (y : IpcSystem) (op : IpcStep) (r : Reply) : Event → Prop
  | .sent o => r = .status 0 ∧
      ((∃ tid id payload size senderTid, op = .send tid id payload size senderTid) ∨
        ∃ k, op = .resume k ∧ y.calls k = some (.sending o))
  | .received c m => (∃ id capacity outs, op = .recv id capacity outs ∧ r = .message m ∧
      c = channelIndex id) ∨
    ∃ k tid id capacity outs, op = .recvCapability k tid id capacity outs ∧ c = channelIndex id
  | .posted o => ∃ k, op = .resume k ∧ y.calls k = some (.posting o)
  | .taken c m => ∃ k id capacity, op = .resume k ∧ y.calls k = some (.taking id capacity) ∧
      r = .message m ∧ c = channelIndex id
  | .capabilityCreated .. | .capabilityCopied .. => True

/-- The step adds nothing to the history, or an event that comes from it. -/
def Recorded (y : IpcSystem) (op : IpcStep) (result : Reply × IpcSystem) : Prop :=
  result.2.log = y.log ∨ ∃ e, result.2.log = y.log ++ [e] ∧ e.MadeBy y op result.1

/-- How a call goes on: with the arguments it has.  A rendezvous send may have posted its message,
and a call that transfers a capability returns from its second step. -/
def Call.GoesOn : Call → Call → Prop
  | .posting o, call => call = .posting o ∨ ∃ base n, call = .waiting o base n
  | .waiting o base n, call => call = .waiting o base n
  | .taking id capacity, call => call = .taking id capacity
  | .sending _, _ | .copying _ _, _ => False

/-- What the next section of a call leaves of it. -/
def Call.Leaves (call : Call) (k : ℕ) : Reply × IpcSystem → Prop
  | (.continues, y) => ∃ call', y.calls k = some call' ∧ call.GoesOn call'
  | (_, y) => y.calls k = none

/-- The next section of call `k` leaves the other calls alone. -/
structure Resumes (y : IpcSystem) (k : ℕ) (call : Call) (result : Reply × IpcSystem) : Prop where
  own : call.Leaves k result
  other : ∀ j, j ≠ k → result.2.calls j = y.calls j
  recorded : Recorded y (.resume k) result

theorem resume_resumes {k : ℕ} {call : Call} (hcall : y.calls k = some call) :
    Resumes y k call (y.resume k call) := by
  cases call <;>
    simp only [IpcSystem.resume, IpcSystem.sendSection, IpcSystem.copySection,
      IpcSystem.postSection, IpcSystem.pollSection, IpcSystem.takeSection]
  all_goals
    repeat' split
    all_goals
      constructor
      · simp [IpcSystem.endCall, IpcSystem.setCall, IpcSystem.record, Call.Leaves, Call.GoesOn,
          hcall]
      · intro j hj
        simp [IpcSystem.endCall, IpcSystem.setCall, IpcSystem.record, hj]
      · simp [IpcSystem.endCall, IpcSystem.setCall, IpcSystem.record, Recorded, Event.MadeBy, hcall]

/-- A step that is no next section of a call leaves the calls in progress alone. -/
theorem exec_begins {op : IpcStep} (hop : ∀ k, op ≠ .resume k) (h : y.exec op = some (r, y')) :
    (∀ k call, y.calls k = some call → y'.calls k = some call) ∧ Recorded y op (r, y') := by
  have hsame : ∀ k call, y.calls k = some call → y.calls k = some call := fun _ _ h => h
  -- a new call gets a number that is not in use
  have hset : ∀ {j : ℕ} (new : Call), y.calls j = none →
      ∀ k call, y.calls k = some call → update y.calls j (some new) k = some call := by
    intro j new hnone k call hcall
    rw [update_of_ne, hcall]
    rintro rfl
    rw [hcall] at hnone
    cases hnone
  cases op with
  | channelCreate _ | channelFind _ =>
    cases h
    exact ⟨hsame, .inl rfl⟩
  | send tid id payload size senderTid =>
    simp only [IpcSystem.exec, IpcSystem.sendSection] at h
    repeat' split at h
    all_goals cases h
    · exact ⟨hsame, .inl rfl⟩
    · exact ⟨hsame, .inr ⟨_, rfl, rfl, .inl ⟨tid, id, payload, size, senderTid, rfl⟩⟩⟩
    · exact ⟨hsame, .inl rfl⟩
  | sendCapability j tid id payload size senderTid capabilityId rights =>
    rcases begin_eq_some h with ⟨hnone, hfirst⟩
    repeat' split at hfirst
    all_goals cases hfirst
    · exact ⟨hsame, .inl rfl⟩
    · exact ⟨hsame, .inl rfl⟩
    · exact ⟨hset _ hnone, .inl rfl⟩
  | recv id capacity outs =>
    simp only [IpcSystem.exec] at h
    rcases y.recvSection_cases id capacity outs with ⟨z, _, hrecv⟩ | ⟨m, ipc, _, hrecv⟩
    all_goals
      rw [hrecv] at h
      cases h
    · exact ⟨hsame, .inl rfl⟩
    · exact ⟨hsame, .inr ⟨_, rfl, .inl ⟨id, capacity, outs, rfl, rfl, rfl⟩⟩⟩
  | recvCapability j tid id capacity outs =>
    rcases begin_eq_some h with ⟨hnone, hfirst⟩
    rcases y.recvSection_cases id capacity outs with ⟨z, _, hrecv⟩ | ⟨m, ipc, _, hrecv⟩
    all_goals
      rw [hrecv] at hfirst
      cases hfirst
    · exact ⟨hsame, .inl rfl⟩
    · exact ⟨hset _ hnone, .inr ⟨_, rfl, .inr ⟨j, tid, id, capacity, outs, rfl, rfl⟩⟩⟩
  | rendezvousSend _ _ _ _ _ _ | rendezvousRecv _ _ _ _ =>
    rcases begin_eq_some h with ⟨hnone, hfirst⟩
    split at hfirst
    all_goals cases hfirst
    · exact ⟨hsame, .inl rfl⟩
    · exact ⟨hset _ hnone, .inl rfl⟩
  | capabilityCreate _ _ _ _ | capabilityCopyForOwner _ _ _ _ _ =>
    simp only [IpcSystem.exec] at h
    split at h
    all_goals cases h
    · exact ⟨hsame, .inl rfl⟩
    · exact ⟨hsame, .inr ⟨_, rfl, trivial⟩⟩
  | resume k => exact absurd rfl (hop k)

theorem exec_resumes {k : ℕ} {result : Reply × IpcSystem}
    (h : y.exec (.resume k) = some result) :
    ∃ call, y.calls k = some call ∧ Resumes y k call result := by
  simp only [IpcSystem.exec] at h
  split at h
  · simp at h
  · rename_i call hcall
    rw [← Option.some.inj h]
    exact ⟨call, hcall, resume_resumes hcall⟩

/-- A call in progress is changed by its own next section only. -/
theorem exec_calls_other {op : IpcStep} {k : ℕ} {call : Call} (hop : op ≠ .resume k)
    (hcall : y.calls k = some call) (h : y.exec op = some (r, y')) : y'.calls k = some call := by
  by_cases hresume : ∃ j, op = .resume j
  · obtain ⟨j, rfl⟩ := hresume
    obtain ⟨_, _, hresumes⟩ := exec_resumes h
    exact (hresumes.other k fun heq => hop (by rw [heq])).trans hcall
  · exact (exec_begins (fun j heq => hresume ⟨j, heq⟩) h).1 k call hcall

/-- The calls in progress keep their arguments until they return, and the history holds what the
steps have done. -/
structure CallsKept (y : IpcSystem) : Prop where
  other : ∀ op k call r y', op ≠ .resume k → y.calls k = some call →
    y.exec op = some (r, y') → y'.calls k = some call
  own : ∀ k call result, y.calls k = some call → y.exec (.resume k) = some result →
    call.Leaves k result
  history : ∀ op result, y.exec op = some result → Recorded y op result

theorem callsKept (y : IpcSystem) : CallsKept y where
  other _ _ _ _ _ hop hcall h := exec_calls_other hop hcall h
  own k call result hcall h := by
    obtain ⟨call', hcall', hresumes⟩ := exec_resumes h
    rw [hcall, Option.some.injEq] at hcall'
    rw [hcall']
    exact hresumes.own
  history op result h := by
    by_cases hresume : ∃ k, op = .resume k
    · obtain ⟨k, rfl⟩ := hresume
      obtain ⟨_, _, hresumes⟩ := exec_resumes h
      exact hresumes.recorded
    · exact (exec_begins (fun k heq => hresume ⟨k, heq⟩) h).2

end GnuOS.Ipc

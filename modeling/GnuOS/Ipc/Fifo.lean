import GnuOS.Ipc.Transitions

/-!
# Channels are queues

In every run each channel is a queue of at most 32 messages: what was sent on it is what was
received from it and then what it holds.  The names of the channels form an injective map, which
only grows.
-/

namespace GnuOS.Ipc

open GnuOS.Lib GnuOS.Capability Function

variable {y y' : IpcSystem} {r : Reply}

/-! ## The state -/

/-- What holds between any two steps of the tables and the calls in progress. -/
structure SystemInv (y : IpcSystem) : Prop where
  resolved : y.Resolved
  names : NamesInv y.ipc
  queues : QueuesInv y.ipc

/-- Creating a channel keeps the tables in order and changes no contents. -/
theorem ipcChannelCreate_keeps {s : IpcState} (hn : NamesInv s) (hq : QueuesInv s)
    (text : ℕ → Byte) :
    NamesInv (ipcChannelCreate s (some text)).2 ∧ QueuesInv (ipcChannelCreate s (some text)).2 ∧
      (ipcChannelCreate s (some text)).2.contents = s.contents ∧
      (ipcChannelCreate s (some text)).2.slot = s.slot := by
  have hcases := ipcChannelCreate_cases s text
  generalize ipcChannelCreate s (some text) = result at hcases
  cases hcases with
  | badName _ => exact ⟨hn, hq, rfl, rfl⟩
  | existing i _ _ _ => exact ⟨hn, hq, rfl, rfl⟩
  | full _ _ _ _ => exact ⟨hn, hq, rfl, rfl⟩
  | created i hpos hlt hfind hi hunused =>
    rw [ipcFindChannelLocked_eq_idOf hn] at hfind
    exact ⟨hn.created hpos hlt hfind, hq.created text hi hunused⟩

theorem resolved_of_callsEnd (h : y.Resolved) {calls : ℕ → Option Call}
    (hcalls : CallsEnd y.calls calls) {k : ℕ} {call : Call} (hcall : calls k = some call) :
    call.Resolved :=
  h k call (hcalls k call hcall)

theorem resolved_of_update (h : y.Resolved) {k : ℕ} {new : Call} (hnew : new.Resolved) {j : ℕ}
    {call : Call} (hcall : update y.calls k (some new) j = some call) :
    call.Resolved := by
  by_cases hjk : j = k
  · rw [hjk, update_self, Option.some.injEq] at hcall
    rw [← hcall]
    exact hnew
  · rw [update_of_ne hjk] at hcall
    exact h j call hcall

/-- Every transition keeps the tables in order. -/
theorem Transition.systemInv (htrans : Transition y r y') (h : SystemInv y) : SystemInv y' := by
  cases htrans with
  | idle r calls hcalls =>
    exact ⟨fun k call => resolved_of_callsEnd h.resolved hcalls, h.names, h.queues⟩
  | begun k call _ hresolved _ =>
    exact ⟨fun j c => resolved_of_update h.resolved hresolved, h.names, h.queues⟩
  | channelCreated text =>
    have hkeeps := ipcChannelCreate_keeps h.names h.queues text
    exact ⟨h.resolved, hkeeps.1, hkeeps.2.1⟩
  | sent o ipc calls hresolved hsend hcalls =>
    rcases sendLocked_succeeds h.queues hresolved hsend with ⟨honly, hq, _⟩
    exact ⟨fun k call => resolved_of_callsEnd h.resolved hcalls,
      honly.registry.namesInv h.names, hq⟩
  | received id capacity m ipc hrecv =>
    rcases ipcChannelRecvInternal_succeeds h.queues hrecv with ⟨honly, hq, _⟩
    exact ⟨h.resolved, honly.registry.namesInv h.names, hq⟩
  | receivedCapability k tid id capacity m ipc hcall hrecv =>
    rcases ipcChannelRecvInternal_succeeds h.queues hrecv with ⟨honly, hq, _⟩
    exact ⟨fun j c hc => resolved_of_update h.resolved (by trivial) hc,
      honly.registry.namesInv h.names, hq⟩
  | posted k o base ipc hcall hpost =>
    rcases h.resolved k _ hcall with ⟨hcap, hresolved⟩
    rcases rendezvousPost_succeeds h.queues hcap hresolved hpost with ⟨honly, hq, _⟩
    exact ⟨fun j c hc => resolved_of_update h.resolved (by trivial) hc,
      honly.registry.namesInv h.names, hq⟩
  | taken k id capacity m ipc htake =>
    rcases rendezvousTake_succeeds h.queues htake with ⟨honly, hq, _⟩
    exact ⟨fun j c => resolved_of_callsEnd h.resolved (callsEnd_update y.calls k),
      honly.registry.namesInv h.names, hq⟩
  | capabilityCreated owner object rights id caps _ => exact ⟨h.resolved, h.names, h.queues⟩
  | capabilityCopied r id owner mask target new caps calls _ _ hcalls =>
    exact ⟨fun k call => resolved_of_callsEnd h.resolved hcalls, h.names, h.queues⟩

theorem start_systemInv (s : IpcState) (caps : CapabilityState) :
    SystemInv (IpcSystem.start s caps) where
  resolved k call hcall := absurd hcall (by simp [IpcSystem.start])
  names := (ipcInit_inv s).2.1
  queues := (ipcInit_inv s).1

/-! ## The histories -/

/-- Every channel is a queue between its senders and its receivers. -/
def IsQueue (y : IpcSystem) : Prop :=
  ∀ c, c < 16 → Fifo (y.sentOn c) (y.receivedOn c) (y.ipc.contents c)

/-- Events that neither send nor receive leave the histories of the queues alone. -/
theorem IsQueue.of_same (h : IsQueue y) (hsent : y'.sentOn = y.sentOn)
    (hreceived : y'.receivedOn = y.receivedOn) (hcont : y'.ipc.contents = y.ipc.contents) :
    IsQueue y' := by
  intro c hc
  rw [hsent, hreceived, hcont]
  exact h c hc

theorem IsQueue.sent (h : IsQueue y) {i : ℕ} {m : Received} (honly : ChangesOnly i y.ipc y'.ipc)
    (hsent : y'.sentOn = update y.sentOn i (y.sentOn i ++ [m]))
    (hreceived : y'.receivedOn = y.receivedOn)
    (hcont : y'.ipc.contents i = y.ipc.contents i ++ [m]) : IsQueue y' := by
  intro c hc
  rw [hsent, hreceived]
  by_cases hci : c = i
  · rw [hci, update_self, hcont]
    exact (h i honly.index_lt).put m
  · rw [update_of_ne hci, honly.contents_other hci]
    exact h c hc

theorem IsQueue.received (h : IsQueue y) {i : ℕ} {m : Received}
    (honly : ChangesOnly i y.ipc y'.ipc) (hsent : y'.sentOn = y.sentOn)
    (hreceived : y'.receivedOn = update y.receivedOn i (y.receivedOn i ++ [m]))
    (hcont : y.ipc.contents i = m :: y'.ipc.contents i) : IsQueue y' := by
  intro c hc
  rw [hsent, hreceived]
  by_cases hci : c = i
  · rw [hci, update_self]
    exact (h i honly.index_lt).take hcont
  · rw [update_of_ne hci, honly.contents_other hci]
    exact h c hc

/-- Every transition keeps the channels queues. -/
theorem Transition.isQueue (htrans : Transition y r y') (hinv : SystemInv y) (h : IsQueue y) :
    IsQueue y' := by
  cases htrans with
  | idle r calls hcalls => exact h
  | begun k call _ _ _ => exact h
  | channelCreated text =>
    intro c hc
    show Fifo _ _ ((ipcChannelCreate y.ipc (some text)).2.contents c)
    rw [(ipcChannelCreate_keeps hinv.names hinv.queues text).2.2.1]
    exact h c hc
  | sent o ipc calls hresolved hsend hcalls =>
    rcases sendLocked_succeeds hinv.queues hresolved hsend with ⟨honly, _, hcont, _⟩
    exact h.sent honly (IpcSystem.history_grows fun _ => rfl)
      (IpcSystem.history_same fun _ => rfl) hcont
  | received id capacity m ipc hrecv =>
    rcases ipcChannelRecvInternal_succeeds hinv.queues hrecv with ⟨honly, _, hcont, _⟩
    exact h.received honly (IpcSystem.history_same fun _ => rfl)
      (IpcSystem.history_grows fun _ => rfl) hcont
  | receivedCapability k tid id capacity m ipc hcall hrecv =>
    rcases ipcChannelRecvInternal_succeeds hinv.queues hrecv with ⟨honly, _, hcont, _⟩
    exact h.received honly (IpcSystem.history_same fun _ => rfl)
      (IpcSystem.history_grows fun _ => rfl) hcont
  | posted k o base ipc hcall hpost =>
    -- the rendezvous slot is not part of the ring
    rcases hinv.resolved k _ hcall with ⟨hcap, hresolved⟩
    rcases rendezvousPost_succeeds hinv.queues hcap hresolved hpost with ⟨_, _, hcont, _⟩
    exact h.of_same (IpcSystem.history_same fun _ => rfl) (IpcSystem.history_same fun _ => rfl)
      hcont
  | taken k id capacity m ipc htake =>
    rcases rendezvousTake_succeeds hinv.queues htake with ⟨_, _, hcont, _⟩
    exact h.of_same (IpcSystem.history_same fun _ => rfl) (IpcSystem.history_same fun _ => rfl)
      hcont
  | capabilityCreated owner object rights id caps _ =>
    exact h.of_same (IpcSystem.history_same fun _ => rfl) (IpcSystem.history_same fun _ => rfl) rfl
  | capabilityCopied r id owner mask target new caps calls _ _ _ =>
    exact h.of_same (IpcSystem.history_same fun _ => rfl) (IpcSystem.history_same fun _ => rfl) rfl

/-! ## The registry -/

/-- A status below 0 means that nothing was changed. -/
theorem ipcChannelCreate_refused {s : IpcState} {text : ℕ → Byte}
    (hneg : (ipcChannelCreate s (some text)).1 < 0) : (ipcChannelCreate s (some text)).2 = s := by
  have hcases := ipcChannelCreate_cases s text
  generalize ipcChannelCreate s (some text) = result at hcases hneg
  cases hcases with
  | badName _ => rfl
  | existing i _ _ _ => rfl
  | full _ _ _ _ => rfl
  | created i _ _ _ _ _ =>
    simp only at hneg
    omega

/-- What `ipc_channel_create` returns for a text, and what it does to the map of names. -/
def CreateSpec (s : IpcState) (text : ℕ → Byte) (z : ℤ) (s' : IpcState) : Prop :=
  (z = -1 ∧ ((nameOf text).length = 0 ∨ 32 ≤ (nameOf text).length) ∧ s' = s) ∨
  (z = -2 ∧ s.idOf (nameOf text) = none ∧ (∀ i, i < 16 → (s.channels i).inUse = true) ∧ s' = s) ∨
  ∃ i : ℕ, i < 16 ∧ z = i ∧ channelIndex (BitVec.ofInt 32 z) = i ∧
    1 ≤ (nameOf text).length ∧ (nameOf text).length ≤ 31 ∧
    s'.idOf = update s.idOf (nameOf text) (some i) ∧
    ((s.idOf (nameOf text) = some i ∧ s' = s) ∨
      (s.idOf (nameOf text) = none ∧ ∀ name, s.idOf name ≠ some i))

theorem ipcChannelCreate_spec {s : IpcState} (hn : NamesInv s) (text : ℕ → Byte) :
    CreateSpec s text (ipcChannelCreate s (some text)).1 (ipcChannelCreate s (some text)).2 := by
  have hcases := ipcChannelCreate_cases s text
  generalize ipcChannelCreate s (some text) = result at hcases
  have hindex : ∀ i : ℕ, i < 16 → channelIndex (BitVec.ofInt 32 (i : ℤ)) = i := by
    intro i hi
    rw [BitVec.ofInt_natCast]
    exact channelIndex_ofNat hi
  unfold CreateSpec
  rw [length_nameOf]
  cases hcases with
  | badName hbad => exact .inl ⟨rfl, hbad, rfl⟩
  | existing i hpos hlt hfind =>
    rw [ipcFindChannelLocked_eq_idOf hn] at hfind
    have hi := ((idOf_eq_some hn).mp hfind).1
    refine .inr (.inr ⟨i, hi, rfl, hindex i hi, hpos, by omega, ?_, .inl ⟨hfind, rfl⟩⟩)
    rw [← hfind, update_eq_self]
  | full _ _ hfind hfull =>
    rw [ipcFindChannelLocked_eq_idOf hn] at hfind
    exact .inr (.inl ⟨rfl, hfind, hfull, rfl⟩)
  | created i hpos hlt hfind hi hunused =>
    rw [ipcFindChannelLocked_eq_idOf hn] at hfind
    refine .inr (.inr ⟨i, hi, rfl, hindex i hi, hpos, by omega,
      idOf_created hn hpos hlt hfind hi hunused, .inr ⟨hfind, ?_⟩⟩)
    intro name hname
    have huse := ((idOf_eq_some hn).mp hname).2.1
    rw [hunused] at huse
    exact absurd huse (by simp)

/-- A name keeps its id when a channel is created. -/
theorem CreateSpec.stable {s s' : IpcState} {text : ℕ → Byte} {z : ℤ}
    (h : CreateSpec s text z s') {name : List Byte} {i : ℕ} (hname : s.idOf name = some i) :
    s'.idOf name = some i := by
  rcases h with ⟨_, _, rfl⟩ | ⟨_, _, _, rfl⟩ | ⟨j, _, _, _, _, _, hupdate, hold⟩
  · exact hname
  · exact hname
  · rw [hupdate]
    by_cases hsame : name = nameOf text
    · subst hsame
      rw [update_self]
      rcases hold with hold | hold
      · rw [← hname, hold.1]
      · rw [hold.1] at hname
        exact absurd hname (by simp)
    · rwa [update_of_ne hsame]

/-- Only `ipc_channel_create` changes the registry. -/
theorem Transition.registry (htrans : Transition y r y') (hinv : SystemInv y) :
    SameRegistry y.ipc y'.ipc ∨ ∃ text, y'.ipc = (ipcChannelCreate y.ipc (some text)).2 := by
  cases htrans with
  | idle r calls hcalls => exact .inl fun _ => ⟨rfl, rfl⟩
  | begun k call _ _ _ => exact .inl fun _ => ⟨rfl, rfl⟩
  | channelCreated text => exact .inr ⟨text, rfl⟩
  | sent o ipc calls hresolved hsend hcalls =>
    exact .inl (sendLocked_succeeds hinv.queues hresolved hsend).1.registry
  | received id capacity m ipc hrecv =>
    exact .inl (ipcChannelRecvInternal_succeeds hinv.queues hrecv).1.registry
  | receivedCapability k tid id capacity m ipc hcall hrecv =>
    exact .inl (ipcChannelRecvInternal_succeeds hinv.queues hrecv).1.registry
  | posted k o base ipc hcall hpost =>
    rcases hinv.resolved k _ hcall with ⟨hcap, hresolved⟩
    exact .inl (rendezvousPost_succeeds hinv.queues hcap hresolved hpost).1.registry
  | taken k id capacity m ipc htake =>
    exact .inl (rendezvousTake_succeeds hinv.queues htake).1.registry
  | capabilityCreated owner object rights id caps _ => exact .inl fun _ => ⟨rfl, rfl⟩
  | capabilityCopied r id owner mask target new caps calls _ _ _ =>
    exact .inl fun _ => ⟨rfl, rfl⟩

/-- Ids are never withdrawn. -/
theorem Transition.idOf_stable (htrans : Transition y r y') (hinv : SystemInv y)
    {name : List Byte} {i : ℕ} (hname : y.ipc.idOf name = some i) :
    y'.ipc.idOf name = some i := by
  rcases htrans.registry hinv with hsame | ⟨text, hcreated⟩
  · rwa [hsame.idOf_eq]
  · rw [hcreated]
    exact (ipcChannelCreate_spec hinv.names text).stable hname

/-- A step that returns a negative status leaves all channels as they were. -/
theorem Transition.refused {z : ℤ} (htrans : Transition y (.status z) y') (hz : z < 0) :
    y'.ipc = y.ipc := by
  generalize hr : Reply.status z = r at htrans
  cases htrans with
  | idle r calls hcalls => rfl
  | channelCreated text =>
    simp only [Reply.status.injEq] at hr
    exact ipcChannelCreate_refused (by omega)
  | sent o ipc calls hresolved hsend hcalls =>
    simp only [Reply.status.injEq] at hr
    omega
  | begun k call _ _ _ => rfl
  | capabilityCreated owner object rights id caps _ => rfl
  | capabilityCopied r id owner mask target new caps calls _ _ _ => rfl
  | received id capacity m ipc hrecv => simp at hr
  | receivedCapability k tid id capacity m ipc hcall hrecv => simp at hr
  | posted k o base ipc hcall hpost => simp at hr
  | taken k id capacity m ipc htake => simp at hr

/-! ## Runs -/

/-- What holds in every state of a run. -/
def ChannelInv (y : IpcSystem) : Prop := SystemInv y ∧ IsQueue y

theorem step_eq_some {op : IpcStep} : y.step op = some y' ↔ ∃ r, y.exec op = some (r, y') := by
  unfold IpcSystem.step
  rw [Option.map_eq_some_iff]
  constructor
  · intro h
    rcases h with ⟨⟨r, y₁⟩, hexec, rfl⟩
    exact ⟨r, hexec⟩
  · intro h
    rcases h with ⟨r, hexec⟩
    exact ⟨(r, y'), hexec, rfl⟩

theorem start_channelInv (s : IpcState) (caps : CapabilityState) :
    ChannelInv (IpcSystem.start s caps) := by
  refine ⟨start_systemInv s caps, ?_⟩
  intro c hc
  show Fifo [] [] ((ipcInit s).contents c)
  rw [((ipcInit_inv s).2.2 c hc).1]
  exact Fifo.empty

theorem ChannelInv.step (h : ChannelInv y) {op : IpcStep} (hstep : y.step op = some y') :
    ChannelInv y' := by
  rcases step_eq_some.mp hstep with ⟨r, hexec⟩
  have htrans := exec_transition h.1.resolved hexec
  exact ⟨htrans.systemInv h.1, htrans.isQueue h.1 h.2⟩

theorem channelInv_run {s : IpcState} {caps : CapabilityState} {ops : List IpcStep}
    (hrun : ops.foldlM IpcSystem.step (IpcSystem.start s caps) = some y) : ChannelInv y :=
  run_invariant (fun _ _ _ h hstep => h.step hstep) (start_channelInv s caps) hrun

end GnuOS.Ipc

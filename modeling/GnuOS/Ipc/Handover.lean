import GnuOS.Ipc.Rendezvous

/-!
# What rendezvous senders and receivers see

A send returns 0 only after its own message was received, messages are received in the order in
which they were posted, and none is lost, overwritten or received twice.  A sender whose message
was received does not always return at its next poll: the slot must be empty as well, and another
sender may have filled it again.
-/

namespace GnuOS.Ipc

open GnuOS.Lib GnuOS.Capability Function

/-- Rendezvous in a state.  The messages posted on a channel are numbered in the order of the posts;
`y.Waits k o base n` says that call `k` posted message number `n` of its channel. -/
structure HandoverSpec (y : IpcSystem) : Prop where
  /-- The messages received are those posted, in this order, except for one in the slot. -/
  order : ∀ c, c < 16 → y.postedOn c = y.takenOn c ++ y.ipc.slot c
  /-- A send and a receive keep the arguments that they begin with. -/
  begun : ∀ k tid id payload size senderTid y',
    y.exec (.rendezvousSend k tid id payload size senderTid) = some (.continues, y') →
    ∃ p sender, payload = some p ∧ y' = y.setCall k
      (.posting ⟨tid, sendArgs id payload size senderTid, p, sender⟩)
  begun_recv : ∀ k id capacity outs y',
    y.exec (.rendezvousRecv k id capacity outs) = some (.continues, y') →
    y' = y.setCall k (.taking id capacity)
  kept : CallsKept y
  /-- A message is posted in an empty slot only. -/
  post : ∀ k o o' base n r y', y.calls k = some (.posting o) →
    y.exec (.resume k) = some (r, y') → y'.Waits k o' base n →
    y.ipc.slot o.channel = [] ∧ o' = o ∧ n = (y.postedOn o.channel).length ∧
      y'.postedOn o.channel = y.postedOn o.channel ++ [o.delivered]
  own : ∀ k o base n, y.Waits k o base n → (y.postedOn o.channel)[n]? = some o.delivered
  distinct : ∀ k o base k' o' base' n, y.Waits k o base n → y.Waits k' o' base' n →
    o.channel = o'.channel → k = k'
  /-- A send that returns 0 waited for its message, and the message was received. -/
  returns : ∀ k o base n y', y.Waits k o base n → y.exec (.resume k) = some (.status 0, y') →
    (y.takenOn o.channel)[n]? = some o.delivered
  not_before : ∀ k o y', y.calls k = some (.posting o) →
    y.exec (.resume k) ≠ some (.status 0, y')
  not_begin : ∀ k tid id payload size senderTid y',
    y.exec (.rendezvousSend k tid id payload size senderTid) ≠ some (.status 0, y')
  /-- A receive returns the first message that was not received. -/
  recv : ∀ k id capacity m y', y.calls k = some (.taking id capacity) →
    y.exec (.resume k) = some (.message m, y') →
    (y.postedOn (channelIndex id))[(y.takenOn (channelIndex id)).length]? = some m ∧
      y'.takenOn = update y.takenOn (channelIndex id)
        (y.takenOn (channelIndex id) ++ [m]) ∧ y'.postedOn = y.postedOn
  /-- A receive that fails because the buffer is too small leaves the message in the slot. -/
  tooSmall : ∀ k id capacity y', y.calls k = some (.taking id capacity) →
    y.exec (.resume k) = some (.status (-4), y') →
    y'.ipc = y.ipc ∧ y.ipc.slot (channelIndex id) ≠ []

variable {y y' : IpcSystem} {k : ℕ} {o : Outgoing} {base : BitVec 64} {n : ℕ}

/-! ## Polling -/

/-- What a poll answers, in terms of the history of the channel. -/
theorem RendezvousInv.poll (h : RendezvousInv y) (hwaits : y.Waits k o base n) :
    y.exec (.resume k) =
      if y.ipc.slot o.channel = [] ∧
          BitVec.ofNat 64 (y.takenOn o.channel).length ≠ BitVec.ofNat 64 n then
        some (.status 0, y.endCall k)
      else some (.continues, y) := by
  rcases h.waits k o base n hwaits with ⟨hvalid, hbase, _⟩
  have hgen := h.generation o.channel (inUse_of_valid hvalid).1
  have hpoll : rendezvousPoll y.ipc o.args.channelId base =
      if y.ipc.slot o.channel = [] ∧
          BitVec.ofNat 64 (y.takenOn o.channel).length ≠ BitVec.ofNat 64 n then
        .done 0
      else .again := by
    unfold rendezvousPoll
    rw [if_neg (by rw [hvalid]; simp), ← hgen, ← hbase]
    simp only [slot_eq_nil]
    rfl
  simp only [IpcSystem.exec, show y.calls k = _ from hwaits, IpcSystem.resume,
    IpcSystem.pollSection, hpoll]
  by_cases hcond : y.ipc.slot o.channel = [] ∧
      BitVec.ofNat 64 (y.takenOn o.channel).length ≠ BitVec.ofNat 64 n
  · rw [if_pos hcond, if_pos hcond]
  · rw [if_neg hcond, if_neg hcond]

/-- A position is at most the number of messages taken: the slot holds one message. -/
theorem RendezvousInv.position_le (h : RendezvousInv y) (hwaits : y.Waits k o base n) :
    n ≤ (y.takenOn o.channel).length := by
  rcases h.waits k o base n hwaits with ⟨hvalid, _, hown⟩
  have hn := (List.getElem?_eq_some_iff.mp hown).1
  have hlength := (h.queue o.channel (inUse_of_valid hvalid).1).length_eq
  have hslot : (y.ipc.slot o.channel).length ≤ 1 := by
    unfold IpcState.slot
    split <;> simp
  omega

theorem RendezvousInv.returns (h : RendezvousInv y) (hwaits : y.Waits k o base n)
    (hexec : y.exec (.resume k) = some (.status 0, y')) :
    (y.takenOn o.channel)[n]? = some o.delivered := by
  rcases h.waits k o base n hwaits with ⟨hvalid, _, hown⟩
  rw [h.poll hwaits] at hexec
  split at hexec
  · rename_i hcond
    -- the counter has moved on since the message was posted
    have hne : (y.takenOn o.channel).length ≠ n := by
      intro heq
      exact hcond.2 (by rw [heq])
    have hle := h.position_le hwaits
    have hqueue := h.queue o.channel (inUse_of_valid hvalid).1
    rw [hqueue.getElem?_outs (by omega), hown]
  · simp at hexec

/-! ## Posting and receiving -/

theorem exec_resume_posting (hinv : SystemInv y) (hcall : y.calls k = some (.posting o))
    {r : Reply} (hexec : y.exec (.resume k) = some (r, y')) :
    r ≠ .status 0 ∧ ∀ o' base' m, y'.Waits k o' base' m →
      y.ipc.slot o.channel = [] ∧ o' = o ∧ m = (y.postedOn o.channel).length ∧
        y'.postedOn o.channel = y.postedOn o.channel ++ [o.delivered] := by
  rcases hinv.resolved k _ hcall with ⟨hcap, hresolved⟩
  simp only [IpcSystem.exec, hcall, IpcSystem.resume, IpcSystem.postSection] at hexec
  rcases rendezvousPost_fails y.ipc o.args.channelId o.payload o.args.size o.sender with
    ⟨base', ipc, hok⟩ | hagain | herror
  · simp only [hok, Option.some.injEq, Prod.mk.injEq] at hexec
    rcases hexec with ⟨rfl, hy'⟩
    have hposted : y'.postedOn =
        update y.postedOn o.channel (y.postedOn o.channel ++ [o.delivered]) := by
      rw [← hy']
      exact IpcSystem.history_grows fun _ => rfl
    refine ⟨by simp, ?_⟩
    intro o' base'' m hwaits
    simp only [← hy', IpcSystem.Waits, IpcSystem.setCall, update_self, Option.some.injEq,
      Call.waiting.injEq] at hwaits
    rcases rendezvousPost_succeeds hinv.queues hcap hresolved hok with ⟨_, _, _, hempty, _⟩
    exact ⟨hempty, hwaits.1.symm, hwaits.2.2.symm, by rw [hposted, update_self]⟩
  · simp only [hagain, Option.some.injEq, Prod.mk.injEq] at hexec
    rcases hexec with ⟨rfl, rfl⟩
    refine ⟨by simp, ?_⟩
    intro o' base' m hwaits
    simp [IpcSystem.Waits, hcall] at hwaits
  · simp only [herror, Option.some.injEq, Prod.mk.injEq] at hexec
    rcases hexec with ⟨rfl, rfl⟩
    refine ⟨by simp, ?_⟩
    intro o' base' m hwaits
    simp [IpcSystem.Waits, IpcSystem.endCall] at hwaits

variable {id : BitVec 32}

theorem exec_rendezvousSend {tid : BitVec 64} {payload : Option (ℕ → Byte)} {size : ℕ}
    {senderTid : BitVec 64} :
    y.exec (.rendezvousSend k tid id payload size senderTid) ≠ some (.status 0, y') := by
  intro hexec
  rcases begin_eq_some hexec with ⟨_, hfirst⟩
  split at hfirst
  · rename_i z hcheck
    have hz : z = -1 := by
      unfold rendezvousSendCheck at hcheck
      repeat' split at hcheck
      all_goals simp_all
    simp [hz] at hfirst
  · simp at hfirst

theorem exec_resume_taking (hinv : SystemInv y) (h : RendezvousInv y) {capacity : ℕ}
    (hcall : y.calls k = some (.taking id capacity)) {m : Received}
    (hexec : y.exec (.resume k) = some (.message m, y')) :
    (y.postedOn (channelIndex id))[(y.takenOn (channelIndex id)).length]? = some m ∧
      y'.takenOn = update y.takenOn (channelIndex id)
        (y.takenOn (channelIndex id) ++ [m]) ∧ y'.postedOn = y.postedOn := by
  simp only [IpcSystem.exec, hcall, IpcSystem.resume, IpcSystem.takeSection] at hexec
  rcases rendezvousTake_fails y.ipc id capacity with ⟨m', ipc, hok⟩ | hagain | ⟨z, _, herror⟩
  · simp only [hok, Option.some.injEq, Prod.mk.injEq, Reply.message.injEq] at hexec
    rcases hexec with ⟨rfl, rfl⟩
    rcases rendezvousTake_succeeds hinv.queues hok with ⟨honly, _, _, hfull, _⟩
    exact ⟨(h.queue _ honly.index_lt).next hfull, IpcSystem.history_grows fun _ => rfl,
      IpcSystem.history_same fun _ => rfl⟩
  · simp [hagain] at hexec
  · simp [herror] at hexec

/-- The status `-4` is returned for a message in the slot. -/
theorem rendezvousTake_tooSmall {s s' : IpcState} {capacity : ℕ}
    (h : rendezvousTake s id capacity = (.done (.error (-4)), s')) :
    s' = s ∧ s.slot (channelIndex id) ≠ [] := by
  unfold rendezvousTake at h
  split at h
  · simp at h
  simp only at h
  split at h
  · rename_i hpending
    split at h
    · simp only [Prod.mk.injEq] at h
      refine ⟨h.2.symm, ?_⟩
      rw [Ne, slot_eq_nil, hpending]
      simp
    · simp at h
  · simp at h

theorem exec_resume_tooSmall {capacity : ℕ} (hcall : y.calls k = some (.taking id capacity))
    (hexec : y.exec (.resume k) = some (.status (-4), y')) :
    y'.ipc = y.ipc ∧ y.ipc.slot (channelIndex id) ≠ [] := by
  simp only [IpcSystem.exec, hcall, IpcSystem.resume, IpcSystem.takeSection] at hexec
  split at hexec
  · simp at hexec
  · rename_i z ipc htake
    simp only [Option.some.injEq, Prod.mk.injEq, Reply.status.injEq] at hexec
    rcases hexec with ⟨rfl, rfl⟩
    exact rendezvousTake_tooSmall htake
  · simp at hexec

/-- In every run of calls from any tasks rendezvous hands each posted message to one receiver, in
the order of the posts, before its send returns 0. -/
theorem rendezvous_run_safe (s : IpcState) (caps : CapabilityState) (ops : List IpcStep)
    (y : IpcSystem) (hrun : ops.foldlM IpcSystem.step (IpcSystem.start s caps) = some y) :
    HandoverSpec y := by
  rcases rendezvousInv_run hrun with ⟨hinv, h⟩
  exact {
    order := h.queue
    begun := fun _ _ _ _ _ _ _ hexec => rendezvousSend_begins hexec
    begun_recv := by
      intro k id capacity outs y' hexec
      obtain ⟨_, hfirst⟩ := begin_eq_some hexec
      cases outs with
      | false => simp at hfirst
      | true => exact (Prod.mk.inj hfirst).2.symm
    kept := callsKept y
    post := fun k o o' base n r y' hcall hexec hwaits =>
      (exec_resume_posting hinv hcall hexec).2 o' base n hwaits
    own := fun k o base n hwaits => (h.waits k o base n hwaits).own
    distinct := h.distinct
    returns := fun k o base n y' hwaits hexec => h.returns hwaits hexec
    not_before := fun k o y' hcall hexec => (exec_resume_posting hinv hcall hexec).1 rfl
    not_begin := fun _ _ _ _ _ _ _ => exec_rendezvousSend
    recv := fun k id capacity m y' hcall hexec => exec_resume_taking hinv h hcall hexec
    tooSmall := fun k id capacity y' hcall hexec => exec_resume_tooSmall hcall hexec }

/-- One message is posted and received; its send has not returned yet. -/
def oneMessage : List IpcStep :=
  [.channelCreate (some fun i => if i < 1 then 97#8 else 0#8),
    .rendezvousSend 0 5#64 0#32 (some fun i => BitVec.ofNat 8 (i + 1)) 2 0#64,
    .rendezvousRecv 1 0#32 64 true, .resume 0, .resume 1]

theorem rendezvous_run_safe_one_message :
    ∃ y : IpcSystem,
      oneMessage.foldlM IpcSystem.step (IpcSystem.start staleIpc staleCaps) = some y ∧
      y.takenOn 0 = [⟨[1#8, 2#8], 2, 5#64, false, 0, 0#16⟩] ∧ HandoverSpec y := by
  have htaken : (oneMessage.foldlM IpcSystem.step
      (IpcSystem.start staleIpc staleCaps)).map (·.takenOn 0) =
      some [⟨[1#8, 2#8], 2, 5#64, false, 0, 0#16⟩] := by
    decide +kernel
  obtain ⟨y, hrun, hy⟩ := Option.map_eq_some_iff.mp htaken
  exact ⟨y, hrun, hy, rendezvous_run_safe staleIpc staleCaps oneMessage y hrun⟩

end GnuOS.Ipc

import GnuOS.Ipc.Fifo

/-!
# Rendezvous

The rendezvous slot of a channel is a queue of at most one message between the senders that post
and the receivers that take.  The generation counter counts the messages taken, so the value that
a sender reads when it posts is the position of its message among those posted on the channel.
-/

namespace GnuOS.Ipc

open GnuOS.Lib GnuOS.Capability Function

variable {y y' : IpcSystem} {r : Reply}

/-! ## What a step does to the slots -/

/-- The slots, their histories and the waiting senders stay as they are; senders may return, and
channels may be created. -/
structure Quiet (y y' : IpcSystem) : Prop where
  slot : y'.ipc.slot = y.ipc.slot
  posted : y'.postedOn = y.postedOn
  taken : y'.takenOn = y.takenOn
  waiting : ∀ k o base n, y'.calls k = some (.waiting o base n) →
    y.calls k = some (.waiting o base n)
  inUse : ∀ c, (y.ipc.channels c).inUse = true → (y'.ipc.channels c).inUse = true
  generation : ∀ c, y'.ipc.generation c = y.ipc.generation c ∨
    (c < 16 ∧ (y.ipc.channels c).inUse = false ∧ y'.ipc.generation c = 0#64)

/-- Call `k` posts its message in an empty slot, and waits. -/
structure Posts (y y' : IpcSystem) (k : ℕ) (o : Outgoing) (base : BitVec 64) : Prop where
  call : y.calls k = some (.posting o)
  valid : ipcIsValidChannelId y.ipc o.args.channelId = true
  empty : y.ipc.slot o.channel = []
  slot : y'.ipc.slot = update y.ipc.slot o.channel [o.delivered]
  posted : y'.postedOn =
    update y.postedOn o.channel (y.postedOn o.channel ++ [o.delivered])
  taken : y'.takenOn = y.takenOn
  base_eq : base = y.ipc.generation o.channel
  generation : y'.ipc.generation = y.ipc.generation
  inUse : ∀ c, (y'.ipc.channels c).inUse = (y.ipc.channels c).inUse
  calls : y'.calls =
    update y.calls k (some (.waiting o base (y.postedOn o.channel).length))

/-- A message is taken from a slot, and counted. -/
structure Takes (y y' : IpcSystem) (c : ℕ) (m : Received) : Prop where
  index_lt : c < 16
  used : (y.ipc.channels c).inUse = true
  full : y.ipc.slot c = [m]
  slot : y'.ipc.slot = update y.ipc.slot c []
  posted : y'.postedOn = y.postedOn
  taken : y'.takenOn = update y.takenOn c (y.takenOn c ++ [m])
  generation : y'.ipc.generation = update y.ipc.generation c (y.ipc.generation c + 1#64)
  inUse : ∀ c, (y'.ipc.channels c).inUse = (y.ipc.channels c).inUse
  waiting : ∀ k o base n, y'.calls k = some (.waiting o base n) →
    y.calls k = some (.waiting o base n)

/-- An event that is neither a post nor a take, on a state with the same slots. -/
theorem Quiet.of_event {ipc : IpcState} {caps : CapabilityState} {calls : ℕ → Option Call}
    {e : Event} (hslot : ipc.slot = y.ipc.slot) (hgen : ipc.generation = y.ipc.generation)
    (hsame : SameRegistry y.ipc ipc)
    (hwaiting : ∀ k o base n, calls k = some (.waiting o base n) →
      y.calls k = some (.waiting o base n))
    (hposted : ∀ c, e.postedOn c = none) (htaken : ∀ c, e.takenOn c = none) :
    Quiet y ((⟨ipc, caps, calls, y.log⟩ : IpcSystem).record e) where
  slot := hslot
  posted := IpcSystem.history_same hposted
  taken := IpcSystem.history_same htaken
  waiting := hwaiting
  inUse c huse := (hsame c).1.trans huse
  generation c := .inl (congrFun hgen c)

theorem waiting_of_update {calls : ℕ → Option Call} {k : ℕ} {call : Call}
    (hcall : ∀ o base n, call ≠ .waiting o base n) {j : ℕ} {o : Outgoing} {base : BitVec 64}
    {n : ℕ} (h : update calls k (some call) j = some (.waiting o base n)) :
    calls j = some (.waiting o base n) := by
  by_cases hjk : j = k
  · rw [hjk, update_self, Option.some.injEq] at h
    exact absurd h (hcall o base n)
  · rwa [update_of_ne hjk] at h

/-- A channel that is created had an empty slot, and its counter starts at 0. -/
theorem ipcChannelCreate_rendezvous {s : IpcState} (text : ℕ → Byte) :
    (∀ c, (s.channels c).inUse = true →
      ((ipcChannelCreate s (some text)).2.channels c).inUse = true) ∧
    ∀ c, (ipcChannelCreate s (some text)).2.generation c = s.generation c ∨
      (c < 16 ∧ (s.channels c).inUse = false ∧
        (ipcChannelCreate s (some text)).2.generation c = 0#64) := by
  have hcases := ipcChannelCreate_cases s text
  generalize ipcChannelCreate s (some text) = result at hcases
  cases hcases with
  | badName _ => exact ⟨fun _ h => h, fun _ => .inl rfl⟩
  | existing i _ _ _ => exact ⟨fun _ h => h, fun _ => .inl rfl⟩
  | full _ _ _ _ => exact ⟨fun _ h => h, fun _ => .inl rfl⟩
  | created i hpos hlt hfind hi hunused =>
    constructor
    · intro c huse
      by_cases hci : c = i
      · rw [hci, createdState_self]
        rfl
      · rwa [createdState_other hci]
    · intro c
      by_cases hci : c = i
      · subst hci
        refine .inr ⟨hi, hunused, ?_⟩
        rw [IpcState.generation, createdState_self]
        rfl
      · left
        rw [IpcState.generation, createdState_other hci]
        rfl

/-- With respect to the slots a step posts a message, takes one, or changes nothing. -/
theorem Transition.rendezvous (htrans : Transition y r y') (hinv : SystemInv y) :
    Quiet y y' ∨ (∃ k o base, Posts y y' k o base) ∨ ∃ c m, Takes y y' c m := by
  cases htrans with
  | idle r calls hcalls =>
    exact .inl ⟨rfl, rfl, rfl, fun k o base n h => hcalls k _ h, fun _ h => h,
      fun _ => .inl rfl⟩
  | begun k call _ _ hnot =>
    exact .inl ⟨rfl, rfl, rfl, fun j o base n h => waiting_of_update hnot h,
      fun _ h => h, fun _ => .inl rfl⟩
  | channelCreated text =>
    have hkeeps := ipcChannelCreate_keeps hinv.names hinv.queues text
    have hcreate := ipcChannelCreate_rendezvous (s := y.ipc) text
    exact .inl ⟨hkeeps.2.2.2, rfl, rfl, fun k o base n h => h, hcreate.1, hcreate.2⟩
  | sent o ipc calls hresolved hsend hcalls =>
    rcases sendLocked_succeeds hinv.queues hresolved hsend with ⟨honly, _, _, hslot, hgen⟩
    exact .inl (Quiet.of_event hslot hgen honly.registry
      (fun k o base n h => hcalls k _ h) (fun _ => rfl) (fun _ => rfl))
  | received id capacity m ipc hrecv =>
    rcases ipcChannelRecvInternal_succeeds hinv.queues hrecv with ⟨honly, _, _, hslot, hgen⟩
    exact .inl (Quiet.of_event hslot hgen honly.registry
      (fun k o base n h => h) (fun _ => rfl) (fun _ => rfl))
  | receivedCapability k tid id capacity m ipc hcall hrecv =>
    rcases ipcChannelRecvInternal_succeeds hinv.queues hrecv with ⟨honly, _, _, hslot, hgen⟩
    exact .inl (Quiet.of_event hslot hgen honly.registry
      (fun j o base n h => waiting_of_update (by simp) h) (fun _ => rfl)
      (fun _ => rfl))
  | posted k o base ipc hcall hpost =>
    rcases hinv.resolved k _ hcall with ⟨hcap, hresolved⟩
    rcases rendezvousPost_succeeds hinv.queues hcap hresolved hpost with
      ⟨honly, _, _, hempty, hslot, hgen, hbase, hvalid⟩
    refine .inr (.inl ⟨k, o, base, ?_⟩)
    exact {
      call := hcall
      valid := hvalid
      empty := hempty
      slot := honly.slot_update hslot
      posted := IpcSystem.history_grows fun _ => rfl
      taken := IpcSystem.history_same fun _ => rfl
      base_eq := hbase
      generation := hgen
      inUse := fun c => (honly.registry c).1
      calls := rfl }
  | taken k id capacity m ipc htake =>
    rcases rendezvousTake_succeeds hinv.queues htake with
      ⟨honly, _, _, hfull, hslot, hgen⟩
    refine .inr (.inr ⟨channelIndex id, m, ?_⟩)
    exact {
      index_lt := honly.index_lt
      used := honly.inUse
      full := hfull
      slot := honly.slot_update hslot
      posted := IpcSystem.history_same fun _ => rfl
      taken := IpcSystem.history_grows fun _ => rfl
      generation := honly.generation_update hgen
      inUse := fun c => (honly.registry c).1
      waiting := fun j o base n h => callsEnd_update y.calls k j _ h }
  | capabilityCreated owner object rights id caps _ =>
    exact .inl (Quiet.of_event rfl rfl (fun _ => ⟨rfl, rfl⟩)
      (fun k o base n h => h) (fun _ => rfl) (fun _ => rfl))
  | capabilityCopied r id owner mask target new caps calls _ _ hcalls =>
    exact .inl (Quiet.of_event rfl rfl (fun _ => ⟨rfl, rfl⟩)
      (fun k o base n h => hcalls k _ h) (fun _ => rfl) (fun _ => rfl))

/-! ## The invariant -/

/-- A sender waits until its message is taken; `n` messages were posted on the channel before. -/
def IpcSystem.Waits (y : IpcSystem) (k : ℕ) (o : Outgoing) (base : BitVec 64) (n : ℕ) : Prop :=
  y.calls k = some (.waiting o base n)

/-- What is known about a waiting sender: the value it read when posting is the position of its
message. -/
structure WaitInv (y : IpcSystem) (o : Outgoing) (base : BitVec 64) (n : ℕ) : Prop where
  valid : ipcIsValidChannelId y.ipc o.args.channelId = true
  base_eq : base = BitVec.ofNat 64 n
  own : (y.postedOn o.channel)[n]? = some o.delivered

structure RendezvousInv (y : IpcSystem) : Prop where
  queue : ∀ c, c < 16 → Fifo (y.postedOn c) (y.takenOn c) (y.ipc.slot c)
  /-- The counter counts the messages taken. -/
  generation : ∀ c, c < 16 → y.ipc.generation c = BitVec.ofNat 64 (y.takenOn c).length
  unused : ∀ c, c < 16 → (y.ipc.channels c).inUse = false → y.takenOn c = []
  waits : ∀ k o base n, y.Waits k o base n → WaitInv y o base n
  distinct : ∀ k o base k' o' base' n, y.Waits k o base n → y.Waits k' o' base' n →
    o.channel = o'.channel → k = k'

/-- A sender goes on waiting while channels stay in use and messages keep their positions. -/
theorem WaitInv.mono {o : Outgoing} {base : BitVec 64} {n : ℕ} (h : WaitInv y o base n)
    (huse : ∀ c, (y.ipc.channels c).inUse = true → (y'.ipc.channels c).inUse = true)
    (hposted : ∀ m, (y.postedOn o.channel)[n]? = some m → (y'.postedOn o.channel)[n]? = some m) :
    WaitInv y' o base n where
  valid := ipcIsValidChannelId_mono h.valid huse
  base_eq := h.base_eq
  own := hposted _ h.own

theorem Quiet.inv (hquiet : Quiet y y') (h : RendezvousInv y) : RendezvousInv y' where
  queue c hc := by
    rw [hquiet.posted, hquiet.taken, hquiet.slot]
    exact h.queue c hc
  generation c hc := by
    rw [hquiet.taken]
    rcases hquiet.generation c with hsame | hnew
    · rw [hsame]
      exact h.generation c hc
    · -- nothing was taken from a channel that is only created now
      rw [hnew.2.2, h.unused c hc hnew.2.1]
      rfl
  unused c hc hunused := by
    rw [hquiet.taken]
    apply h.unused c hc
    by_contra huse
    rw [hquiet.inUse c (by simpa using huse)] at hunused
    exact absurd hunused (by simp)
  waits k o base n hwaits := by
    apply (h.waits k o base n (hquiet.waiting k o base n hwaits)).mono hquiet.inUse
    rw [hquiet.posted]
    exact fun _ hm => hm
  distinct k o base k' o' base' n hwaits hwaits' hchannel :=
    h.distinct k o base k' o' base' n (hquiet.waiting k o base n hwaits)
      (hquiet.waiting k' o' base' n hwaits') hchannel

section

variable {k : ℕ} {o : Outgoing} {base : BitVec 64}

section

variable (hposts : Posts y y' k o base)

include hposts

/-- The senders that wait after a post are the one that posted and those that waited before. -/
theorem Posts.waits {j : ℕ} {o' : Outgoing} {base' : BitVec 64} {n : ℕ}
    (hwaits : y'.Waits j o' base' n) :
    (j = k ∧ o' = o ∧ base' = base ∧ n = (y.postedOn o.channel).length) ∨
      y.Waits j o' base' n := by
  unfold IpcSystem.Waits at hwaits
  rw [hposts.calls] at hwaits
  by_cases hjk : j = k
  · rw [hjk, update_self, Option.some.injEq, Call.waiting.injEq] at hwaits
    exact .inl ⟨hjk, hwaits.1.symm, hwaits.2.1.symm, hwaits.2.2.symm⟩
  · rw [update_of_ne hjk] at hwaits
    exact .inr hwaits

/-- Earlier messages keep their positions. -/
theorem Posts.getElem? {c n : ℕ} {m : Received} (h : (y.postedOn c)[n]? = some m) :
    (y'.postedOn c)[n]? = some m := by
  rw [hposts.posted]
  by_cases hc : c = o.channel
  · subst hc
    have hn := (List.getElem?_eq_some_iff.mp h).1
    rw [update_self, List.getElem?_append_left hn, h]
  · rw [update_of_ne hc, h]

/-- When a message is posted all earlier ones were taken. -/
theorem Posts.length_eq (h : RendezvousInv y) :
    (y.postedOn o.channel).length = (y.takenOn o.channel).length := by
  have hlength := (h.queue o.channel (inUse_of_valid hposts.valid).1).length_eq
  rw [hposts.empty] at hlength
  exact hlength

theorem Posts.inv (h : RendezvousInv y) : RendezvousInv y' where
  queue c hc := by
    rw [hposts.posted, hposts.taken, hposts.slot]
    by_cases hco : c = o.channel
    · subst hco
      rw [update_self, update_self]
      have hput := (h.queue o.channel hc).put o.delivered
      rwa [hposts.empty] at hput
    · rw [update_of_ne hco, update_of_ne hco]
      exact h.queue c hc
  generation c hc := by
    rw [hposts.generation, hposts.taken]
    exact h.generation c hc
  unused c hc hunused := by
    rw [hposts.inUse] at hunused
    rw [hposts.taken]
    exact h.unused c hc hunused
  waits j o' base' n hwaits := by
    have huse : ∀ c, (y.ipc.channels c).inUse = true → (y'.ipc.channels c).inUse = true :=
      fun c hc => (hposts.inUse c).trans hc
    rcases hposts.waits hwaits with ⟨rfl, rfl, rfl, rfl⟩ | hold
    · refine ⟨ipcIsValidChannelId_mono hposts.valid huse, ?_, ?_⟩
      · rw [hposts.length_eq h, hposts.base_eq]
        exact h.generation _ (inUse_of_valid hposts.valid).1
      · rw [hposts.posted, update_self]
        simp
    · exact (h.waits j o' base' n hold).mono huse fun m => hposts.getElem?
  distinct j o₁ base₁ j' o₂ base₂ n hwaits hwaits' hchannel := by
    -- an earlier sender has an earlier position
    have hlt : ∀ i o' base', y.Waits i o' base' n → o'.channel = o.channel →
        n < (y.postedOn o.channel).length := by
      intro i o' base' hold hsame
      have hown := (h.waits i o' base' n hold).own
      rw [hsame] at hown
      exact (List.getElem?_eq_some_iff.mp hown).1
    rcases hposts.waits hwaits with hnew | hold <;> rcases hposts.waits hwaits' with hnew' | hold'
    · rw [hnew.1, hnew'.1]
    · have hlt' := hlt j' o₂ base₂ hold' (hchannel.symm.trans (by rw [hnew.2.1]))
      omega
    · have hlt' := hlt j o₁ base₁ hold (hchannel.trans (by rw [hnew'.2.1]))
      omega
    · exact h.distinct j o₁ base₁ j' o₂ base₂ n hold hold' hchannel

end

end

theorem Takes.inv {c : ℕ} {m : Received} (htakes : Takes y y' c m) (h : RendezvousInv y) :
    RendezvousInv y' where
  queue c' hc' := by
    rw [htakes.posted, htakes.taken, htakes.slot]
    by_cases hcc : c' = c
    · subst hcc
      rw [update_self, update_self]
      exact (h.queue c' hc').take htakes.full
    · rw [update_of_ne hcc, update_of_ne hcc]
      exact h.queue c' hc'
  generation c' hc' := by
    rw [htakes.generation, htakes.taken]
    by_cases hcc : c' = c
    · subst hcc
      rw [update_self, update_self, h.generation c' hc', List.length_append,
        List.length_singleton, BitVec.ofNat_add]
    · rw [update_of_ne hcc, update_of_ne hcc]
      exact h.generation c' hc'
  unused c' hc' hunused := by
    rw [htakes.inUse] at hunused
    -- messages are taken only from channels in use
    have hcc : c' ≠ c := by
      intro hcc
      rw [hcc, htakes.used] at hunused
      exact absurd hunused (by simp)
    rw [htakes.taken, update_of_ne hcc]
    exact h.unused c' hc' hunused
  waits k o base n hwaits := by
    apply (h.waits k o base n (htakes.waiting k o base n hwaits)).mono
      fun c hc => (htakes.inUse c).trans hc
    rw [htakes.posted]
    exact fun _ hm => hm
  distinct k o base k' o' base' n hwaits hwaits' hchannel :=
    h.distinct k o base k' o' base' n (htakes.waiting k o base n hwaits)
      (htakes.waiting k' o' base' n hwaits') hchannel

theorem start_rendezvousInv (s : IpcState) (caps : CapabilityState) :
    RendezvousInv (IpcSystem.start s caps) where
  queue c hc := by
    show Fifo [] [] ((ipcInit s).slot c)
    rw [((ipcInit_inv s).2.2 c hc).2.1]
    exact Fifo.empty
  generation c hc := ((ipcInit_inv s).2.2 c hc).2.2
  unused c _ _ := rfl
  waits k o base n hwaits := absurd hwaits (by simp [IpcSystem.Waits, IpcSystem.start])
  distinct k o base k' o' base' n hwaits :=
    absurd hwaits (by simp [IpcSystem.Waits, IpcSystem.start])

theorem rendezvousInv_step (h : SystemInv y ∧ RendezvousInv y) {op : IpcStep}
    (hstep : y.step op = some y') : SystemInv y' ∧ RendezvousInv y' := by
  rcases step_eq_some.mp hstep with ⟨r, hexec⟩
  have htrans := exec_transition h.1.resolved hexec
  refine ⟨htrans.systemInv h.1, ?_⟩
  rcases htrans.rendezvous h.1 with hquiet | ⟨k, o, base, hposts⟩ | ⟨c, m, htakes⟩
  · exact hquiet.inv h.2
  · exact hposts.inv h.2
  · exact htakes.inv h.2

/-- The tables and the slots in every state of a run. -/
theorem rendezvousInv_run {s : IpcState} {caps : CapabilityState} {ops : List IpcStep}
    (hrun : ops.foldlM IpcSystem.step (IpcSystem.start s caps) = some y) :
    SystemInv y ∧ RendezvousInv y :=
  run_invariant (P := fun y => SystemInv y ∧ RendezvousInv y)
    (fun _ _ _ h hstep => rendezvousInv_step h hstep)
    ⟨start_systemInv s caps, start_rendezvousInv s caps⟩ hrun

end GnuOS.Ipc

import GnuOS.Ipc.Channels
import GnuOS.Lib.Fifo
import GnuOS.Lib.Runs

/-!
# Calls from any number of tasks

The system that the functions of `ipc.c` and `capability.c` form when tasks call them
concurrently.  A step is one critical section of one call; a call with several of them is kept
between two sections under a number.  The log is a history variable: what was sent, received,
posted and taken on each channel and which capabilities were created and copied.
-/

namespace GnuOS.Ipc

open GnuOS.Lib GnuOS.Capability Function List

/-! ## States -/

/-- A call between two of its critical sections, with its arguments and local variables. -/
inductive Call
  /-- `ipc_channel_send_capability` after the checks, before the lock. -/
  | sending (o : Outgoing)
  /-- `ipc_channel_recv_capability` after the message was received. -/
  | copying (tid : BitVec 64) (m : Received)
  /-- The first loop of `ipc_channel_rendezvous_send`. -/
  | posting (o : Outgoing)
  /-- The second loop of `ipc_channel_rendezvous_send`; `position` is a history variable, the
  number of messages that were posted on the channel before this one. -/
  | waiting (o : Outgoing) (baseGeneration : BitVec 64) (position : ℕ)
  /-- The loop of `ipc_channel_rendezvous_recv`. -/
  | taking (channelId : BitVec 32) (payloadCapacity : ℕ)

inductive Event
  | sent (o : Outgoing)
  | received (channel : ℕ) (m : Received)
  | posted (o : Outgoing)
  | taken (channel : ℕ) (m : Received)
  | capabilityCreated (id : ℕ) (objectId : BitVec 64)
  | capabilityCopied (source target : ℕ) (ownerTid : BitVec 64)

/-- The message that an event sends on a channel. -/
def Event.sentOn (c : ℕ) : Event → Option Received
  | .sent o => if o.channel = c then some o.delivered else none
  | _ => none

def Event.receivedOn (c : ℕ) : Event → Option Received
  | .received c' m => if c' = c then some m else none
  | _ => none

def Event.postedOn (c : ℕ) : Event → Option Received
  | .posted o => if o.channel = c then some o.delivered else none
  | _ => none

def Event.takenOn (c : ℕ) : Event → Option Received
  | .taken c' m => if c' = c then some m else none
  | _ => none

structure IpcSystem where
  ipc : IpcState
  caps : CapabilityState
  calls : ℕ → Option Call
  log : List Event

/-- The system after `ipc_init`, with no call in progress. -/
def IpcSystem.start (s : IpcState) (caps : CapabilityState) : IpcSystem :=
  ⟨ipcInit s, caps, fun _ => none, []⟩

/-- Memory before `ipc_init`: something is left in every field. -/
def staleIpc : IpcState :=
  let message : Message := ⟨3#64, 9, true, 4, 1#16, fun _ => 255#8⟩
  ⟨fun _ => ⟨true, fun _ => 1#8, ⟨fun _ => message, 7, 5, 40⟩, true, 6#64, message⟩, 3⟩

/-- Memory before `capability_init`. -/
def staleCaps : CapabilityState := ⟨fun _ => ⟨true, 7#64, 7#64, 15#16⟩, 9⟩

/-- What the caller sees of a step. -/
inductive Reply
  | status (status : ℤ)
  | message (m : Received)
  | messageCapability (m : Received) (id : ℕ)
  | capability (id : ℕ)
  | continues
  deriving DecidableEq

namespace IpcSystem

def setCall (y : IpcSystem) (k : ℕ) (call : Call) : IpcSystem :=
  { y with calls := update y.calls k (some call) }

def endCall (y : IpcSystem) (k : ℕ) : IpcSystem :=
  { y with calls := update y.calls k none }

def record (y : IpcSystem) (e : Event) : IpcSystem := { y with log := y.log ++ [e] }

/-! ## The history of a channel -/

/-- The messages that were sent on a channel, as they should be received. -/
def sentOn (y : IpcSystem) (c : ℕ) : List Received := y.log.filterMap (Event.sentOn c)

def receivedOn (y : IpcSystem) (c : ℕ) : List Received := y.log.filterMap (Event.receivedOn c)

/-- The messages that rendezvous senders posted on a channel, as they should be received. -/
def postedOn (y : IpcSystem) (c : ℕ) : List Received := y.log.filterMap (Event.postedOn c)

def takenOn (y : IpcSystem) (c : ℕ) : List Received := y.log.filterMap (Event.takenOn c)

section History

variable {y : IpcSystem} {e : Event} {f : ℕ → Event → Option Received}

/-- An event of another kind leaves the histories of all channels alone. -/
theorem history_same (h : ∀ c, f c e = none) :
    (fun c => (y.record e).log.filterMap (f c)) = fun c => y.log.filterMap (f c) := by
  funext c
  rw [record, filterMap_append, filterMap_cons_none (h c), filterMap_nil,
    append_nil]

/-- An event on channel `i` appends to its history. -/
theorem history_grows {i : ℕ} {m : Received} (h : ∀ c, f c e = if i = c then some m else none) :
    (fun c => (y.record e).log.filterMap (f c)) =
      update (fun c => y.log.filterMap (f c)) i (y.log.filterMap (f i) ++ [m]) := by
  funext c
  rw [record, filterMap_append]
  by_cases hic : i = c
  · subst hic
    rw [filterMap_cons_some ((h i).trans (if_pos rfl)), filterMap_nil,
      update_self]
  · rw [filterMap_cons_none ((h c).trans (if_neg hic)), filterMap_nil, append_nil,
      update_of_ne (Ne.symm hic)]

end History

/-! ## Critical sections -/

def sendSection (y : IpcSystem) (o : Outgoing) : Reply × IpcSystem :=
  match sendLocked y.ipc o.args o.payload o.sender with
  | (0, ipc) => (.status 0, { y with ipc := ipc }.record (.sent o))
  | (status, ipc) => (.status status, { y with ipc := ipc })

def recvSection (y : IpcSystem) (channelId : BitVec 32) (payloadCapacity : ℕ)
    (outsPresent : Bool) : Except ℤ Received × IpcSystem :=
  match ipcChannelRecvInternal y.ipc channelId payloadCapacity outsPresent with
  | (.ok m, ipc) => (.ok m, { y with ipc := ipc }.record (.received (channelIndex channelId) m))
  | (.error status, ipc) => (.error status, { y with ipc := ipc })

def copySection (y : IpcSystem) (k : ℕ) (tid : BitVec 64) (m : Received) : Reply × IpcSystem :=
  match recvCapabilityCopy y.caps tid m with
  | (.error status, caps) => (.status status, { y with caps := caps }.endCall k)
  | (.ok id, caps) =>
    if m.hasCapability then
      (.messageCapability m id,
        ({ y with caps := caps }.record
          (.capabilityCopied m.capabilityId id m.senderTid)).endCall k)
    else (.messageCapability m 0, { y with caps := caps }.endCall k)

def postSection (y : IpcSystem) (k : ℕ) (o : Outgoing) : Reply × IpcSystem :=
  match rendezvousPost y.ipc o.args.channelId o.payload o.args.size o.sender with
  | (.again, ipc) => (.continues, { y with ipc := ipc })
  | (.done (.error status), ipc) => (.status status, { y with ipc := ipc }.endCall k)
  | (.done (.ok base), ipc) =>
    (.continues,
      ({ y with ipc := ipc }.record (.posted o)).setCall k
        (.waiting o base (y.postedOn o.channel).length))

def pollSection (y : IpcSystem) (k : ℕ) (channelId : BitVec 32) (baseGeneration : BitVec 64) :
    Reply × IpcSystem :=
  match rendezvousPoll y.ipc channelId baseGeneration with
  | .again => (.continues, y)
  | .done status => (.status status, y.endCall k)

def takeSection (y : IpcSystem) (k : ℕ) (channelId : BitVec 32) (payloadCapacity : ℕ) :
    Reply × IpcSystem :=
  match rendezvousTake y.ipc channelId payloadCapacity with
  | (.again, ipc) => (.continues, { y with ipc := ipc })
  | (.done (.error status), ipc) => (.status status, { y with ipc := ipc }.endCall k)
  | (.done (.ok m), ipc) =>
    (.message m, ({ y with ipc := ipc }.record (.taken (channelIndex channelId) m)).endCall k)

/-- The next section of a call in progress. -/
def resume (y : IpcSystem) (k : ℕ) : Call → Reply × IpcSystem
  | .sending o => ((y.sendSection o).1, (y.sendSection o).2.endCall k)
  | .copying tid m => y.copySection k tid m
  | .posting o => y.postSection k o
  | .waiting o baseGeneration _ => y.pollSection k o.args.channelId baseGeneration
  | .taking channelId payloadCapacity => y.takeSection k channelId payloadCapacity

end IpcSystem

/-! ## Steps -/

/-- A call of one section, the first section of a call `k`, or its next section. -/
inductive IpcStep
  | channelCreate (name : Option (ℕ → Byte))
  | channelFind (name : Option (ℕ → Byte))
  | send (tid : BitVec 64) (channelId : BitVec 32) (payload : Option (ℕ → Byte)) (size : ℕ)
      (senderTid : BitVec 64)
  | sendCapability (k : ℕ) (tid : BitVec 64) (channelId : BitVec 32)
      (payload : Option (ℕ → Byte)) (size : ℕ) (senderTid : BitVec 64) (capabilityId : ℕ)
      (capabilityRights : BitVec 16)
  | recv (channelId : BitVec 32) (payloadCapacity : ℕ) (outsPresent : Bool)
  | recvCapability (k : ℕ) (tid : BitVec 64) (channelId : BitVec 32) (payloadCapacity : ℕ)
      (outsPresent : Bool)
  | rendezvousSend (k : ℕ) (tid : BitVec 64) (channelId : BitVec 32)
      (payload : Option (ℕ → Byte)) (size : ℕ) (senderTid : BitVec 64)
  | rendezvousRecv (k : ℕ) (channelId : BitVec 32) (payloadCapacity : ℕ) (outsPresent : Bool)
  | capabilityCreate (ownerTid objectId : BitVec 64) (rights : BitVec 16) (outPresent : Bool)
  | capabilityCopyForOwner (capabilityId : ℕ) (ownerTid : BitVec 64) (rightsMask : BitVec 16)
      (targetTid : BitVec 64) (outPresent : Bool)
  | resume (k : ℕ)

namespace IpcSystem

/-- The part of a call `k` that is executed when it is made; `none` if `k` is in use. -/
def begin (y : IpcSystem) (k : ℕ) (first : Reply × IpcSystem) : Option (Reply × IpcSystem) :=
  match y.calls k with
  | none => some first
  | some _ => none

def exec (y : IpcSystem) : IpcStep → Option (Reply × IpcSystem)
  | .channelCreate name =>
    some (.status (ipcChannelCreate y.ipc name).1,
      { y with ipc := (ipcChannelCreate y.ipc name).2 })
  | .channelFind name => some (.status (ipcChannelFind y.ipc name), y)
  | .send tid channelId payload size senderTid =>
    match sendCheck y.caps tid (sendArgs channelId payload size senderTid) with
    | .error status => some (.status status, y)
    | .ok (payload', sender) =>
      some (y.sendSection ⟨tid, sendArgs channelId payload size senderTid, payload', sender⟩)
  | .sendCapability k tid channelId payload size senderTid capabilityId capabilityRights =>
    y.begin k <|
      match sendCapabilityArgs channelId payload size senderTid capabilityId
        capabilityRights with
      | .error status => (.status status, y)
      | .ok a =>
        match sendCheck y.caps tid a with
        | .error status => (.status status, y)
        | .ok (payload', sender) => (.continues, y.setCall k (.sending ⟨tid, a, payload', sender⟩))
  | .recv channelId payloadCapacity outsPresent =>
    match y.recvSection channelId payloadCapacity outsPresent with
    | (.error status, y') => some (.status status, y')
    | (.ok m, y') => some (.message m, y')
  | .recvCapability k tid channelId payloadCapacity outsPresent =>
    y.begin k <|
      match y.recvSection channelId payloadCapacity outsPresent with
      | (.error status, y') => (.status status, y')
      | (.ok m, y') => (.continues, y'.setCall k (.copying tid m))
  | .rendezvousSend k tid channelId payload size senderTid =>
    y.begin k <|
      match rendezvousSendCheck tid payload size senderTid with
      | .error status => (.status status, y)
      | .ok (payload', sender) =>
        (.continues,
          y.setCall k
            (.posting ⟨tid, sendArgs channelId payload size senderTid, payload', sender⟩))
  | .rendezvousRecv k channelId payloadCapacity outsPresent =>
    y.begin k <|
      if outsPresent = false then (.status (-1), y)
      else (.continues, y.setCall k (.taking channelId payloadCapacity))
  | .capabilityCreate ownerTid objectId rights outPresent =>
    match capabilityCreate y.caps ownerTid objectId rights outPresent with
    | (.error status, caps) => some (.status status, { y with caps := caps })
    | (.ok id, caps) =>
      some (.capability id, { y with caps := caps }.record (.capabilityCreated id objectId))
  | .capabilityCopyForOwner capabilityId ownerTid rightsMask targetTid outPresent =>
    match capabilityCopyForOwner y.caps capabilityId ownerTid rightsMask targetTid outPresent with
    | (.error status, caps) => some (.status status, { y with caps := caps })
    | (.ok id, caps) =>
      some (.capability id,
        { y with caps := caps }.record (.capabilityCopied capabilityId id ownerTid))
  | .resume k =>
    match y.calls k with
    | none => none
    | some call => some (y.resume k call)

/-- The state after a step. -/
def step (y : IpcSystem) (op : IpcStep) : Option IpcSystem := (y.exec op).map Prod.snd

end IpcSystem

end GnuOS.Ipc

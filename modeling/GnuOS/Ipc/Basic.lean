import GnuOS.Capability.Basic
import GnuOS.Lib.RingBuffer

/-!
# IPC channels

A model of `kernel/ipc/ipc.c`: 16 named channels, each with a ring of 32 messages and a
rendezvous slot.  What a function does under `g_ipc_lock` is one atomic step; functions that do
something before they take the lock, or that take it repeatedly, are split into their parts.

A text or a payload is the memory behind the pointer, `none` for `NULL`.  The tid of the caller
is a parameter: `ipc_current_tid` reads the task that executes the call.  The arguments of the
recv functions that are only written are represented by one flag, that none of them is `NULL`.
-/

namespace GnuOS.Ipc

open GnuOS.Lib GnuOS.Capability

/-! ## Data -/

def ipcMaxChannels : ℕ := 16
def ipcChannelNameMax : ℕ := 32
def ipcChannelQueueCapacity : ℕ := 32
def ipcMessageDataMax : ℕ := 64

abbrev Byte := BitVec 8

/-- `ipc_message_t`; the data beyond `size` are what earlier messages left there. -/
structure Message where
  senderTid : BitVec 64
  size : ℕ
  hasCapability : Bool
  capabilityId : ℕ
  capabilityRights : BitVec 16
  data : ℕ → Byte

/-- `ipc_channel_t` -/
structure Channel where
  inUse : Bool
  name : ℕ → Byte
  queue : RingBuffer Message
  rendezvousPending : Bool
  rendezvousGeneration : BitVec 64
  rendezvousMessage : Message

structure IpcState where
  channels : ℕ → Channel
  channelCount : ℕ

def IpcState.setChannel (s : IpcState) (i : ℕ) (c : Channel) : IpcState :=
  { s with channels := Function.update s.channels i c }

/-! ## Names -/

/-- The loop of `ipc_strnlen`, with `n` characters left before the limit. -/
def strnlenLoop (text : ℕ → Byte) : ℕ → ℕ → ℕ
  | 0, length => length
  | n + 1, length => if text length ≠ 0#8 then strnlenLoop text n (length + 1) else length

def ipcStrnlen (text : Option (ℕ → Byte)) (limit : ℕ) : ℕ :=
  match text with
  | none => 0
  | some text => strnlenLoop text limit 0

/-- The loop of `ipc_name_equal`. -/
def nameEqualLoop (left right : ℕ → Byte) : ℕ → ℕ → Bool
  | 0, _ => false
  | n + 1, index =>
    if left index ≠ right index then false
    else if left index = 0#8 then true
    else nameEqualLoop left right n (index + 1)

def ipcNameEqual (left right : ℕ → Byte) : Bool :=
  nameEqualLoop left right ipcChannelNameMax 0

/-- The copying loop of `ipc_name_copy`. -/
def nameCopyLoop (src : ℕ → Byte) : ℕ → ℕ → (ℕ → Byte) → ℕ → Byte
  | 0, _, dst => dst
  | n + 1, index, dst =>
    if src index ≠ 0#8 then nameCopyLoop src n (index + 1) (Function.update dst index (src index))
    else dst

/-- `ipc_name_copy`: the 32 characters are cleared first. -/
def ipcNameCopy (dst src : ℕ → Byte) : ℕ → Byte :=
  nameCopyLoop src (ipcChannelNameMax - 1) 0
    fun i => if i < ipcChannelNameMax then 0#8 else dst i

def ipcFindChannelLocked (s : IpcState) (name : ℕ → Byte) : Option ℕ :=
  (List.range ipcMaxChannels).find? fun i =>
    (s.channels i).inUse && ipcNameEqual (s.channels i).name name

/-- The index that `(uint16_t)channel_id` takes from an `int`. -/
def channelIndex (channelId : BitVec 32) : ℕ := (channelId.setWidth 16).toNat

def ipcIsValidChannelId (s : IpcState) (channelId : BitVec 32) : Bool :=
  if channelId.toInt < 0 then false
  else if ipcMaxChannels ≤ channelIndex channelId then false
  else (s.channels (channelIndex channelId)).inUse

/-! ## Channels -/

/-- A message slot as `ipc_init` and `ipc_channel_create` leave it. -/
def clearMessage (m : Message) : Message :=
  { m with
    senderTid := 0#64, size := 0, hasCapability := false, capabilityId := 0
    capabilityRights := 0#16 }

def clearChannel (c : Channel) (inUse : Bool) (name : ℕ → Byte) : Channel where
  inUse := inUse
  name := ipcNameCopy c.name name
  queue := c.queue.reset
  rendezvousPending := false
  rendezvousGeneration := 0#64
  rendezvousMessage := clearMessage c.rendezvousMessage

def ipcInit (s : IpcState) : IpcState where
  channels := fun i =>
    if i < ipcMaxChannels then clearChannel (s.channels i) false (fun _ => 0#8) else s.channels i
  channelCount := 0

/-- The id of the channel, or a negative status. -/
def ipcChannelCreate (s : IpcState) (name : Option (ℕ → Byte)) : ℤ × IpcState :=
  match name with
  | none => (-1, s)
  | some text =>
    let nameLen := ipcStrnlen (some text) ipcChannelNameMax
    if nameLen = 0 ∨ ipcChannelNameMax ≤ nameLen then (-1, s)
    else
      match ipcFindChannelLocked s text with
      | some existing => (existing, s)
      | none =>
        match (List.range ipcMaxChannels).find? fun i => !(s.channels i).inUse with
        | none => (-2, s)
        | some freeSlot =>
          (freeSlot, { s.setChannel freeSlot (clearChannel (s.channels freeSlot) true text) with
            channelCount := s.channelCount + 1 })

def ipcChannelFind (s : IpcState) (name : Option (ℕ → Byte)) : ℤ :=
  match name with
  | none => -1
  | some text =>
    match ipcFindChannelLocked s text with
    | some i => i
    | none => -1

/-! ## Sending -/

/-- The sender that a message is given, or `none` when the caller names another task. -/
def ipcResolveSenderTid (currentTid senderTid : BitVec 64) : Option (BitVec 64) :=
  if senderTid = 0#64 then some currentTid
  else if currentTid ≠ 0#64 ∧ senderTid ≠ currentTid then none
  else some senderTid

/-- What a caller of the send functions passes. -/
structure SendArgs where
  channelId : BitVec 32
  payload : Option (ℕ → Byte)
  size : ℕ
  senderTid : BitVec 64
  hasCapability : Bool
  capabilityId : ℕ
  capabilityRights : BitVec 16

/-- `ipc_channel_send_internal` up to the lock: an error, or the payload and the sender. -/
def sendCheck (caps : CapabilityState) (currentTid : BitVec 64) (a : SendArgs) :
    Except ℤ ((ℕ → Byte) × BitVec 64) :=
  match a.payload with
  | none => .error (-1)
  | some payload =>
    if a.size = 0 ∨ ipcMessageDataMax < a.size then .error (-1)
    else
      match ipcResolveSenderTid currentTid a.senderTid with
      | none => .error (-1)
      | some sender =>
        if a.hasCapability ∧
            capabilityValidateTransfer caps a.capabilityId sender a.capabilityRights ≠ 0 then
          .error (-4)
        else .ok (payload, sender)

/-- A message slot after the stores of a send: only `size` bytes of the data are written. -/
def fillMessage (m : Message) (a : SendArgs) (payload : ℕ → Byte) (sender : BitVec 64) :
    Message where
  senderTid := sender
  size := a.size
  hasCapability := a.hasCapability
  capabilityId := if a.hasCapability then a.capabilityId else 0
  capabilityRights := if a.hasCapability then a.capabilityRights else 0#16
  data := fun i => if i < a.size then payload i else m.data i

/-- `ipc_channel_send_internal` under the lock. -/
def sendLocked (s : IpcState) (a : SendArgs) (payload : ℕ → Byte) (sender : BitVec 64) :
    ℤ × IpcState :=
  if ipcIsValidChannelId s a.channelId = false then (-2, s)
  else
    let channel := s.channels (channelIndex a.channelId)
    let message := fillMessage (channel.queue.slots channel.queue.tail) a payload sender
    match channel.queue.push ipcChannelQueueCapacity message with
    | none => (-3, s)
    | some queue => (0, s.setChannel (channelIndex a.channelId) { channel with queue := queue })

/-- `ipc_channel_send`: the arguments for `ipc_channel_send_internal`. -/
def sendArgs (channelId : BitVec 32) (payload : Option (ℕ → Byte)) (size : ℕ)
    (senderTid : BitVec 64) : SendArgs :=
  ⟨channelId, payload, size, senderTid, false, 0, 0#16⟩

/-- `ipc_channel_send_capability`: its own check, then the arguments. -/
def sendCapabilityArgs (channelId : BitVec 32) (payload : Option (ℕ → Byte)) (size : ℕ)
    (senderTid : BitVec 64) (capabilityId : ℕ) (capabilityRights : BitVec 16) :
    Except ℤ SendArgs :=
  if capabilityId = 0 ∨ capabilityRights = 0#16 then .error (-1)
  else .ok ⟨channelId, payload, size, senderTid, true, capabilityId, capabilityRights⟩

/-! ## Receiving -/

/-- What the out parameters of `ipc_channel_recv_internal` hold after a success; `payload` are the
bytes written to the buffer. -/
structure Received where
  payload : List Byte
  size : ℕ
  senderTid : BitVec 64
  hasCapability : Bool
  capabilityId : ℕ
  capabilityRights : BitVec 16
  deriving DecidableEq

/-- The copying loop of the recv functions and the stores to the out parameters. -/
def readMessage (m : Message) : Received where
  payload := (List.range m.size).map m.data
  size := m.size
  senderTid := m.senderTid
  hasCapability := m.hasCapability
  capabilityId := m.capabilityId
  capabilityRights := m.capabilityRights

def ipcChannelRecvInternal (s : IpcState) (channelId : BitVec 32) (payloadCapacity : ℕ)
    (outsPresent : Bool) : Except ℤ Received × IpcState :=
  if outsPresent = false then (.error (-1), s)
  else if ipcIsValidChannelId s channelId = false then (.error (-2), s)
  else
    let channel := s.channels (channelIndex channelId)
    match channel.queue.pop ipcChannelQueueCapacity with
    | none => (.error (-3), s)
    | some (message, queue) =>
      if payloadCapacity < message.size then (.error (-4), s)
      else
        (.ok (readMessage message),
          s.setChannel (channelIndex channelId) { channel with queue := queue })

/-- The end of `ipc_channel_recv_capability`, after a successful receive: the id of the new
capability (0 when the message carries none), or the status `-5`. -/
def recvCapabilityCopy (caps : CapabilityState) (currentTid : BitVec 64) (m : Received) :
    Except ℤ ℕ × CapabilityState :=
  if m.hasCapability = false then (.ok 0, caps)
  else
    match capabilityCopyForOwner caps m.capabilityId m.senderTid m.capabilityRights currentTid
      true with
    | (.ok id, caps) => (.ok id, caps)
    | (.error _, caps) => (.error (-5), caps)

/-! ## Rendezvous -/

/-- One round of a loop: a return value, or another round after `ipc_wait_hint`. -/
inductive Round (α : Type)
  | done (result : α)
  | again
  deriving DecidableEq

/-- `ipc_channel_rendezvous_send` up to its loops. -/
def rendezvousSendCheck (currentTid : BitVec 64) (payload : Option (ℕ → Byte)) (size : ℕ)
    (senderTid : BitVec 64) : Except ℤ ((ℕ → Byte) × BitVec 64) :=
  match payload with
  | none => .error (-1)
  | some payload =>
    if size = 0 ∨ ipcMessageDataMax < size then .error (-1)
    else
      match ipcResolveSenderTid currentTid senderTid with
      | none => .error (-1)
      | some sender => .ok (payload, sender)

/-- A round of the first loop: post the message if the slot is free; the generation read. -/
def rendezvousPost (s : IpcState) (channelId : BitVec 32) (payload : ℕ → Byte) (size : ℕ)
    (sender : BitVec 64) : Round (Except ℤ (BitVec 64)) × IpcState :=
  if ipcIsValidChannelId s channelId = false then (.done (.error (-2)), s)
  else
    let channel := s.channels (channelIndex channelId)
    if channel.rendezvousPending = false then
      let message := fillMessage channel.rendezvousMessage (sendArgs channelId none size 0#64)
        payload sender
      (.done (.ok channel.rendezvousGeneration),
        s.setChannel (channelIndex channelId)
          { channel with rendezvousMessage := message, rendezvousPending := true })
    else (.again, s)

/-- A round of the second loop: has the message been taken? -/
def rendezvousPoll (s : IpcState) (channelId : BitVec 32) (baseGeneration : BitVec 64) :
    Round ℤ :=
  if ipcIsValidChannelId s channelId = false then .done (-2)
  else
    let channel := s.channels (channelIndex channelId)
    if channel.rendezvousPending = false ∧ channel.rendezvousGeneration ≠ baseGeneration then
      .done 0
    else .again

/-- A round of the loop of `ipc_channel_rendezvous_recv`. -/
def rendezvousTake (s : IpcState) (channelId : BitVec 32) (payloadCapacity : ℕ) :
    Round (Except ℤ Received) × IpcState :=
  if ipcIsValidChannelId s channelId = false then (.done (.error (-2)), s)
  else
    let channel := s.channels (channelIndex channelId)
    if channel.rendezvousPending then
      if payloadCapacity < channel.rendezvousMessage.size then (.done (.error (-4)), s)
      else
        (.done (.ok (readMessage channel.rendezvousMessage)),
          s.setChannel (channelIndex channelId)
            { channel with
              rendezvousPending := false
              rendezvousGeneration := channel.rendezvousGeneration + 1#64 })
    else (.again, s)

end GnuOS.Ipc

/-
`MqueueTable`: the named message queues of the machine, the descriptors open on
them, and the pins that blocked operations hold.

A queue is an object of its own: a name leads to one while it is linked, and it
lives on unlinked until its last descriptor and its last pin are gone. What the
allocator answers is an argument of the call that asks it.
-/
import Kandelo.Errno
import Kandelo.Lib.OrdMap
import Kandelo.Lib.PriorityFifo

namespace Kandelo.Mqueue

def oRdonly : UInt32 := 0
def oWronly : UInt32 := 1
def oAccmode : UInt32 := 3
def oCreat : UInt32 := 0o100
def oExcl : UInt32 := 0o200
def oNonblock : UInt32 := 0o4000
def oLargefile : UInt32 := 0o100000

def sigevSignal : Nat := 0
def sigevNone : Nat := 1

def defaultMaxmsg : Nat := 10
def defaultMsgsize : Nat := 8192

def mqdBase : Nat := 0x40000000
def mqdMax : Nat := 2 ^ 31 - 1

def nameMaxBytes : Nat := 256
def maxReportableTransferBytes : Nat := 2 ^ 31 - 1
def nsig : Nat := 65

structure MqMessage where
  data : List UInt8
  priority : Nat
  deriving DecidableEq, Repr

/-- One-shot signal notification registration. -/
structure MqNotification where
  pid : UInt32
  signo : Nat
  valueBits : UInt64
  deriving DecidableEq, Repr

structure MqQueue where
  maxmsg : Nat
  msgsize : Nat
  messages : List MqMessage
  linked : Bool
  openCount : Nat
  activePins : Nat
  notification : Option MqNotification
  mode : UInt32
  deriving DecidableEq, Repr

/-- Nothing leads to the queue any more. -/
def MqQueue.unused (queue : MqQueue) : Bool := !queue.linked && queue.openCount == 0 && queue.activePins == 0

/-- The registration of a process that exits goes. -/
def MqQueue.forget (queue : MqQueue) (pid : UInt32) : MqQueue :=
  match queue.notification with
  | some notif => if notif.pid = pid then { queue with notification := none } else queue
  | none => queue

/-- What a descriptor leads to: the queue, and how it may be used. -/
structure MqDescriptor where
  queueId : Nat
  accessMode : UInt32
  nonblock : Bool
  deriving DecidableEq, Repr

/-- The authority a potentially blocking operation retains. -/
structure PinnedMqueueDescriptor where
  pinId : Nat
  queueId : Nat
  accessMode : UInt32
  nonblock : Bool

inductive MqDescriptorAuthority
  | pub (mqd : Nat)
  | pinned (p : PinnedMqueueDescriptor)

structure MqAttr where
  flags : UInt32
  maxmsg : Nat
  msgsize : Nat
  curmsgs : Nat
  deriving DecidableEq, Repr

structure MqueueTable where
  names : OrdMap String Nat
  queues : OrdMap Nat MqQueue
  descriptors : OrdMap Nat MqDescriptor
  activePins : OrdMap Nat Nat
  nextQueueId : Option Nat
  nextMqd : Option Nat
  nextPinId : Option Nat

/-- The allocator's answers to `mq_open`, in the order it asks. -/
structure OpenMemory where
  descriptor : Bool
  queue : Bool
  name : Bool

namespace MqueueTable

def new : MqueueTable := ⟨OrdMap.empty, OrdMap.empty, OrdMap.empty, OrdMap.empty, some 1, some mqdBase, some 1⟩

def setQueue (t : MqueueTable) (queueId : Nat) (queue : MqQueue) : MqueueTable :=
  { t with queues := t.queues.insert queueId queue }

/-- The first number from `candidate` on that is not taken, and the one to start
from next. -/
def nextFree (taken : Nat → Bool) (limit : Nat) (exhausted : Errno) (candidate : Nat) : Except Errno (Nat × Option Nat) :=
  if !taken candidate then .ok (candidate, if candidate + 1 ≤ limit then some (candidate + 1) else none)
  else if _h : candidate + 1 ≤ limit then nextFree taken limit exhausted (candidate + 1)
  else .error exhausted
termination_by limit - candidate

def nextFreeMqd (t : MqueueTable) : Except Errno (Nat × Option Nat) :=
  match t.nextMqd with
  | none => .error .EMFILE
  | some candidate =>
    if !(mqdBase ≤ candidate && candidate ≤ mqdMax) then .error Errno.EIO
    else nextFree t.descriptors.contains mqdMax .EMFILE candidate

/-- A 64-bit identity; 0 is none. -/
def nextFreeId (start : Option Nat) (taken : Nat → Bool) (exhausted : Errno) : Except Errno (Nat × Option Nat) :=
  match start with
  | none => .error exhausted
  | some candidate =>
    if candidate = 0 then .error Errno.EIO else nextFree taken (2 ^ 64 - 1) exhausted candidate

def nextFreeQueueId (t : MqueueTable) : Except Errno (Nat × Option Nat) := nextFreeId t.nextQueueId t.queues.contains .ENFILE

def nextFreePinId (t : MqueueTable) : Except Errno (Nat × Option Nat) := nextFreeId t.nextPinId t.activePins.contains .EOVERFLOW

def resolveDescriptor (t : MqueueTable) : MqDescriptorAuthority → Except Errno MqDescriptor
  | .pub mqd =>
    match t.descriptors.get? mqd with
    | none => .error .EBADF
    | some descriptor => .ok descriptor
  | .pinned p =>
    if t.activePins.get? p.pinId ≠ some p.queueId then .error .EBADF else .ok ⟨p.queueId, p.accessMode, p.nonblock⟩

def reclaimQueueIfUnused (t : MqueueTable) (queueId : Nat) : MqueueTable :=
  match t.queues.get? queueId with
  | none => t
  | some queue => if queue.unused then { t with queues := t.queues.erase queueId } else t

def pinDescriptor (t : MqueueTable) (mqd : Nat) (alloc : Bool) : Except Errno PinnedMqueueDescriptor × MqueueTable :=
  match t.resolveDescriptor (.pub mqd) with
  | .error e => (.error e, t)
  | .ok descriptor =>
    match t.nextFreePinId with
    | .error e => (.error e, t)
    | .ok (pinId, nextPinId) =>
      if !alloc then (.error .ENOMEM, t)
      else
        match t.queues.get? descriptor.queueId with
        | none => (.error .EBADF, t)
        | some queue =>
          if 2 ^ 32 ≤ queue.activePins + 1 then (.error .EOVERFLOW, t)
          else
            (.ok ⟨pinId, descriptor.queueId, descriptor.accessMode, descriptor.nonblock⟩,
              { t.setQueue descriptor.queueId { queue with activePins := queue.activePins + 1 } with
                activePins := t.activePins.insert pinId descriptor.queueId
                nextPinId := nextPinId })

def releasePinnedDescriptor (t : MqueueTable) (p : PinnedMqueueDescriptor) : Except Errno Unit × MqueueTable :=
  if t.activePins.get? p.pinId ≠ some p.queueId then (.error .EBADF, t)
  else
    match t.queues.get? p.queueId with
    | none => (.error Errno.EIO, t)
    | some queue =>
      if queue.activePins = 0 then (.error Errno.EIO, t)
      else
        (.ok (), { t.setQueue p.queueId { queue with activePins := queue.activePins - 1 } with
          activePins := t.activePins.erase p.pinId }.reclaimQueueIfUnused p.queueId)

/-- A descriptor on the queue `queueId` is published. -/
def addDescriptor (t : MqueueTable) (mqd : Nat) (descriptor : MqDescriptor) (nextMqd : Option Nat) : MqueueTable :=
  { t with descriptors := t.descriptors.insert mqd descriptor, nextMqd := nextMqd }

/-- `mq_open` of a name that leads to a queue. -/
def openExisting (t : MqueueTable) (queueId : Nat) (accessMode : UInt32) (nonblock : Bool) (memory : OpenMemory) :
    Except Errno Nat × MqueueTable :=
  match t.nextFreeMqd with
  | .error e => (.error e, t)
  | .ok (mqd, nextMqd) =>
    if !memory.descriptor then (.error .ENOMEM, t)
    else
      match t.queues.get? queueId with
      | none => (.error Errno.EIO, t)
      | some queue =>
        if 2 ^ 32 ≤ queue.openCount + 1 then (.error .EMFILE, t)
        else
          (.ok mqd, (t.setQueue queueId { queue with openCount := queue.openCount + 1 }).addDescriptor mqd
            ⟨queueId, accessMode, nonblock⟩ nextMqd)

/-- `mq_open` of a name that leads nowhere. -/
def openNew (t : MqueueTable) (name : String) (maxmsg msgsize : Nat) (mode accessMode : UInt32) (nonblock : Bool)
    (memory : OpenMemory) : Except Errno Nat × MqueueTable :=
  if maxmsg = 0 ∨ msgsize = 0 then (.error .EINVAL, t)
  else if maxReportableTransferBytes < msgsize then (.error .EINVAL, t)
  else
    match t.nextFreeMqd with
    | .error e => (.error e, t)
    | .ok (mqd, nextMqd) =>
      match t.nextFreeQueueId with
      | .error e => (.error e, t)
      | .ok (queueId, nextQueueId) =>
        if !memory.descriptor then (.error .ENOMEM, t)
        else if !memory.queue then (.error .ENOMEM, t)
        else if !memory.name then (.error .ENOMEM, t)
        else
          (.ok mqd, { t.setQueue queueId ⟨maxmsg, msgsize, [], true, 1, 0, none, mode⟩ with
            names := t.names.insert name queueId
            nextQueueId := nextQueueId }.addDescriptor mqd ⟨queueId, accessMode, nonblock⟩ nextMqd)

def mqOpen (t : MqueueTable) (name : String) (flags mode : UInt32) (attrMaxmsg attrMsgsize : Nat) (hasAttr : Bool)
    (memory : OpenMemory) : Except Errno Nat × MqueueTable :=
  let flags := flags &&& ~~~oLargefile
  let accessMode := flags &&& oAccmode
  let creating := flags &&& oCreat ≠ 0
  let exclusive := flags &&& oExcl ≠ 0
  let nonblock := decide (flags &&& oNonblock ≠ 0)
  if name.isEmpty then (.error .EINVAL, t)
  else if nameMaxBytes ≤ name.utf8ByteSize then (.error .ENAMETOOLONG, t)
  else
    match t.names.get? name with
    | some queueId =>
      if creating ∧ exclusive then (.error .EEXIST, t) else t.openExisting queueId accessMode nonblock memory
    | none =>
      if ¬creating then (.error .ENOENT, t)
      else
        t.openNew name (if hasAttr then attrMaxmsg else defaultMaxmsg) (if hasAttr then attrMsgsize else defaultMsgsize)
          mode accessMode nonblock memory

def mqClose (t : MqueueTable) (mqd : Nat) : Except Errno Unit × MqueueTable :=
  match t.descriptors.get? mqd with
  | none => (.error .EBADF, t)
  | some descriptor =>
    match t.queues.get? descriptor.queueId with
    | none => (.error Errno.EIO, t)
    | some queue =>
      if queue.openCount = 0 then (.error Errno.EIO, t)
      else
        (.ok (), { t.setQueue descriptor.queueId { queue with openCount := queue.openCount - 1 } with
          descriptors := t.descriptors.erase mqd }.reclaimQueueIfUnused descriptor.queueId)

def mqUnlink (t : MqueueTable) (name : String) : Except Errno Unit × MqueueTable :=
  match t.names.get? name with
  | none => (.error .ENOENT, t)
  | some queueId =>
    let t' := { t with names := t.names.erase name }
    match t'.queues.get? queueId with
    | none => (.error Errno.EIO, t')
    | some queue => (.ok (), (t'.setQueue queueId { queue with linked := false }).reclaimQueueIfUnused queueId)

/-- `mq_send_for_with_reserve`; what is returned is the notification to fire. -/
def mqSendFor (t : MqueueTable) (authority : MqDescriptorAuthority) (data : List UInt8) (priority : Nat)
    (reserveMessage reserveSlot : Bool) : Except Errno (Option MqNotification) × MqueueTable :=
  match t.resolveDescriptor authority with
  | .error e => (.error e, t)
  | .ok descriptor =>
    if descriptor.accessMode = oRdonly then (.error .EBADF, t)
    else
      match t.queues.get? descriptor.queueId with
      | none => (.error .EBADF, t)
      | some queue =>
        if queue.msgsize < data.length then (.error .EMSGSIZE, t)
        else if queue.maxmsg ≤ queue.messages.length then (.error .EAGAIN, t)
        else if !reserveMessage then (.error .ENOMEM, t)
        else if !reserveSlot then (.error .ENOMEM, t)
        else
          let wasEmpty := queue.messages.isEmpty
          (.ok (if wasEmpty then queue.notification else none),
            t.setQueue descriptor.queueId { queue with
              messages := PriorityFifo.insert MqMessage.priority ⟨data, priority⟩ queue.messages
              notification := if wasEmpty then none else queue.notification })

def mqReceiveFor (t : MqueueTable) (authority : MqDescriptorAuthority) (bufSize : Nat) : Except Errno MqMessage × MqueueTable :=
  match t.resolveDescriptor authority with
  | .error e => (.error e, t)
  | .ok descriptor =>
    if descriptor.accessMode = oWronly then (.error .EBADF, t)
    else
      match t.queues.get? descriptor.queueId with
      | none => (.error .EBADF, t)
      | some queue =>
        if bufSize < queue.msgsize then (.error .EMSGSIZE, t)
        else
          match queue.messages with
          | [] => (.error .EAGAIN, t)
          | msg :: rest => (.ok msg, t.setQueue descriptor.queueId { queue with messages := rest })

/-- `sigevNotify` is `none` where the caller passes a null event: unregister. -/
def mqNotify (t : MqueueTable) (mqd : Nat) (pid : UInt32) (sigevNotify : Option Nat) (signo : Nat) (valueBits : UInt64) :
    Except Errno Unit × MqueueTable :=
  match t.descriptors.get? mqd with
  | none => (.error .EBADF, t)
  | some desc =>
    match t.queues.get? desc.queueId with
    | none => (.error .EBADF, t)
    | some queue =>
      match sigevNotify with
      | none => (.ok (), t.setQueue desc.queueId { queue with notification := none })
      | some kind =>
        if kind = sigevNone then
          if queue.notification.isSome then (.error .EBUSY, t)
          else (.ok (), t.setQueue desc.queueId { queue with notification := some ⟨pid, 0, valueBits⟩ })
        else if kind = sigevSignal then
          if signo = 0 ∨ nsig ≤ signo then (.error .EINVAL, t)
          else if queue.notification.isSome then (.error .EBUSY, t)
          else (.ok (), t.setQueue desc.queueId { queue with notification := some ⟨pid, signo, valueBits⟩ })
        else (.error .EINVAL, t)

def mqGetsetattr (t : MqueueTable) (mqd : Nat) (newFlags : Option UInt32) : Except Errno MqAttr × MqueueTable :=
  match t.descriptors.get? mqd with
  | none => (.error .EBADF, t)
  | some descriptor =>
    match t.queues.get? descriptor.queueId with
    | none => (.error .EBADF, t)
    | some queue =>
      (.ok ⟨if descriptor.nonblock then oNonblock else 0, queue.maxmsg, queue.msgsize, queue.messages.length⟩, match newFlags with
        | none => t
        | some flags => { t with descriptors := t.descriptors.insert mqd { descriptor with nonblock := flags &&& oNonblock ≠ 0 } })

def cleanupProcess (t : MqueueTable) (pid : UInt32) : MqueueTable :=
  { t with queues := t.queues.mapValues fun queue => queue.forget pid }

end MqueueTable

end Kandelo.Mqueue

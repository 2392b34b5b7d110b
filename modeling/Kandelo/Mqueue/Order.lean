/-
Message order: a receiver gets the earliest-sent message of the highest priority,
and between a send and its receive no message is lost, doubled or changed.

`event` is what a request does at one queue as its answer tells it, and `Changes`
what each event can do to that queue: every result about runs is read off
`call_changes`, which says the two go together. The messages sent and not yet
received are kept beside the table (`Traced`), from the answers alone.
-/
import Kandelo.Lib.Machine
import Kandelo.Mqueue.Table

namespace Kandelo.Mqueue

inductive Op
  | opens (name : String) (flags mode : UInt32) (attrMaxmsg attrMsgsize : Nat) (hasAttr : Bool) (memory : OpenMemory)
  | close (mqd : Nat)
  | unlink (name : String)
  | send (authority : MqDescriptorAuthority) (data : List UInt8) (priority : Nat) (reserveMessage reserveSlot : Bool)
  | receive (authority : MqDescriptorAuthority) (bufSize : Nat)
  | notify (mqd : Nat) (sigevNotify : Option Nat) (signo : Nat) (valueBits : UInt64)
  | getsetattr (mqd : Nat) (newFlags : Option UInt32)
  | pin (mqd : Nat) (alloc : Bool)
  | release (p : PinnedMqueueDescriptor)
  | exit

/-- A call of the process `pid`. -/
structure Request where
  pid : UInt32
  op : Op

inductive Answer
  | opened (r : Except Errno Nat)
  | done (r : Except Errno Unit)
  | sent (r : Except Errno (Option MqNotification))
  | received (r : Except Errno MqMessage)
  | attr (r : Except Errno MqAttr)
  | pinned (r : Except Errno PinnedMqueueDescriptor)

namespace MqueueTable

def call (t : MqueueTable) (r : Request) : Answer × MqueueTable :=
  match r.op with
  | .opens name flags mode attrMaxmsg attrMsgsize hasAttr memory =>
    (t.mqOpen name flags mode attrMaxmsg attrMsgsize hasAttr memory).map .opened id
  | .close mqd => (t.mqClose mqd).map .done id
  | .unlink name => (t.mqUnlink name).map .done id
  | .send authority data priority reserveMessage reserveSlot =>
    (t.mqSendFor authority data priority reserveMessage reserveSlot).map .sent id
  | .receive authority bufSize => (t.mqReceiveFor authority bufSize).map .received id
  | .notify mqd sigevNotify signo valueBits => (t.mqNotify mqd r.pid sigevNotify signo valueBits).map .done id
  | .getsetattr mqd newFlags => (t.mqGetsetattr mqd newFlags).map .attr id
  | .pin mqd alloc => (t.pinDescriptor mqd alloc).map .pinned id
  | .release p => (t.releasePinnedDescriptor p).map .done id
  | .exit => (.done (.ok ()), t.cleanupProcess r.pid)

/-- The queue a descriptor leads to. -/
def leadsTo (t : MqueueTable) (authority : MqDescriptorAuthority) (i : Nat) : Bool :=
  match t.resolveDescriptor authority with
  | .ok descriptor => descriptor.queueId == i
  | .error _ => false

end MqueueTable

/-! ## What a request does at one queue -/

inductive Event
  | quiet
  | sent (m : MqMessage)
  | received (m : MqMessage)
  | registered (n : MqNotification) (mqd : Nat)
  | unregistered
  | closed (mqd : Nat)
  | exited

/-- The event at queue `i`, from the request and its answer. -/
def event (t : MqueueTable) (r : Request) (i : Nat) : Event :=
  match r.op with
  | .send authority data priority reserveMessage reserveSlot =>
    match (t.mqSendFor authority data priority reserveMessage reserveSlot).1 with
    | .ok _ => if t.leadsTo authority i then .sent ⟨data, priority⟩ else .quiet
    | .error _ => .quiet
  | .receive authority bufSize =>
    match (t.mqReceiveFor authority bufSize).1 with
    | .ok m => if t.leadsTo authority i then .received m else .quiet
    | .error _ => .quiet
  | .notify mqd sigevNotify signo valueBits =>
    match (t.mqNotify mqd r.pid sigevNotify signo valueBits).1 with
    | .ok () =>
      if t.leadsTo (.pub mqd) i then
        match sigevNotify with
        | none => .unregistered
        | some kind => .registered ⟨r.pid, if kind = sigevNone then 0 else signo, valueBits⟩ mqd
      else .quiet
    | .error _ => .quiet
  | .close mqd =>
    match (t.mqClose mqd).1 with
    | .ok () => if t.leadsTo (.pub mqd) i then .closed mqd else .quiet
    | .error _ => .quiet
  | .exit => .exited
  | _ => .quiet

/-- Only what leads to the queue changes. -/
def Recounted (q q' : MqQueue) : Prop :=
  q' = { q with linked := q'.linked, openCount := q'.openCount, activePins := q'.activePins }

/-- What an event does to the queue it happens at. -/
inductive Changes (pid : UInt32) : Event → Option MqQueue → Option MqQueue → Prop
  | same {b : Option MqQueue} : Changes pid .quiet b b
  | recounted {q q' : MqQueue} : Recounted q q' → Changes pid .quiet (some q) (some q')
  | created {q : MqQueue} : q.messages = [] → q.notification = none → Changes pid .quiet none (some q)
  | reclaimed {q : MqQueue} : Changes pid .quiet (some q) none
  | closed {q q' : MqQueue} {mqd : Nat} : Recounted q q' → Changes pid (.closed mqd) (some q) (some q')
  | closedLast {q : MqQueue} {mqd : Nat} : Changes pid (.closed mqd) (some q) none
  | sent {q : MqQueue} {m : MqMessage} : m.data.length ≤ q.msgsize → q.messages.length < q.maxmsg →
      Changes pid (.sent m) (some q) (some { q with
        messages := PriorityFifo.insert MqMessage.priority m q.messages
        notification := if q.messages.isEmpty then none else q.notification })
  | received {q : MqQueue} {m : MqMessage} {rest : List MqMessage} : q.messages = m :: rest →
      Changes pid (.received m) (some q) (some { q with messages := rest })
  | registered {q : MqQueue} {n : MqNotification} {mqd : Nat} : q.notification = none → n.pid = pid →
      Changes pid (.registered n mqd) (some q) (some { q with notification := some n })
  | unregistered {q : MqQueue} : Changes pid .unregistered (some q) (some { q with notification := none })
  | exited {b : Option MqQueue} : Changes pid .exited b (b.map fun q => q.forget pid)

namespace MqueueTable

theorem get?_setQueue (t : MqueueTable) (j : Nat) (q : MqQueue) (i : Nat) :
    (t.setQueue j q).queues.get? i = if i = j then some q else t.queues.get? i := t.queues.get?_insert j i q

theorem get?_reclaim (t : MqueueTable) (j i : Nat) : (t.reclaimQueueIfUnused j).queues.get? i =
      if i = j then (t.queues.get? j).filter fun q => !q.unused else t.queues.get? i := by
  simp only [reclaimQueueIfUnused]
  split
  · rename_i hnone
    by_cases hij : i = j
    · rw [if_pos hij, hij, hnone, Option.filter_none]
    · rw [if_neg hij]
  rename_i q hq
  by_cases hij : i = j
  · subst hij
    rw [if_pos rfl, hq, Option.filter_some]
    split_ifs with hunused hkept hkept
    · simp [hunused] at hkept
    · exact (t.queues.get?_erase i i).trans (if_pos rfl)
    · exact hq
    · simp [hunused] at hkept
  · split_ifs
    · exact (t.queues.get?_erase j i).trans (if_neg hij)
    · rfl

variable {t : MqueueTable}

/-- A queue whose counts change is written back, and dropped if nothing leads to it now. -/
theorem get?_setQueue_reclaim {t' : MqueueTable} {j : Nat} {q : MqQueue} (ht : t'.queues = (t.setQueue j q).queues) (i : Nat) :
    (t'.reclaimQueueIfUnused j).queues.get? i = if i = j then (if q.unused then none else some q) else t.queues.get? i := by
  rw [get?_reclaim, ht, get?_setQueue, get?_setQueue, if_pos rfl]
  split_ifs with hij hunused
  · rw [Option.filter_some, hunused]
    rfl
  · rw [Option.filter_some, Bool.eq_false_iff.mpr hunused]
    rfl
  · rfl

theorem nextFree_spec {taken : Nat → Bool} {limit : Nat} {exhausted : Errno} {candidate : Nat} {r : Nat × Option Nat}
    (h : nextFree taken limit exhausted candidate = .ok r) : taken r.1 = false := by
  fun_induction nextFree taken limit exhausted candidate with
  | case1 candidate hfree =>
    cases h
    simpa using hfree
  | case2 candidate htaken hlimit ih => exact ih h
  | case3 candidate htaken hlimit => cases h

theorem nextFreeQueueId_spec {r : Nat × Option Nat} (h : t.nextFreeQueueId = .ok r) : t.queues.get? r.1 = none := by
  simp only [nextFreeQueueId, nextFreeId] at h
  split at h
  · cases h
  split at h
  · cases h
  · simpa [OrdMap.contains] using nextFree_spec h

variable {d : MqDescriptor} {authority : MqDescriptorAuthority}

theorem leadsTo_iff (h : t.resolveDescriptor authority = .ok d) (i : Nat) : t.leadsTo authority i ↔ i = d.queueId := by
  simp only [leadsTo, h, beq_iff_eq]
  exact eq_comm

theorem resolve_pub {mqd : Nat} (h : t.descriptors.get? mqd = some d) : t.resolveDescriptor (.pub mqd) = .ok d := by
  simp [resolveDescriptor, h]

/-! ## How each call ends -/

section

variable (t : MqueueTable)

theorem mqSendFor_cases (authority : MqDescriptorAuthority) (data : List UInt8) (priority : Nat)
    (reserveMessage reserveSlot : Bool) : (∃ e, t.mqSendFor authority data priority reserveMessage reserveSlot = (.error e, t)) ∨
    ∃ d q, t.resolveDescriptor authority = .ok d ∧ t.queues.get? d.queueId = some q ∧ data.length ≤ q.msgsize ∧
      q.messages.length < q.maxmsg ∧ t.mqSendFor authority data priority reserveMessage reserveSlot =
        (.ok (if q.messages.isEmpty then q.notification else none), t.setQueue d.queueId { q with
          messages := PriorityFifo.insert MqMessage.priority ⟨data, priority⟩ q.messages
          notification := if q.messages.isEmpty then none else q.notification }) := by
  simp only [mqSendFor]
  split
  · exact .inl ⟨_, rfl⟩
  rename_i d hd
  split
  · exact .inl ⟨_, rfl⟩
  split
  · exact .inl ⟨_, rfl⟩
  rename_i q hq
  split
  · exact .inl ⟨_, rfl⟩
  rename_i hsize
  split
  · exact .inl ⟨_, rfl⟩
  rename_i hfull
  split
  · exact .inl ⟨_, rfl⟩
  split
  · exact .inl ⟨_, rfl⟩
  · exact .inr ⟨d, q, hd, hq, not_lt.mp hsize, not_le.mp hfull, rfl⟩

theorem mqReceiveFor_cases (authority : MqDescriptorAuthority) (bufSize : Nat) :
    (∃ e, t.mqReceiveFor authority bufSize = (.error e, t)) ∨
    ∃ d q m rest, t.resolveDescriptor authority = .ok d ∧ d.accessMode ≠ oWronly ∧ t.queues.get? d.queueId = some q ∧
      q.msgsize ≤ bufSize ∧ q.messages = m :: rest ∧
      t.mqReceiveFor authority bufSize = (.ok m, t.setQueue d.queueId { q with messages := rest }) := by
  simp only [mqReceiveFor]
  split
  · exact .inl ⟨_, rfl⟩
  rename_i d hd
  split_ifs with haccess
  · exact .inl ⟨_, rfl⟩
  split
  · exact .inl ⟨_, rfl⟩
  rename_i q hq
  split_ifs with hsize
  · exact .inl ⟨_, rfl⟩
  split
  · exact .inl ⟨_, rfl⟩
  · rename_i m rest hmessages
    exact .inr ⟨d, q, m, rest, hd, haccess, hq, not_lt.mp hsize, hmessages, rfl⟩

/-- What a notification call that succeeds leaves registered. -/
def requested (pid : UInt32) (sigevNotify : Option Nat) (signo : Nat) (valueBits : UInt64) : Option MqNotification :=
  sigevNotify.map fun kind => ⟨pid, if kind = sigevNone then 0 else signo, valueBits⟩

theorem mqNotify_cases (mqd : Nat) (pid : UInt32) (sigevNotify : Option Nat) (signo : Nat) (valueBits : UInt64) :
    (∃ e, t.mqNotify mqd pid sigevNotify signo valueBits = (.error e, t)) ∨
    ∃ d q, t.resolveDescriptor (.pub mqd) = .ok d ∧ t.queues.get? d.queueId = some q ∧
      (sigevNotify.isSome → q.notification = none) ∧ t.mqNotify mqd pid sigevNotify signo valueBits =
        (.ok (), t.setQueue d.queueId { q with notification := requested pid sigevNotify signo valueBits }) := by
  simp only [mqNotify]
  split
  · exact .inl ⟨_, rfl⟩
  rename_i d hd
  split
  · exact .inl ⟨_, rfl⟩
  rename_i q hq
  split
  · exact .inr ⟨d, q, resolve_pub hd, hq, nofun, rfl⟩
  split_ifs with hnone hbusy hsignal hsigno hbusy
  · exact .inl ⟨_, rfl⟩
  · exact .inr ⟨d, q, resolve_pub hd, hq, fun _ => by simpa using hbusy, by simp [requested, hnone]⟩
  · exact .inl ⟨_, rfl⟩
  · exact .inl ⟨_, rfl⟩
  · exact .inr ⟨d, q, resolve_pub hd, hq, fun _ => by simpa using hbusy, by simp [requested, hnone]⟩
  · exact .inl ⟨_, rfl⟩

theorem mqClose_cases (mqd : Nat) : (∃ e, t.mqClose mqd = (.error e, t)) ∨
    ∃ (d : MqDescriptor) (q q' : MqQueue) (t' : MqueueTable), t.resolveDescriptor (.pub mqd) = .ok d ∧ t.queues.get? d.queueId = some q ∧
      t.mqClose mqd = (.ok (), t'.reclaimQueueIfUnused d.queueId) ∧ t'.queues = (t.setQueue d.queueId q').queues ∧ Recounted q q' := by
  simp only [mqClose]
  split
  · exact .inl ⟨_, rfl⟩
  rename_i d hd
  split
  · exact .inl ⟨_, rfl⟩
  rename_i q hq
  split_ifs
  · exact .inl ⟨_, rfl⟩
  · exact .inr ⟨d, q, _, _, resolve_pub hd, hq, rfl, rfl, rfl⟩

/-- The calls that only open, pin or take away what leads to a queue; the last kind
may reclaim it. -/
inductive Relinked (keeps : Bool) (t t' : MqueueTable) : Prop
  | same : t'.queues = t.queues → Relinked keeps t t'
  | recounted {j : Nat} {q q' : MqQueue} : t.queues.get? j = some q → t'.queues = (t.setQueue j q').queues →
      Recounted q q' → Relinked keeps t t'
  | reclaimed {j : Nat} {q q' : MqQueue} {t₁ : MqueueTable} : keeps = false → t.queues.get? j = some q →
      t' = t₁.reclaimQueueIfUnused j → t₁.queues = (t.setQueue j q').queues → Recounted q q' → Relinked keeps t t'
  | created {j : Nat} {q : MqQueue} : t.queues.get? j = none → t'.queues = (t.setQueue j q).queues →
      q.messages = [] → q.notification = none → Relinked keeps t t'

theorem pinDescriptor_relinked (mqd : Nat) (alloc : Bool) : Relinked true t (t.pinDescriptor mqd alloc).2 := by
  simp only [pinDescriptor]
  split
  · exact .same rfl
  split
  · exact .same rfl
  split_ifs
  · exact .same rfl
  split
  · exact .same rfl
  rename_i q hq
  split_ifs
  · exact .same rfl
  · exact .recounted hq rfl rfl

theorem releasePinnedDescriptor_relinked (p : PinnedMqueueDescriptor) : Relinked false t (t.releasePinnedDescriptor p).2 := by
  simp only [releasePinnedDescriptor]
  split_ifs
  · exact .same rfl
  split
  · exact .same rfl
  rename_i q hq
  split_ifs
  · exact .same rfl
  · exact .reclaimed rfl hq rfl rfl rfl

theorem mqUnlink_relinked (name : String) : Relinked false t (t.mqUnlink name).2 := by
  simp only [mqUnlink]
  split
  · exact .same rfl
  split
  · exact .same rfl
  · rename_i q hq
    exact .reclaimed rfl hq rfl rfl rfl

theorem openExisting_relinked (queueId : Nat) (accessMode : UInt32) (nonblock : Bool) (memory : OpenMemory) :
    Relinked true t (t.openExisting queueId accessMode nonblock memory).2 := by
  simp only [openExisting]
  split
  · exact .same rfl
  split_ifs
  · exact .same rfl
  split
  · exact .same rfl
  rename_i q hq
  split_ifs
  · exact .same rfl
  · exact .recounted hq rfl rfl

theorem openNew_relinked (name : String) (maxmsg msgsize : Nat) (mode accessMode : UInt32) (nonblock : Bool)
    (memory : OpenMemory) : Relinked true t (t.openNew name maxmsg msgsize mode accessMode nonblock memory).2 := by
  simp only [openNew]
  iterate 4 (split; · exact .same rfl)
  rename_i hfree
  split_ifs
  · exact .same rfl
  · exact .same rfl
  · exact .same rfl
  · exact .created (nextFreeQueueId_spec hfree) rfl rfl rfl

theorem mqOpen_relinked (name : String) (flags mode : UInt32) (attrMaxmsg attrMsgsize : Nat) (hasAttr : Bool)
    (memory : OpenMemory) : Relinked true t (t.mqOpen name flags mode attrMaxmsg attrMsgsize hasAttr memory).2 := by
  simp only [mqOpen]
  split
  · exact .same rfl
  split
  · exact .same rfl
  split
  · split
    · exact .same rfl
    · exact openExisting_relinked ..
  split
  · exact .same rfl
  · exact openNew_relinked ..

theorem mqGetsetattr_relinked (mqd : Nat) (newFlags : Option UInt32) : Relinked true t (t.mqGetsetattr mqd newFlags).2 := by
  simp only [mqGetsetattr]
  split
  · exact .same rfl
  split
  · exact .same rfl
  cases newFlags with
  | none => exact .same rfl
  | some flags => exact .same rfl

end

/-- None of them is an event at any queue. -/
theorem Relinked.changes {keeps : Bool} {t' : MqueueTable} (h : Relinked keeps t t') (pid : UInt32) (i : Nat) :
    Changes pid .quiet (t.queues.get? i) (t'.queues.get? i) := by
  cases h with
  | same heq =>
    rw [heq]
    exact .same
  | @recounted j q q' hq heq hre =>
    rw [heq, get?_setQueue]
    split_ifs with hij
    · rw [hij, hq]
      exact .recounted hre
    · exact .same
  | @reclaimed j q q' t₁ _ hq ht' heq hre =>
    rw [ht', get?_setQueue_reclaim heq]
    split_ifs with hij
    · rw [hij, hq]
      exact .reclaimed
    · rw [hij, hq]
      exact .recounted hre
    · exact .same
  | @created j q hnone heq hmessages hnotification =>
    rw [heq, get?_setQueue]
    split_ifs with hij
    · rw [hij, hnone]
      exact .created hmessages hnotification
    · exact .same

/-- Opening and pinning keep every queue there is. -/
theorem Relinked.stays {t' : MqueueTable} (h : Relinked true t t') {i : Nat} {q : MqQueue} (hq : t.queues.get? i = some q) :
    ¬t'.queues.get? i = none := by
  cases h with
  | reclaimed hkeeps => cases hkeeps
  | same heq => simp [heq, hq]
  | recounted _ heq | created _ heq =>
    rw [heq, get?_setQueue]
    split_ifs <;> simp [hq]

/-- A call that writes one queue back: the event is at that queue, and elsewhere
there is none. -/
theorem changes_at {pid : UInt32} {ev : Event} {q : MqQueue} {after : Option MqQueue} (hd : t.resolveDescriptor authority = .ok d)
    (hq : t.queues.get? d.queueId = some q) (h : Changes pid ev (some q) after) (i : Nat) :
    Changes pid (if t.leadsTo authority i then ev else .quiet) (t.queues.get? i)
      (if i = d.queueId then after else t.queues.get? i) := by
  by_cases hij : i = d.queueId
  · rw [if_pos ((leadsTo_iff hd i).mpr hij), if_pos hij, hij, hq]
    exact h
  · rw [if_neg fun hleads => hij ((leadsTo_iff hd i).mp hleads), if_neg hij]
    exact .same

/-- What a request does at a queue is what its event says. -/
theorem call_changes (t : MqueueTable) (r : Request) (i : Nat) :
    Changes r.pid (event t r i) (t.queues.get? i) ((t.call r).2.queues.get? i) := by
  obtain ⟨pid, op⟩ := r
  cases op with
  | opens name flags mode attrMaxmsg attrMsgsize hasAttr memory => exact (mqOpen_relinked ..).changes pid i
  | unlink name => exact (mqUnlink_relinked ..).changes pid i
  | getsetattr mqd newFlags => exact (mqGetsetattr_relinked ..).changes pid i
  | pin mqd alloc => exact (pinDescriptor_relinked ..).changes pid i
  | release p => exact (releasePinnedDescriptor_relinked ..).changes pid i
  | close mqd =>
    simp only [event, call]
    rcases t.mqClose_cases mqd with ⟨e, he⟩ | ⟨d, q, q', t', hd, hq, hclose, hqueues, hre⟩
    · simp only [he]
      exact .same
    simp only [hclose, Prod.map, id, get?_setQueue_reclaim hqueues]
    refine changes_at hd hq ?_ i
    split_ifs
    · exact .closedLast
    · exact .closed hre
  | send authority data priority reserveMessage reserveSlot =>
    simp only [event, call]
    rcases t.mqSendFor_cases authority data priority reserveMessage reserveSlot with ⟨e, he⟩ | ⟨d, q, hd, hq, hsize, hroom, hsend⟩
    · simp only [he]
      exact .same
    · simp only [hsend, Prod.map, id, get?_setQueue]
      exact changes_at hd hq (.sent hsize hroom) i
  | receive authority bufSize =>
    simp only [event, call]
    rcases t.mqReceiveFor_cases authority bufSize with ⟨e, he⟩ | ⟨d, q, m, rest, hd, _, hq, _, hmessages, hreceive⟩
    · simp only [he]
      exact .same
    · simp only [hreceive, Prod.map, id, get?_setQueue]
      exact changes_at hd hq (.received hmessages) i
  | notify mqd sigevNotify signo valueBits =>
    simp only [event, call]
    rcases t.mqNotify_cases mqd pid sigevNotify signo valueBits with ⟨e, he⟩ | ⟨d, q, hd, hq, hfree, hnotify⟩
    · simp only [he]
      exact .same
    simp only [hnotify, Prod.map, id, get?_setQueue]
    cases sigevNotify with
    | none => exact changes_at hd hq .unregistered i
    | some kind =>
      refine changes_at hd hq ?_ i
      exact .registered (n := ⟨pid, if kind = sigevNone then 0 else signo, valueBits⟩) (hfree rfl) rfl
  | exit =>
    simp only [call, cleanupProcess, OrdMap.get?_mapValues]
    exact .exited

end MqueueTable

/-! ## Messages sent and not yet received -/

/-- The messages of one queue, in the order they were sent, after an event at it. -/
def Event.deliver (sent : List MqMessage) : Event → List MqMessage
  | .sent m => sent ++ [m]
  | .received m => sent.erase m
  | _ => sent

/-- The table, and beside it what each queue was sent and has not handed out: the
messages of a queue that is destroyed go with it. -/
structure Traced where
  table : MqueueTable
  outstanding : Nat → List MqMessage

namespace Traced

def start : Traced := ⟨.new, fun _ => []⟩

def call (s : Traced) (r : Request) : Answer × Traced :=
  let c := s.table.call r
  (c.1, ⟨c.2, fun i => if c.2.queues.contains i then (event s.table r i).deliver (s.outstanding i) else []⟩)

/-- A queue holds what it was sent, in priority order, within its limits. -/
structure QueueInv (sent : List MqMessage) (q : MqQueue) : Prop where
  keeps : PriorityFifo.Keeps MqMessage.priority sent q.messages
  length_le : q.messages.length ≤ q.maxmsg
  size_le : ∀ m ∈ q.messages, m.data.length ≤ q.msgsize

/-- The same for the queue with an id, if there is one. -/
def SlotInv (sent : List MqMessage) : Option MqQueue → Prop
  | none => sent = []
  | some q => QueueInv sent q

variable {sent : List MqMessage} {q : MqQueue}

theorem QueueInv.recounted {q' : MqQueue} (h : QueueInv sent q) (hre : Recounted q q') : QueueInv sent q' := by
  rw [hre]
  exact ⟨h.keeps, h.length_le, h.size_le⟩

theorem insert_perm (m : MqMessage) (l : List MqMessage) (h : l.Pairwise fun a b => b.priority ≤ a.priority) :
    (PriorityFifo.insert MqMessage.priority m l).Perm (m :: l) := by
  obtain ⟨high, low, rfl, hinsert, _, _⟩ := PriorityFifo.insert_split h m
  rw [hinsert]
  exact List.perm_middle

theorem QueueInv.send {m : MqMessage} (h : QueueInv sent q)
    (hsize : m.data.length ≤ q.msgsize) (hroom : q.messages.length < q.maxmsg) (n : Option MqNotification) :
    QueueInv (sent ++ [m]) { q with messages := PriorityFifo.insert MqMessage.priority m q.messages, notification := n } := by
  have hperm := insert_perm m q.messages h.keeps.sorted
  refine ⟨h.keeps.insert m, ?_, fun m' hm' => ?_⟩
  · have := hperm.length_eq
    rw [List.length_cons] at this
    change (PriorityFifo.insert MqMessage.priority m q.messages).length ≤ q.maxmsg
    omega
  · rcases List.mem_cons.mp (hperm.mem_iff.mp hm') with rfl | hmem
    · exact hsize
    · exact h.size_le m' hmem

theorem QueueInv.receive {m : MqMessage} {rest : List MqMessage} (h : QueueInv sent q)
    (hmessages : q.messages = m :: rest) : QueueInv (sent.erase m) { q with messages := rest } := by
  have hlength := h.length_le
  have hsize := h.size_le
  rw [hmessages] at hlength hsize
  refine ⟨(hmessages ▸ h.keeps).tail, ?_, fun m' hm' => hsize m' (List.mem_cons_of_mem _ hm')⟩
  exact (Nat.le_succ _).trans hlength

theorem QueueInv.notified (h : QueueInv sent q) (n : Option MqNotification) :
    QueueInv sent { q with notification := n } := ⟨h.keeps, h.length_le, h.size_le⟩

theorem QueueInv.forget (h : QueueInv sent q) (pid : UInt32) : QueueInv sent (q.forget pid) := by
  simp only [MqQueue.forget]
  split
  · split
    · exact h.notified none
    · exact h
  · exact h

/-- One event: what the queue holds is still what it was sent and has not handed out. -/
theorem SlotInv.changes {pid : UInt32} {ev : Event} {before after : Option MqQueue}
    (h : SlotInv sent before) (hc : Changes pid ev before after) : SlotInv (if after.isSome then ev.deliver sent else []) after := by
  cases hc with
  | same =>
    cases before with
    | none => rfl
    | some q => exact h
  | recounted hre => exact .recounted h hre
  | created hmessages _ =>
    rw [show sent = [] from h]
    refine ⟨?_, ?_, ?_⟩
    · rw [hmessages]
      exact .nil
    · rw [hmessages]
      exact Nat.zero_le _
    · rw [hmessages]
      exact nofun
  | reclaimed => rfl
  | closed hre => exact .recounted h hre
  | closedLast => rfl
  | sent hsize hroom => exact .send h hsize hroom _
  | received hmessages => exact .receive h hmessages
  | registered _ _ => exact .notified h _
  | unregistered => exact .notified h _
  | exited =>
    cases before with
    | none => rfl
    | some q => exact .forget h pid

theorem slotInv {s : Traced} (h : Machine.Reachable (· = start) call s) (i : Nat) :
    SlotInv (s.outstanding i) (s.table.queues.get? i) := by
  induction h with
  | start hs =>
    rw [hs]
    rfl
  | next r _ ih => exact ih.changes (MqueueTable.call_changes _ r i)

/-- In every state any requests lead to: a queue holds exactly what it was sent and
has not handed out, within its limits; a receive succeeds exactly where the
descriptor is readable, the buffer large enough and a message is there, and its
message is the earliest sent of the highest priority; and a send or a receive that
fails changes nothing. -/
theorem mq_priority_order (s : Traced) (h : Machine.Reachable (· = start) call s) : (∀ i q, s.table.queues.get? i = some q →
      q.messages.Perm (s.outstanding i) ∧ q.messages.length ≤ q.maxmsg ∧ ∀ m ∈ q.messages, m.data.length ≤ q.msgsize) ∧
    (∀ authority bufSize m, (s.table.mqReceiveFor authority bufSize).1 = .ok m ↔
      ∃ d q, s.table.resolveDescriptor authority = .ok d ∧ d.accessMode ≠ oWronly ∧
        s.table.queues.get? d.queueId = some q ∧ q.msgsize ≤ bufSize ∧
        PriorityFifo.next MqMessage.priority (s.outstanding d.queueId) = some m) ∧
    (∀ authority data priority reserveMessage reserveSlot e,
      (s.table.mqSendFor authority data priority reserveMessage reserveSlot).1 = .error e →
      (s.table.mqSendFor authority data priority reserveMessage reserveSlot).2 = s.table) ∧
    ∀ authority bufSize e, (s.table.mqReceiveFor authority bufSize).1 = .error e →
      (s.table.mqReceiveFor authority bufSize).2 = s.table := by
  have hinv : ∀ i q, s.table.queues.get? i = some q → QueueInv (s.outstanding i) q := by
    intro i q hq
    have := slotInv h i
    rwa [hq] at this
  refine ⟨fun i q hq => ⟨(hinv i q hq).keeps.perm, (hinv i q hq).length_le, (hinv i q hq).size_le⟩, ?_, ?_, ?_⟩
  · intro authority bufSize m
    constructor
    · intro hok
      rcases s.table.mqReceiveFor_cases authority bufSize with ⟨e, he⟩ | ⟨d, q, m', rest, hd, haccess, hq, hsize, hmessages, hreceive⟩
      · rw [he] at hok
        cases hok
      rw [hreceive] at hok
      cases hok
      exact ⟨d, q, hd, haccess, hq, hsize, (hmessages ▸ (hinv _ q hq).keeps).next⟩
    intro ⟨d, q, hd, haccess, hq, hsize, hnext⟩
    simp only [MqueueTable.mqReceiveFor, hd, haccess, hq, not_lt.mpr hsize]
    have hkeeps := (hinv _ q hq).keeps
    cases hmessages : q.messages with
    | nil =>
      rw [hmessages] at hkeeps
      rw [hkeeps.eq_nil] at hnext
      cases hnext
    | cons m' rest =>
      rw [hmessages] at hkeeps
      rw [hkeeps.next] at hnext
      cases hnext
      rfl
  · intro authority data priority reserveMessage reserveSlot e hfail
    rcases s.table.mqSendFor_cases authority data priority reserveMessage reserveSlot with ⟨e', he⟩ | ⟨d, q, _, _, _, _, hsend⟩
    · rw [he]
    · rw [hsend] at hfail
      cases hfail
  · intro authority bufSize e hfail
    rcases s.table.mqReceiveFor_cases authority bufSize with ⟨e', he⟩ | ⟨d, q, m, rest, _, _, _, _, _, hreceive⟩
    · rw [he]
    · rw [hreceive] at hfail
      cases hfail

/-- Two low messages around a high one: the high one comes first, then the low
ones as they were sent. -/
theorem mq_priority_order_threeMessages :
    let mqd := MqDescriptorAuthority.pub mqdBase
    let s := Machine.run call start [ ⟨7, .opens "/q" 0o102 0o600 3 8 true ⟨true, true, true⟩⟩, ⟨7, .send mqd [1] 5 true true⟩,
      ⟨8, .send mqd [2] 9 true true⟩, ⟨7, .send mqd [3] 5 true true⟩, ⟨8, .receive mqd 8⟩]
    s.outstanding 1 = [⟨[1], 5⟩, ⟨[3], 5⟩] ∧ (s.table.mqReceiveFor mqd 8).1 = .ok ⟨[1], 5⟩ := by
  refine ⟨by decide +kernel, ?_⟩
  rw [(mq_priority_order _ (Machine.Reachable.run _ (.start rfl))).2.1]
  exact ⟨⟨1, 2, false⟩, ⟨3, 8, [⟨[1], 5⟩, ⟨[3], 5⟩], true, 1, 0, none, 0o600⟩, by decide +kernel, by decide, by decide +kernel,
    by decide, by decide +kernel⟩

end Traced

end Kandelo.Mqueue

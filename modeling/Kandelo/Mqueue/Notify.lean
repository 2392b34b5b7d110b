/-
Notification registrations: whether what a process registers stays in force until
it fires or that process gives it up.

Each registration is kept beside the table as a promise, with the descriptor it
was made through, until one of the things that may end it happens. `Intrudes`
says which requests break a promise: `mq_notify` with a null event never asks who
registered, and descriptor numbers belong to nobody, so another process can close
the one the registration was made through and have the queue destroyed.
-/
import Kandelo.Mqueue.Order

namespace Kandelo.Mqueue

structure Promise where
  notification : MqNotification
  mqd : Nat
  deriving DecidableEq, Repr

/-- The promise at a queue after an event of the process `pid` there. -/
def Event.promise (pid : UInt32) (queue : Option MqQueue) (p : Option Promise) : Event → Option Promise
  | .sent _ => if queue.any fun q => q.messages.isEmpty then none else p
  | .registered n mqd => some ⟨n, mqd⟩
  | .unregistered => p.filter fun x => x.notification.pid ≠ pid
  | .closed mqd => p.filter fun x => ¬(x.mqd = mqd ∧ x.notification.pid = pid)
  | .exited => p.filter fun x => x.notification.pid ≠ pid
  | .received _ => p
  | .quiet => p

structure Watched where
  table : MqueueTable
  promises : Nat → Option Promise

namespace Watched

def start : Watched := ⟨.new, fun _ => none⟩

def call (s : Watched) (r : Request) : Answer × Watched :=
  let c := s.table.call r
  (c.1, ⟨c.2, fun i => (event s.table r i).promise r.pid (s.table.queues.get? i) (s.promises i)⟩)

/-- The queue has the registration that was promised. -/
def Kept (p : Option Promise) (queue : Option MqQueue) : Prop :=
  ∀ x, p = some x → ∃ q, queue = some q ∧ q.notification = some x.notification

def InForce (s : Watched) : Prop := ∀ i, Kept (s.promises i) (s.table.queues.get? i)

/-- The request passes a null event through a descriptor of the queue `i`. -/
def Unregisters (t : MqueueTable) (r : Request) (i : Nat) : Prop :=
  ∃ mqd signo valueBits, r.op = .notify mqd none signo valueBits ∧ t.leadsTo (.pub mqd) i

/-- The request takes away the last of what leads to the queue `i`, which is `q`
before it: its name, its last descriptor, or its last pin. -/
def Destroys (t : MqueueTable) (r : Request) (i : Nat) (q : MqQueue) : Prop :=
  match r.op with
  | .close mqd => t.leadsTo (.pub mqd) i ∧ q.linked = false ∧ q.openCount = 1 ∧ q.activePins = 0
  | .unlink name => t.names.get? name = some i ∧ q.openCount = 0 ∧ q.activePins = 0
  | .release p => i = p.queueId ∧ t.activePins.get? p.pinId = some i ∧ q.linked = false ∧ q.openCount = 0 ∧ q.activePins = 1
  | _ => False

/-- The request breaks a promise: it unregisters what another process registered,
or destroys the queue other than by the registrant's closing its descriptor. -/
def Intrudes (s : Watched) (r : Request) : Prop :=
  ∃ i x q, s.promises i = some x ∧ s.table.queues.get? i = some q ∧ (Unregisters s.table r i ∧ x.notification.pid ≠ r.pid ∨
      Destroys s.table r i q ∧ ¬(r.op = .close x.mqd ∧ x.notification.pid = r.pid))

/-! ## What a request does to a queue with a promise -/

section

variable {t : MqueueTable} {i : Nat} {q : MqQueue} (hq : t.queues.get? i = some q)

include hq

theorem unused_of_gone {t' : MqueueTable} {j : Nat} {q' : MqQueue} (h : (t'.reclaimQueueIfUnused j).queues.get? i = none)
    (ht : t'.queues = (t.setQueue j q').queues) : i = j ∧ q'.linked = false ∧ q'.openCount = 0 ∧ q'.activePins = 0 := by
  rw [MqueueTable.get?_setQueue_reclaim ht] at h
  split_ifs at h with hij hunused
  · simp only [MqQueue.unused, Bool.and_eq_true, Bool.not_eq_true', beq_iff_eq, and_assoc] at hunused
    exact ⟨hij, hunused⟩
  · cases hq.symm.trans h

theorem setQueue_stays (j : Nat) (q' : MqQueue) : ¬(t.setQueue j q').queues.get? i = none := by
  rw [MqueueTable.get?_setQueue]
  split_ifs
  · nofun
  · simp [hq]

theorem mqClose_destroys {mqd : Nat} (h : (t.mqClose mqd).2.queues.get? i = none) :
    t.leadsTo (.pub mqd) i ∧ q.linked = false ∧ q.openCount = 1 ∧ q.activePins = 0 := by
  simp only [MqueueTable.mqClose] at h
  split at h
  · cases hq.symm.trans h
  rename_i d hd
  split at h
  · cases hq.symm.trans h
  rename_i q₁ hq1
  split_ifs at h with hcount
  · cases hq.symm.trans h
  obtain ⟨rfl, hlinked, hopen, hpins⟩ := unused_of_gone hq h rfl
  cases hq.symm.trans hq1
  have hlast : q.openCount - 1 = 0 := hopen
  exact ⟨(MqueueTable.leadsTo_iff (MqueueTable.resolve_pub hd) _).mpr rfl, hlinked, by omega, hpins⟩

theorem mqUnlink_destroys {name : String} (h : (t.mqUnlink name).2.queues.get? i = none) :
    t.names.get? name = some i ∧ q.openCount = 0 ∧ q.activePins = 0 := by
  simp only [MqueueTable.mqUnlink] at h
  split at h
  · cases hq.symm.trans h
  rename_i j hname
  split at h
  · cases hq.symm.trans h
  rename_i q₁ hq1
  obtain ⟨rfl, -, hopen, hpins⟩ := unused_of_gone hq h rfl
  cases hq.symm.trans hq1
  exact ⟨hname, hopen, hpins⟩

theorem release_destroys {p : PinnedMqueueDescriptor} (h : (t.releasePinnedDescriptor p).2.queues.get? i = none) :
    i = p.queueId ∧ t.activePins.get? p.pinId = some i ∧ q.linked = false ∧ q.openCount = 0 ∧ q.activePins = 1 := by
  simp only [MqueueTable.releasePinnedDescriptor] at h
  split_ifs at h with hpin
  · cases hq.symm.trans h
  split at h
  · cases hq.symm.trans h
  rename_i q₁ hq1
  split_ifs at h with hcount
  · cases hq.symm.trans h
  obtain ⟨rfl, hlinked, hopen, hpins⟩ := unused_of_gone hq h rfl
  cases hq.symm.trans hq1
  have hlast : q.activePins - 1 = 0 := hpins
  exact ⟨rfl, not_not.mp hpin, hlinked, hopen, by omega⟩

/-- A queue that is gone after a request was destroyed by it. -/
theorem destroys_of_gone {r : Request} (h : (t.call r).2.queues.get? i = none) : Destroys t r i q := by
  have hstays : ¬t.queues.get? i = none := by simp [hq]
  obtain ⟨pid, op⟩ := r
  cases op with
  | close mqd => exact mqClose_destroys hq h
  | unlink name => exact mqUnlink_destroys hq h
  | release p => exact release_destroys hq h
  | opens => exact (t.mqOpen_relinked ..).stays hq h
  | getsetattr => exact (t.mqGetsetattr_relinked ..).stays hq h
  | pin => exact (t.pinDescriptor_relinked ..).stays hq h
  | send | receive | notify =>
    simp only [MqueueTable.call, Prod.map, id, MqueueTable.mqSendFor, MqueueTable.mqReceiveFor, MqueueTable.mqNotify] at h
    repeat' split at h
    all_goals first | exact hstays h | exact setQueue_stays hq _ _ h
  | exit => simp [MqueueTable.call, MqueueTable.cleanupProcess, OrdMap.get?_mapValues, hq] at h

omit hq in
theorem unregisters_of_event {r : Request} (h : event t r i = .unregistered) : Unregisters t r i := by
  obtain ⟨pid, op⟩ := r
  cases op <;> simp only [event] at h <;> repeat' split at h
  all_goals simp_all [Unregisters]

end

/-- The request breaks the promise, by the event at the queue and by what is there
afterwards. -/
def Breaks (pid : UInt32) (x : Promise) (ev : Event) (after : Option MqQueue) : Prop :=
  (ev = .unregistered ∧ x.notification.pid ≠ pid) ∨ (after = none ∧ ¬(ev = .closed x.mqd ∧ x.notification.pid = pid))

theorem Kept.none (queue : Option MqQueue) : Kept none queue := nofun

variable {x : Promise} {q : MqQueue}

theorem kept_some (h : q.notification = some x.notification) : Kept (some x) (some q) := by
  intro y hy
  cases hy
  exact ⟨q, rfl, h⟩

variable {pid : UInt32}

/-- One event, with no promise before it: it keeps whatever it promises. -/
theorem kept_of_none {ev : Event} {before after : Option MqQueue} (hc : Changes pid ev before after) :
    Kept (ev.promise pid before none) after := by
  cases hc with
  | registered _ _ => exact kept_some rfl
  | sent _ _ =>
    simp only [Event.promise, ite_self]
    exact .none _
  | _ => exact .none _

/-- One event, with a promise kept before it. -/
theorem kept_of_changes {ev : Event} {after : Option MqQueue} (hq : q.notification = some x.notification)
    (hc : Changes pid ev (some q) after) (hnot : ¬Breaks pid x ev after) : Kept (ev.promise pid (some q) (some x)) after := by
  cases hc with
  | same => exact kept_some hq
  | recounted hre => exact kept_some (by rw [hre]; exact hq)
  | reclaimed => exact absurd (.inr ⟨rfl, nofun⟩) hnot
  | closed hre =>
    simp only [Event.promise, Option.filter_some]
    split
    · exact kept_some (by rw [hre]; exact hq)
    · exact .none _
  | closedLast =>
    simp only [Event.promise, Option.filter_some]
    split_ifs with hother
    · refine absurd (.inr ⟨rfl, fun hown => ?_⟩) hnot
      cases hown.1
      simp [hown.2] at hother
    · exact .none _
  | sent _ _ =>
    simp only [Event.promise, Option.any_some]
    split_ifs with hempty
    · exact .none _
    · exact kept_some (by simp [hq])
  | received _ => exact kept_some hq
  | registered hnone _ => cases hnone.symm.trans hq
  | unregistered =>
    simp only [Event.promise, Option.filter_some]
    split_ifs with hne
    · exact absurd (.inl ⟨rfl, by simpa using hne⟩) hnot
    · exact .none _
  | exited =>
    simp only [Event.promise, Option.filter_some, Option.map_some]
    split_ifs with hne
    · exact kept_some (by simp_all [MqQueue.forget])
    · exact .none _

/-- What breaks a promise can be told before it does. -/
theorem intrudes_of_breaks {t : MqueueTable} {i : Nat} (hq : t.queues.get? i = some q) {r : Request}
    (h : Breaks r.pid x (event t r i) ((t.call r).2.queues.get? i)) : Unregisters t r i ∧ x.notification.pid ≠ r.pid ∨
      Destroys t r i q ∧ ¬(r.op = .close x.mqd ∧ x.notification.pid = r.pid) := by
  rcases h with ⟨hev, hpid⟩ | ⟨hgone, hown⟩
  · exact .inl ⟨unregisters_of_event hev, hpid⟩
  refine .inr ⟨destroys_of_gone hq hgone, fun hclose => hown ⟨?_, hclose.2⟩⟩
  obtain ⟨pid, op⟩ := r
  obtain rfl : op = .close x.mqd := hclose.1
  -- the queue is gone, so the close succeeded
  have hok : (t.mqClose x.mqd).1 = .ok () := by
    rcases t.mqClose_cases x.mqd with ⟨e, he⟩ | ⟨_, _, _, _, _, _, hclosed, _⟩
    · simp [MqueueTable.call, he, hq] at hgone
    · rw [hclosed]
  simp [event, hok, (mqClose_destroys hq hgone).1]

/-- One request: the promises are kept unless it intrudes on one. -/
theorem InForce.call {s : Watched} (h : s.InForce) {r : Request} (hnot : ¬s.Intrudes r) : (s.call r).2.InForce := by
  intro i
  have hchanges := MqueueTable.call_changes s.table r i
  simp only [Watched.call]
  cases hx : s.promises i with
  | none => exact kept_of_none hchanges
  | some x =>
    obtain ⟨q, hq, hn⟩ := h i x hx
    rw [hq] at hchanges ⊢
    exact kept_of_changes hn hchanges fun hbreaks => hnot ⟨i, x, q, hx, hq, intrudes_of_breaks hq hbreaks⟩

/-- Every send to a queue with a promise fires exactly where it makes the queue
non-empty, and nothing is registered there then. -/
def Fires (s : Watched) : Prop :=
  ∀ authority data priority reserveMessage reserveSlot fired d x, s.table.resolveDescriptor authority = .ok d →
    s.promises d.queueId = some x →
    (s.table.mqSendFor authority data priority reserveMessage reserveSlot).1 = .ok fired →
    ∃ q q', s.table.queues.get? d.queueId = some q ∧
      (s.table.mqSendFor authority data priority reserveMessage reserveSlot).2.queues.get? d.queueId = some q' ∧
      (q.messages.isEmpty → fired = some x.notification ∧ q'.notification = none) ∧
      (q.messages.isEmpty = false → fired = none ∧ q'.notification = some x.notification)

theorem InForce.fires {s : Watched} (h : s.InForce) : s.Fires := by
  intro authority data priority reserveMessage reserveSlot fired d x hd hx hsent
  obtain ⟨q, hq, hn⟩ := h d.queueId x hx
  rcases s.table.mqSendFor_cases authority data priority reserveMessage reserveSlot with ⟨e, he⟩ | ⟨d', q', hd', hq', _, _, hsend⟩
  · rw [he] at hsent
    cases hsent
  rw [hd] at hd'
  cases hd'
  rw [hq] at hq'
  cases hq'
  rw [hsend] at hsent ⊢
  cases hsent
  refine ⟨q, _, hq, (MqueueTable.get?_setQueue ..).trans (if_pos rfl), fun hempty => ?_, fun hempty => ?_⟩
  · simp [hempty, hn]
  · simp [hempty, hn]

end Watched

end Kandelo.Mqueue

/-
Runs of the IPC table. A run is any sequence of its calls; the pins callers
hold are part of the state, because a pin can only be used and released by
whoever it was handed to, once.

`Reachable.inv`: in every state of a run both registries keep their
invariants, the pins in hand are entered, and an id names one object of the
three kinds. `pins_govern_generations` reads off what this means for pinned
operations.
-/
import Kandelo.Lib.Machine
import Kandelo.Ipc.Table

namespace Kandelo.Ipc

open IpcTable Int32

/-- The table and the pins that callers hold. -/
structure System where
  table : IpcTable
  msgPins : List Pin
  semPins : List Pin

/-- The calls on the table. -/
inductive IpcOp
  | msgget (env : Env) (key : Int32) (flags uid gid : UInt32)
  | pinMsgQueue (env : Env) (qid : Int32)
  | releaseMsgQueuePin (pin : Pin)
  | msgsnd (env : Env) (qid : Int32) (mtype : Int64) (data : List UInt8) (flags pid uid gid : UInt32)
  | msgsndPinned (env : Env) (pin : Pin) (mtype : Int64) (data : List UInt8) (flags pid uid gid : UInt32)
  | msgrcv (env : Env) (qid : Int32) (maxSize : UInt32) (msgtype maxOutputMtype : Int64) (flags pid uid gid : UInt32)
  | msgrcvPinned (env : Env) (pin : Pin) (maxSize : UInt32) (msgtype maxOutputMtype : Int64)
      (flags pid uid gid : UInt32)
  | msgctl (qid cmd : Int32) (uid gid : UInt32)
  | msgctlSet (env : Env) (qid : Int32) (newUid newGid newMode : UInt32) (newQbytes : Nat) (uid : UInt32)
  | semget (env : Env) (key : Int32) (nsems : Nat) (flags uid gid : UInt32)
  | pinSemSet (env : Env) (semid : Int32)
  | releaseSemSetPin (pin : Pin)
  | semop (env : Env) (semid : Int32) (sops : List SemOp) (pid uid gid : UInt32)
  | semopPinned (env : Env) (pin : Pin) (sops : List SemOp) (pid uid gid : UInt32)
  | semctl (env : Env) (semid semnum cmd arg : Int32) (uid gid : UInt32)
  | semctlSetAll (env : Env) (semid : Int32) (values : List UInt16) (uid gid : UInt32)
  | semctlSetAllBytes (env : Env) (semid : Int32) (bytes : List UInt8) (uid gid : UInt32)
  | shmget (env : Env) (key : Int32) (size flags pid uid gid : UInt32)
  | shmat (env : Env) (shmid : Int32) (pid flags uid gid : UInt32)
  | shmWriteChunk (shmid : Int32) (offset : UInt32) (data : List UInt8)
  | shmdt (env : Env) (shmid : Int32) (pid : UInt32)
  | shmctl (shmid cmd : Int32) (uid gid : UInt32)
  | shmctlSet (env : Env) (shmid : Int32) (newUid newGid newMode uid : UInt32)

namespace System

def start : System := ⟨.new, [], []⟩

/-- The state after a call that moves no pin. -/
def after {β : Type} (s : System) (res : Except Errno β × IpcTable) : Except Errno Unit × System :=
  (res.1.map fun _ => (), { s with table := res.2 })

/-- The pins in hand after a call that answers with one. -/
def take (held : List Pin) : Except Errno Pin → List Pin
  | .ok pin => pin :: held
  | .error _ => held

def call (s : System) : IpcOp → Except Errno Unit × System
  | .msgget env key flags uid gid => s.after (s.table.msgget env key flags uid gid)
  | .pinMsgQueue env qid =>
    let res := s.table.pinMsgQueue env qid
    (res.1.map fun _ => (), { s with table := res.2, msgPins := take s.msgPins res.1 })
  | .releaseMsgQueuePin pin =>
    if pin ∈ s.msgPins then
      let res := s.table.releaseMsgQueuePin pin
      (res.1, { s with table := res.2, msgPins := s.msgPins.erase pin })
    else (.error .EINVAL, s)
  | .msgsnd env qid mtype data flags pid uid gid => s.after (s.table.msgsnd env qid mtype data flags pid uid gid)
  | .msgsndPinned env pin mtype data flags pid uid gid =>
    if pin ∈ s.msgPins then s.after (s.table.msgsndPinned env pin mtype data flags pid uid gid)
    else (.error .EINVAL, s)
  | .msgrcv env qid maxSize msgtype maxOutputMtype flags pid uid gid =>
    s.after (s.table.msgrcvWithMtypeMax env qid maxSize msgtype maxOutputMtype flags pid uid gid)
  | .msgrcvPinned env pin maxSize msgtype maxOutputMtype flags pid uid gid =>
    if pin ∈ s.msgPins then
      s.after (s.table.msgrcvPinnedWithMtypeMax env pin maxSize msgtype maxOutputMtype flags pid uid gid)
    else (.error .EINVAL, s)
  | .msgctl qid cmd uid gid => s.after (s.table.msgctl qid cmd uid gid)
  | .msgctlSet env qid newUid newGid newMode newQbytes uid =>
    s.after (s.table.msgctlSet env qid newUid newGid newMode newQbytes uid)
  | .semget env key nsems flags uid gid => s.after (s.table.semget env key nsems flags uid gid)
  | .pinSemSet env semid =>
    let res := s.table.pinSemSet env semid
    (res.1.map fun _ => (), { s with table := res.2, semPins := take s.semPins res.1 })
  | .releaseSemSetPin pin =>
    if pin ∈ s.semPins then
      let res := s.table.releaseSemSetPin pin
      (res.1, { s with table := res.2, semPins := s.semPins.erase pin })
    else (.error .EINVAL, s)
  | .semop env semid sops pid uid gid => s.after (s.table.semop env semid sops pid uid gid)
  | .semopPinned env pin sops pid uid gid =>
    if pin ∈ s.semPins then s.after (s.table.semopPinned env pin sops pid uid gid) else (.error .EINVAL, s)
  | .semctl env semid semnum cmd arg uid gid => s.after (s.table.semctl env semid semnum cmd arg uid gid)
  | .semctlSetAll env semid values uid gid => s.after (s.table.semctlSetAll env semid values uid gid)
  | .semctlSetAllBytes env semid bytes uid gid => s.after (s.table.semctlSetAllBytes env semid bytes uid gid)
  | .shmget env key size flags pid uid gid => s.after (s.table.shmget env key size flags pid uid gid)
  | .shmat env shmid pid flags uid gid => s.after (s.table.shmat env shmid pid flags uid gid)
  | .shmWriteChunk shmid offset data => s.after (s.table.shmWriteChunk shmid offset data)
  | .shmdt env shmid pid => s.after (s.table.shmdt env shmid pid)
  | .shmctl shmid cmd uid gid => s.after (s.table.shmctl shmid cmd uid gid)
  | .shmctlSet env shmid newUid newGid newMode uid => s.after (s.table.shmctlSet env shmid newUid newGid newMode uid)

/-- The states any sequence of calls leads to. -/
abbrev Reachable (s : System) : Prop := Machine.Reachable (· = start) call s

end System

/-! ## Fresh ids -/

theorem toInt_succ {c m : Int32} (h : c < m) : (c + 1).toInt = c.toInt + 1 := by
  have h1 := lt_iff_toInt_lt.mp h
  have h2 := m.toInt_lt
  have h3 := c.le_toInt
  rw [toInt_add, toInt_one, Int.bmod_eq_of_le (by omega) (by omega)]

theorem toNat_of_toInt_nonneg {w : Nat} {x : BitVec w} (h : 0 ≤ x.toInt) : (x.toNat : Int) = x.toInt := by
  rw [BitVec.toInt_eq_toNat_cond] at h ⊢
  split at h
  · rw [if_pos (by assumption)]
  · omega

/-- For the ids handed out, `id as u64` and `id as u32 as u64` are one key. -/
theorem asU64_eq {id : Int32} (h : 0 ≤ id) : asU64 id = publicKey id := by
  have h0 : 0 ≤ id.toBitVec.toInt := by simpa using le_iff_toInt_le.mp h
  have h1 : (id.toInt64.toBitVec).toInt = id.toBitVec.toInt := toInt_toInt64 id
  have h2 := toNat_of_toInt_nonneg (x := id.toInt64.toBitVec) (by omega)
  have h3 := toNat_of_toInt_nonneg h0
  show (id.toInt64.toBitVec).toNat = id.toBitVec.toNat
  omega

variable {t : IpcTable}

theorem nextFreeIdLoop_spec {maxId : Int32} (hmax : 0 ≤ maxId) : ∀ {n : Nat} {candidate id next : Int32},
    0 ≤ candidate → candidate ≤ maxId → t.nextFreeIdLoop maxId n candidate = .ok (id, next) → 0 ≤ id ∧ t.publicIdInUse id = false
  | 0, _, _, _, _, _, h => by cases h
  | n + 1, candidate, id, next, h0, h1, h => by
    simp only [nextFreeIdLoop] at h
    split at h
    · rename_i hfree
      cases h
      exact ⟨h0, by simpa using hfree⟩
    by_cases hend : candidate = maxId
    · rw [if_pos hend] at h
      exact nextFreeIdLoop_spec hmax (Int32.le_refl 0) hmax h
    rw [if_neg hend] at h
    have hlt : candidate < maxId := Int32.lt_of_le_of_ne h1 hend
    have hsucc := toInt_succ hlt
    rw [le_iff_toInt_le] at h0
    rw [lt_iff_toInt_lt] at hlt
    refine nextFreeIdLoop_spec hmax ?_ ?_ h <;> rw [le_iff_toInt_le] <;> omega

variable {next : Int32}

/-- An id handed out names no live object. -/
theorem nextFreeId_spec {id : Int32} (h : t.nextFreeId = .ok (id, next)) :
    0 ≤ id ∧ t.msg.live.get? (publicKey id) = none ∧ t.sem.live.get? (publicKey id) = none ∧ t.shm.get? id.toInt = none := by
  have hmax : (0 : Int32) ≤ .maxValue := by decide
  simp only [nextFreeId, nextFreeIdBounded, if_neg (by decide : ¬ maxValue < 0)] at h
  have hspec : 0 ≤ id ∧ t.publicIdInUse id = false := by
    split_ifs at h with hc
    · exact nextFreeIdLoop_spec hmax hc.1 hc.2 h
    · exact nextFreeIdLoop_spec hmax (Int32.le_refl 0) hmax h
  obtain ⟨h0, hfree⟩ := hspec
  simp only [publicIdInUse, OrdMap.contains, Bool.or_eq_false_iff, Option.isSome_eq_false_iff, Option.isNone_iff_eq_none] at hfree
  exact ⟨h0, hfree.1.1, hfree.1.2, hfree.2⟩

/-! ## Operations on one object keep its header -/

open Registry

theorem keepsHeader_msgsndQueue (q : MsgQueue) (env : Env) (mtype : Int64) (data : List UInt8)
    (flags pid uid gid : UInt32) : KeepsHeader q (msgsndQueue q env mtype data flags pid uid gid).2 := by
  unfold msgsndQueue
  repeat' split
  all_goals exact ⟨rfl, rfl, rfl, rfl⟩

theorem keepsHeader_msgsndCaptured (env : Env) (mtype : Int64) (data : List UInt8) (flags pid uid gid : UInt32)
    (q : MsgQueue) : KeepsHeader q (msgsndCaptured env mtype data flags pid uid gid q).2 := by
  unfold msgsndCaptured
  split
  · exact ⟨rfl, rfl, rfl, rfl⟩
  · exact keepsHeader_msgsndQueue q env mtype data flags pid uid gid

theorem keepsHeader_msgrcvQueue (q : MsgQueue) (env : Env) (maxSize : UInt32) (msgtype maxOutputMtype : Int64)
    (flags pid uid gid : UInt32) :
    KeepsHeader q (msgrcvQueueWithMtypeMax q env maxSize msgtype maxOutputMtype flags pid uid gid).2 := by
  simp only [msgrcvQueueWithMtypeMax]
  repeat' split
  all_goals exact ⟨rfl, rfl, rfl, rfl⟩

theorem keepsHeader_semopSet (s : SemSet) (env : Env) (sops : List SemOp) (pid uid gid : UInt32) :
    KeepsHeader s (semopSet s env sops pid uid gid).2 := by
  unfold semopSet
  repeat' split
  all_goals exact ⟨rfl, rfl, rfl, rfl⟩

theorem semctlGet_table (t : IpcTable) (semid semnum : Int32) (uid gid : UInt32) (field : SemValue → Int32) :
    (t.semctlGet semid semnum uid gid field).2 = t := by
  unfold semctlGet
  repeat' split
  all_goals rfl

/-- What `semctl` can do to the table: nothing, a removal, or an update of one
set. -/
inductive SemctlEffect (t : IpcTable) (semid : Int32) : Except Errno SemCtlResult × IpcTable → Prop
  | none {res} : res.2 = t → SemctlEffect t semid res
  | rmid (check : SemSet → Except Errno Unit) :
    SemctlEffect t semid (t.onSem ((t.sem.rmid semid check).map (Except.map fun _ => .ok) id))
  | update {f : SemSet → Except Errno SemCtlResult × SemSet} :
    (∀ o, KeepsHeader o (f o).2) → SemctlEffect t semid (t.onSem (t.sem.withLive semid f))

theorem semctl_effect (t : IpcTable) (env : Env) (semid semnum cmd arg : Int32) (uid gid : UInt32) :
    SemctlEffect t semid (t.semctl env semid semnum cmd arg uid gid) := by
  have hget : ∀ field, SemctlEffect t semid (t.semctlGet semid semnum uid gid field) := fun field =>
    .none (semctlGet_table t semid semnum uid gid field)
  refine iteInduction (fun _ => .none ?stat) fun _ => iteInduction (fun _ => .rmid _) fun _ =>
    iteInduction (fun _ => .update ?set) fun _ => iteInduction (fun _ => hget _) fun _ =>
    iteInduction (fun _ => .update ?setval) fun _ => iteInduction (fun _ => .none ?getall) fun _ =>
    iteInduction (fun _ => .none rfl) fun _ => iteInduction (fun _ => hget _) fun _ =>
    iteInduction (fun _ => hget _) fun _ => iteInduction (fun _ => hget _) fun _ => .none rfl
  case stat =>
    split <;> rfl
  case set =>
    intro o
    split <;> exact ⟨rfl, rfl, rfl, rfl⟩
  case setval =>
    intro o
    repeat' split
    all_goals exact ⟨rfl, rfl, rfl, rfl⟩
  case getall =>
    repeat' split
    all_goals rfl

/-! ## The invariant of a run -/

variable {α β : Type}

/-- What holds in every state of a run. -/
structure System.Inv (s : System) : Prop where
  msg : s.table.msg.Inv s.table.nextGeneration
  sem : s.table.sem.Inv s.table.nextGeneration
  msgHeld : s.table.msg.Held s.msgPins
  semHeld : s.table.sem.Held s.semPins
  shm_key : ∀ {k seg}, s.table.shm.get? k = some seg → k = seg.id.toInt
  msg_sem : ∀ id, s.table.msg.live.get? (publicKey id) = none ∨ s.table.sem.live.get? (publicKey id) = none
  msg_shm : ∀ id : Int32, s.table.msg.live.get? (publicKey id) = none ∨ s.table.shm.get? id.toInt = none
  sem_shm : ∀ id : Int32, s.table.sem.live.get? (publicKey id) = none ∨ s.table.shm.get? id.toInt = none

namespace System.Inv

theorem start : System.start.Inv where
  msg := .empty _
  sem := .empty _
  msgHeld := .nil fun _ => rfl
  semHeld := .nil fun _ => rfl
  shm_key h := by cases h
  msg_sem _ := .inl rfl
  msg_shm _ := .inl rfl
  sem_shm _ := .inl rfl

variable {s : System} (h : s.Inv)

include h

/-- A call that works on the queues. -/
theorem onMsg {r : Registry MsgQueue} {held : List Pin} (nextPinId : Option Nat) (hr : Kept s.table.msg r s.table.nextGeneration held) :
    Inv { s with table := { s.table with msg := r, nextPinId }, msgPins := held } :=
  { h with
    msg := hr.inv
    msgHeld := hr.held
    msg_sem := fun id => (h.msg_sem id).imp_left (hr.keys _)
    msg_shm := fun id => (h.msg_shm id).imp_left (hr.keys _) }

/-- A call that works on the semaphore sets. -/
theorem onSem {r : Registry SemSet} {held : List Pin} (nextPinId : Option Nat) (hr : Kept s.table.sem r s.table.nextGeneration held) :
    Inv { s with table := { s.table with sem := r, nextPinId }, semPins := held } :=
  { h with
    sem := hr.inv
    semHeld := hr.held
    msg_sem := fun id => (h.msg_sem id).imp_right (hr.keys _)
    sem_shm := fun id => (h.sem_shm id).imp_left (hr.keys _) }

/-- A call that works on the segments. -/
theorem onShm {shm : OrdMap Int ShmSegment} (hkey : ∀ {k seg}, shm.get? k = some seg → k = seg.id.toInt)
    (hkeys : ∀ k, s.table.shm.get? k = none → shm.get? k = none) : Inv { s with table := { s.table with shm } } :=
  { h with
    shm_key := hkey
    msg_shm := fun id => (h.msg_shm id).imp_right (hkeys _)
    sem_shm := fun id => (h.sem_shm id).imp_right (hkeys _) }

variable {f : MsgQueue → Except Errno β × MsgQueue}

theorem withLiveMsg (id : Int32) (hf : ∀ o, KeepsHeader o (f o).2) : (s.after (s.table.onMsg (s.table.msg.withLive id f))).2.Inv :=
  h.onMsg _ (kept_withLive h.msg h.msgHeld id hf)

theorem withPinnedMsg (p : Pin) (hf : ∀ o, KeepsHeader o (f o).2) : (s.after (s.table.onMsg (s.table.msg.withPinned p f))).2.Inv :=
  h.onMsg _ (kept_withPinned h.msg h.msgHeld p hf)

variable {f : SemSet → Except Errno β × SemSet}

theorem withLiveSem (id : Int32) (hf : ∀ o, KeepsHeader o (f o).2) : (s.after (s.table.onSem (s.table.sem.withLive id f))).2.Inv :=
  h.onSem _ (kept_withLive h.sem h.semHeld id hf)

theorem withPinnedSem (p : Pin) (hf : ∀ o, KeepsHeader o (f o).2) : (s.after (s.table.onSem (s.table.sem.withPinned p f))).2.Inv :=
  h.onSem _ (kept_withPinned h.sem h.semHeld p hf)

theorem withShm (shmid : Int32) {f : ShmSegment → Except Errno β × ShmSegment}
    (hf : ∀ seg, (f seg).2.id = seg.id) : (s.after (s.table.withShm shmid f)).2.Inv := by
  unfold IpcTable.withShm
  split
  · exact h
  rename_i seg hseg
  refine h.onShm (fun {k x} hx => ?_) fun k hk => ?_
  · rw [OrdMap.get?_insert] at hx
    split_ifs at hx with he
    · cases hx
      rw [he, hf]
      exact h.shm_key hseg
    · exact h.shm_key hx
  · rw [OrdMap.get?_insert]
    split_ifs with he
    · rw [he, hseg] at hk
      cases hk
    · exact hk

omit h in
/-- What goes in where `P` holds leaves the rest apart from it. -/
theorem insert_apart {K V : Type} [Ord K] [Std.TransOrd K] [Std.LawfulEqOrd K] [DecidableEq K] {m : OrdMap K V} {key : Int32 → K}
    (hkey : ∀ {a b}, key a = key b → a = b)
    {P : Int32 → Prop} {i : Int32} (hi : P i) (v : V) (h : ∀ id, m.get? (key id) = none ∨ P id) (id : Int32) :
    (m.insert (key i) v).get? (key id) = none ∨ P id := by
  by_cases he : id = i
  · exact .inr (he ▸ hi)
  · refine (h id).imp_left fun hn => ?_
    rw [OrdMap.get?_insert, if_neg fun heq => he (hkey heq), hn]

omit h in
theorem nextFreeGeneration_spec {g next : Nat} (hg : t.nextFreeGeneration = .ok (g, next)) :
    g = t.nextGeneration ∧ next = t.nextGeneration + 1 := by
  unfold nextFreeGeneration at hg
  split at hg
  · cases hg
  · cases hg
    exact ⟨rfl, rfl⟩

variable {nextId : Int32}

/-- A new queue, under an id and a generation just handed out. -/
theorem publishMsg (q : MsgQueue) {id : Int32} (hid : s.table.nextFreeId = .ok (id, next))
    (hq : q.id = id) (hg : q.generation = s.table.nextGeneration) (hp : q.activePins = 0) :
    Inv { s with table := { s.table with
      msg := s.table.msg.publish (asU64 id) q, nextId, nextGeneration := s.table.nextGeneration + 1 } } := by
  subst hq
  obtain ⟨h0, hmsg, hsem, hshm⟩ := nextFreeId_spec hid
  rw [asU64_eq h0]
  exact ⟨h.msg.publish rfl hg hp hmsg, h.sem.mono (Nat.le_succ _), h.msgHeld.publish h.msg hg, h.semHeld, h.shm_key,
    insert_apart publicKey_inj hsem q h.msg_sem, insert_apart publicKey_inj hshm q h.msg_shm, h.sem_shm⟩

/-- A new semaphore set. -/
theorem publishSem (o : SemSet) {id : Int32} (hid : s.table.nextFreeId = .ok (id, next))
    (ho : o.id = id) (hg : o.generation = s.table.nextGeneration) (hp : o.activePins = 0) :
    Inv { s with table := { s.table with
      sem := s.table.sem.publish (asU64 id) o, nextId, nextGeneration := s.table.nextGeneration + 1 } } := by
  subst ho
  obtain ⟨h0, hmsg, hsem, hshm⟩ := nextFreeId_spec hid
  rw [asU64_eq h0]
  exact ⟨h.msg.mono (Nat.le_succ _), h.sem.publish rfl hg hp hsem, h.msgHeld, h.semHeld.publish h.sem hg, h.shm_key,
    fun id => (insert_apart publicKey_inj hmsg o (fun id => (h.msg_sem id).symm) id).symm, h.msg_shm,
    insert_apart publicKey_inj hshm o h.sem_shm⟩

/-- A new segment. -/
theorem publishShm (seg : ShmSegment) {id : Int32} (hid : s.table.nextFreeId = .ok (id, next)) (hseg : seg.id = id) :
    Inv { s with table := { s.table with shm := s.table.shm.insert id.toInt seg, nextId } } := by
  subst hseg
  obtain ⟨h0, hmsg, hsem, hshm⟩ := nextFreeId_spec hid
  have hapart {r : Int32 → Prop} (hr : r seg.id) (h : ∀ id, r id ∨ s.table.shm.get? id.toInt = none) (id : Int32) :
      r id ∨ (s.table.shm.insert seg.id.toInt seg).get? id.toInt = none :=
    (insert_apart toInt_inj.mp hr seg (fun id => (h id).symm) id).symm
  refine ⟨h.msg, h.sem, h.msgHeld, h.semHeld, fun {k x} hx => ?_, h.msg_sem, hapart hmsg h.msg_shm, hapart hsem h.sem_shm⟩
  rw [OrdMap.get?_insert] at hx
  split_ifs at hx with he
  · cases hx
    exact he
  · exact h.shm_key hx

section

variable (env : Env)

theorem msgget (key : Int32) (flags uid gid : UInt32) : (s.after (s.table.msgget env key flags uid gid)).2.Inv := by
  simp only [IpcTable.msgget]
  split
  · exact h
  split
  · exact h
  rename_i id next hid
  split
  · exact h
  rename_i g nextGeneration hg
  obtain ⟨rfl, rfl⟩ := nextFreeGeneration_spec hg
  split
  · exact h
  split
  · exact h
  · exact h.publishMsg _ hid rfl rfl rfl

theorem semget (key : Int32) (nsems : Nat) (flags uid gid : UInt32) : (s.after (s.table.semget env key nsems flags uid gid)).2.Inv := by
  simp only [IpcTable.semget]
  iterate 3 (split; · exact h)
  rename_i id next hid
  split
  · exact h
  rename_i g nextGeneration hg
  obtain ⟨rfl, rfl⟩ := nextFreeGeneration_spec hg
  iterate 3 (split; · exact h)
  · exact h.publishSem _ hid rfl rfl rfl

theorem shmget (key : Int32) (size flags pid uid gid : UInt32) : (s.after (s.table.shmget env key size flags pid uid gid)).2.Inv := by
  simp only [IpcTable.shmget]
  iterate 3 (split; · exact h)
  rename_i id next hid
  iterate 3 (split; · exact h)
  · exact h.publishShm _ hid rfl

theorem pinMsgQueue (qid : Int32) : (s.call (.pinMsgQueue env qid)).2.Inv := by
  have hkept := kept_pin h.msg h.msgHeld env qid s.table.nextFreePinId
  simp only [call, IpcTable.pinMsgQueue]
  split <;> rename_i hpin <;> rw [hpin] at hkept <;> exact h.onMsg _ hkept

theorem pinSemSet (semid : Int32) : (s.call (.pinSemSet env semid)).2.Inv := by
  have hkept := kept_pin h.sem h.semHeld env semid s.table.nextFreePinId
  simp only [call, IpcTable.pinSemSet]
  split <;> rename_i hpin <;> rw [hpin] at hkept <;> exact h.onSem _ hkept

theorem msgctl (qid cmd : Int32) (uid gid : UInt32) : (s.after (s.table.msgctl qid cmd uid gid)).2.Inv := by
  simp only [IpcTable.msgctl]
  split
  · split <;> exact h
  split
  · exact h.onMsg _ (kept_rmid h.msg h.msgHeld qid _)
  · exact h

theorem msgctlSet (qid : Int32) (newUid newGid newMode : UInt32) (newQbytes : Nat) (uid : UInt32) :
    (s.after (s.table.msgctlSet env qid newUid newGid newMode newQbytes uid)).2.Inv := by
  refine h.withLiveMsg qid fun q => ?_
  repeat' split
  all_goals exact ⟨rfl, rfl, rfl, rfl⟩

theorem semctlSetAll (semid : Int32) (values : List UInt16) (uid gid : UInt32) :
    (s.after (s.table.semctlSetAll env semid values uid gid)).2.Inv := by
  refine h.withLiveSem semid fun o => ?_
  repeat' split
  all_goals exact ⟨rfl, rfl, rfl, rfl⟩

theorem semctl (semid semnum cmd arg : Int32) (uid gid : UInt32) :
    (s.after (s.table.semctl env semid semnum cmd arg uid gid)).2.Inv := by
  simp only [after]
  have heff := semctl_effect s.table env semid semnum cmd arg uid gid
  generalize s.table.semctl env semid semnum cmd arg uid gid = res at heff ⊢
  cases heff with
  | none ht =>
    rw [ht]
    exact h
  | rmid check => exact h.onSem _ (kept_rmid h.sem h.semHeld semid check)
  | update hf => exact h.withLiveSem semid hf

end

theorem shmctl (shmid cmd : Int32) (uid gid : UInt32) : (s.after (s.table.shmctl shmid cmd uid gid)).2.Inv := by
  simp only [IpcTable.shmctl]
  split
  · split <;> exact h
  split
  · split
    · exact h
    split
    · exact h
    refine h.onShm (fun {k x} hx => ?_) fun k hk => ?_
    · rw [OrdMap.get?_erase] at hx
      split at hx
      · cases hx
      · exact h.shm_key hx
    · rw [OrdMap.get?_erase, hk, ite_self]
  · exact h

/-- Every call keeps the invariant. -/
theorem call (op : IpcOp) : (s.call op).2.Inv := by
  cases op with
  | msgget env key flags uid gid => exact h.msgget env key flags uid gid
  | pinMsgQueue env qid => exact h.pinMsgQueue env qid
  | releaseMsgQueuePin pin =>
    simp only [System.call]
    split_ifs with hp
    · exact h.onMsg _ (kept_release h.msg h.msgHeld hp)
    · exact h
  | msgsnd env qid mtype data flags pid uid gid =>
    simp only [System.call, msgsnd]
    split
    · exact h
    · exact h.withLiveMsg qid fun q => keepsHeader_msgsndQueue q env mtype data flags pid uid gid
  | msgsndPinned env pin mtype data flags pid uid gid =>
    simp only [System.call]
    split
    · exact h.withPinnedMsg pin fun q => keepsHeader_msgsndCaptured env mtype data flags pid uid gid q
    · exact h
  | msgrcv env qid maxSize msgtype maxOutputMtype flags pid uid gid =>
    exact h.withLiveMsg qid fun q => keepsHeader_msgrcvQueue q env maxSize msgtype maxOutputMtype flags pid uid gid
  | msgrcvPinned env pin maxSize msgtype maxOutputMtype flags pid uid gid =>
    simp only [System.call]
    split
    · exact h.withPinnedMsg pin fun q => keepsHeader_msgrcvQueue q env maxSize msgtype maxOutputMtype flags pid uid gid
    · exact h
  | msgctl qid cmd uid gid => exact h.msgctl qid cmd uid gid
  | msgctlSet env qid newUid newGid newMode newQbytes uid =>
    exact h.msgctlSet env qid newUid newGid newMode newQbytes uid
  | semget env key nsems flags uid gid => exact h.semget env key nsems flags uid gid
  | pinSemSet env semid => exact h.pinSemSet env semid
  | releaseSemSetPin pin =>
    simp only [System.call]
    split_ifs with hp
    · exact h.onSem _ (kept_release h.sem h.semHeld hp)
    · exact h
  | semop env semid sops pid uid gid =>
    exact h.withLiveSem semid fun o => keepsHeader_semopSet o env sops pid uid gid
  | semopPinned env pin sops pid uid gid =>
    simp only [System.call]
    split
    · exact h.withPinnedSem pin fun o => keepsHeader_semopSet o env sops pid uid gid
    · exact h
  | semctl env semid semnum cmd arg uid gid => exact h.semctl env semid semnum cmd arg uid gid
  | semctlSetAll env semid values uid gid => exact h.semctlSetAll env semid values uid gid
  | semctlSetAllBytes env semid bytes uid gid =>
    simp only [System.call, semctlSetAllBytes]
    iterate 3 (split; · exact h)
    · exact h.semctlSetAll env semid (decodeU16s bytes) uid gid
  | shmget env key size flags pid uid gid => exact h.shmget env key size flags pid uid gid
  | shmat env shmid pid flags uid gid =>
    refine h.withShm shmid fun seg => ?_
    simp only
    split <;> rfl
  | shmWriteChunk shmid offset data =>
    refine h.withShm shmid fun seg => ?_
    simp only
    split <;> rfl
  | shmdt env shmid pid => exact h.withShm shmid fun seg => rfl
  | shmctl shmid cmd uid gid => exact h.shmctl shmid cmd uid gid
  | shmctlSet env shmid newUid newGid newMode uid =>
    refine h.withShm shmid fun seg => ?_
    split <;> rfl

end System.Inv

variable {s : System}

theorem System.Reachable.inv (h : s.Reachable) : s.Inv := by
  refine Machine.Reachable.invariant ?_ (fun _ op hi => hi.call op) h
  rintro _ rfl
  exact .start

/-! ## Pins and generations -/

/-- A pinned operation answers `res` in table `t`: it is `f` on the live object
of the captured generation; when there is none it is `EIDRM` and the table
stays. -/
def ActsOnCaptured {α β : Type} [PinObject α] (t : IpcTable) (live : OrdMap Nat α) (put : OrdMap Nat α → IpcTable)
    (pin : Pin) (f : α → Except Errno β × α) (res : Except Errno β × IpcTable) : Prop :=
  (∀ k o, live.get? k = some o → PinObject.generation o = pin.generation → res = ((f o).1, put (live.insert k (f o).2))) ∧
  ((∀ k o, live.get? k = some o → PinObject.generation o ≠ pin.generation) → res = (.error .EIDRM, t))

/-- Pins, counts and tombstones of one registry, with these pins in hand. -/
structure PinsAccounted {α : Type} [PinObject α] (r : Registry α) (held : List Pin) : Prop where
  entered : ∀ i g, r.pins.get? i = some g ↔ ∃ p ∈ held, p.pinId = i ∧ p.generation = g
  count : ∀ o, r.Stored o → PinObject.activePins o = pinsNaming r.pins (PinObject.generation o)
  tombstone : ∀ g, (r.removed.get? g).isSome ↔ pinsNaming r.pins g ≠ 0 ∧ ∀ k o, r.live.get? k = some o → PinObject.generation o ≠ g

theorem Registry.Inv.accounted [PinObject α] {r : Registry α} {next : Nat} {held : List Pin} (h : r.Inv next)
    (hheld : r.Held held) : PinsAccounted r held := by
  refine ⟨fun i g => ⟨fun hi => ?_, ?_⟩, fun o ho => ?_, fun g => ⟨fun hg => ?_, fun ⟨hcount, hlive⟩ => ?_⟩⟩
  · obtain ⟨p, hp, rfl⟩ := hheld.known i g hi
    exact ⟨p, hp, rfl, Option.some.inj ((hheld.entered p hp).symm.trans hi)⟩
  · rintro ⟨p, hp, rfl, rfl⟩
    exact hheld.entered p hp
  · rcases ho with ⟨k, ho⟩ | ⟨g, ho⟩
    · exact h.live_pins ho
    · rw [h.tomb_pins ho, (h.tomb ho).1]
  · obtain ⟨o, ho⟩ := Option.isSome_iff_exists.mp hg
    refine ⟨h.tomb_pins ho ▸ (h.tomb ho).2.2.2, fun k x hx he => ?_⟩
    have := h.apart hx
    rw [he, ho] at this
    cases this
  have hpin : ∃ p, r.pins.get? p = some g := by
    by_contra hnone
    exact hcount (pinsNaming_eq_zero.mpr fun p hp => hnone ⟨p, hp⟩)
  obtain ⟨p, hp⟩ := hpin
  rcases h.named hp with ⟨k, o, ho, he⟩ | ⟨o, ho⟩
  · exact absurd he (hlive k o ho)
  · rw [ho]
    rfl

theorem System.Inv.msgPinned (h : s.Inv) {pin : Pin} (hp : pin ∈ s.msgPins) (f : MsgQueue → Except Errno β × MsgQueue) :
    ActsOnCaptured s.table s.table.msg.live (fun live => { s.table with msg := { s.table.msg with live } }) pin f
      (s.table.onMsg (s.table.msg.withPinned pin f)) := by
  obtain ⟨hlive, hgone⟩ := h.msgHeld.withPinned_eq h.msg hp f
  exact ⟨fun k o ho hg => by rw [hlive k o ho hg]; rfl, fun hnone => by rw [hgone hnone]; rfl⟩

theorem System.Inv.semPinned (h : s.Inv) {pin : Pin} (hp : pin ∈ s.semPins) (f : SemSet → Except Errno β × SemSet) :
    ActsOnCaptured s.table s.table.sem.live (fun live => { s.table with sem := { s.table.sem with live } }) pin f
      (s.table.onSem (s.table.sem.withPinned pin f)) := by
  obtain ⟨hlive, hgone⟩ := h.semHeld.withPinned_eq h.sem hp f
  exact ⟨fun k o ho hg => by rw [hlive k o ho hg]; rfl, fun hnone => by rw [hgone hnone]; rfl⟩

/-- In every state of a run: each object's pin count is the number of pins
that name its generation, a removed generation has a tombstone exactly while
pins name it, and a pinned operation reaches the generation it captured or
nothing at all. -/
theorem pins_govern_generations {s : System} (h : s.Reachable) : PinsAccounted s.table.msg s.msgPins ∧
    PinsAccounted s.table.sem s.semPins ∧
    (∀ pin ∈ s.msgPins, ∀ env mtype data flags pid uid gid,
      ActsOnCaptured s.table s.table.msg.live (fun live => { s.table with msg := { s.table.msg with live } }) pin
        (fun q => if mtype ≤ 0 then (.error .EINVAL, q) else msgsndQueue q env mtype data flags pid uid gid)
        (s.table.msgsndPinned env pin mtype data flags pid uid gid)) ∧
    (∀ pin ∈ s.msgPins, ∀ env maxSize msgtype maxOutputMtype flags pid uid gid,
      ActsOnCaptured s.table s.table.msg.live (fun live => { s.table with msg := { s.table.msg with live } }) pin
        (fun q => msgrcvQueueWithMtypeMax q env maxSize msgtype maxOutputMtype flags pid uid gid)
        (s.table.msgrcvPinnedWithMtypeMax env pin maxSize msgtype maxOutputMtype flags pid uid gid)) ∧
    ∀ pin ∈ s.semPins, ∀ env sops pid uid gid,
      ActsOnCaptured s.table s.table.sem.live (fun live => { s.table with sem := { s.table.sem with live } }) pin
        (fun o => semopSet o env sops pid uid gid) (s.table.semopPinned env pin sops pid uid gid) := by
  have hinv := h.inv
  exact ⟨hinv.msg.accounted hinv.msgHeld, hinv.sem.accounted hinv.semHeld, fun _ hp _ _ _ _ _ _ _ => hinv.msgPinned hp _,
    fun _ hp _ _ _ _ _ _ _ _ => hinv.msgPinned hp _, fun _ hp _ _ _ _ _ => hinv.semPinned hp _⟩

/-- A queue is made, pinned and removed. -/
def pinThenRemove : System :=
  ((((System.start.call (.msgget .calm 0 0o1600 0 0)).2).call (.pinMsgQueue .calm 0)).2.call (.msgctl 0 IPC_RMID 0 0)).2

/-- The retry finds its queue gone, and the tombstone that says so is counted. -/
theorem pinThenRemove_retry : (pinThenRemove.table.msgsndPinned .calm ⟨1, 0, 1⟩ 1 [] 0 1 0 0).1 = .error .EIDRM ∧
      (pinThenRemove.table.msg.removed.get? 1).isSome = true := by
  have hr : pinThenRemove.Reachable := .next _ (.next _ (.next _ (.start rfl)))
  obtain ⟨hmsg, -, hsnd, -⟩ := pins_govern_generations hr
  have hp : (⟨1, 0, 1⟩ : Pin) ∈ pinThenRemove.msgPins := by decide
  refine ⟨?_, (hmsg.tombstone 1).mpr ⟨by decide, ?_⟩⟩
  · rw [(hsnd _ hp .calm 1 [] 0 1 0 0).2 fun k o ho => ?_]
    cases ho
  · intro k o ho
    cases ho

end Kandelo.Ipc

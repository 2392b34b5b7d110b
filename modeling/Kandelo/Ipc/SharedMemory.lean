/-
Shared memory segments over runs. A segment keeps its id and its bytes, the
last ones written, through every call but one: `shmctl` with `IPC_RMID` by its
owner destroys it at once, whatever is attached (`rmid_destroys_attached`).
Detaching destroys nothing, the id goes to no other object before, and after
the removal it stays gone until a `shmget` hands the id out again.
-/
import Kandelo.Ipc.Run

namespace Kandelo.Ipc

open List IpcTable

/-- The byte at each offset of a segment. -/
def ShmSegment.byteAt (seg : ShmSegment) (i : Nat) : Option UInt8 := seg.data[i]?

/-- The bytes of a segment of `size` bytes after the calls, by what was last
written at each offset. -/
def lastWritten (shmid : Int32) (size : Nat) : List IpcOp → (Nat → Option UInt8) → Nat → Option UInt8
  | [], mem => mem
  | .shmWriteChunk id offset data :: ops, mem =>
    lastWritten shmid size ops fun i =>
      if id = shmid ∧ offset.toNat ≤ i ∧ i < offset.toNat + data.length ∧ i < size then data[i - offset.toNat]? else mem i
  | _ :: ops, mem => lastWritten shmid size ops mem

/-- No call of the run removes the segment. -/
def Spares (shmid : Int32) : System → List IpcOp → Prop
  | _, [] => True
  | s, op :: ops =>
    (∀ uid gid, op = .shmctl shmid IPC_RMID uid gid → (s.call op).1 ≠ .ok ()) ∧ Spares shmid (s.call op).2 ops

/-! ## One call -/

theorem getElem?_writeAt {bytes : List UInt8} {start : Nat} (h : start < bytes.length) (chunk : List UInt8) (i : Nat) :
    (writeAt bytes start chunk)[i]? =
      if start ≤ i ∧ i < start + chunk.length ∧ i < bytes.length then chunk[i - start]? else bytes[i]? := by
  have hlen : (bytes.take start).length = start := by simp; omega
  simp only [writeAt, append_assoc]
  by_cases h1 : i < start
  · rw [getElem?_append_left (by omega), getElem?_take_of_lt h1, if_neg (by omega)]
  rw [getElem?_append_right (by omega), hlen]
  have hlen' : (chunk.take (min (start + chunk.length) bytes.length - start)).length =
      min (start + chunk.length) bytes.length - start := by
    simp only [length_take]
    omega
  by_cases h2 : i < min (start + chunk.length) bytes.length
  · rw [getElem?_append_left (by omega), getElem?_take_of_lt (by omega), if_pos (by omega)]
  rw [getElem?_append_right (by omega), getElem?_drop, if_neg (by omega)]
  congr 1
  omega

theorem get?_withShm {β : Type} (t : IpcTable) (id shmid : Int32) (f : ShmSegment → Except Errno β × ShmSegment) :
    (t.withShm id f).2.shm.get? shmid.toInt =
      if id = shmid then (t.shm.get? shmid.toInt).map fun seg => (f seg).2 else t.shm.get? shmid.toInt := by
  unfold withShm
  by_cases he : id = shmid
  · subst he
    cases hseg : t.shm.get? id.toInt with
    | none => simp [hseg]
    | some seg => simp
  have hne : shmid.toInt ≠ id.toInt := fun h => he (Int32.toInt_inj.mp h).symm
  rw [if_neg he]
  split
  · rfl
  · rw [OrdMap.get?_insert, if_neg hne]

/-- The calls that can change a segment. -/
def IpcOp.onShm : IpcOp → Bool
  | .shmget .. | .shmat .. | .shmWriteChunk .. | .shmdt .. | .shmctl .. | .shmctlSet .. => true
  | _ => false

theorem shm_msgget (t : IpcTable) (env : Env) (key : Int32) (flags uid gid : UInt32) :
    (t.msgget env key flags uid gid).2.shm = t.shm := by
  unfold msgget
  repeat' split
  all_goals rfl

theorem shm_semget (t : IpcTable) (env : Env) (key : Int32) (nsems : Nat) (flags uid gid : UInt32) :
    (t.semget env key nsems flags uid gid).2.shm = t.shm := by
  unfold semget
  repeat' split
  all_goals rfl

theorem shm_semctl (t : IpcTable) (env : Env) (semid semnum cmd arg : Int32) (uid gid : UInt32) :
    (t.semctl env semid semnum cmd arg uid gid).2.shm = t.shm := by
  have heff := semctl_effect t env semid semnum cmd arg uid gid
  generalize t.semctl env semid semnum cmd arg uid gid = res at heff ⊢
  cases heff with
  | none ht => rw [ht]
  | rmid _ => rfl
  | update _ => rfl

/-- The calls on queues and semaphore sets leave the segments alone. -/
theorem shm_of_call (s : System) {op : IpcOp} (h : op.onShm = false) : (s.call op).2.table.shm = s.table.shm := by
  cases op with
  | msgget env key flags uid gid => exact shm_msgget ..
  | semget env key nsems flags uid gid => exact shm_semget ..
  | semctl env semid semnum cmd arg uid gid => exact shm_semctl ..
  | pinMsgQueue env qid =>
    simp only [System.call, pinMsgQueue]
    split <;> rfl
  | pinSemSet env semid =>
    simp only [System.call, pinSemSet]
    split <;> rfl
  | msgctl qid cmd uid gid =>
    simp only [System.call, msgctl]
    repeat' split
    all_goals rfl
  | msgsnd env qid mtype data flags pid uid gid =>
    simp only [System.call, msgsnd]
    split <;> rfl
  | semctlSetAllBytes env semid bytes uid gid =>
    simp only [System.call, semctlSetAllBytes]
    repeat' split
    all_goals rfl
  | releaseMsgQueuePin | msgsndPinned | msgrcvPinned | releaseSemSetPin | semopPinned =>
    simp only [System.call]
    split <;> rfl
  | msgrcv | msgctlSet | semop | semctlSetAll => rfl
  | _ => cases h

variable {shmid : Int32} {seg : ShmSegment} {t : IpcTable}

theorem shmget_keeps (hseg : t.shm.get? shmid.toInt = some seg) (env : Env) (key : Int32) (size flags pid uid gid : UInt32) :
    (t.shmget env key size flags pid uid gid).2.shm.get? shmid.toInt = some seg := by
  unfold shmget
  iterate 3 (split; · exact hseg)
  rename_i id next hid
  iterate 3 (split; · exact hseg)
  -- The id was free, so it is another one.
  have hne : shmid.toInt ≠ id.toInt := by
    intro he
    rw [he, (nextFreeId_spec hid).2.2.2] at hseg
    cases hseg
  simp [OrdMap.get?_insert, if_neg hne, hseg]

theorem shmctl_keeps (hseg : t.shm.get? shmid.toInt = some seg)
    (id cmd : Int32) (uid gid : UInt32) (hspared : id = shmid → cmd = IPC_RMID → ∀ v, (t.shmctl id cmd uid gid).1 ≠ .ok v) :
    (t.shmctl id cmd uid gid).2.shm.get? shmid.toInt = some seg := by
  unfold shmctl at hspared ⊢
  split
  · split <;> exact hseg
  rename_i hstat
  split_ifs with hrmid
  · split
    · exact hseg
    rename_i x hx
    split
    · exact hseg
    rename_i hown
    by_cases he : id = shmid
    · simp only [if_neg hstat, if_pos hrmid, hx, hown] at hspared
      exact absurd rfl (hspared he hrmid none)
    · have hne : shmid.toInt ≠ id.toInt := fun h => he (Int32.toInt_inj.mp h).symm
      simp [OrdMap.get?_erase, if_neg hne, hseg]
  · exact hseg

/-- What a call that leaves the bytes of a segment alone makes of it. -/
theorem withShm_keeps {β : Type} (hseg : t.shm.get? shmid.toInt = some seg) (id : Int32) {f : ShmSegment → Except Errno β × ShmSegment}
    (hf : ∀ seg, (f seg).2.segsz = seg.segsz ∧ (f seg).2.data = seg.data) :
    ∃ seg', (t.withShm id f).2.shm.get? shmid.toInt = some seg' ∧ seg'.segsz = seg.segsz ∧ seg'.byteAt = seg.byteAt := by
  rw [get?_withShm, hseg]
  by_cases he : id = shmid
  · exact ⟨(f seg).2, by rw [if_pos he]; rfl, (hf seg).1, by unfold ShmSegment.byteAt; rw [(hf seg).2]⟩
  · exact ⟨seg, by rw [if_neg he], rfl, rfl⟩

theorem shmWriteChunk_segment (hseg : t.shm.get? shmid.toInt = some seg) (id : Int32) (offset : UInt32) (data : List UInt8) :
    ∃ seg', (t.shmWriteChunk id offset data).2.shm.get? shmid.toInt = some seg' ∧ seg'.segsz = seg.segsz ∧ seg'.byteAt =
        lastWritten shmid seg.data.length [.shmWriteChunk id offset data] seg.byteAt := by
  unfold shmWriteChunk
  rw [get?_withShm, hseg]
  simp only [lastWritten]
  by_cases he : id = shmid
  · refine ⟨_, by rw [if_pos he]; rfl, ?_⟩
    simp only [he, true_and]
    split
    · -- A write past the end writes nothing.
      refine ⟨rfl, funext fun i => ?_⟩
      rw [if_neg (by omega)]
    · rename_i hlt
      exact ⟨rfl, funext fun i => getElem?_writeAt (Nat.lt_of_not_le hlt) data i⟩
  · refine ⟨seg, by rw [if_neg he], rfl, funext fun i => ?_⟩
    rw [if_neg fun h => he h.1]

variable {s : System}

/-- A call that does not remove the segment keeps it, and its bytes as last
written. -/
theorem call_keeps_segment (hseg : s.table.shm.get? shmid.toInt = some seg) (op : IpcOp)
    (hop : ∀ uid gid, op = .shmctl shmid IPC_RMID uid gid → (s.call op).1 ≠ .ok ()) :
    ∃ seg', (s.call op).2.table.shm.get? shmid.toInt = some seg' ∧ seg'.segsz = seg.segsz ∧
      seg'.byteAt = lastWritten shmid seg.data.length [op] seg.byteAt := by
  cases op with
  | shmget env key size flags pid uid gid => exact ⟨seg, shmget_keeps hseg .., rfl, rfl⟩
  | shmctl id cmd uid gid =>
    refine ⟨seg, shmctl_keeps hseg id cmd uid gid fun he hcmd v hv => ?_, rfl, rfl⟩
    subst he hcmd
    refine hop uid gid rfl ?_
    simp only [System.call, System.after, hv]
    rfl
  | shmat env id pid flags uid gid =>
    refine withShm_keeps hseg id fun x => ?_
    simp only
    split <;> exact ⟨rfl, rfl⟩
  | shmdt env id pid => exact withShm_keeps hseg id fun x => ⟨rfl, rfl⟩
  | shmctlSet env id newUid newGid newMode uid =>
    refine withShm_keeps hseg id fun x => ?_
    split <;> exact ⟨rfl, rfl⟩
  | shmWriteChunk id offset data => exact shmWriteChunk_segment hseg id offset data
  | _ => exact ⟨seg, (congrArg (·.get? shmid.toInt) (shm_of_call s rfl)).trans hseg, rfl, rfl⟩

theorem lastWritten_cons (shmid : Int32) (size : Nat) (op : IpcOp) (ops : List IpcOp) (mem : Nat → Option UInt8) :
    lastWritten shmid size (op :: ops) mem = lastWritten shmid size ops (lastWritten shmid size [op] mem) := by
  cases op <;> rfl

/-- A run that does not remove the segment keeps it, and its bytes as last
written. -/
theorem run_keeps_segment : ∀ {ops : List IpcOp} {s : System} {seg : ShmSegment},
    s.table.shm.get? shmid.toInt = some seg → Spares shmid s ops →
    ∃ seg', (Machine.run System.call s ops).table.shm.get? shmid.toInt = some seg' ∧ seg'.segsz = seg.segsz ∧
      seg'.byteAt = lastWritten shmid seg.data.length ops seg.byteAt
  | [], _, seg, hseg, _ => ⟨seg, hseg, rfl, rfl⟩
  | op :: ops, s, seg, hseg, hspares => by
    obtain ⟨seg₁, hseg1, hsize1, hdata1⟩ := call_keeps_segment hseg op hspares.1
    obtain ⟨seg₂, hseg2, hsize2, hdata2⟩ := run_keeps_segment hseg1 hspares.2
    refine ⟨seg₂, hseg2, hsize2.trans hsize1, ?_⟩
    rw [hdata2, hdata1, seg₁.data_len, hsize1, ← seg.data_len, lastWritten_cons shmid _ op ops]

/-! ## After the removal -/

/-- The call is a `shmget` that answers the id. -/
def HandsOut (shmid : Int32) (s : System) (op : IpcOp) : Prop :=
  ∃ env key size flags pid uid gid, op = .shmget env key size flags pid uid gid ∧
    (s.table.shmget env key size flags pid uid gid).1 = .ok shmid

/-- `shmget` leaves the segments, or adds one under the id it answers. -/
theorem shmget_cases (t : IpcTable) (env : Env) (key : Int32) (size flags pid uid gid : UInt32) :
    (t.shmget env key size flags pid uid gid).2.shm = t.shm ∨ ∃ id seg, (t.shmget env key size flags pid uid gid).1 = .ok id ∧
        (t.shmget env key size flags pid uid gid).2.shm = t.shm.insert id.toInt seg := by
  unfold shmget
  iterate 6 (split; · exact .inl rfl)
  exact .inr ⟨_, _, rfl, rfl⟩

theorem call_none (hnone : s.table.shm.get? shmid.toInt = none) {op : IpcOp} (hop : ¬HandsOut shmid s op) :
    (s.call op).2.table.shm.get? shmid.toInt = none := by
  have hwith : ∀ {β : Type} (id : Int32) (f : ShmSegment → Except Errno β × ShmSegment),
      (s.table.withShm id f).2.shm.get? shmid.toInt = none := by
    intro β id f
    rw [get?_withShm, hnone, Option.map_none, ite_self]
  have hrest : op.onShm = false → (s.call op).2.table.shm.get? shmid.toInt = none := fun h => by rw [shm_of_call s h, hnone]
  cases op with
  | shmget env key size flags pid uid gid =>
    simp only [System.call, System.after]
    rcases shmget_cases s.table env key size flags pid uid gid with hsame | ⟨id, seg, hok, hshm⟩
    · rw [hsame, hnone]
    · have hne : shmid.toInt ≠ id.toInt := by
        intro h
        exact hop ⟨env, key, size, flags, pid, uid, gid, rfl, Int32.toInt_inj.mp h ▸ hok⟩
      rw [hshm, OrdMap.get?_insert, if_neg hne, hnone]
  | shmctl id cmd uid gid =>
    simp only [System.call, System.after, shmctl]
    repeat' split
    all_goals first | exact hnone | rw [OrdMap.get?_erase, hnone, ite_self]
  | shmat | shmdt | shmctlSet | shmWriteChunk => exact hwith _ _
  | _ => exact hrest rfl

/-! ## A segment in a table -/

variable {flags uid gid : UInt32} {key id : Int32}

theorem getExisting_ok {entries : List KeyEntry}
    (h : getExisting entries key flags uid gid = some (.ok id)) : ∃ e ∈ entries, e.id = id := by
  simp only [getExisting] at h
  split at h
  · split at h
    · rename_i e he
      split at h
      · cases h
      refine ⟨e, mem_of_find?_eq_some he, ?_⟩
      cases hperm : ipcCheckPerm uid gid e.uid e.gid e.mode (flags &&& IPC_PERM_MASK) with
      | error _ =>
        rw [hperm] at h
        cases h
      | ok _ =>
        rw [hperm] at h
        cases h
        rfl
    · split at h <;> cases h
  · cases h

variable {env : Env}

theorem msgget_ok (h : s.Inv) (hok : (s.table.msgget env key flags uid gid).1 = .ok id) : s.table.shm.get? id.toInt = none := by
  unfold msgget at hok
  split at hok
  · rename_i res hres
    obtain ⟨e, he, rfl⟩ := getExisting_ok (hres.trans (congrArg some hok))
    obtain ⟨q, hq, rfl⟩ := mem_map.mp he
    obtain ⟨k, hk⟩ := OrdMap.mem_values.mp hq
    have hlive : s.table.msg.live.get? (publicKey q.id) = some q := h.msg.live_key hk ▸ hk
    refine (h.msg_shm q.id).resolve_left fun hnone => ?_
    rw [hlive] at hnone
    cases hnone
  split at hok
  · cases hok
  rename_i id' next hid
  iterate 3 (split at hok; · cases hok)
  · cases hok
    exact (nextFreeId_spec hid).2.2.2

theorem semget_ok (h : s.Inv) {nsems : Nat}
    (hok : (s.table.semget env key nsems flags uid gid).1 = .ok id) : s.table.shm.get? id.toInt = none := by
  unfold semget at hok
  split at hok
  · rename_i res hres
    obtain ⟨e, he, rfl⟩ := getExisting_ok (hres.trans (congrArg some hok))
    obtain ⟨o, ho, rfl⟩ := mem_map.mp he
    obtain ⟨k, hk⟩ := OrdMap.mem_values.mp ho
    have hlive : s.table.sem.live.get? (publicKey o.id) = some o := h.sem.live_key hk ▸ hk
    refine (h.sem_shm o.id).resolve_left fun hnone => ?_
    rw [hlive] at hnone
    cases hnone
  split at hok
  · cases hok
  split at hok
  · cases hok
  rename_i id' next hid
  iterate 4 (split at hok; · cases hok)
  · cases hok
    exact (nextFreeId_spec hid).2.2.2

/-- `shmget` answers with an id in use only for the segment it found by its
key, and then creates none. -/
theorem shmget_ok {size pid : UInt32} (hok : (t.shmget env key size flags pid uid gid).1 = .ok id) :
    (t.shmget env key size flags pid uid gid).2 = t ∨ t.shm.get? id.toInt = none := by
  unfold shmget at hok ⊢
  split
  · exact .inl rfl
  rename_i hres
  simp only [hres] at hok
  split at hok
  · cases hok
  split at hok
  · cases hok
  rename_i id' next hid
  refine .inr ?_
  iterate 3 (split at hok; · cases hok)
  · cases hok
    exact (nextFreeId_spec hid).2.2.2

/-- The segment is gone: every call on its id is refused. -/
structure Gone (t : IpcTable) (shmid : Int32) : Prop where
  read : ∀ offset len, t.shmReadChunk shmid offset len = .error .EINVAL
  write : ∀ offset data, t.shmWriteChunk shmid offset data = (.error .EINVAL, t)
  attach : ∀ env pid flags uid gid, t.shmat env shmid pid flags uid gid = (.error .EINVAL, t)
  detach : ∀ env pid, t.shmdt env shmid pid = (.error .EINVAL, t)

theorem gone_of_get? (h : t.shm.get? shmid.toInt = none) : Gone t shmid where
  read _ _ := by simp [shmReadChunk, h]
  write _ _ := by simp [shmWriteChunk, withShm, h]
  attach _ _ _ _ _ := by simp [shmat, withShm, h]
  detach _ _ := by simp [shmdt, withShm, h]

/-- A segment of `size` bytes lives under `shmid`: it reads as `mem`, can be
written, its id is not given to a new object, and its owner can destroy it,
for good unless a `shmget` answers the id again. -/
structure Lives (s : System) (shmid : Int32) (size : Nat) (mem : Nat → Option UInt8) : Prop where
  read : ∀ offset len, ∃ bytes, s.table.shmReadChunk shmid offset len = .ok bytes ∧ bytes.length = min len (size - offset.toNat) ∧
    ∀ i < len, bytes[i]? = mem (offset.toNat + i)
  write : ∀ offset data, (s.table.shmWriteChunk shmid offset data).1 = .ok (min data.length (size - offset.toNat))
  msgget : ∀ env key flags uid gid, (s.table.msgget env key flags uid gid).1 ≠ .ok shmid
  semget : ∀ env key nsems flags uid gid, (s.table.semget env key nsems flags uid gid).1 ≠ .ok shmid
  shmget : ∀ env key size flags pid uid gid, (s.table.shmget env key size flags pid uid gid).1 = .ok shmid →
    (s.table.shmget env key size flags pid uid gid).2 = s.table
  -- The owner check alone decides; the attachments are not asked.
  rmid : ∃ owner creator, ∀ uid gid, (s.table.shmctl shmid IPC_RMID uid gid).1 = (ipcCheckOwner uid owner creator).map fun _ => none
  removed : ∀ uid gid later, (s.call (.shmctl shmid IPC_RMID uid gid)).1 = .ok () →
    (∀ x ∈ Machine.steps System.call (s.call (.shmctl shmid IPC_RMID uid gid)).2 later, ¬HandsOut shmid x.1 x.2) →
    Gone (Machine.run System.call (s.call (.shmctl shmid IPC_RMID uid gid)).2 later).table shmid

section

variable (hseg : t.shm.get? shmid.toInt = some seg)

include hseg

theorem shmReadChunk_bytes (offset : UInt32) (len : Nat) :
    ∃ bytes, t.shmReadChunk shmid offset len = .ok bytes ∧ bytes.length = min len (seg.data.length - offset.toNat) ∧
      ∀ i < len, bytes[i]? = seg.byteAt (offset.toNat + i) := by
  simp only [shmReadChunk, hseg, ShmSegment.byteAt]
  split_ifs with hend
  · refine ⟨[], rfl, by rw [length_nil]; omega, fun i _ => ?_⟩
    rw [getElem?_nil, getElem?_eq_none (by omega)]
  refine ⟨_, rfl, ?_, fun i hi => ?_⟩
  · rw [length_take, length_drop]
    omega
  by_cases hin : offset.toNat + i < seg.data.length
  · rw [getElem?_take_of_lt (by omega), getElem?_drop]
  have hshort : ((seg.data.drop offset.toNat).take (min (offset.toNat + len) seg.data.length - offset.toNat)).length ≤ i := by
    rw [length_take]
    omega
  rw [getElem?_eq_none hshort, getElem?_eq_none (by omega)]

theorem shmWriteChunk_count (offset : UInt32) (data : List UInt8) :
    (t.shmWriteChunk shmid offset data).1 = .ok (min data.length (seg.data.length - offset.toNat)) := by
  simp only [shmWriteChunk, withShm, hseg]
  split <;> simp only [Except.ok.injEq]
  · omega
  · omega

/-- Removal asks who calls, and nothing else. -/
theorem shmctl_rmid (uid gid : UInt32) : t.shmctl shmid IPC_RMID uid gid = match ipcCheckOwner uid seg.uid seg.cuid with
      | .error e => (.error e, t)
      | .ok () => (.ok none, { t with shm := t.shm.erase shmid.toInt }) := by
  have hne : ¬ IPC_RMID = IPC_STAT := by decide
  cases hown : ipcCheckOwner uid seg.uid seg.cuid with
  | error | ok => simp [shmctl, if_neg hne, hseg, hown]

end

theorem lives_of_get? (h : s.Inv) (hseg : s.table.shm.get? shmid.toInt = some seg) : Lives s shmid seg.data.length seg.byteAt := by
  have hused : ∀ {id : Int32}, s.table.shm.get? id.toInt = none → id ≠ shmid := by
    rintro _ hnone rfl
    rw [hseg] at hnone
    cases hnone
  refine ⟨fun offset len => ?_, fun offset data => ?_, ?_, ?_, ?_, ⟨seg.uid, seg.cuid, fun uid gid => ?_⟩,
    fun uid gid later hok hlater => ?_⟩
  · exact shmReadChunk_bytes hseg offset len
  · exact shmWriteChunk_count hseg offset data
  · intro env key flags uid gid hok
    exact hused (msgget_ok h hok) rfl
  · intro env key nsems flags uid gid hok
    exact hused (semget_ok h hok) rfl
  · intro env key size flags pid uid gid hok
    exact (shmget_ok hok).resolve_right fun hnone => hused hnone rfl
  · rw [shmctl_rmid hseg]
    split
    · rename_i hown
      rw [hown]
      rfl
    rename_i hown
    rw [hown]
    rfl
  · refine gone_of_get? (Machine.run_keeps (I := fun s => s.table.shm.get? shmid.toInt = none)
      (fun s op => ¬HandsOut shmid s op) (fun s op hop hnone => call_none hnone hop) later ?_ hlater)
    simp only [System.call, System.after, shmctl_rmid hseg] at hok ⊢
    cases hown : ipcCheckOwner uid seg.uid seg.cuid with
    | error e =>
      rw [hown] at hok
      cases hok
    | ok => simp [OrdMap.get?_erase]

/-- While nobody removes it, a segment lives under its id with the bytes last
written, however often it is attached or detached; removal ends it at once, until
a `shmget` answers its id. -/
theorem segment_lives_until_removed {s : System} (h : s.Reachable) {shmid : Int32} {seg : ShmSegment}
    (hseg : s.table.shm.get? shmid.toInt = some seg) {ops : List IpcOp} (hops : Spares shmid s ops) :
    Lives (Machine.run System.call s ops) shmid seg.data.length (lastWritten shmid seg.data.length ops seg.byteAt) := by
  obtain ⟨seg', hseg', hsize, hbytes⟩ := run_keeps_segment hseg hops
  have hlives := lives_of_get? (System.Reachable.inv (h.run ops)) hseg'
  rw [seg'.data_len, hsize, ← seg.data_len, hbytes] at hlives
  exact hlives

/-- A segment of four bytes is made and attached. -/
def attached : System := Machine.run System.call .start [.shmget .calm 0 4 0o1600 1 0 0, .shmat .calm 0 1 0 0 0]

/-- It is attached once and detached never, and still `IPC_RMID` destroys it. -/
theorem rmid_destroys_attached :
    let removed := (attached.call (.shmctl 0 IPC_RMID 0 0)).2
    attached.Reachable ∧ (attached.table.shm.get? 0).map (·.nattch) = some 1 ∧ removed.table.shmReadChunk 0 0 4 = .error .EINVAL := by
  refine ⟨.run _ (.start rfl), by decide, by decide⟩

/-- Two writes around a detachment: the bytes are the last ones written. -/
theorem attached_written_lives : ∃ bytes, (Machine.run System.call attached
        [.shmWriteChunk 0 0 [1, 2, 3], .shmdt .calm 0 1, .shmWriteChunk 0 2 [7, 8, 9]]).table.shmReadChunk 0 0 4 =
          .ok bytes ∧ bytes[1]? = some 2 ∧ bytes[2]? = some 7 := by
  have hseg : attached.table.shm.get? (0 : Int32).toInt = some _ := rfl
  have hops : Spares 0 attached [.shmWriteChunk 0 0 [1, 2, 3], .shmdt .calm 0 1, .shmWriteChunk 0 2 [7, 8, 9]] :=
    ⟨nofun, nofun, nofun, trivial⟩
  have hlives := segment_lives_until_removed (.run _ (.start rfl)) hseg hops
  obtain ⟨bytes, hread, -, hbytes⟩ := hlives.read 0 4
  exact ⟨bytes, hread, hbytes 1 (by decide), hbytes 2 (by decide)⟩

end Kandelo.Ipc

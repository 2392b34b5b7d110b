/-
`IpcTable` (`ipc.rs`): the machine's message queues, semaphore sets and shared
memory segments behind one space of public ids, and every call on it.

The table also hands out generations (never reused) and pin ids. Pinning and
removal are the registry's (`Kandelo.Ipc.Registry`), the work on one object is
`Kandelo.Ipc.Object`'s.
-/
import Kandelo.Ipc.Registry

namespace Kandelo.Ipc

open List

def IPC_RMID : Int32 := 0
def IPC_SET : Int32 := 1
def IPC_STAT : Int32 := 2
def GETPID : Int32 := 11
def GETVAL : Int32 := 12
def GETALL : Int32 := 13
def GETNCNT : Int32 := 14
def GETZCNT : Int32 := 15
def SETVAL : Int32 := 16
def SETALL : Int32 := 17

structure IpcTable where
  msg : Registry MsgQueue
  sem : Registry SemSet
  shm : OrdMap Int ShmSegment
  nextId : Int32
  nextGeneration : Nat
  nextPinId : Option Nat

/-- Info returned by `msgctl` `IPC_STAT`. -/
structure MsgQueueInfo where
  key : Int32
  uid : UInt32
  gid : UInt32
  cuid : UInt32
  cgid : UInt32
  mode : UInt32
  seq : Int32
  stime : Int64
  rtime : Int64
  ctime : Int64
  cbytes : Nat
  qnum : Nat
  qbytes : Nat
  lspid : Int32
  lrpid : Int32

/-- Info returned by `semctl` `IPC_STAT`. -/
structure SemSetInfo where
  key : Int32
  uid : UInt32
  gid : UInt32
  cuid : UInt32
  cgid : UInt32
  mode : UInt32
  seq : Int32
  nsems : Nat
  otime : Int64
  ctime : Int64

/-- Info returned by `shmctl` `IPC_STAT`. -/
structure ShmSegInfo where
  key : Int32
  uid : UInt32
  gid : UInt32
  cuid : UInt32
  cgid : UInt32
  mode : UInt32
  seq : Int32
  segsz : UInt32
  cpid : Int32
  lpid : Int32
  nattch : UInt32
  atime : Int64
  dtime : Int64
  ctime : Int64

inductive SemCtlResult
  | ok
  | value (v : Int32)
  | stat (info : SemSetInfo)
  | all (values : List UInt16)

/-- `id as u64`, which extends the sign. -/
def asU64 (id : Int32) : Nat := id.toInt64.toUInt64.toNat

/-- What the lookup by key reads of an object. -/
structure KeyEntry where
  key : Int32
  id : Int32
  mode : UInt32
  uid : UInt32
  gid : UInt32

def MsgQueue.entry (q : MsgQueue) : KeyEntry := ⟨q.key, q.id, q.mode, q.uid, q.gid⟩
def SemSet.entry (s : SemSet) : KeyEntry := ⟨s.key, s.id, s.mode, s.uid, s.gid⟩
def ShmSegment.entry (seg : ShmSegment) : KeyEntry := ⟨seg.key, seg.id, seg.mode, seg.uid, seg.gid⟩

/-- How `msgget`, `semget` and `shmget` begin: the answer when no object is to
be created. -/
def getExisting (entries : List KeyEntry) (key : Int32) (flags uid gid : UInt32) : Option (Except Errno Int32) :=
  let creating := hasFlag flags IPC_CREAT
  let exclusive := hasFlag flags IPC_EXCL
  if key ≠ IPC_PRIVATE then
    match entries.find? fun e => e.key == key with
    | some e =>
      if creating && exclusive then some (.error .EEXIST)
      else some ((ipcCheckPerm uid gid e.uid e.gid e.mode (flags &&& IPC_PERM_MASK)).map fun _ => e.id)
    | none => if !creating then some (.error .ENOENT) else none
  else none

namespace IpcTable

def new : IpcTable :=
  { msg := .empty, sem := .empty, shm := .empty, nextId := 0, nextGeneration := 1, nextPinId := some 1 }

/-! ## Ids, generations, pin ids -/

def publicIdInUse (t : IpcTable) (id : Int32) : Bool :=
  t.msg.live.contains (publicKey id) || t.sem.live.contains (publicKey id) || t.shm.contains id.toInt

/-- The `for _ in 0..domain_size` of `next_free_id_bounded`. -/
def nextFreeIdLoop (t : IpcTable) (maxId : Int32) : Nat → Int32 → Except Errno (Int32 × Int32)
  | 0, _ => .error .ENOSPC
  | n + 1, candidate =>
    let next := if candidate = maxId then 0 else candidate + 1
    if !t.publicIdInUse candidate then .ok (candidate, next) else nextFreeIdLoop t maxId n next

/-- Allocate from `0..=max_id`, advancing through the domain. -/
def nextFreeIdBounded (t : IpcTable) (maxId : Int32) : Except Errno (Int32 × Int32) :=
  if maxId < 0 then .error .ENOSPC
  else
    let candidate := if 0 ≤ t.nextId ∧ t.nextId ≤ maxId then t.nextId else 0
    nextFreeIdLoop t maxId (maxId.toInt.toNat + 1) candidate

def nextFreeId (t : IpcTable) : Except Errno (Int32 × Int32) := t.nextFreeIdBounded Int32.maxValue

def nextFreeGeneration (t : IpcTable) : Except Errno (Nat × Nat) :=
  if t.nextGeneration + 1 > u64Max then .error .ENOSPC else .ok (t.nextGeneration, t.nextGeneration + 1)

/-- The `loop` of `next_free_pin_id`; the first argument is how far the
candidate is from `u64::MAX`. -/
def pinIdLoop (t : IpcTable) : Nat → Nat → Except Errno (Nat × Option Nat)
  | room, candidate =>
    if !t.msg.pins.contains candidate && !t.sem.pins.contains candidate then
      .ok (candidate, if room = 0 then none else some (candidate + 1))
    else
      match room with
      | 0 => .error .EOVERFLOW
      | room + 1 => pinIdLoop t room (candidate + 1)

def nextFreePinId (t : IpcTable) : Except Errno (Nat × Option Nat) :=
  match t.nextPinId with
  | none => .error .EOVERFLOW
  | some candidate => t.pinIdLoop (u64Max - candidate) candidate

/-! ## Message queues -/

/-- The table after an operation on its queues. -/
def onMsg {β : Type} (t : IpcTable) (res : Except Errno β × Registry MsgQueue) : Except Errno β × IpcTable :=
  (res.1, { t with msg := res.2 })

/-- The table after an operation on its semaphore sets. -/
def onSem {β : Type} (t : IpcTable) (res : Except Errno β × Registry SemSet) : Except Errno β × IpcTable :=
  (res.1, { t with sem := res.2 })

/-- Get or create a message queue. -/
def msgget (t : IpcTable) (env : Env) (key : Int32) (flags uid gid : UInt32) : Except Errno Int32 × IpcTable :=
  match getExisting (t.msg.live.values.map MsgQueue.entry) key flags uid gid with
  | some res => (res, t)
  | none =>
    match t.nextFreeId with
    | .error e => (.error e, t)
    | .ok (id, nextId) =>
      match t.nextFreeGeneration with
      | .error e => (.error e, t)
      | .ok (generation, nextGeneration) =>
        -- `prepare_io`
        if t.msg.live.contains (asU64 id) then (.error .EEXIST, t)
        else
          match env.alloc 0 with
          | .error e => (.error e, t)
          | .ok () =>
            (.ok id, { t with
              msg := t.msg.publish (asU64 id)
                { key, id, generation, activePins := 0, removed := false, mode := flags &&& 0o777, uid, gid,
                  cuid := uid, cgid := gid, qbytes := MSGMNB, messages := [], cbytes := 0, lspid := 0, lrpid := 0,
                  stime := 0, rtime := 0, ctime := env.now, seq := id }
              nextId
              nextGeneration })

/-- Pin the generation currently visible behind a public id. -/
def pinMsgQueue (t : IpcTable) (env : Env) (qid : Int32) : Except Errno Pin × IpcTable :=
  match t.msg.pin env qid t.nextFreePinId with
  | (.ok (pin, nextPinId), msg) => (.ok pin, { t with msg, nextPinId })
  | (.error e, msg) => (.error e, { t with msg })

def releaseMsgQueuePin (t : IpcTable) (pin : Pin) : Except Errno Unit × IpcTable := t.onMsg (t.msg.release pin)

def msgsnd (t : IpcTable) (env : Env) (qid : Int32) (mtype : Int64) (data : List UInt8) (flags pid uid gid : UInt32) :
    Except Errno Unit × IpcTable :=
  if mtype ≤ 0 then (.error .EINVAL, t)
  else t.onMsg (t.msg.withLive qid fun q => msgsndQueue q env mtype data flags pid uid gid)

/-- What `msgsnd_pinned` does with the queue it captured. -/
def msgsndCaptured (env : Env) (mtype : Int64) (data : List UInt8) (flags pid uid gid : UInt32) (q : MsgQueue) :
    Except Errno Unit × MsgQueue :=
  if mtype ≤ 0 then (.error .EINVAL, q) else msgsndQueue q env mtype data flags pid uid gid

def msgsndPinned (t : IpcTable) (env : Env) (pin : Pin) (mtype : Int64) (data : List UInt8)
    (flags pid uid gid : UInt32) : Except Errno Unit × IpcTable :=
  t.onMsg (t.msg.withPinned pin (msgsndCaptured env mtype data flags pid uid gid))

def msgrcvWithMtypeMax (t : IpcTable) (env : Env) (qid : Int32) (maxSize : UInt32) (msgtype maxOutputMtype : Int64)
    (flags pid uid gid : UInt32) : Except Errno MsgRcvResult × IpcTable :=
  t.onMsg (t.msg.withLive qid fun q =>
    msgrcvQueueWithMtypeMax q env maxSize msgtype maxOutputMtype flags pid uid gid)

def msgrcvPinnedWithMtypeMax (t : IpcTable) (env : Env) (pin : Pin) (maxSize : UInt32)
    (msgtype maxOutputMtype : Int64) (flags pid uid gid : UInt32) : Except Errno MsgRcvResult × IpcTable :=
  t.onMsg (t.msg.withPinned pin fun q =>
    msgrcvQueueWithMtypeMax q env maxSize msgtype maxOutputMtype flags pid uid gid)

def msgQueueInfo (q : MsgQueue) : MsgQueueInfo :=
  { key := q.key, uid := q.uid, gid := q.gid, cuid := q.cuid, cgid := q.cgid, mode := q.mode, seq := q.seq,
    stime := q.stime, rtime := q.rtime, ctime := q.ctime, cbytes := q.cbytes, qnum := q.messages.length,
    qbytes := q.qbytes, lspid := q.lspid, lrpid := q.lrpid }

def msgctl (t : IpcTable) (qid cmd : Int32) (uid gid : UInt32) : Except Errno (Option MsgQueueInfo) × IpcTable :=
  if cmd = IPC_STAT then
    match t.msg.live.get? (publicKey qid) with
    | none => (.error .EINVAL, t)
    | some q => ((ipcCheckPerm uid gid q.uid q.gid q.mode IPC_R).map fun _ => some (msgQueueInfo q), t)
  else if cmd = IPC_RMID then
    t.onMsg ((t.msg.rmid qid fun q => ipcCheckOwner uid q.uid q.cuid).map (Except.map fun _ => none) id)
  -- `IPC_SET` is applied by `msgctl_set`.
  else (.error .EINVAL, t)

/-- Apply the fields `IPC_SET` may replace. -/
def msgctlSet (t : IpcTable) (env : Env) (qid : Int32) (newUid newGid newMode : UInt32) (newQbytes : Nat)
    (uid : UInt32) : Except Errno Unit × IpcTable :=
  t.onMsg (t.msg.withLive qid fun q =>
    match ipcCheckOwner uid q.uid q.cuid with
    | .error e => (.error e, q)
    | .ok () =>
      if newQbytes > MSGMNB ∧ uid ≠ 0 then (.error .EPERM, q)
      else
        (.ok (), { q with
          uid := newUid, gid := newGid, mode := newMode &&& IPC_PERM_MASK, qbytes := newQbytes, ctime := env.now }))

/-! ## Semaphores -/

/-- Get or create a semaphore set. -/
def semget (t : IpcTable) (env : Env) (key : Int32) (nsems : Nat) (flags uid gid : UInt32) : Except Errno Int32 × IpcTable :=
  match getExisting (t.sem.live.values.map SemSet.entry) key flags uid gid with
  | some res => (res, t)
  | none =>
    if nsems = 0 ∨ nsems > SEMMSL then (.error .EINVAL, t)
    else
      match t.nextFreeId with
      | .error e => (.error e, t)
      | .ok (id, nextId) =>
        match t.nextFreeGeneration with
        | .error e => (.error e, t)
        | .ok (generation, nextGeneration) =>
          match env.alloc 0 with
          | .error e => (.error e, t)
          | .ok () =>
            -- `prepare_io`
            if t.sem.live.contains (asU64 id) then (.error .EEXIST, t)
            else
              match env.alloc 1 with
              | .error e => (.error e, t)
              | .ok () =>
                (.ok id, { t with
                  sem := t.sem.publish (asU64 id)
                    { key, id, generation, activePins := 0, removed := false, mode := flags &&& 0o777, uid, gid,
                      cuid := uid, cgid := gid, nsems, values := replicate nsems {},
                      values_len := length_replicate, otime := 0, ctime := env.now, seq := id }
                  nextId
                  nextGeneration })

def pinSemSet (t : IpcTable) (env : Env) (semid : Int32) : Except Errno Pin × IpcTable :=
  match t.sem.pin env semid t.nextFreePinId with
  | (.ok (pin, nextPinId), sem) => (.ok pin, { t with sem, nextPinId })
  | (.error e, sem) => (.error e, { t with sem })

def releaseSemSetPin (t : IpcTable) (pin : Pin) : Except Errno Unit × IpcTable := t.onSem (t.sem.release pin)

def semop (t : IpcTable) (env : Env) (semid : Int32) (sops : List SemOp) (pid uid gid : UInt32) : Except Errno Unit × IpcTable :=
  t.onSem (t.sem.withLive semid fun s => semopSet s env sops pid uid gid)

def semopPinned (t : IpcTable) (env : Env) (pin : Pin) (sops : List SemOp) (pid uid gid : UInt32) : Except Errno Unit × IpcTable :=
  t.onSem (t.sem.withPinned pin fun s => semopSet s env sops pid uid gid)

def semSetInfo (s : SemSet) : SemSetInfo :=
  { key := s.key, uid := s.uid, gid := s.gid, cuid := s.cuid, cgid := s.cgid, mode := s.mode, seq := s.seq,
    nsems := s.nsems, otime := s.otime, ctime := s.ctime }

/-- `GETVAL`, `GETPID`, `GETNCNT` and `GETZCNT`: one number of one semaphore. -/
def semctlGet (t : IpcTable) (semid semnum : Int32) (uid gid : UInt32) (field : SemValue → Int32) :
    Except Errno SemCtlResult × IpcTable :=
  match t.sem.live.get? (publicKey semid) with
  | none => (.error .EINVAL, t)
  | some s =>
    match ipcCheckPerm uid gid s.uid s.gid s.mode IPC_R with
    | .error e => (.error e, t)
    | .ok () =>
      if semnum < 0 ∨ s.nsems ≤ semnum.toInt.toNat then (.error .EINVAL, t)
      else
        match s.values[semnum.toInt.toNat]? with
        | none => (.error .EINVAL, t) -- Out of bounds: excluded by the check.
        | some sem => (.ok (.value (field sem)), t)

def semctl (t : IpcTable) (env : Env) (semid semnum cmd arg : Int32) (uid gid : UInt32) : Except Errno SemCtlResult × IpcTable :=
  if cmd = IPC_STAT then
    match t.sem.live.get? (publicKey semid) with
    | none => (.error .EINVAL, t)
    | some s => ((ipcCheckPerm uid gid s.uid s.gid s.mode IPC_R).map fun _ => .stat (semSetInfo s), t)
  else if cmd = IPC_RMID then
    t.onSem ((t.sem.rmid semid fun s => ipcCheckOwner uid s.uid s.cuid).map (Except.map fun _ => .ok) id)
  else if cmd = IPC_SET then
    t.onSem (t.sem.withLive semid fun s =>
      match ipcCheckOwner uid s.uid s.cuid with
      | .error e => (.error e, s)
      | .ok () => (.ok .ok, { s with ctime := env.now }))
  else if cmd = GETVAL then t.semctlGet semid semnum uid gid fun sem => sem.val.toUInt32.toInt32
  else if cmd = SETVAL then
    t.onSem (t.sem.withLive semid fun s =>
      match ipcCheckPerm uid gid s.uid s.gid s.mode IPC_W with
      | .error e => (.error e, s)
      | .ok () =>
        if semnum < 0 ∨ s.nsems ≤ semnum.toInt.toNat then (.error .EINVAL, s)
        else if arg < 0 ∨ (SEMVMX : Int) < arg.toInt then (.error .ERANGE, s)
        else
          (.ok .ok, { s.setValues (s.values.modify semnum.toInt.toNat fun sem => { sem with val := castU16 arg.toInt })
              (by rw [length_modify, s.values_len]) with
            ctime := env.now }))
  else if cmd = GETALL then
    match t.sem.live.get? (publicKey semid) with
    | none => (.error .EINVAL, t)
    | some s =>
      match ipcCheckPerm uid gid s.uid s.gid s.mode IPC_R with
      | .error e => (.error e, t)
      | .ok () =>
        match env.alloc 0 with
        | .error e => (.error e, t)
        | .ok () => (.ok (.all (s.values.map (·.val))), t)
  -- The values of `SETALL` come by `semctl_set_all`.
  else if cmd = SETALL then (.error .EINVAL, t)
  else if cmd = GETPID then t.semctlGet semid semnum uid gid fun sem => sem.pid.toInt32
  else if cmd = GETNCNT then t.semctlGet semid semnum uid gid fun sem => sem.ncnt.toInt32
  else if cmd = GETZCNT then t.semctlGet semid semnum uid gid fun sem => sem.zcnt.toInt32
  else (.error .EINVAL, t)

/-- Byte length of a `GETALL` or `SETALL` array. -/
def semctlArrayBytes (t : IpcTable) (env : Env) (semid cmd : Int32) (uid gid : UInt32) : Except Errno Nat :=
  match t.sem.live.get? (publicKey semid) with
  | none => .error .EINVAL
  | some s =>
    if cmd ≠ GETALL ∧ cmd ≠ SETALL then .error .EINVAL
    else
      match ipcCheckPerm uid gid s.uid s.gid s.mode (if cmd = GETALL then IPC_R else IPC_W) with
      | .error e => .error e
      | .ok () => if s.values.length * 2 > env.usizeMax then .error .EOVERFLOW else .ok (s.values.length * 2)

def semctlSetAll (t : IpcTable) (env : Env) (semid : Int32) (values : List UInt16) (uid gid : UInt32) : Except Errno Unit × IpcTable :=
  t.onSem (t.sem.withLive semid fun s =>
    match ipcCheckPerm uid gid s.uid s.gid s.mode IPC_W with
    | .error e => (.error e, s)
    | .ok () =>
      if h : values.length = s.nsems then
        (.ok (), { s.setValues (zipWith (fun sem v => { sem with val := v }) s.values values)
            (by rw [length_zipWith, s.values_len, h, Nat.min_self]) with
          ctime := env.now })
      else (.error .EINVAL, s))

/-- The little-endian `unsigned short[]` of `SETALL`. -/
def decodeU16s : List UInt8 → List UInt16
  | lo :: hi :: rest => (lo.toUInt16 ||| (hi.toUInt16 <<< 8)) :: decodeU16s rest
  | _ => []

def semctlSetAllBytes (t : IpcTable) (env : Env) (semid : Int32) (bytes : List UInt8) (uid gid : UInt32) :
    Except Errno Unit × IpcTable :=
  match t.semctlArrayBytes env semid SETALL uid gid with
  | .error e => (.error e, t)
  | .ok expected =>
    if bytes.length ≠ expected then (.error .EINVAL, t)
    else
      match env.alloc 0 with
      | .error e => (.error e, t)
      | .ok () => t.semctlSetAll env semid (decodeU16s bytes) uid gid

/-! ## Shared memory -/

/-- `get_mut` of a segment, then `f` on it. -/
def withShm {β : Type} (t : IpcTable) (shmid : Int32) (f : ShmSegment → Except Errno β × ShmSegment) : Except Errno β × IpcTable :=
  match t.shm.get? shmid.toInt with
  | none => (.error .EINVAL, t)
  | some seg => ((f seg).1, { t with shm := t.shm.insert shmid.toInt (f seg).2 })

/-- Get or create a shared memory segment. -/
def shmget (t : IpcTable) (env : Env) (key : Int32) (size flags pid uid gid : UInt32) : Except Errno Int32 × IpcTable :=
  match getExisting (t.shm.values.map ShmSegment.entry) key flags uid gid with
  | some res => (res, t)
  | none =>
    if size = 0 then (.error .EINVAL, t)
    else
      match t.nextFreeId with
      | .error e => (.error e, t)
      | .ok (id, nextId) =>
        match env.alloc 0 with
        | .error e => (.error e, t)
        | .ok () =>
          -- `prepare_io`
          if t.shm.contains id.toInt then (.error .EEXIST, t)
          else
            match env.alloc 1 with
            | .error e => (.error e, t)
            | .ok () =>
              (.ok id, { t with
                shm := t.shm.insert id.toInt
                  { key, id, mode := flags &&& 0o777, uid, gid, cuid := uid, cgid := gid, segsz := size,
                    data := replicate size.toNat 0, data_len := length_replicate, cpid := pid.toInt32,
                    lpid := 0, nattch := 0, atime := 0, dtime := 0, ctime := env.now, seq := id }
                nextId })

/-- Attach; returns the segment size. -/
def shmat (t : IpcTable) (env : Env) (shmid : Int32) (pid flags uid gid : UInt32) : Except Errno UInt32 × IpcTable :=
  t.withShm shmid fun seg =>
    let perm := if hasFlag flags SHM_RDONLY then IPC_R else IPC_R ||| IPC_W
    match ipcCheckPerm uid gid seg.uid seg.gid seg.mode perm with
    | .error e => (.error e, seg)
    | .ok () => (.ok seg.segsz, { seg with nattch := seg.nattch + 1, lpid := pid.toInt32, atime := env.now })

/-- Read into a buffer of `len` bytes; returns the bytes filled. -/
def shmReadChunk (t : IpcTable) (shmid : Int32) (offset : UInt32) (len : Nat) : Except Errno (List UInt8) :=
  match t.shm.get? shmid.toInt with
  | none => .error .EINVAL
  | some seg =>
    let start := offset.toNat
    if seg.data.length ≤ start then .ok []
    else
      let stop := min (start + len) seg.data.length
      .ok ((seg.data.drop start).take (stop - start))

/-- `seg.data` with `chunk` written at `start`, as far as it fits. -/
def writeAt (bytes : List UInt8) (start : Nat) (chunk : List UInt8) : List UInt8 :=
  let stop := min (start + chunk.length) bytes.length
  bytes.take start ++ chunk.take (stop - start) ++ bytes.drop stop

theorem length_writeAt {bytes : List UInt8} {start : Nat} (h : start < bytes.length) (chunk : List UInt8) :
    (writeAt bytes start chunk).length = bytes.length := by
  simp only [writeAt, length_append, length_take, length_drop]
  omega

/-- Write a chunk; returns the number of bytes written. -/
def shmWriteChunk (t : IpcTable) (shmid : Int32) (offset : UInt32) (data : List UInt8) : Except Errno Nat × IpcTable :=
  t.withShm shmid fun seg =>
    let start := offset.toNat
    if h : seg.data.length ≤ start then (.ok 0, seg)
    else
      let stop := min (start + data.length) seg.data.length
      (.ok (stop - start), { seg with
        data := writeAt seg.data start data
        data_len := by rw [length_writeAt (Nat.lt_of_not_le h), seg.data_len] })

/-- Detach. -/
def shmdt (t : IpcTable) (env : Env) (shmid : Int32) (pid : UInt32) : Except Errno Unit × IpcTable :=
  t.withShm shmid fun seg =>
    (.ok (), { seg with
      nattch := if seg.nattch = 0 then 0 else seg.nattch - 1, lpid := pid.toInt32, dtime := env.now })

def shmSegInfo (seg : ShmSegment) : ShmSegInfo :=
  { key := seg.key, uid := seg.uid, gid := seg.gid, cuid := seg.cuid, cgid := seg.cgid, mode := seg.mode,
    seq := seg.seq, segsz := seg.segsz, cpid := seg.cpid, lpid := seg.lpid, nattch := seg.nattch,
    atime := seg.atime, dtime := seg.dtime, ctime := seg.ctime }

def shmctl (t : IpcTable) (shmid cmd : Int32) (uid gid : UInt32) : Except Errno (Option ShmSegInfo) × IpcTable :=
  if cmd = IPC_STAT then
    match t.shm.get? shmid.toInt with
    | none => (.error .EINVAL, t)
    | some seg => ((ipcCheckPerm uid gid seg.uid seg.gid seg.mode IPC_R).map fun _ => some (shmSegInfo seg), t)
  else if cmd = IPC_RMID then
    match t.shm.get? shmid.toInt with
    | none => (.error .EINVAL, t)
    | some seg =>
      match ipcCheckOwner uid seg.uid seg.cuid with
      | .error e => (.error e, t)
      | .ok () => (.ok none, { t with shm := t.shm.erase shmid.toInt })
  -- `IPC_SET` is applied by `shmctl_set`.
  else (.error .EINVAL, t)

/-- Apply the fields `IPC_SET` may replace. -/
def shmctlSet (t : IpcTable) (env : Env) (shmid : Int32) (newUid newGid newMode uid : UInt32) : Except Errno Unit × IpcTable :=
  t.withShm shmid fun seg =>
    match ipcCheckOwner uid seg.uid seg.cuid with
    | .error e => (.error e, seg)
    | .ok () =>
      (.ok (), { seg with uid := newUid, gid := newGid, mode := newMode &&& IPC_PERM_MASK, ctime := env.now })

end IpcTable

end Kandelo.Ipc

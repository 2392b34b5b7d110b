/-
The SysV IPC objects (`ipc.rs`): message queues, semaphore sets and shared
memory segments, who may use them, and the operations on one object once the
table has found it.

A call's environment (`Env`) says what the code asks of the outside: the clock
and, in order, the answers of its allocation attempts. An operation answers
and gives the object it leaves, also when it fails.
-/
import Kandelo.Errno

namespace Kandelo.Ipc

/-! ## Constants -/

def IPC_CREAT : UInt32 := 0o1000
def IPC_EXCL : UInt32 := 0o2000
def IPC_NOWAIT : UInt32 := 0o4000
def IPC_PRIVATE : Int32 := 0
def IPC_R : UInt32 := 0o400
def IPC_W : UInt32 := 0o200
def IPC_PERM_MASK : UInt32 := 0o777
def SHM_RDONLY : UInt32 := 0o10000
def MSG_NOERROR : UInt32 := 0o10000
def MSG_EXCEPT : UInt32 := 0o20000

/-- Default limit on the bytes in a queue. -/
def MSGMNB : Nat := 16384
/-- Most semaphores in a set. -/
def SEMMSL : Nat := 32
def SYSV_MSG_MAX_BYTES : Nat := 8192
/-- Highest value `SETVAL` accepts. -/
def SEMVMX : Nat := 32767

def u32Max : Nat := 2 ^ 32 - 1
def u64Max : Nat := 2 ^ 64 - 1

/-- The flag is set. -/
def hasFlag (flags flag : UInt32) : Bool := flags &&& flag != 0

/-- What a call asks of the outside: the time, the answer to its `n`-th
allocation, and the largest `usize` of the target. -/
structure Env where
  now : Int64
  alloc : Nat → Except Errno Unit
  usizeMax : Nat

/-- Every allocation succeeds. -/
def Env.calm : Env := ⟨0, fun _ => .ok (), u64Max⟩

/-! ## Permissions -/

def ipcHasPerm (uid gid ownerUid ownerGid mode perm : UInt32) : Bool :=
  if uid == 0 || perm == 0 then true
  else
    let available :=
      if uid == ownerUid then (mode >>> 6) &&& 0o7
      else if gid == ownerGid then (mode >>> 3) &&& 0o7
      else mode &&& 0o7
    let requested := (perm >>> 6) &&& 0o7
    available &&& requested == requested

def ipcCheckPerm (uid gid ownerUid ownerGid mode perm : UInt32) : Except Errno Unit :=
  if ipcHasPerm uid gid ownerUid ownerGid mode perm then .ok () else .error .EACCES

def ipcCheckOwner (uid ownerUid creatorUid : UInt32) : Except Errno Unit :=
  if uid == 0 || uid == ownerUid || uid == creatorUid then .ok () else .error .EPERM

/-! ## Message queues -/

structure MsgEntry where
  mtype : Int64
  data : List UInt8
  deriving DecidableEq

structure MsgQueue where
  key : Int32
  id : Int32
  generation : Nat
  activePins : Nat
  removed : Bool
  mode : UInt32
  uid : UInt32
  gid : UInt32
  cuid : UInt32
  cgid : UInt32
  qbytes : Nat
  messages : List MsgEntry
  cbytes : Nat
  lspid : Int32
  lrpid : Int32
  stime : Int64
  rtime : Int64
  ctime : Int64
  seq : Int32

/-- What `msgrcv` hands to the caller. -/
structure MsgRcvResult where
  mtype : Int64
  data : List UInt8
  deriving DecidableEq

/-- `msgsnd` on the queue it found. -/
def msgsndQueue (q : MsgQueue) (env : Env) (mtype : Int64) (data : List UInt8) (flags pid uid gid : UInt32) :
    Except Errno Unit × MsgQueue :=
  match ipcCheckPerm uid gid q.uid q.gid q.mode IPC_W with
  | .error e => (.error e, q)
  | .ok () =>
    if data.length > SYSV_MSG_MAX_BYTES then (.error .EINVAL, q)
    -- `u32::try_from` and `checked_add`: an overflow is a full queue.
    else if data.length > u32Max ∨ q.cbytes + data.length > u32Max then (.error .EAGAIN, q)
    else if q.cbytes + data.length > q.qbytes then
      if hasFlag flags IPC_NOWAIT then (.error .EAGAIN, q) else (.error .EAGAIN, q)
    else
      -- The payload, then the slot in the queue.
      match env.alloc 0 with
      | .error e => (.error e, q)
      | .ok () =>
        match env.alloc 1 with
        | .error e => (.error e, q)
        | .ok () =>
          (.ok (), { q with
            messages := q.messages ++ [⟨mtype, data⟩]
            cbytes := q.cbytes + data.length
            lspid := pid.toInt32
            stime := env.now })

/-- `i64::saturating_abs`. -/
def saturatingAbs (x : Int64) : Int64 :=
  if x = Int64.minValue then Int64.maxValue else if x < 0 then -x else x

/-- The index of the message `msgrcv` takes. -/
def selectMessage (messages : List MsgEntry) (msgtype : Int64) (flags : UInt32) : Option (Fin messages.length) :=
  if msgtype = 0 then if h : 0 < messages.length then some ⟨0, h⟩ else none
  else if 0 < msgtype then
    if hasFlag flags MSG_EXCEPT then messages.findFinIdx? fun m => decide (m.mtype ≠ msgtype)
    else messages.findFinIdx? fun m => decide (m.mtype = msgtype)
  else
    let absType := saturatingAbs msgtype
    messages.findFinIdx? fun m => decide (m.mtype ≤ absType)

/-- `msgrcv` on the queue it found. -/
def msgrcvQueueWithMtypeMax (q : MsgQueue) (env : Env) (maxSize : UInt32) (msgtype maxOutputMtype : Int64)
    (flags pid uid gid : UInt32) : Except Errno MsgRcvResult × MsgQueue :=
  match ipcCheckPerm uid gid q.uid q.gid q.mode IPC_R with
  | .error e => (.error e, q)
  | .ok () =>
    let noerror := hasFlag flags MSG_NOERROR
    match selectMessage q.messages msgtype flags with
    | none => if hasFlag flags IPC_NOWAIT then (.error .ENOMSG, q) else (.error .EAGAIN, q)
    | some idx =>
      let msg := q.messages.get idx
      if maxOutputMtype < msg.mtype then (.error .EOVERFLOW, q)
      else if msg.data.length > maxSize.toNat ∧ noerror = false then (.error .E2BIG, q)
      else
        (.ok ⟨msg.mtype, msg.data.take (min msg.data.length maxSize.toNat)⟩, { q with
          messages := q.messages.eraseIdx idx
          cbytes := q.cbytes - msg.data.length
          lrpid := pid.toInt32
          rtime := env.now })

/-! ## Semaphore sets -/

structure SemValue where
  val : UInt16 := 0
  pid : UInt32 := 0
  ncnt : UInt32 := 0
  zcnt : UInt32 := 0
  deriving DecidableEq

structure SemSet where
  key : Int32
  id : Int32
  generation : Nat
  activePins : Nat
  removed : Bool
  mode : UInt32
  uid : UInt32
  gid : UInt32
  cuid : UInt32
  cgid : UInt32
  nsems : Nat
  values : List SemValue
  values_len : values.length = nsems
  otime : Int64
  ctime : Int64
  seq : Int32

structure SemOp where
  num : UInt16
  op : Int16
  flg : UInt16
  deriving DecidableEq

namespace SemSet

/-- `s.values[i].val as i32`, for an index that has been checked. -/
def val (s : SemSet) (i : Nat) : Int := ((s.values[i]?).map fun sem => (sem.val.toNat : Int)).getD 0

def setValues (s : SemSet) (values : List SemValue) (h : values.length = s.nsems) : SemSet :=
  { s with values, values_len := h }

end SemSet

/-- `x as u16`. -/
def castU16 (x : Int) : UInt16 := UInt16.ofNat (x % 65536).toNat

/-- The permission a list of operations needs. -/
def semopPerm (sops : List SemOp) : UInt32 := sops.foldl (fun perm op => perm ||| if op.op = 0 then IPC_R else IPC_W) 0

/-- First pass of `semop`: every operation against the values as they are. -/
def semopValidate (s : SemSet) : List SemOp → Except Errno Unit
  | [] => .ok ()
  | op :: sops =>
    if s.nsems ≤ op.num.toNat then .error .EFBIG
    else
      let cur := s.val op.num.toNat
      if op.op < 0 then
        if cur + op.op.toInt < 0 then
          if hasFlag op.flg.toUInt32 IPC_NOWAIT then .error .EAGAIN else .error .EAGAIN
        else semopValidate s sops
      else if op.op = 0 then
        if cur ≠ 0 then
          if hasFlag op.flg.toUInt32 IPC_NOWAIT then .error .EAGAIN else .error .EAGAIN
        else semopValidate s sops
      else semopValidate s sops

/-- One turn of the second pass, on the semaphore it touches. -/
def SemValue.apply (sem : SemValue) (op : Int16) (pid : UInt32) : SemValue :=
  let sem := if op ≠ 0 then { sem with val := castU16 (sem.val.toNat + op.toInt) } else sem
  { sem with pid }

/-- Second pass of `semop`. -/
def semopApply (pid : UInt32) (sops : List SemOp) (values : List SemValue) : List SemValue :=
  sops.foldl (fun values op => values.modify op.num.toNat fun sem => sem.apply op.op pid) values

theorem length_semopApply (pid : UInt32) : ∀ (sops : List SemOp) (values : List SemValue),
    (semopApply pid sops values).length = values.length
  | [], _ => rfl
  | op :: sops, values => by
    simp only [semopApply, List.foldl_cons]
    exact (length_semopApply pid sops _).trans (List.length_modify ..)

def semopSet (s : SemSet) (env : Env) (sops : List SemOp) (pid uid gid : UInt32) : Except Errno Unit × SemSet :=
  match ipcCheckPerm uid gid s.uid s.gid s.mode (semopPerm sops) with
  | .error e => (.error e, s)
  | .ok () =>
    match semopValidate s sops with
    | .error e => (.error e, s)
    | .ok () =>
      (.ok (), { s.setValues (semopApply pid sops s.values) (by rw [length_semopApply, s.values_len]) with
        otime := env.now })

/-! ## Shared memory -/

structure ShmSegment where
  key : Int32
  id : Int32
  mode : UInt32
  uid : UInt32
  gid : UInt32
  cuid : UInt32
  cgid : UInt32
  segsz : UInt32
  data : List UInt8
  data_len : data.length = segsz.toNat
  cpid : Int32
  lpid : Int32
  nattch : UInt32
  atime : Int64
  dtime : Int64
  ctime : Int64
  seq : Int32

end Kandelo.Ipc

/-
What a fork record carries: the open file descriptions with their device state
(`ofd.rs`), the sockets (`socket.rs`), the terminal (`terminal.rs`) and the process
that holds them (`process.rs`).

Of a socket the queues that stay with the parent are left out and of an evdev ring the
delivery epoch: no byte of a record depends on them. `LiveProcess` is a process as the kernel holds one: its tables are in order and
every `usize` in it has the 32 bits of the target.
-/
import Kandelo.Process.Limits
import Kandelo.Process.Credentials
import Kandelo.Signal.State
import Kandelo.Lib.OrdMap

namespace Kandelo.Fork

open Fd Memory Signal Process

abbrev Bytes := List UInt8

/-! ## Open file descriptions -/

inductive FileType
  | regular
  | directory
  | pipe
  | charDevice
  | socket
  | eventFd
  | epoll
  | timerFd
  | signalFd
  | memFd
  | ptyMaster
  | ptySlave
  | pcmPlayback
  deriving DecidableEq, Repr

inductive KernelFileKind
  | memFd
  | syntheticRegular
  | procFsRegular
  deriving DecidableEq, Repr

inductive FileId
  | host (dev ino : UInt64)
  | kernel (kind : KernelFileKind) (objectId : UInt64)
  deriving DecidableEq, Repr

structure CmdbufBinding where
  addr : Nat
  len : Nat
  submitSeq : UInt64

structure GlState where
  initialized : Bool
  contextId : Option UInt32
  surfaceId : Option UInt32
  current : Bool
  cmdbuf : Option CmdbufBinding

/-- GEM handles of one description; Linux numbers them from 1. -/
structure DriFdState where
  handles : OrdMap UInt32 UInt32
  nextHandle : UInt32
  gl : Option GlState

structure KmsFb where
  boId : UInt32
  width : UInt32
  height : UInt32
  pixelFormat : UInt32
  stride : UInt32

structure PendingFlip where
  crtcId : UInt32
  fbId : UInt32
  userData : UInt64

structure KmsFdState where
  holdsMaster : Bool
  cursorBo : Option UInt32
  fbs : OrdMap UInt32 KmsFb
  nextFbId : UInt32
  pendingFlips : List PendingFlip
  eventRing : Bytes

inductive DriOfdState
  | primeBo (boId : UInt32) (cookie : UInt64)
  | renderNode (dri : DriFdState)
  | card (dri : DriFdState) (kms : KmsFdState)

/-- `INPUT_RING_MAX_BYTES`: 1024 records of 24 bytes. -/
def inputRingMaxBytes : Nat := 1024 * 24

structure InputFdState where
  device : UInt8
  dropped : Bool
  eventRing : Bytes

structure PendingDirEntry where
  ino : UInt64
  dType : UInt8
  name : Bytes

structure OpenFileDesc where
  ofdId : UInt64
  fileId : Option FileId
  fileType : FileType
  statusFlags : UInt32
  offset : Int64
  ownerPid : UInt32
  hostHandle : Int64
  refCount : UInt32
  path : Bytes
  dirHostHandle : Int64
  dirSynthState : UInt8
  dirEntryOffset : Int64
  dirPositionGeneration : UInt64
  dirPendingEntry : Option PendingDirEntry
  driState : Option DriOfdState
  inputState : Option InputFdState

def procfsDirHandle : Int64 := -150
def devfsDirHandle : Int64 := -160

/-- The iterator of a directory is the process's own; it goes on where the shared
position says. -/
def OpenFileDesc.resetDirectoryIteratorForReopen (ofd : OpenFileDesc) : OpenFileDesc :=
  if ofd.fileType ≠ .directory then ofd
  else
    let cookie := max ofd.offset 0
    { ofd with
      dirHostHandle := if ofd.hostHandle = procfsDirHandle ∨ ofd.hostHandle = devfsDirHandle then ofd.hostHandle else -1
      dirSynthState := (min cookie 2).toUInt64.toUInt8
      dirEntryOffset := cookie
      dirPositionGeneration := 0
      dirPendingEntry := none }

inductive OfdSlot
  | free
  | reserved
  | opened (ofd : OpenFileDesc)

structure OfdTable where
  entries : IoBuffer OfdSlot

namespace OfdTable

def new : OfdTable := ⟨.new⟩

def get (t : OfdTable) (index : Nat) : Option OpenFileDesc :=
  match t.entries.values[index]? with
  | some (.opened ofd) => some ofd
  | _ => none

def iter (t : OfdTable) : List (Nat × OpenFileDesc) :=
  t.entries.values.zipIdx.filterMap fun e =>
    match e.1 with
    | .opened ofd => some (e.2, ofd)
    | _ => none

/-- Room for `length` slots: twice what there is, or just that. -/
def reserve (b : IoBuffer OfdSlot) (storage : Storage) (length : Nat) :
    Except Errno { b' : IoBuffer OfdSlot // b'.values = b.values ∧ length ≤ b'.capacity } :=
  if h : length ≤ b.capacity then .ok ⟨b, rfl, h⟩
  else
    match b.reserveWith (max (max length (b.capacity * 2)) 4) storage with
    | .ok ⟨b', hb⟩ => .ok ⟨b', hb.1, by omega⟩
    | .error _ => b.reserveWith length storage

def restoreEntry (t : OfdTable) (storage : Storage) (index : Nat) (ofd : OpenFileDesc) : Except Errno OfdTable :=
  if Usize.wasm32.max < index + 1 then .error .ENOMEM
  else
    match reserve t.entries storage (index + 1) with
    | .error e => .error e
    | .ok ⟨b, _, hb⟩ =>
      let grown := b.resize (max (index + 1) b.values.length) .free (Nat.max_le.mpr ⟨hb, b.len_le⟩)
      match grown.values[index]? with
      | some .free => .ok ⟨grown.set index (.opened ofd)⟩
      | _ => .error .EINVAL

end OfdTable

/-! ## Sockets -/

inductive SocketDomain
  | unix
  | inet
  | inet6
  deriving DecidableEq, Repr

inductive SocketType
  | stream
  | dgram
  deriving DecidableEq, Repr

inductive SocketState
  | unbound
  | bound
  | listening
  | connected
  | closed
  | connecting
  deriving DecidableEq, Repr

abbrev Ipv4Addr := Vector UInt8 4

structure Ipv4MulticastMembership where
  group : Ipv4Addr
  interfaceAddr : Ipv4Addr
  anySource : Bool
  blockedSources : List Ipv4Addr
  includedSources : List Ipv4Addr

structure PeerCred where
  pid : UInt32
  uid : UInt32
  gid : UInt32

structure SocketInfo where
  domain : SocketDomain
  sockType : SocketType
  protocol : UInt32
  state : SocketState
  peerIdx : Option Nat
  recvBufIdx : Option Nat
  sendBufIdx : Option Nat
  shutRd : Bool
  shutWr : Bool
  hostNetHandle : Option Int32
  options : List (UInt32 × UInt32 × UInt32)
  lingerOnoff : Int32
  lingerSeconds : Int32
  bindDevice : Option Bytes
  tcpCongestion : Bytes
  bindAddr : Ipv4Addr
  bindAddr6 : Vector UInt8 16
  bindPort : UInt16
  peerAddr : Ipv4Addr
  udpSourceAddr : Option Ipv4Addr
  peerAddr6 : Vector UInt8 16
  peerPort : UInt16
  peerCred : Option PeerCred
  sharedBacklogIdx : Option Nat
  acceptWakeIdx : Option UInt32
  ipv4MulticastMemberships : List Ipv4MulticastMembership
  globalPipes : Bool
  recvTimeoutUs : UInt64
  sendTimeoutUs : UInt64
  bindPath : Option Bytes

structure SocketTable where
  entries : List (Option SocketInfo)

namespace SocketTable

def new : SocketTable := ⟨[]⟩

def get (t : SocketTable) (index : Nat) : Option SocketInfo := (t.entries[index]?).join

/-- The negative `-(slot + 1)` of a socket's description. -/
def indexFromOfdHandle (hostHandle : Int64) : Except Errno Nat :=
  let index := -(hostHandle.toInt + 1)
  if 2 ^ 63 ≤ hostHandle.toInt + 1 ∨ index < 0 ∨ Usize.wasm32.max < index then .error .EBADF
  else .ok index.toNat

/-- Only the sockets of inherited descriptions; an edge to another is cut. -/
def retainInheritedRoots (t : SocketTable) (roots : List Nat) : Except Errno SocketTable :=
  if roots.any fun root => (t.get root).isNone then .error .EBADF
  else
    .ok ⟨t.entries.zipIdx.map fun e =>
      if roots.contains e.2 then
        e.1.map fun socket => { socket with peerIdx := socket.peerIdx.filter fun peer => roots.contains peer }
      else none⟩

def insertAt (t : SocketTable) (idx : Nat) (info : SocketInfo) : SocketTable :=
  ⟨(t.entries ++ List.replicate (idx + 1 - t.entries.length) none).set idx (some info)⟩

end SocketTable

/-! ## The process -/

structure WinSize where
  wsRow : UInt16
  wsCol : UInt16
  wsXpixel : UInt16
  wsYpixel : UInt16

structure TerminalState where
  cIflag : UInt32
  cOflag : UInt32
  cCflag : UInt32
  cLflag : UInt32
  cLine : UInt8
  cCc : Vector UInt8 32
  cIspeed : UInt32
  cOspeed : UInt32
  winsize : WinSize
  foregroundPgid : Int32
  sessionId : Int32
  lineBuffer : Bytes
  cookedBuffer : Bytes
  eofPending : Bool

inductive FdAction
  | dup2 (oldFd newFd : Int32)
  | close (fd : Int32)
  | open (fd : Int32) (path : Bytes) (flags mode : Int32)

/-- The fields of a `Process` that a fork record is made of, or that are set from one. -/
structure ProcessRecord where
  pid : UInt32
  ppid : UInt32
  credentials : Credentials
  secureExec : Bool
  pointerWidth : UInt8
  pgid : UInt32
  sid : UInt32
  umask : UInt32
  nice : Int32
  isSessionLeader : Bool
  signals : SignalState
  fdTable : FdTable
  ofdTable : OfdTable
  exe : Option Nat
  environ : List Bytes
  argv : List Bytes
  cwd : Bytes
  rlimits : Rlimits
  terminal : TerminalState
  memory : MemoryManager
  forkExecPath : Option Bytes
  forkExecArgv : Option (List Bytes)
  forkFdActions : List FdAction
  sockets : SocketTable

end Kandelo.Fork

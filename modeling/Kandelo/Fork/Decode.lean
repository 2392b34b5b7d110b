/-
`deserialize_allocated_fork_state` (`fork.rs`): the child of a fork record, read part by
part. `Allocator` answers what the decoder asks for: the slots of the two descriptor
tables by their capacities, everything else in turn.
-/
import Kandelo.Fork.Encode

namespace Kandelo.Fork

open Fd Memory Signal Process Wire

abbrev Decoder (α : Type) := Get Errno α

/-! ## Reader -/

def readBytes (len : Nat) : Decoder Bytes := take .EINVAL len

def readU8 : Decoder UInt8 := do
  let v ← readNat .EINVAL 1
  return UInt8.ofNat v

def readU16 : Decoder UInt16 := do
  let v ← readNat .EINVAL 2
  return UInt16.ofNat v

def readU32 : Decoder UInt32 := do
  let v ← readNat .EINVAL 4
  return UInt32.ofNat v

def readU64 : Decoder UInt64 := do
  let v ← readNat .EINVAL 8
  return UInt64.ofNat v

def readI32 : Decoder Int32 := do
  let v ← readU32
  return v.toInt32

def readI64 : Decoder Int64 := do
  let v ← readU64
  return v.toInt64

/-- `read_u32()? as usize`. -/
def readUsize : Decoder Nat := readNat .EINVAL 4

def readArray (n : Nat) : Decoder (Vector UInt8 n) := do
  let data ← readBytes n
  return Vector.ofFn fun i => data.getD i 0

def readBoundedBytes (len max : Nat) : Decoder Bytes := do
  require .EINVAL (len ≤ max)
  readBytes len

def readBoundedCount (max : Nat) : Decoder Nat := do
  let count ← readUsize
  require .EINVAL (count ≤ max)
  return count

/-- A list of entries of at least `width` bytes, for which there is room once it fits. -/
def readBoundedList {α : Type} (entry : Decoder α) (width max : Nat) : Decoder (List α) := do
  let count ← readBoundedCount max
  ensure .EINVAL (count * width)
  allocate .ENOMEM
  readMany entry count

def readBoundedString (max : Nat) : Decoder Bytes := do
  let len ← readBoundedCount max
  let data ← readBoundedBytes len max
  allocate .ENOMEM
  return data

/-- Two words of the wire for the two values of a `bool`, and no others. -/
def readBool : Decoder Bool := do
  let v ← readU32
  require .EINVAL (v = 0 ∨ v = 1)
  return v = 1

/-- A copied string. -/
def readString (max : Nat) : Decoder Bytes := do
  let len ← readUsize
  let data ← readBoundedBytes len max
  allocate .ENOMEM
  return data

def readStrings (max : Nat) : Decoder (List Bytes) := do
  let count ← readBoundedCount max
  allocate .ENOMEM
  readMany (readString maxStringLen) count

/-- `0xFFFFFFFF` is no index. -/
def readIndex : Decoder (Option Nat) := do
  let raw ← readUsize
  return if raw = 0xFFFFFFFF then none else some raw

/-! ## Credentials, signals -/

def readCredentialsAndImageFacts : Decoder (Credentials × Bool × UInt8) := do
  let ruid ← readU32
  let euid ← readU32
  let suid ← readU32
  let rgid ← readU32
  let egid ← readU32
  let sgid ← readU32
  let groupCount ← readBoundedCount ngroupsMax
  ensure .EINVAL (groupCount * 4 + 2 * 4)
  let groups ← readMany readU32 groupCount
  match SupplementaryGroups.copyFrom groups with
  | .error e => refuse e
  | .ok supplementaryGroups =>
    let secureExec ← readBool
    let pointerWidth ← readU32
    require .EINVAL (pointerWidth = 4 ∨ pointerWidth = 8)
    return (⟨⟨ruid, euid, suid⟩, ⟨rgid, egid, sgid⟩, supplementaryGroups⟩, secureExec, pointerWidth.toUInt8)

def u32ToHandler (v : UInt32) : SignalHandler :=
  if v = 0 then .default else if v = 1 then .ignore else .handler (v - 2)

def readAction (actions : Vector SignalAction 65) : Decoder (Vector SignalAction 65) := do
  let signum ← readUsize
  let handler ← readU32
  let flags ← readU32
  let mask ← readU64
  return actions.setIfInBounds signum ⟨u32ToHandler handler, flags, mask.toBitVec⟩

/-- `SignalState::from_actions`: nothing is pending. -/
def fromActions (actions : Vector SignalAction 65) (blocked : BitVec 64) : SignalState := ⟨0, actions, blocked, Pending.empty⟩

def readSignals : Decoder SignalState := do
  let blocked ← readU64
  let handlerCount ← readBoundedCount 64
  let actions ← loop readAction handlerCount (Vector.replicate 65 SignalAction.default)
  return fromActions actions blocked.toBitVec

/-! ## Descriptors and open file descriptions -/

structure Allocator where
  fds : Storage
  ofds : Storage
  others : Nat → Bool

/-- A step of the decoder outside the buffer. -/
def lift {α : Type} : Except Errno α → Decoder α
  | .ok a => pure a
  | .error e => refuse e

def readFd (storage : Storage) (t : FdTable) : Decoder FdTable := do
  let fdNum ← readUsize
  let ofdIndex ← readUsize
  let fdFlags ← readU32
  if fdFlags &&& fdClofork ≠ 0 then return t
  else
    match t.restoreEntry storage fdNum ⟨ofdIndex, fdFlags⟩ with
    | (.error e, _) => refuse e
    | (.ok (), t') => return t'

def readFdTable (storage : Storage) (maxFds : Nat) : Decoder FdTable := do
  let fdCount ← readBoundedCount maxForkFds
  loop (readFd storage) fdCount (FdTable.withMax maxFds)

def u32ToFileType (v : UInt32) : Except Errno FileType :=
  match v.toNat with
  | 0 => .ok .regular
  | 1 => .ok .directory
  | 2 => .ok .pipe
  | 3 => .ok .charDevice
  | 4 => .ok .socket
  | 5 => .ok .eventFd
  | 6 => .ok .epoll
  | 7 => .ok .timerFd
  | 8 => .ok .signalFd
  | 9 => .ok .memFd
  | 10 => .ok .ptyMaster
  | 11 => .ok .ptySlave
  | 12 => .ok .pcmPlayback
  | _ => .error .EINVAL

def readKernelFileId (kind : KernelFileKind) : Decoder (Option FileId) := do
  let objectId ← readU64
  return some (.kernel kind objectId)

def readFileId : Decoder (Option FileId) := do
  let tag ← readU8
  match tag.toNat with
  | 0 => return none
  | 1 =>
    let dev ← readU64
    let ino ← readU64
    return some (.host dev ino)
  | 2 => readKernelFileId .memFd
  | 3 => readKernelFileId .syntheticRegular
  | 4 => readKernelFileId .procFsRegular
  | _ => refuse .EINVAL

/-- One entry of a map whose keys are not zero and come once. -/
def readMapEntry {V : Type} (entry : Decoder (UInt32 × V)) (m : OrdMap UInt32 V) : Decoder (OrdMap UInt32 V) := do
  let e ← entry
  require .EINVAL (e.1 ≠ 0)
  allocate .ENOMEM
  require .EINVAL (!m.contains e.1)
  return m.insert e.1 e.2

def readHandle : Decoder (UInt32 × UInt32) := do
  let handle ← readU32
  let boId ← readU32
  return (handle, boId)

def readDriFdState : Decoder DriFdState := do
  let handleCount ← readBoundedCount 65536
  let handles ← loop (readMapEntry readHandle) handleCount OrdMap.empty
  let nextHandle ← readU32
  require .EINVAL (nextHandle ≠ 0 ∧ handles.entries.all fun e => e.1 < nextHandle)
  return ⟨handles, nextHandle, none⟩

def readFb : Decoder (UInt32 × KmsFb) := do
  let fbId ← readU32
  let boId ← readU32
  let width ← readU32
  let height ← readU32
  let pixelFormat ← readU32
  let stride ← readU32
  return (fbId, ⟨boId, width, height, pixelFormat, stride⟩)

def readFlip : Decoder PendingFlip := do
  let crtcId ← readU32
  let fbId ← readU32
  let userData ← readU64
  return ⟨crtcId, fbId, userData⟩

def readKmsFdState : Decoder KmsFdState := do
  let holdsMaster ← readU8
  let cursor ← readU32
  let fbCount ← readBoundedCount 65536
  let fbs ← loop (readMapEntry readFb) fbCount OrdMap.empty
  let nextFbId ← readU32
  require .EINVAL (fbs.entries.all fun e => e.1 ≤ nextFbId)
  let pendingCount ← readBoundedCount 65536
  allocate .ENOMEM
  let pendingFlips ← readMany readFlip pendingCount
  allocate .ENOMEM
  return ⟨holdsMaster ≠ 0, if cursor = 0 then none else some cursor, fbs, nextFbId, pendingFlips, []⟩

def readDriState : Decoder (Option DriOfdState) := do
  let tag ← readU8
  match tag.toNat with
  | 0 => return none
  | 1 =>
    let dri ← readDriFdState
    allocate .ENOMEM
    return some (.renderNode dri)
  | 2 =>
    let dri ← readDriFdState
    let kms ← readKmsFdState
    allocate .ENOMEM
    return some (.card dri kms)
  | 3 =>
    let boId ← readU32
    let cookie ← readU64
    allocate .ENOMEM
    return some (.primeBo boId cookie)
  | _ => refuse .EINVAL

def readInputState : Decoder (Option InputFdState) := do
  let tag ← readU8
  match tag.toNat with
  | 0 => return none
  | 1 =>
    let device ← readU8
    let dropped ← readU8
    let ringLen ← readUsize
    require .EINVAL (ringLen ≤ inputRingMaxBytes ∧ ringLen % 24 = 0)
    allocate .ENOMEM
    let eventRing ← readMany readU8 ringLen
    allocate .ENOMEM
    allocate .ENOMEM
    return some ⟨device, dropped ≠ 0, eventRing⟩
  | _ => refuse .EINVAL

def readOfdBody (childPid : UInt32) : Decoder OpenFileDesc := do
  let ofdId ← readU64
  require .EINVAL (ofdId ≠ 0)
  let fileId ← readFileId
  let fileType ← readU32
  let fileType ← lift (u32ToFileType fileType)
  let statusFlags ← readU32
  let hostHandle ← readI64
  let offset ← readI64
  require .EINVAL (!(fileType = .directory ∧ offset < 0))
  let refCount ← readU32
  let path ← readString maxPathLen
  let driState ← readDriState
  let inputState ← readInputState
  allocate .ENOMEM
  return OpenFileDesc.resetDirectoryIteratorForReopen
    { ofdId, fileId, fileType, statusFlags, offset, ownerPid := childPid, hostHandle, refCount, path, driState, inputState
      dirHostHandle := -1, dirSynthState := 0, dirEntryOffset := 0, dirPositionGeneration := 0, dirPendingEntry := none }

def readOfd (childPid : UInt32) (storage : Storage) (t : OfdTable) : Decoder OfdTable := do
  let index ← readUsize
  let ofd ← readOfdBody childPid
  lift (t.restoreEntry storage index ofd)

def readOfdTable (childPid : UInt32) (storage : Storage) : Decoder OfdTable := do
  let ofdCount ← readBoundedCount maxOfds
  loop (readOfd childPid storage) ofdCount OfdTable.new

def readExe (ofds : OfdTable) : Decoder (Option Nat) := do
  let exeIndex ← readUsize
  if exeIndex = 0 then return none
  else
    require .EINVAL (ofds.get (exeIndex - 1)).isSome
    return some (exeIndex - 1)

/-! ## Terminal, memory, a prepared exec -/

def readRlimit : Decoder (UInt64 × UInt64) := do
  let soft ← readU64
  let hard ← readU64
  return (soft, hard)

def readRlimits : Decoder Rlimits := do
  let pairs ← readMany readRlimit 16
  return Vector.ofFn fun i => pairs.getD i (0, 0)

def readTerminal : Decoder TerminalState := do
  let cIflag ← readU32
  let cOflag ← readU32
  let cCflag ← readU32
  let cLflag ← readU32
  let cCc ← readArray 32
  let wsRow ← readU16
  let wsCol ← readU16
  let wsXpixel ← readU16
  let wsYpixel ← readU16
  let cLine ← readU8
  let cIspeed ← readU32
  let cOspeed ← readU32
  let sessionId ← readI32
  let foregroundPgid ← readI32
  return {
    cIflag, cOflag, cCflag, cLflag, cLine, cCc, cIspeed, cOspeed, foregroundPgid, sessionId
    winsize := ⟨wsRow, wsCol, wsXpixel, wsYpixel⟩
    lineBuffer := [], cookedBuffer := [], eofPending := false }

def readMapping : Decoder MappedRegion := do
  let addr ← readUsize
  let len ← readUsize
  let prot ← readU32
  let flags ← readU32
  return ⟨addr, len, prot, flags⟩

/-- The break is set as `brk` would set it: a new memory may refuse it. -/
def readMemory : Decoder MemoryManager := do
  let programBreak ← readUsize
  let initialBrk ← readUsize
  let maxAddr ← readUsize
  let brkLimit ← readUsize
  let mmapBase ← readUsize
  let reservedUntil ← readUsize
  let layout := { MemoryManager.new with initialBrk, maxAddr, brkLimit, mmapBase, reservedUntil }
  let memory := (layout.setBrk Usize.wasm32 programBreak).2
  let mappings ← readBoundedList readMapping 16 maxForkMappings
  return { memory with mappings := mappings.mergeSort fun a b => a.addr ≤ b.addr }

def readForkExecPath : Decoder (Option Bytes) := do
  let pathLen ← readUsize
  if pathLen = 0 then return none
  else
    let path ← readBoundedBytes pathLen maxPathLen
    allocate .ENOMEM
    return some path

def readForkExecArgv : Decoder (Option (List Bytes)) := do
  let argc ← readUsize
  if argc = 0 then return none
  else
    require .EINVAL (argc ≤ maxArgv)
    allocate .ENOMEM
    let args ← readMany (readString maxStringLen) argc
    return some args

/-- An `open` action has state of the host's and is not restored. -/
def readFdAction : Decoder (Option FdAction) := do
  let actionType ← readU32
  let fd1 ← readI32
  let fd2 ← readI32
  match actionType.toNat with
  | 0 => return some (.dup2 fd1 fd2)
  | 1 => return some (.close fd1)
  | 2 => return none
  | _ => refuse .EINVAL

def readFdActions : Decoder (List FdAction) := do
  let actionCount ← readUsize
  -- `checked_mul`
  require .EINVAL (actionCount * 12 ≤ Usize.wasm32.max)
  ensure .EINVAL (actionCount * 12)
  allocate .ENOMEM
  let actions ← readMany readFdAction actionCount
  return actions.filterMap id

/-! ## Sockets -/

def u32ToDomain (v : UInt32) : Except Errno SocketDomain :=
  match v.toNat with
  | 0 => .ok .unix
  | 1 => .ok .inet
  | 2 => .ok .inet6
  | _ => .error .EINVAL

def u32ToSockType (v : UInt32) : Except Errno SocketType :=
  match v.toNat with
  | 0 => .ok .stream
  | 1 => .ok .dgram
  | _ => .error .EINVAL

def u32ToSocketState (v : UInt32) : Except Errno SocketState :=
  match v.toNat with
  | 0 => .ok .unbound
  | 1 => .ok .bound
  | 2 => .ok .listening
  | 3 => .ok .connected
  | 4 => .ok .closed
  | _ => .error .EINVAL

def readOption : Decoder (UInt32 × UInt32 × UInt32) := do
  let level ← readU32
  let optname ← readU32
  let value ← readU32
  return (level, optname, value)

def readIpv4SourceList : Decoder (List Ipv4Addr) := readBoundedList (readArray 4) 4 maxIpv4MulticastSources

def readMembership : Decoder Ipv4MulticastMembership := do
  let group ← readArray 4
  let interfaceAddr ← readArray 4
  let anySource ← readBool
  let blockedSources ← readIpv4SourceList
  let includedSources ← readIpv4SourceList
  return ⟨group, interfaceAddr, anySource, blockedSources, includedSources⟩

/-- `0xFFFFFFFF` is no string. -/
def readOptionString (max : Nat) : Decoder (Option Bytes) := do
  let len ← readUsize
  if len = 0xFFFFFFFF then return none
  else
    let data ← readBoundedBytes len max
    allocate .ENOMEM
    return some data

def readPeerCred : Decoder (Option PeerCred) := do
  let tag ← readU32
  match tag.toNat with
  | 0 => return none
  | 1 =>
    let pid ← readU32
    let uid ← readU32
    let gid ← readU32
    return some ⟨pid, uid, gid⟩
  | _ => refuse .EINVAL

/-- `u32::to_be_bytes`. -/
def toBe (v : Nat) : Ipv4Addr := Vector.ofFn fun i => (leBytes 4 v).reverse.getD i 0

def readDurableSocketState (s : SocketInfo) : Decoder SocketInfo := do
  let bindAddr6 ← readArray 16
  let peerAddr6 ← readArray 16
  let lingerOnoff ← readI32
  let lingerSeconds ← readI32
  let recvTimeoutUs ← readU64
  let sendTimeoutUs ← readU64
  let bindDevice ← readOptionString maxSocketStringLen
  let tcpCongestion ← readBoundedString maxSocketStringLen
  -- 20 bytes before any source
  let ipv4MulticastMemberships ← readBoundedList readMembership 20 maxIpv4MulticastMemberships
  let peerCred ← readPeerCred
  let source ← readUsize
  return { s with
    bindAddr6, peerAddr6, lingerOnoff, lingerSeconds, recvTimeoutUs, sendTimeoutUs, bindDevice, tcpCongestion,
    ipv4MulticastMemberships, peerCred
    udpSourceAddr := if source = 0 then none else some (toBe source) }

/-- `SocketInfo::try_new`. -/
def newSocket (domain : SocketDomain) (sockType : SocketType) (protocol : UInt32) : SocketInfo :=
  { domain, sockType, protocol
    state := .unbound, peerIdx := none, recvBufIdx := none, sendBufIdx := none, shutRd := false, shutWr := false
    hostNetHandle := none, options := [], lingerOnoff := 0, lingerSeconds := 0, bindDevice := none
    -- "cubic"
    tcpCongestion := [99, 117, 98, 105, 99]
    bindAddr := Vector.replicate 4 0, bindAddr6 := Vector.replicate 16 0, bindPort := 0, peerAddr := Vector.replicate 4 0
    udpSourceAddr := none, peerAddr6 := Vector.replicate 16 0, peerPort := 0, peerCred := none, sharedBacklogIdx := none
    acceptWakeIdx := none, ipv4MulticastMemberships := [], globalPipes := true, recvTimeoutUs := 0, sendTimeoutUs := 0
    bindPath := none }

def readSocketBody (totalSlots : Nat) : Decoder SocketInfo := do
  let domain ← readU32
  let domain ← lift (u32ToDomain domain)
  let sockType ← readU32
  let sockType ← lift (u32ToSockType sockType)
  let protocol ← readU32
  let state ← readU32
  let state ← lift (u32ToSocketState state)
  let peerIdx ← readIndex
  let recvBufIdx ← readIndex
  let sendBufIdx ← readIndex
  let shutRd ← readU32
  let shutWr ← readU32
  let hostNetHandle ← readU32
  let options ← readBoundedList readOption 12 maxSocketOptions
  let bindAddr ← readArray 4
  let bindPort ← readU32
  let peerAddr ← readArray 4
  let peerPort ← readU32
  let blCount ← readUsize
  require .EINVAL (blCount ≤ totalSlots)
  ensure .EINVAL (blCount * 4)
  let _ ← readMany readU32 blCount
  allocate .ENOMEM
  let globalPipes ← readU32
  let sharedBacklogIdx ← readIndex
  let bindPath ← readOptionString maxPathLen
  let acceptWakeIdx ← readU32
  readDurableSocketState { newSocket domain sockType protocol with
    state, peerIdx, recvBufIdx, sendBufIdx, options, bindAddr, peerAddr, sharedBacklogIdx, bindPath
    shutRd := shutRd ≠ 0
    shutWr := shutWr ≠ 0
    hostNetHandle := if hostNetHandle = 0xFFFFFFFF then none else some hostNetHandle.toInt32
    bindPort := bindPort.toUInt16
    peerPort := peerPort.toUInt16
    globalPipes := globalPipes ≠ 0
    acceptWakeIdx := if acceptWakeIdx = 0xFFFFFFFF then none else some acceptWakeIdx }

/-- One socket, at a slot no socket before it had. -/
def readSocket (totalSlots : Nat) (s : SocketTable × List Nat) : Decoder (SocketTable × List Nat) := do
  let idx ← readUsize
  require .EINVAL (idx < totalSlots ∧ idx ∉ s.2)
  let sock ← readSocketBody totalSlots
  allocate .ENOMEM
  return (s.1.insertAt idx sock, idx :: s.2)

def readSockets : Decoder SocketTable := do
  let totalSlots ← readUsize
  let sockCount ← readUsize
  require .EINVAL (totalSlots ≤ maxSocketSlots ∧ sockCount ≤ totalSlots)
  let s ← loop (readSocket totalSlots) sockCount (SocketTable.new, [])
  return s.1

/-! ## The child -/

def readHeader (length : Nat) : Decoder Unit := do
  let magic ← readU32
  require .EINVAL (magic = forkMagic)
  let version ← readU32
  require .EINVAL (version = forkVersion)
  let totalSize ← readUsize
  require .EINVAL (totalSize = length)

/-- What follows the header; the child was given `pid` before. -/
def readBody (alloc : Allocator) (pid : UInt32) : Decoder ProcessRecord := do
  let ppid ← readU32
  let facts ← readCredentialsAndImageFacts
  let pgid ← readU32
  let sid ← readU32
  let umask ← readU32
  let nice ← readI32
  -- whether the parent leads its session, which no child of a fork does
  let _ ← readU32
  let signals ← readSignals
  let maxFds ← readUsize
  let fdTable ← readFdTable alloc.fds maxFds
  let ofdTable ← readOfdTable pid alloc.ofds
  let exe ← readExe ofdTable
  let environ ← readStrings maxEnvVars
  let argv ← readStrings maxArgv
  let cwd ← readString maxPathLen
  let rlimits ← readRlimits
  let terminal ← readTerminal
  let memory ← readMemory
  let forkExecPath ← readForkExecPath
  let forkExecArgv ← readForkExecArgv
  let forkFdActions ← readFdActions
  let sockets ← readSockets
  return {
    pid, ppid, pgid, sid, umask, nice, signals, fdTable, ofdTable, exe, environ, argv, cwd, rlimits, terminal, memory
    forkExecPath, forkExecArgv, forkFdActions, sockets
    credentials := facts.1
    secureExec := facts.2.1
    pointerWidth := facts.2.2
    isSessionLeader := false }

def deserializeAllocatedForkState (alloc : Allocator) (pid : UInt32) (buf : Bytes) : Except Errno ProcessRecord :=
  match (readHeader buf.length >>= fun _ => readBody alloc pid) ⟨buf, alloc.others⟩ with
  | .error e => .error e
  | .ok (child, r) => if r.buf ≠ [] then .error .EINVAL else .ok child

end Kandelo.Fork

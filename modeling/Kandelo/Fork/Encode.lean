/-
`serialize_fork_state` (`fork.rs`): the record of a process, written part by part into a
buffer of the caller's. `Scratch` answers the allocations the encoder makes of its own.
A `usize` is written as the `u32` it is on the target.
-/
import Kandelo.Fork.Record
import Kandelo.Lib.Wire

namespace Kandelo.Fork

open Fd Memory Signal Process Wire

def forkMagic : UInt32 := 0x464F524B
def forkVersion : UInt32 := 20
def maxOfds : Nat := 65536
def maxEnvVars : Nat := 65536
def maxArgv : Nat := 65536
def maxPathLen : Nat := 1048576
def maxStringLen : Nat := 1048576
def maxSocketSlots : Nat := 65536
def maxSocketOptions : Nat := 4096
def maxSocketStringLen : Nat := 256
def maxIpv4MulticastMemberships : Nat := 4096
def maxIpv4MulticastSources : Nat := 4096

abbrev Encoder := Put Errno Unit

/-! ## Writer -/

def writeBytes (data : Bytes) : Encoder := write .ENOMEM data
def writeU8 (v : UInt8) : Encoder := writeBytes (leBytes 1 v.toNat)
def writeU16 (v : UInt16) : Encoder := writeBytes (leBytes 2 v.toNat)
def writeU32 (v : UInt32) : Encoder := writeBytes (leBytes 4 v.toNat)
def writeU64 (v : UInt64) : Encoder := writeBytes (leBytes 8 v.toNat)
def writeI32 (v : Int32) : Encoder := writeU32 v.toUInt32
def writeI64 (v : Int64) : Encoder := writeU64 v.toUInt64

/-- `write_u32(v as u32)` of a `usize`. -/
def writeUsize (v : Nat) : Encoder := writeBytes (leBytes 4 v)

def boolU32 (b : Bool) : UInt32 := if b then 1 else 0

def writeBool (b : Bool) : Encoder := writeU32 (boolU32 b)

def writeBoundedLen (len max : Nat) : Encoder := do
  check .EINVAL (len ≤ max)
  writeUsize len

/-- A list the decoder has a bound for. -/
def writeBoundedList {α : Type} (put : α → Encoder) (xs : List α) (max : Nat) : Encoder := do
  writeBoundedLen xs.length max
  putEach put xs

/-- A length, then the bytes. -/
def writeString (s : Bytes) : Encoder := do
  writeUsize s.length
  writeBytes s

def writeStrings (strings : List Bytes) : Encoder := do
  writeUsize strings.length
  putEach writeString strings

/-- `map(|v| v as u32).unwrap_or(0xFFFFFFFF)`. -/
def writeIndex (v : Option Nat) : Encoder := writeUsize (v.getD 0xFFFFFFFF)

/-! ## Credentials, signals -/

def writeCredentialsAndImageFacts (p : ProcessRecord) : Encoder := do
  let c := p.credentials
  check .EINVAL (c.supplementaryGroups.values.length ≤ ngroupsMax)
  writeU32 c.uids.real
  writeU32 c.uids.effective
  writeU32 c.uids.saved
  writeU32 c.gids.real
  writeU32 c.gids.effective
  writeU32 c.gids.saved
  writeUsize c.supplementaryGroups.values.length
  putEach writeU32 c.supplementaryGroups.values
  writeBool p.secureExec
  writeU32 p.pointerWidth.toUInt32

/-- The addition wraps: a handler at one of the last two addresses is written as another
disposition. -/
def handlerToU32 : SignalHandler → UInt32
  | .default => 0
  | .ignore => 1
  | .handler function => 2 + function

/-- The signals with an action other than the default one. -/
def nonDefaultActions (s : SignalState) : List (Fin 65 × SignalAction) :=
  ((List.finRange 65).drop 1).filterMap fun i =>
    let action := s.actions[i]
    if action.handler ≠ .default ∨ action.flags ≠ 0 ∨ action.mask ≠ 0 then some (i, action) else none

def writeAction (e : Fin 65 × SignalAction) : Encoder := do
  writeUsize e.1
  writeU32 (handlerToU32 e.2.handler)
  writeU32 e.2.flags
  writeU64 (UInt64.ofBitVec e.2.mask)

def writeSignals (s : SignalState) : Encoder := do
  writeU64 (UInt64.ofBitVec s.blocked)
  writeUsize (nonDefaultActions s).length
  putEach writeAction (nonDefaultActions s)

/-! ## Descriptors and open file descriptions -/

/-- What the encoder allocates for itself. -/
structure Scratch where
  inheritedRefs : Bool
  socketRoots : Bool
  socketClone : Bool
  socketsRetained : Bool

def inheritedFds (t : FdTable) : List (Int32 × FdEntry) := t.iter.filter fun e => e.2.fdFlags &&& fdClofork = 0

/-- Neighbours of one index in the sorted references, counted. -/
def tally : List Nat → Except Errno (List (Nat × UInt32))
  | [] => .ok []
  | index :: rest => do
    match ← tally rest with
    | [] => return [(index, 1)]
    | (next, count) :: counts =>
      if next = index then
        if count = 0xFFFFFFFF then .error .EOVERFLOW else return (index, count + 1) :: counts
      else return (index, 1) :: (next, count) :: counts

/-- `InheritedOfdRefs::prepare_with_executable`. -/
def prepareInheritedOfdRefs (scratch : Scratch) (p : ProcessRecord) : Except Errno (List (Nat × UInt32)) :=
  if !scratch.inheritedRefs then .error .ENOMEM
  else
    let references := (inheritedFds p.fdTable).map (·.2.ofdRef) ++ p.exe.toList
    if references.any fun index => (p.ofdTable.get index).isNone then .error .EBADF
    else tally (references.mergeSort fun a b => a ≤ b)

/-- `InheritedOfdRefs::count`. -/
def refsOf (refs : List (Nat × UInt32)) (index : Nat) : UInt32 := ((refs.find? fun e => e.1 == index).map (·.2)).getD 0

/-- The descriptions a child has. -/
def inheritedOfds (p : ProcessRecord) (refs : List (Nat × UInt32)) : List (Nat × OpenFileDesc) :=
  p.ofdTable.iter.filter fun e => 0 < refsOf refs e.1

def fileTypeToU32 : FileType → UInt32
  | .regular => 0
  | .directory => 1
  | .pipe => 2
  | .charDevice => 3
  | .socket => 4
  | .eventFd => 5
  | .epoll => 6
  | .timerFd => 7
  | .signalFd => 8
  | .memFd => 9
  | .ptyMaster => 10
  | .ptySlave => 11
  | .pcmPlayback => 12

def writeFileId : Option FileId → Encoder
  | none => writeU8 0
  | some (.host dev ino) => do
    writeU8 1
    writeU64 dev
    writeU64 ino
  | some (.kernel .memFd objectId) => do
    writeU8 2
    writeU64 objectId
  | some (.kernel .syntheticRegular objectId) => do
    writeU8 3
    writeU64 objectId
  | some (.kernel .procFsRegular objectId) => do
    writeU8 4
    writeU64 objectId

def writeHandle (e : UInt32 × UInt32) : Encoder := do
  writeU32 e.1
  writeU32 e.2

/-- The GL session stays with the parent. -/
def writeDriFdState (dri : DriFdState) : Encoder := do
  writeUsize dri.handles.entries.length
  putEach writeHandle dri.handles.entries
  writeU32 dri.nextHandle

def writeFb (e : UInt32 × KmsFb) : Encoder := do
  writeU32 e.1
  writeU32 e.2.boId
  writeU32 e.2.width
  writeU32 e.2.height
  writeU32 e.2.pixelFormat
  writeU32 e.2.stride

def writeFlip (f : PendingFlip) : Encoder := do
  writeU32 f.crtcId
  writeU32 f.fbId
  writeU64 f.userData

/-- With `preserve_master` false: the lease and the cursor stay with the parent. -/
def writeKmsFdState (kms : KmsFdState) : Encoder := do
  writeU8 0
  writeU32 0
  writeUsize kms.fbs.entries.length
  putEach writeFb kms.fbs.entries
  writeU32 kms.nextFbId
  writeUsize kms.pendingFlips.length
  putEach writeFlip kms.pendingFlips

def writeDriState : Option DriOfdState → Encoder
  | none => writeU8 0
  | some (.renderNode dri) => do
    writeU8 1
    writeDriFdState dri
  | some (.card dri kms) => do
    writeU8 2
    writeDriFdState dri
    writeKmsFdState kms
  | some (.primeBo boId cookie) => do
    writeU8 3
    writeU32 boId
    writeU64 cookie

def writeInputState : Option InputFdState → Encoder
  | none => writeU8 0
  | some input => do
    writeU8 1
    writeU8 input.device
    writeU8 (if input.dropped then 1 else 0)
    writeUsize input.eventRing.length
    putEach writeU8 input.eventRing

def writeFd (e : Int32 × FdEntry) : Encoder := do
  writeI32 e.1
  writeUsize e.2.ofdRef
  writeU32 e.2.fdFlags

def writeFds (fds : List (Int32 × FdEntry)) : Encoder := do
  writeUsize fds.length
  putEach writeFd fds

def writeOfd (refs : List (Nat × UInt32)) (e : Nat × OpenFileDesc) : Encoder := do
  writeUsize e.1
  writeU64 e.2.ofdId
  writeFileId e.2.fileId
  writeU32 (fileTypeToU32 e.2.fileType)
  writeU32 e.2.statusFlags
  writeI64 e.2.hostHandle
  writeI64 e.2.offset
  writeU32 (refsOf refs e.1)
  writeString e.2.path
  writeDriState e.2.driState
  writeInputState e.2.inputState

def writeOfds (refs : List (Nat × UInt32)) (ofds : List (Nat × OpenFileDesc)) : Encoder := do
  writeUsize refs.length
  putEach (writeOfd refs) ofds

/-! ## Terminal, memory, a prepared exec -/

def writeRlimit (pair : UInt64 × UInt64) : Encoder := do
  writeU64 pair.1
  writeU64 pair.2

def writeTerminal (t : TerminalState) : Encoder := do
  writeU32 t.cIflag
  writeU32 t.cOflag
  writeU32 t.cCflag
  writeU32 t.cLflag
  writeBytes t.cCc.toList
  writeU16 t.winsize.wsRow
  writeU16 t.winsize.wsCol
  writeU16 t.winsize.wsXpixel
  writeU16 t.winsize.wsYpixel
  writeU8 t.cLine
  writeU32 t.cIspeed
  writeU32 t.cOspeed
  writeI32 t.sessionId
  writeI32 t.foregroundPgid

def writeMapping (m : MappedRegion) : Encoder := do
  writeUsize m.addr
  writeUsize m.len
  writeU32 m.prot
  writeU32 m.flags

def writeMemory (m : MemoryManager) : Encoder := do
  writeUsize m.programBreak
  writeUsize m.initialBrk
  writeUsize m.maxAddr
  writeUsize m.brkLimit
  writeUsize m.mmapBase
  writeUsize m.reservedUntil
  writeUsize m.mappings.length
  putEach writeMapping m.mappings

def writeFdAction : FdAction → Encoder
  | .dup2 oldFd newFd => do
    writeU32 0
    writeI32 oldFd
    writeI32 newFd
  | .close fd => do
    writeU32 1
    writeI32 fd
    writeU32 0
  | .open fd _ _ _ => do
    writeU32 2
    writeI32 fd
    writeU32 0

def writeFdActions (actions : List FdAction) : Encoder := do
  writeUsize actions.length
  putEach writeFdAction actions

/-! ## Sockets -/

def domainToU32 : SocketDomain → UInt32
  | .unix => 0
  | .inet => 1
  | .inet6 => 2

def sockTypeToU32 : SocketType → UInt32
  | .stream => 0
  | .dgram => 1

/-- A connection the host is still making does not cross a fork. -/
def socketStateToU32 : SocketState → UInt32
  | .unbound => 0
  | .bound => 1
  | .listening => 2
  | .connected => 3
  | .closed => 4
  | .connecting => 4

def writeOption (o : UInt32 × UInt32 × UInt32) : Encoder := do
  writeU32 o.1
  writeU32 o.2.1
  writeU32 o.2.2

def writeIpv4SourceList (sources : List Ipv4Addr) : Encoder :=
  writeBoundedList (fun source => writeBytes source.toList) sources maxIpv4MulticastSources

def writeMembership (m : Ipv4MulticastMembership) : Encoder := do
  writeBytes m.group.toList
  writeBytes m.interfaceAddr.toList
  writeBool m.anySource
  writeIpv4SourceList m.blockedSources
  writeIpv4SourceList m.includedSources

def writeBoundedString (s : Bytes) (max : Nat) : Encoder := do
  writeBoundedLen s.length max
  writeBytes s

def writeOptionString (s : Option Bytes) (max : Nat) : Encoder :=
  match s with
  | some s => writeBoundedString s max
  | none => writeU32 0xFFFFFFFF

def writePeerCred : Option PeerCred → Encoder
  | some cred => do
    writeU32 1
    writeU32 cred.pid
    writeU32 cred.uid
    writeU32 cred.gid
  | none => writeU32 0

/-- `u32::from_be_bytes`. -/
def ofBe (addr : Ipv4Addr) : Nat := ofLe addr.toList.reverse

def writeDurableSocketState (s : SocketInfo) : Encoder := do
  writeBytes s.bindAddr6.toList
  writeBytes s.peerAddr6.toList
  writeI32 s.lingerOnoff
  writeI32 s.lingerSeconds
  writeU64 s.recvTimeoutUs
  writeU64 s.sendTimeoutUs
  writeOptionString s.bindDevice maxSocketStringLen
  writeBoundedString s.tcpCongestion maxSocketStringLen
  writeBoundedList writeMembership s.ipv4MulticastMemberships maxIpv4MulticastMemberships
  writePeerCred s.peerCred
  writeUsize ((s.udpSourceAddr.map ofBe).getD 0)

def writeSocket (e : Nat × SocketInfo) : Encoder := do
  let s := e.2
  writeUsize e.1
  writeU32 (domainToU32 s.domain)
  writeU32 (sockTypeToU32 s.sockType)
  writeU32 s.protocol
  writeU32 (socketStateToU32 s.state)
  writeIndex s.peerIdx
  writeIndex s.recvBufIdx
  writeIndex s.sendBufIdx
  writeBool s.shutRd
  writeBool s.shutWr
  writeU32 ((s.hostNetHandle.map (·.toUInt32)).getD 0xFFFFFFFF)
  writeBoundedList writeOption s.options maxSocketOptions
  writeBytes s.bindAddr.toList
  writeU32 s.bindPort.toUInt32
  writeBytes s.peerAddr.toList
  writeU32 s.peerPort.toUInt32
  -- the backlog of connections accepted ahead stays with the parent
  writeU32 0
  writeBool s.globalPipes
  writeIndex s.sharedBacklogIdx
  writeOptionString s.bindPath maxPathLen
  writeU32 (s.acceptWakeIdx.getD 0xFFFFFFFF)
  writeDurableSocketState s

def SocketTable.iter (t : SocketTable) : List (Nat × SocketInfo) :=
  t.entries.zipIdx.filterMap fun e => e.1.map fun socket => (e.2, socket)

/-- The slots of the inherited socket descriptions. -/
def socketRoots (ofds : List (Nat × OpenFileDesc)) : Except Errno (List Nat) :=
  (ofds.filter fun e => e.2.fileType = .socket).mapM fun e => SocketTable.indexFromOfdHandle e.2.hostHandle

def inheritedSockets (scratch : Scratch) (p : ProcessRecord) (ofds : List (Nat × OpenFileDesc)) : Except Errno SocketTable := do
  if !scratch.socketRoots then throw .ENOMEM
  let roots ← socketRoots ofds
  if !scratch.socketClone then throw .ENOMEM
  if !scratch.socketsRetained then throw .ENOMEM
  p.sockets.retainInheritedRoots roots

def writeSockets (sockets : SocketTable) : Encoder := do
  check .EINVAL (sockets.entries.length ≤ maxSocketSlots)
  writeUsize sockets.entries.length
  writeUsize sockets.iter.length
  putEach writeSocket sockets.iter

/-! ## The record -/

/-- A step of the encoder outside the buffer. -/
def prepared {α : Type} (r : Except Errno α) (k : α → Encoder) : Encoder :=
  match r with
  | .ok a => k a
  | .error e => fun _ => .error e

/-- The magic, the version, and room for the length. -/
def writeHeader : Encoder := do
  writeU32 forkMagic
  writeU32 forkVersion
  writeU32 0

def writeBody (scratch : Scratch) (p : ProcessRecord) : Encoder := do
  writeU32 p.pid
  writeCredentialsAndImageFacts p
  writeU32 p.pgid
  writeU32 p.sid
  writeU32 p.umask
  writeI32 p.nice
  writeBool p.isSessionLeader
  writeSignals p.signals
  writeUsize p.fdTable.maxFds
  prepared (prepareInheritedOfdRefs scratch p) fun refs => do
    writeFds (inheritedFds p.fdTable)
    writeOfds refs (inheritedOfds p refs)
    writeUsize (match p.exe with
      | some exe => exe + 1
      | none => 0)
    writeStrings p.environ
    writeStrings p.argv
    writeString p.cwd
    putEach writeRlimit p.rlimits.toList
    writeTerminal p.terminal
    writeMemory p.memory
    -- no path and an empty one are written alike, and so are no arguments
    writeString (p.forkExecPath.getD [])
    writeStrings (p.forkExecArgv.getD [])
    writeFdActions p.forkFdActions
    prepared (inheritedSockets scratch p (inheritedOfds p refs)) writeSockets

/-- The record, with its length at offset 8. -/
def serializeForkState (scratch : Scratch) (p : ProcessRecord) (capacity : Nat) : Except Errno Bytes :=
  match (writeHeader >>= fun _ => writeBody scratch p) ⟨capacity, []⟩ with
  | .error e => .error e
  | .ok (_, w) =>
    if 2 ^ 32 ≤ w.out.length then .error .EOVERFLOW
    else .ok (w.out.take 8 ++ leBytes 4 w.out.length ++ w.out.drop 12)

end Kandelo.Fork

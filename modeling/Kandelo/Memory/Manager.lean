/-
`MemoryManager` (`memory.rs`) and `sys_mremap` (`syscalls.rs`): the address
space of one process. Guest mappings and host-reserved regions are two vectors
in address order; the program break moves between them.

Addresses are `Nat`; each addition of the source is checked or saturates at the
width of `usize`, and does so here. Whether a vector may grow is the
allocator's answer and comes with the call (`alloc`). `MAP_FAILED` is an answer
like any other, so a failed placement is a number too.
-/
import Kandelo.Errno
import Kandelo.Lib.Span
import Kandelo.Lib.Machine

namespace Kandelo.Memory

open Spanned

/-- `MemoryManager::DEFAULT_MAX_ADDR`. -/
def defaultMaxAddr : Nat := 0x40000000

/-- `MemoryManager::MMAP_BASE`. -/
def mmapBaseDefault : Nat := 0x04000000

/-- `MemoryManager::INITIAL_BRK`. -/
def initialBrkDefault : Nat := 0x01000000

def mapShared : UInt32 := 0x01
def mapPrivate : UInt32 := 0x02
def mapFixed : UInt32 := 0x10
def mapAnonymous : UInt32 := 0x20

/-- The `usize` of the target, of 32 bits at least. -/
structure Usize where
  max : Nat
  wide : 2 ^ 32 ≤ max + 1

/-- The 32-bit target. -/
def Usize.wasm32 : Usize := ⟨2 ^ 32 - 1, by decide⟩

/-- The default address space is far from the end of the width. -/
theorem Usize.defaultMaxAddr_lt (U : Usize) : defaultMaxAddr + 0x10000 < U.max := by
  have := U.wide
  simp only [defaultMaxAddr]
  omega

/-- `usize::saturating_add`. -/
def Usize.saturatingAdd (U : Usize) (a b : Nat) : Nat := min (a + b) U.max

/-- `usize::checked_add`. -/
def Usize.checkedAdd (U : Usize) (a b : Nat) : Option Nat := if a + b ≤ U.max then some (a + b) else none

/-- `MAP_FAILED`. -/
def Usize.mapFailed (U : Usize) : Nat := U.max

/-- `x & !0xFFFF`: down to a multiple of the 64 KiB page. -/
def alignDown (x : Nat) : Nat := x - x % 0x10000

/-- `len.checked_add(0xFFFF)` and then `& !0xFFFF`. -/
def Usize.roundUp (U : Usize) (len : Nat) : Option Nat := (U.checkedAdd len 0xFFFF).map alignDown

/-- `align_page_up`. -/
def Usize.alignPageUp (U : Usize) (addr : Nat) : Nat := alignDown (U.saturatingAdd addr 0xFFFF)

/-- One mapped region of a process. -/
structure MappedRegion where
  addr : Nat
  len : Nat
  prot : UInt32
  flags : UInt32
  deriving DecidableEq, Repr

/-- A host-owned control range: not a guest mapping, never released by `munmap`. -/
structure ReservedRegion where
  addr : Nat
  len : Nat
  deriving DecidableEq, Repr

instance : Spanned MappedRegion := ⟨MappedRegion.addr, MappedRegion.len⟩
instance : Spanned ReservedRegion := ⟨ReservedRegion.addr, ReservedRegion.len⟩

@[simp] theorem MappedRegion.spanned_addr (m : MappedRegion) : Spanned.addr m = m.addr := rfl
@[simp] theorem MappedRegion.spanned_len (m : MappedRegion) : Spanned.len m = m.len := rfl
@[simp] theorem ReservedRegion.spanned_addr (r : ReservedRegion) : Spanned.addr r = r.addr := rfl
@[simp] theorem ReservedRegion.spanned_len (r : ReservedRegion) : Spanned.len r = r.len := rfl

/-- `m.addr.saturating_add(m.len)`. -/
def Usize.satStop (U : Usize) {α : Type} [Spanned α] (m : α) : Nat := U.saturatingAdd (addr m) (len m)

structure MemoryManager where
  mappings : List MappedRegion
  reservedRegions : List ReservedRegion
  programBreak : Nat
  maxAddr : Nat
  mmapBase : Nat
  /-- Non-zero once the prefix below the initial break is protected. -/
  reservedUntil : Nat
  brkLimit : Nat
  /-- `RLIMIT_DATA`, a `u64`. -/
  dataLimit : Nat
  initialBrk : Nat
  deriving DecidableEq, Repr

namespace MemoryManager

def new : MemoryManager :=
  { mappings := [], reservedRegions := [], programBreak := initialBrkDefault, maxAddr := defaultMaxAddr,
    mmapBase := mmapBaseDefault, reservedUntil := 0, brkLimit := defaultMaxAddr, dataLimit := 2 ^ 64 - 1,
    initialBrk := initialBrkDefault }

def hasSharedMapping (s : MemoryManager) : Bool := s.mappings.any fun m => m.flags &&& mapShared != 0

/-! ## Overlap tests -/

/-- The loop of `overlaps_mappings` and `overlaps_reserved_regions`. -/
def overlapsSpans (U : Usize) {α : Type} [Spanned α] (v : List α) (addr len : Nat) : Bool :=
  match U.checkedAdd addr len with
  | none => true
  | some stop => v.any fun m => decide (addr < U.satStop m) && decide (Spanned.addr m < stop)

def overlapsMappings (U : Usize) (s : MemoryManager) (addr len : Nat) : Bool := overlapsSpans U s.mappings addr len

def overlapsReservedRegions (U : Usize) (s : MemoryManager) (addr len : Nat) : Bool :=
  overlapsSpans U s.reservedRegions addr len

def overlapsHostControl (U : Usize) (s : MemoryManager) (addr len : Nat) : Bool :=
  if s.mmapBase ≤ s.brkLimit then false
  else
    match U.checkedAdd addr len with
    | none => true
    | some stop => decide (addr < s.mmapBase) && decide (s.brkLimit < stop)

def overlapsReservedPrefix (U : Usize) (s : MemoryManager) (addr len : Nat) : Bool :=
  if s.reservedUntil = 0 then false
  else
    match U.checkedAdd addr len with
    | none => true
    | some stop => decide (addr < s.reservedUntil) && decide (addr < stop)

def overlapsBrkHeap (U : Usize) (s : MemoryManager) (addr len : Nat) : Bool :=
  if s.programBreak ≤ s.initialBrk then false
  else
    match U.checkedAdd addr len with
    | none => true
    | some stop => decide (addr < s.programBreak) && decide (s.initialBrk < stop)

/-- The range is free and inside the bounds a growing mapping keeps to. -/
def canGrowAt (U : Usize) (s : MemoryManager) (addr len : Nat) : Bool :=
  match U.checkedAdd addr len with
  | none => false
  | some stop =>
    if s.maxAddr < stop then false
    else if overlapsHostControl U s addr len then false
    else if overlapsReservedPrefix U s addr len then false
    else if overlapsReservedRegions U s addr len then false
    else if s.reservedUntil ≠ 0 ∧ overlapsBrkHeap U s addr len then false
    else !(s.mappings.any fun m => decide (addr < U.satStop m) && decide (m.addr < stop))

/-! ## Releasing -/

/-- The loop of `mapping_count_after_unmap`; `none` where the count overflows. -/
def countAfterUnmap (U : Usize) (addr stop : Nat) : List MappedRegion → Nat → Option Nat
  | [], remaining => some remaining
  | m :: ms, remaining =>
    if U.satStop m ≤ addr then countAfterUnmap U addr stop ms remaining
    else if stop ≤ m.addr then some remaining
    else if addr ≤ m.addr ∧ U.satStop m ≤ stop then countAfterUnmap U addr stop ms (remaining - 1)
    else if m.addr < addr ∧ stop < U.satStop m then
      (U.checkedAdd remaining 1).bind (countAfterUnmap U addr stop ms)
    else countAfterUnmap U addr stop ms remaining

def mappingCountAfterUnmap (U : Usize) (s : MemoryManager) (addr len : Nat) : Except Errno Nat :=
  if len = 0 then .ok s.mappings.length
  else
    match countAfterUnmap U addr (U.saturatingAdd addr len) s.mappings s.mappings.length with
    | some remaining => .ok remaining
    | none => .error .ENOMEM

/-- `try_reserve`: nothing to reserve, or the allocator's answer. -/
def tryReserve (additional : Nat) (alloc : Bool) : Bool := additional == 0 || alloc

def prepareMappingChange (U : Usize) (s : MemoryManager) (addr len additional : Nat) (alloc : Bool) : Except Errno Unit :=
  match mappingCountAfterUnmap U s addr len with
  | .error e => .error e
  | .ok count =>
    match U.checkedAdd (max count s.mappings.length) additional with
    | none => .error .ENOMEM
    | some capacity => if tryReserve (capacity - s.mappings.length) alloc then .ok () else .error .ENOMEM

def prepareMunmap (U : Usize) (s : MemoryManager) (addr len : Nat) (alloc : Bool) : Except Errno Unit :=
  prepareMappingChange U s addr len 0 alloc

def prepareMremapMove (U : Usize) (s : MemoryManager) (addr len : Nat) (alloc : Bool) : Except Errno Unit :=
  prepareMappingChange U s addr len 1 alloc

/-- The loop of `munmap_prepared` from an index on: what is left of the
mappings there, and whether any overlapped. -/
def munmapLoop (U : Usize) (addr stop : Nat) : List MappedRegion → List MappedRegion × Bool
  | [] => ([], false)
  | m :: ms =>
    if U.satStop m ≤ addr then
      let r := munmapLoop U addr stop ms
      (m :: r.1, r.2)
    else if stop ≤ m.addr then (m :: ms, false)
    else
      match decide (m.addr < addr), decide (stop < U.satStop m) with
      | false, false => ((munmapLoop U addr stop ms).1, true)
      | true, false => ({ m with len := addr - m.addr } :: (munmapLoop U addr stop ms).1, true)
      | false, true => ({ m with addr := stop, len := U.satStop m - stop } :: ms, true)
      | true, true =>
        ({ m with len := addr - m.addr } :: { m with addr := stop, len := U.satStop m - stop } :: ms, true)

def munmapPrepared (U : Usize) (s : MemoryManager) (addr alignedLen : Nat) : Bool × MemoryManager :=
  let r := munmapLoop U addr (U.saturatingAdd addr alignedLen) s.mappings
  (r.2, { s with mappings := r.1 })

def munmap (U : Usize) (s : MemoryManager) (addr len : Nat) (alloc : Bool) : Except Errno Bool × MemoryManager :=
  if len = 0 then (.ok false, s)
  else
    match U.roundUp len with
    | none => (.ok false, s)
    | some alignedLen =>
      match prepareMunmap U s addr alignedLen alloc with
      | .error e => (.error e, s)
      | .ok () =>
        let r := munmapPrepared U s addr alignedLen
        (.ok r.1, r.2)

/-! ## Placing -/

/-- What a region does to the cursor of `find_gap` when no gap is taken before it. -/
def advanceCursor (U : Usize) {α : Type} [Spanned α] (m : α) (cursor : Nat) : Nat :=
  if cursor < U.satStop m then U.satStop m else cursor

/-- The gap between the cursor and a region holds `needed` bytes. -/
def gapBefore (needed cursor addr : Nat) : Bool := decide (cursor ≤ addr) && decide (needed ≤ addr - cursor)

/-- The loop of `find_gap`: both vectors as sorted streams, mappings first at
an equal address. The ceiling is looked at only behind the last region. -/
def findGapLoop (U : Usize) (needed maxAddr : Nat) (ms : List MappedRegion) (rs : List ReservedRegion) (cursor : Nat) : Option Nat :=
  match ms, rs with
  | [], [] => if U.saturatingAdd cursor needed ≤ maxAddr then some cursor else none
  | m :: ms, [] =>
    if gapBefore needed cursor m.addr then some cursor
    else findGapLoop U needed maxAddr ms [] (advanceCursor U m cursor)
  | [], r :: rs =>
    if gapBefore needed cursor r.addr then some cursor
    else findGapLoop U needed maxAddr [] rs (advanceCursor U r cursor)
  | m :: ms, r :: rs =>
    if m.addr ≤ r.addr then
      if gapBefore needed cursor m.addr then some cursor
      else findGapLoop U needed maxAddr ms (r :: rs) (advanceCursor U m cursor)
    else if gapBefore needed cursor r.addr then some cursor
    else findGapLoop U needed maxAddr (m :: ms) rs (advanceCursor U r cursor)
termination_by ms.length + rs.length

/-- Where automatic placement starts to look. -/
def placementBase (s : MemoryManager) : Nat := max s.mmapBase s.programBreak

def findGap (U : Usize) (s : MemoryManager) (needed : Nat) : Option Nat :=
  findGapLoop U needed s.maxAddr s.mappings s.reservedRegions s.placementBase

/-- What `MAP_FIXED` refuses. -/
def fixedRefused (U : Usize) (s : MemoryManager) (hint alignedLen : Nat) : Bool :=
  decide (s.maxAddr < U.saturatingAdd hint alignedLen)
    || overlapsReservedPrefix U s hint alignedLen
    || overlapsReservedRegions U s hint alignedLen
    || overlapsHostControl U s hint alignedLen
    || (s.reservedUntil != 0 && overlapsBrkHeap U s hint alignedLen)

/-- The hint, rounded down, if the whole range there is available. -/
def hintedAddr (U : Usize) (s : MemoryManager) (hint alignedLen : Nat) : Option Nat :=
  let roundedHint := alignDown hint
  if s.placementBase ≤ roundedHint && canGrowAt U s roundedHint alignedLen then some roundedHint else none

/-- The vectors must be able to take one mapping after the fixed range is carved out. -/
def reserveFixed (U : Usize) (s : MemoryManager) (hint alignedLen : Nat) (alloc : Bool) : Bool :=
  match mappingCountAfterUnmap U s hint alignedLen with
  | .error _ => false
  | .ok count =>
    match U.checkedAdd count 1 with
    | none => false
    | some required => tryReserve (max required s.mappings.length - s.mappings.length) alloc

/-- The insertion at the end of `mmap_anonymous`. -/
def insertMapping (s : MemoryManager) (m : MappedRegion) : MemoryManager :=
  { s with mappings := insertByAddr s.mappings m }

def mmapAnonymous (U : Usize) (s : MemoryManager) (hint len : Nat) (prot flags : UInt32) (alloc : Bool) : Nat × MemoryManager :=
  if len = 0 then (U.mapFailed, s)
  else
    match U.roundUp len with
    | none => (U.mapFailed, s)
    | some alignedLen =>
      if hint ≠ 0 ∧ flags &&& mapFixed ≠ 0 then
        if fixedRefused U s hint alignedLen then (U.mapFailed, s)
        else if reserveFixed U s hint alignedLen alloc then
          (hint, (munmapPrepared U s hint alignedLen).2.insertMapping ⟨hint, alignedLen, prot, flags⟩)
        else (U.mapFailed, s)
      else
        match (hintedAddr U s hint alignedLen).or (findGap U s alignedLen) with
        | none => (U.mapFailed, s)
        | some addr =>
          if tryReserve 1 alloc then (addr, s.insertMapping ⟨addr, alignedLen, prot, flags⟩)
          else (U.mapFailed, s)

def insertReserved (s : MemoryManager) (r : ReservedRegion) : MemoryManager :=
  { s with reservedRegions := insertByAddr s.reservedRegions r }

def reserveHostRegion (U : Usize) (s : MemoryManager) (len : Nat) (alloc : Bool) : Nat × MemoryManager :=
  if len = 0 then (U.mapFailed, s)
  else
    match U.roundUp len with
    | none => (U.mapFailed, s)
    | some alignedLen =>
      match findGap U s alignedLen with
      | none => (U.mapFailed, s)
      | some addr =>
        if tryReserve 1 alloc then (addr, s.insertReserved ⟨addr, alignedLen⟩) else (U.mapFailed, s)

/-- What `reserve_host_region_at` refuses. -/
def reserveAtRefused (U : Usize) (s : MemoryManager) (addr alignedLen stop : Nat) : Bool :=
  decide (s.maxAddr < stop)
    || overlapsReservedPrefix U s addr alignedLen
    || overlapsHostControl U s addr alignedLen
    || overlapsMappings U s addr alignedLen
    || overlapsReservedRegions U s addr alignedLen
    || (s.reservedUntil != 0 && overlapsBrkHeap U s addr alignedLen)

def reserveHostRegionAt (U : Usize) (s : MemoryManager) (addr len : Nat) (alloc : Bool) : Nat × MemoryManager :=
  if len = 0 ∨ addr % 0x10000 ≠ 0 then (U.mapFailed, s)
  else
    match U.roundUp len with
    | none => (U.mapFailed, s)
    | some alignedLen =>
      match U.checkedAdd addr alignedLen with
      | none => (U.mapFailed, s)
      | some stop =>
        if reserveAtRefused U s addr alignedLen stop then (U.mapFailed, s)
        else if tryReserve 1 alloc then (addr, s.insertReserved ⟨addr, alignedLen⟩)
        else (U.mapFailed, s)

/-! ## The break and the layout -/

def setBrk (U : Usize) (s : MemoryManager) (newBrk : Nat) : Nat × MemoryManager :=
  if newBrk = 0 then (s.programBreak, s)
  else if newBrk < s.initialBrk then (s.programBreak, s)
  else if s.maxAddr < newBrk then (s.programBreak, s)
  else if s.brkLimit < newBrk then (s.programBreak, s)
  else if s.programBreak < newBrk ∧ overlapsMappings U s s.programBreak (newBrk - s.programBreak) then
    (s.programBreak, s)
  else if s.programBreak < newBrk ∧ overlapsReservedRegions U s s.programBreak (newBrk - s.programBreak) then
    (s.programBreak, s)
  else if s.initialBrk < newBrk ∧ s.dataLimit < newBrk - s.initialBrk then (s.programBreak, s)
  else (newBrk, { s with programBreak := newBrk })

def setDataLimit (s : MemoryManager) (limit : Nat) : MemoryManager := { s with dataLimit := limit }

/-- Only lowers the ceiling. -/
def setMaxAddr (s : MemoryManager) (addr : Nat) : MemoryManager :=
  if addr < s.maxAddr then { s with maxAddr := addr } else s

def setBrkBase (U : Usize) (s : MemoryManager) (addr : Nat) : MemoryManager :=
  { s with
    initialBrk := addr
    programBreak := addr
    mmapBase := if s.mmapBase < addr then U.alignPageUp addr else s.mmapBase }

def setMmapBase (U : Usize) (s : MemoryManager) (addr : Nat) : MemoryManager :=
  { s with
    mmapBase := max (U.alignPageUp addr) s.initialBrk
    reservedUntil := max s.reservedUntil s.initialBrk }

def setBrkLimit (s : MemoryManager) (addr : Nat) : MemoryManager :=
  if addr < s.brkLimit then { s with brkLimit := addr } else s

/-! ## `mremap` -/

/-- The loop of `extend_mapping`: the first mapping with exactly this address
and length. -/
def extendLoop (addr oldLen newLen : Nat) : List MappedRegion → Option (List MappedRegion)
  | [] => none
  | m :: ms =>
    if m.addr = addr ∧ m.len = oldLen then some ({ m with len := newLen } :: ms)
    else (extendLoop addr oldLen newLen ms).map (m :: ·)

def extendMapping (s : MemoryManager) (addr oldLen newLen : Nat) : Bool × MemoryManager :=
  match extendLoop addr oldLen newLen s.mappings with
  | some ms => (true, { s with mappings := ms })
  | none => (false, s)

def mremapMaymove : UInt32 := 1

/-- The allocator's answers to the reservations of one `sys_mremap`. -/
structure MremapAlloc where
  prepare : Bool
  mmap : Bool
  munmap : Bool
  deriving DecidableEq, Repr

/-- The move: a new mapping, then the old range is released. -/
def mremapMove (U : Usize) (s : MemoryManager) (oldAddr alignedOld alignedNew : Nat) (alloc : MremapAlloc) :
    Except Errno Nat × MemoryManager :=
  match prepareMremapMove U s oldAddr alignedOld alloc.prepare with
  | .error e => (.error e, s)
  | .ok () =>
    let r := mmapAnonymous U s 0 alignedNew 3 (mapPrivate ||| mapAnonymous) alloc.mmap
    if r.1 = U.mapFailed then (.error .ENOMEM, r.2)
    else
      match munmap U r.2 oldAddr alignedOld alloc.munmap with
      | (.error e, s') => (.error e, s')
      | (.ok _, s') => (.ok r.1, s')

/-- `sys_mremap` once both lengths are whole pages. -/
def mremapAligned (U : Usize) (s : MemoryManager) (oldAddr alignedOld alignedNew : Nat) (flags : UInt32)
    (alloc : MremapAlloc) : Except Errno Nat × MemoryManager :=
  if alignedNew ≤ alignedOld then
    if alignedNew < alignedOld then
      match U.checkedAdd oldAddr alignedNew with
      | none => (.error .EINVAL, s)
      | some tail =>
        match munmap U s tail (alignedOld - alignedNew) alloc.munmap with
        | (.error e, s') => (.error e, s')
        | (.ok _, s') => (.ok oldAddr, s')
    else (.ok oldAddr, s)
  else
    match U.checkedAdd oldAddr alignedOld with
    | none => (.error .EINVAL, s)
    | some growStart =>
      if canGrowAt U s growStart (alignedNew - alignedOld) then
        match extendMapping s oldAddr alignedOld alignedNew with
        | (true, s') => (.ok oldAddr, s')
        | (false, s') => (.error .EFAULT, s')
      else if flags &&& mremapMaymove ≠ 0 then mremapMove U s oldAddr alignedOld alignedNew alloc
      else (.error .ENOMEM, s)

def sysMremap (U : Usize) (s : MemoryManager) (oldAddr oldLen newLen : Nat) (flags : UInt32) (alloc : MremapAlloc) :
    Except Errno Nat × MemoryManager :=
  if oldLen = 0 ∨ newLen = 0 then (.error .EINVAL, s)
  else if flags &&& ~~~mremapMaymove ≠ 0 then (.error .EINVAL, s)
  else
    match U.roundUp oldLen, U.roundUp newLen with
    | some alignedOld, some alignedNew => mremapAligned U s oldAddr alignedOld alignedNew flags alloc
    | _, _ => (.error .EINVAL, s)

end MemoryManager

end Kandelo.Memory

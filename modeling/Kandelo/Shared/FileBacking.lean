/-
`FileBacking`: the page cache of one shared file. A page is resident or not; of a
resident page some bytes may be dirty, that is stored through a mapping and not
yet in the file, and a dirty page may be stale, that is its other bytes may not
be the file's any more.

A method takes the backing and the environment and answers both as it leaves
them, with its result: a method that fails has still done what it did before.
Buffers are functions of the index with their length beside them. Loops of the
source are recursions on what is left to do.
-/
import Kandelo.Lib.OrdMap
import Kandelo.Shared.Io

namespace Kandelo.Shared

/-- The bytes of one page, by offset below `filePageSize`. -/
abbrev Page := Nat → UInt8

structure DirtyFilePage where
  bytes : Nat → Bool
  stale : Bool

namespace DirtyFilePage

def new : DirtyFilePage := ⟨fun _ => false, false⟩

def contains (d : DirtyFilePage) (offset : Nat) : Bool := d.bytes offset

def set (d : DirtyFilePage) (start stop : Nat) (dirty : Bool) : DirtyFilePage :=
  { d with bytes := fun o => if start ≤ o ∧ o < stop then dirty else d.bytes o }

def isEmpty (d : DirtyFilePage) : Bool := (List.range filePageSize).all fun o => !d.bytes o

end DirtyFilePage

structure FileBacking where
  key : String
  handle : Int
  writable : Bool
  size : UInt64
  sizeValid : Bool
  pages : OrdMap Nat Page
  dirtyPages : OrdMap Nat DirtyFilePage
  refCount : Nat
  -- a `u64`: fewer than 2^64 changes
  version : Nat
  sourceGeneration : Option Nat

/-- The first index from `cursor` on at which `p` fails, or `len`. -/
def runEnd (p : Nat → Bool) (len cursor : Nat) : Nat :=
  if cursor < len ∧ p cursor then runEnd p len (cursor + 1) else cursor
termination_by len - cursor

theorem le_runEnd (p : Nat → Bool) (len cursor : Nat) : cursor ≤ runEnd p len cursor := by
  fun_induction runEnd p len cursor with
  | case1 cursor h ih => omega
  | case2 cursor h => exact Nat.le_refl _

variable {cursor len : Nat} {p : Nat → Bool}

theorem lt_runEnd (hlt : cursor < len) (hp : p cursor) : cursor < runEnd p len cursor := by
  rw [runEnd, if_pos ⟨hlt, hp⟩]
  exact le_runEnd p len (cursor + 1)

/-- Inside a run every index is one of it. -/
theorem of_mem_runEnd : ∀ o, cursor ≤ o → o < runEnd p len cursor → p o ∧ o < len := by
  fun_induction runEnd p len cursor with
  | case1 cursor h ih =>
    intro o hle hlt
    by_cases ho : o = cursor
    · rw [ho]
      exact h.symm
    · exact ih o (by omega) hlt
  | case2 cursor h =>
    omega

theorem runEnd_le (h : cursor ≤ len) : runEnd p len cursor ≤ len := by
  fun_induction runEnd p len cursor with
  | case1 cursor hc ih => exact ih hc.1
  | case2 cursor hc => exact h

/-- A run ends because the next index is not one of it, or there is none. -/
theorem not_runEnd (h : runEnd p len cursor < len) : p (runEnd p len cursor) = false := by
  fun_induction runEnd p len cursor with
  | case1 cursor hc ih => exact ih h
  | case2 cursor hc =>
    cases hp : p cursor with
    | false => rfl
    | true => exact absurd ⟨h, hp⟩ hc

/-- `snapshot.get(i) == Some(&source[i])`: what lies past the snapshot's end
counts as changed. -/
def seen (source snapshot : Nat → UInt8) (snapLen i : Nat) : Bool := decide (i < snapLen) && snapshot i == source i

/-- The next run of bytes of `source` that differ from `snapshot`. -/
def nextChangedRun (len : Nat) (source snapshot : Nat → UInt8) (snapLen cursor : Nat) : Option (Nat × Nat) :=
  let start := runEnd (seen source snapshot snapLen) len cursor
  if len ≤ start then none else some (start, runEnd (fun i => !seen source snapshot snapLen i) len (start + 1))

/-- No run is left when every byte from the cursor on is as it was. -/
theorem nextChangedRun_none {source snapshot : Nat → UInt8} {snapLen : Nat}
    (h : nextChangedRun len source snapshot snapLen cursor = none) : ∀ j, cursor ≤ j → j < len → seen source snapshot snapLen j := by
  intro j hle hlt
  simp only [nextChangedRun] at h
  split at h
  · rename_i hend
    exact (of_mem_runEnd j hle (Nat.lt_of_lt_of_le hlt hend)).1
  · cases h

/-- A run found is changed throughout, and nothing before it is. -/
theorem nextChangedRun_some {source snapshot : Nat → UInt8} {snapLen start stop : Nat}
    (h : nextChangedRun len source snapshot snapLen cursor = some (start, stop)) :
    cursor ≤ start ∧ start < stop ∧ stop ≤ len ∧ (∀ j, cursor ≤ j → j < start → seen source snapshot snapLen j) ∧
      ∀ j, start ≤ j → j < stop → seen source snapshot snapLen j = false := by
  simp only [nextChangedRun] at h
  split at h
  · cases h
  rename_i hlen
  rw [Nat.not_le] at hlen
  cases h
  refine ⟨le_runEnd .., le_runEnd .., runEnd_le hlen, fun j hle hlt => (of_mem_runEnd j hle hlt).1, fun j hle hlt => ?_⟩
  by_cases hj : j = runEnd (seen source snapshot snapLen) len cursor
  · rw [hj]
    exact not_runEnd hlen
  · simpa using (of_mem_runEnd j (by omega) hlt).1

def rangeDiffersFromSnapshot (len : Nat) (source snapshot : Nat → UInt8) : Bool :=
  (List.range len).any fun i => source i != snapshot i

namespace FileBacking

def new (key : String) (handle : Int) (writable : Bool) (size : UInt64) : FileBacking :=
  ⟨key, handle, writable, size, true, OrdMap.empty, OrdMap.empty, 0, 0, none⟩

/-- A page the code has made sure is resident. -/
def page (b : FileBacking) (page : Nat) : Page := (b.pages.get? page).getD fun _ => 0

def dirtyPage (b : FileBacking) (page : Nat) : DirtyFilePage := (b.dirtyPages.get? page).getD .new

/-! ## Dropping cached pages -/

def invalidateRange (b : FileBacking) (offset len : Nat) : FileBacking :=
  if len = 0 then b
  else
    let first := offset / filePageSize
    let last := (satAdd offset len - 1) / filePageSize
    { b with pages := b.pages.retain fun page bytes =>
        if page < first ∨ last < page ∨ b.dirtyPages.contains page then some bytes else none }

def invalidateCleanPages (b : FileBacking) : FileBacking :=
  { b with pages := b.pages.retain fun page bytes => if b.dirtyPages.contains page then some bytes else none }

def invalidateRangeStale (b : FileBacking) (first last : Nat) : FileBacking :=
  { b with
    dirtyPages := b.dirtyPages.retain fun page dirty =>
      some (if first ≤ page ∧ page ≤ last then { dirty with stale := true } else dirty)
    pages := b.pages.retain fun page bytes =>
      if page < first ∨ last < page ∨ b.dirtyPages.contains page then some bytes else none
    version := b.version + 1 }

/-- The dirty page with what lies past the end of the file taken out. -/
def clampDirty (b : FileBacking) (page : Nat) (dirty : DirtyFilePage) : DirtyFilePage :=
  let dirty := { dirty with stale := true }
  if b.sizeValid then
    dirty.set (min (b.size.toNat - satMul page filePageSize) filePageSize) filePageSize false
  else dirty

def invalidateAllStale (b : FileBacking) : FileBacking :=
  let dirtyPages := b.dirtyPages.retain fun page dirty =>
    if (b.clampDirty page dirty).isEmpty then none else some (b.clampDirty page dirty)
  { b with
    dirtyPages := dirtyPages
    pages := b.pages.retain fun page bytes => if dirtyPages.contains page then some bytes else none
    version := b.version + 1 }

/-! ## The file behind the handle -/

def revalidate (b : FileBacking) (io : Io) : Except Errno Unit × FileBacking × Io :=
  let r := io.fstatHandle b.handle
  let refused := fun (e : Errno) (io : Io) => (Except.error e, { b with sizeValid := false }, io)
  match r.1 with
  | .error e => refused e r.2
  | .ok stat =>
    if !stat.isRegularFile then refused Errno.EIO r.2
    else
      let i := r.2.handleIdentity b.handle stat.dev stat.ino
      match i.1 with
      | none => refused .ENOTSUP i.2
      | some key =>
        if key = b.key then (.ok (), { b with size := stat.size, sizeValid := true }, i.2)
        else refused Errno.EIO i.2

/-- Writes that reached the file through a descriptor are noticed by the content
generation. A size that cannot be re-derived stays doubtful. -/
def reconcileSource (b : FileBacking) (io : Io) : FileBacking × Io :=
  match b.sourceGeneration, io.generation b.handle with
  | some seen, some live =>
    if live = seen then (b, io)
    else
      let r := b.revalidate io
      ({ r.2.1.invalidateAllStale with sourceGeneration := some live }, r.2.2)
  | _, _ => (b, io)

def adoptSourceGeneration (b : FileBacking) (io : Io) : FileBacking :=
  match b.sourceGeneration, io.generation b.handle with
  | some _, some live => { b with sourceGeneration := some live }
  | _, _ => b

/-- The loop of `read_page_into` from `total` on. -/
def readLoop (handle : Int) (pageOffset readable total : Nat) (bytes : Page) (io : Io) : Except Errno Page × Io :=
  if h : total < readable then
    let r := io.pread handle (pageOffset + total)
    match r.1 with
    | .error e => (.error e, r.2)
    | .ok (read, data) =>
      if hr : read = 0 ∨ readable - total < read then (.error Errno.EIO, r.2)
      else readLoop handle pageOffset readable (total + read) (Io.splice bytes total read data) r.2
  else (.ok bytes, io)
termination_by readable - total

def readPageInto (b : FileBacking) (page : Nat) (io : Io) : Except Errno Page × Io :=
  if !b.sizeValid then (.error Errno.EIO, io)
  else
    let pageOffset := satMul page filePageSize
    readLoop b.handle pageOffset (min (b.size.toNat - pageOffset) filePageSize) 0 (fun _ => 0) io

def readPage (b : FileBacking) (page : Nat) (io : Io) : Except Errno Page × Io :=
  if io.alloc.1 then b.readPageInto page io.alloc.2 else (.error .ENOMEM, io.alloc.2)

def loadUncachedPage (b : FileBacking) (page : Nat) (io : Io) : Except Errno Unit × FileBacking × Io :=
  -- the page buffer, then the map entry
  let a := io.alloc
  let p := a.2.alloc
  if !a.1 then (.error .ENOMEM, b, a.2)
  else if !p.1 then (.error .ENOMEM, b, p.2)
  else
    let r := b.readPageInto page p.2
    match r.1 with
    | .error e => (.error e, b, r.2)
    | .ok bytes => (.ok (), { b with pages := b.pages.insert page bytes }, r.2)

/-- A resident page is refreshed if it is stale. -/
def refreshPage (b : FileBacking) (page : Nat) (cached : Page) (io : Io) : Except Errno Unit × FileBacking × Io :=
  match b.dirtyPages.get? page with
  | none => (.ok (), b, io)
  | some dirty =>
    if !dirty.stale then (.ok (), b, io)
    else
      let r := b.readPageInto page io
      match r.1 with
      | .error e => (.error e, b, r.2)
      | .ok latest =>
        (.ok (), { b with
          pages := b.pages.insert page fun o => if dirty.contains o then cached o else latest o
          dirtyPages := b.dirtyPages.insert page { dirty with stale := false } }, r.2)

/-- Out of memory drops the clean pages and tries once more. -/
def loadPage (b : FileBacking) (page : Nat) (io : Io) : Except Errno Unit × FileBacking × Io :=
  let r := b.loadUncachedPage page io
  match r.1 with
  | .error .ENOMEM =>
    let b' := r.2.1.invalidateCleanPages
    if b'.pages.entries.length = r.2.1.pages.entries.length then (.error .ENOMEM, b', r.2.2)
    else b'.loadUncachedPage page r.2.2
  | _ => r

def ensurePageLoaded (b : FileBacking) (page : Nat) (io : Io) : Except Errno Unit × FileBacking × Io :=
  match b.pages.get? page with
  | some cached => b.refreshPage page cached io
  | none =>
    if b.sizeValid then b.loadPage page io
    else
      let r := b.revalidate io
      match r.1 with
      | .error e => (.error e, r.2.1, r.2.2)
      | .ok () => r.2.1.loadPage page r.2.2

/-! ## Reading and writing the cache -/

/-- How much of the range from `absolute` on lies in its page. -/
def pageCount (absolute left : Nat) : Nat := min (filePageSize - absolute % filePageSize) left

theorem pageCount_pos (absolute : Nat) {left : Nat} (h : 0 < left) : 0 < pageCount absolute left := by
  have : absolute % filePageSize < filePageSize := Nat.mod_lt _ (by decide)
  simp only [pageCount]
  omega

/-- The dirty entry of a page that is about to be written; a new one takes an
allocation. -/
def dirtyEntry (b : FileBacking) (page : Nat) (markDirty : Bool) (io : Io) : Except Errno (Option DirtyFilePage) × Io :=
  match b.dirtyPages.get? page with
  | some dirty => (.ok (some dirty), io)
  | none =>
    if !markDirty then (.ok none, io)
    else if io.alloc.1 then (.ok (some .new), io.alloc.2)
    else (.error .ENOMEM, io.alloc.2)

/-- One page's part of a write, once the page is loaded and its dirty entry
found. -/
def writePage (b : FileBacking) (page start count : Nat) (bytes : Nat → UInt8) (markDirty : Bool)
    (dirty : Option DirtyFilePage) : FileBacking :=
  { b with
    dirtyPages :=
      match dirty with
      | none => b.dirtyPages
      | some d =>
        let d := d.set start (start + count) markDirty
        if d.isEmpty then b.dirtyPages.erase page else b.dirtyPages.insert page d
    pages := b.pages.insert page (Io.splice (b.page page) start count bytes) }

def writeRangeLoop (offset len : Nat) (bytes : Nat → UInt8) (markDirty : Bool) (copied : Nat) (b : FileBacking)
    (io : Io) : Except Errno Unit × FileBacking × Io :=
  if _h : copied < len then
    let page := wrapAdd offset copied / filePageSize
    let r := b.ensurePageLoaded page io
    match r.1 with
    | .error e => (.error e, r.2.1, r.2.2)
    | .ok () =>
      let d := r.2.1.dirtyEntry page markDirty r.2.2
      match d.1 with
      | .error e => (.error e, r.2.1, d.2)
      | .ok dirty =>
        writeRangeLoop offset len bytes markDirty (copied + pageCount (wrapAdd offset copied) (len - copied))
          (r.2.1.writePage page (wrapAdd offset copied % filePageSize) (pageCount (wrapAdd offset copied) (len - copied))
            (fun k => bytes (copied + k)) markDirty dirty) d.2
  else (.ok (), b, io)
termination_by len - copied
decreasing_by
  have := pageCount_pos (wrapAdd offset copied) (Nat.sub_pos_of_lt _h)
  omega

def writeRange (b : FileBacking) (offset len : Nat) (bytes : Nat → UInt8) (markDirty : Bool) (io : Io) :
    Except Errno Unit × FileBacking × Io :=
  writeRangeLoop offset len bytes markDirty 0 b io

/-! ## Publishing a mapping's stores -/

/-- Where the piece that starts at `cursor` ends: the run's end or the page's. -/
def pieceEnd (absolute cursor stop : Nat) : Nat := min stop (cursor + filePageSize - absolute % filePageSize)

theorem lt_pieceEnd (absolute : Nat) {stop : Nat} (h : cursor < stop) : cursor < pieceEnd absolute cursor stop := by
  have : absolute % filePageSize < filePageSize := Nat.mod_lt _ (by decide)
  simp only [pieceEnd]
  omega

/-- One run, page by page: the snapshot takes each piece once the cache has it,
and the first one moves the version. -/
def mergePieces (source : Nat → UInt8) (snapLen base stop cursor : Nat) (changed : Bool) (snapshot : Nat → UInt8)
    (b : FileBacking) (io : Io) : Except Errno Bool × (Nat → UInt8) × FileBacking × Io :=
  if _h : cursor < stop then
    let next := pieceEnd (wrapAdd base cursor) cursor stop
    let piece := fun k => source (cursor + k)
    let w := b.writeRange (wrapAdd base cursor) (next - cursor) piece true io
    match w.1 with
    | .error e => (.error e, snapshot, w.2.1, w.2.2)
    | .ok () =>
      mergePieces source snapLen base stop (pieceEnd (wrapAdd base cursor) cursor stop) true
        (if next ≤ snapLen then Io.splice snapshot cursor (next - cursor) piece else snapshot)
        (if changed then w.2.1 else { w.2.1 with version := w.2.1.version + 1 }) w.2.2
  else (.ok changed, snapshot, b, io)
termination_by stop - cursor
decreasing_by
  have := lt_pieceEnd (wrapAdd base cursor) _h
  omega

def mergeRuns (len : Nat) (source : Nat → UInt8) (snapLen base cursor : Nat) (changed : Bool) (snapshot : Nat → UInt8)
    (b : FileBacking) (io : Io) : Except Errno Bool × (Nat → UInt8) × FileBacking × Io :=
  match _h : nextChangedRun len source snapshot snapLen cursor with
  | none => (.ok changed, snapshot, b, io)
  | some (start, stop) =>
    let r := mergePieces source snapLen base stop start changed snapshot b io
    match r.1 with
    | .error e => (.error e, r.2)
    | .ok changed => mergeRuns len source snapLen base stop changed r.2.1 r.2.2.1 r.2.2.2
termination_by len - cursor
decreasing_by
  have := nextChangedRun_some _h
  omega

/-- Answers whether anything changed, and the snapshot with what was published. -/
def mergeChangedRuns (b : FileBacking) (len : Nat) (source snapshot : Nat → UInt8) (snapLen base : Nat) (io : Io) :
    Except Errno Bool × (Nat → UInt8) × FileBacking × Io :=
  mergeRuns len source snapLen base 0 false snapshot b io

/-! ## Writing back -/

def setDirty (b : FileBacking) (page start stop : Nat) (dirty : Bool) : FileBacking :=
  match b.dirtyPages.get? page with
  | none => b
  | some d => { b with dirtyPages := b.dirtyPages.insert page (d.set start stop dirty) }

/-- One dirty run `[written, stop)` of a page, as often as the host comes up
short. Only what the host acknowledged is clean. -/
def writeRun (page pageStart stop : Nat) (source : Page) (written : Nat) (b : FileBacking) (io : Io) :
    Option Errno × FileBacking × Io :=
  if _h : written < stop then
    let w := io.pwrite b.handle (pageStart + written) (stop - written) fun k => source (written + k)
    match w.1 with
    | .error e => (some e, b, w.2)
    | .ok count =>
      if _hc : 0 < count ∧ count ≤ stop - written then
        writeRun page pageStart stop source (written + count) (b.setDirty page written (written + count) false) w.2
      else (some Errno.EIO, b, w.2)
  else (none, b, io)
termination_by stop - written

/-- The dirty runs of a page in `[cursor, hi)`; the first one refused ends it. -/
def writeRuns (page pageStart hi cursor : Nat) (b : FileBacking) (io : Io) : Option Errno × FileBacking × Io :=
  if _h : cursor < hi then
    if _hd : (b.dirtyPage page).contains cursor then
      let stop := runEnd (b.dirtyPage page).contains hi cursor
      let r := writeRun page pageStart stop (b.page page) cursor b io
      match r.1 with
      | some e => (some e, r.2)
      | none => writeRuns page pageStart hi (runEnd (b.dirtyPage page).contains hi cursor) r.2.1 r.2.2
    else writeRuns page pageStart hi (cursor + 1) b io
  else (none, b, io)
termination_by hi - cursor
decreasing_by
  · have := lt_runEnd _h _hd
    omega
  · omega

/-- The page's dirty bytes below `valid` only, and no entry for none. -/
def trimPage (b : FileBacking) (page valid : Nat) : FileBacking :=
  match b.dirtyPages.get? page with
  | none => b
  | some d =>
    let d := d.set valid filePageSize false
    { b with dirtyPages := if d.isEmpty then b.dirtyPages.erase page else b.dirtyPages.insert page d }

def flushPage (offset requestedEnd stop page : Nat) (b : FileBacking) (io : Io) : Option Errno × FileBacking × Io :=
  let pageStart := satMul page filePageSize
  let pageEnd := satAdd pageStart filePageSize
  if b.size.toNat ≤ pageStart then
    -- what lies past the end of the file cannot be written
    if pageStart < requestedEnd ∧ offset < pageEnd then
      (none, { b with dirtyPages := b.dirtyPages.erase page }, io)
    else (none, b, io)
  else if stop ≤ pageStart ∨ pageEnd ≤ offset then (none, b, io)
  else
    let writeStart := max offset pageStart
    let validPageEnd := min pageEnd b.size.toNat
    let writeEnd := min stop validPageEnd
    if writeEnd ≤ writeStart then (none, b, io)
    else
      let r := b.ensurePageLoaded page io
      match r.1 with
      | .error e => (some e, r.2)
      | .ok () =>
        let w := writeRuns page pageStart (writeEnd - pageStart) (writeStart - pageStart) r.2.1 r.2.2
        (w.1, w.2.1.trimPage page (validPageEnd - pageStart), w.2.2)

/-- The first failure is the one reported; the pages after it are still tried. -/
def flushPages (offset requestedEnd stop : Nat) : List Nat → Option Errno → FileBacking → Io → Option Errno × FileBacking × Io
  | [], failure, b, io => (failure, b, io)
  | page :: pages, failure, b, io =>
    let r := flushPage offset requestedEnd stop page b io
    flushPages offset requestedEnd stop pages (failure.or r.1) r.2.1 r.2.2

def flushDirtyRange (b : FileBacking) (offset len : Nat) (io : Io) : Except Errno Unit × FileBacking × Io :=
  let requestedEnd := satAdd offset len
  let r := flushPages offset requestedEnd (min requestedEnd b.size.toNat) (b.dirtyPages.entries.map (·.1)) none b io
  (match r.1 with
    | none => .ok ()
    | some e => .error e, r.2)

def flushRange (b : FileBacking) (offset len : Nat) (io : Io) : Except Errno Unit × FileBacking × Io :=
  if len = 0 ∨ b.dirtyPages.entries.isEmpty then (.ok (), b, io)
  else
    let r := b.reconcileSource io
    if !r.1.sizeValid then (.error Errno.EIO, r)
    else
      let f := r.1.flushDirtyRange offset len r.2
      (f.1, f.2.1.adoptSourceGeneration f.2.2, f.2.2)

/-! ## Reading the resident pages again -/

/-- A page takes an allocation for its bytes and one for its entry. -/
def stagePages (b : FileBacking) : List Nat → Io → Except Errno (List (Nat × Page)) × Io
  | [], io => (.ok [], io)
  | page :: pages, io =>
    let r := b.readPage page io
    match r.1 with
    | .error e => (.error e, r.2)
    | .ok bytes =>
      if !r.2.alloc.1 then (.error .ENOMEM, r.2.alloc.2)
      else
        let rest := b.stagePages pages r.2.alloc.2
        (rest.1.map fun staged => (page, bytes) :: staged, rest.2)

def stageRefreshedPages (b : FileBacking) (first last : Nat) (io : Io) : Except Errno (List (Nat × Page)) × Io :=
  b.stagePages ((b.pages.entries.map (·.1)).filter fun page => first ≤ page ∧ page ≤ last) io

def publishRefreshedPages (b : FileBacking) : List (Nat × Page) → FileBacking
  | [] => b
  | (page, bytes) :: staged =>
    publishRefreshedPages { b with pages := b.pages.insert page bytes, dirtyPages := b.dirtyPages.erase page } staged

def bumpVersion (b : FileBacking) : FileBacking := { b with version := b.version + 1 }

/-- Every resident page, once the size is known. -/
def reloadPages (b : FileBacking) (io : Io) : Bool × FileBacking × Io :=
  if b.pages.entries.isEmpty then (true, b.bumpVersion, io)
  else
    let r := b.stageRefreshedPages 0 u64Max io
    match r.1 with
    | .error _ => (false, b.invalidateAllStale, r.2)
    | .ok staged => (true, (b.publishRefreshedPages staged).bumpVersion, r.2)

def reload (b : FileBacking) (exactSize : Option UInt64) (io : Io) : Bool × FileBacking × Io :=
  match exactSize with
  | some size => { b with size := size, sizeValid := true }.reloadPages io
  | none =>
    let r := b.revalidate io
    match r.1 with
    | .error _ => (false, r.2.1.invalidateAllStale, r.2.2)
    | .ok () => r.2.1.reloadPages r.2.2

def reloadRange (b : FileBacking) (offset len : Nat) (io : Io) : Bool × FileBacking × Io :=
  if len = 0 then (true, b, io)
  else
    let first := offset / filePageSize
    let last := satAdd offset (len - 1) / filePageSize
    let r := b.stageRefreshedPages first last io
    match r.1 with
    | .error _ => (false, b.invalidateRangeStale first last, r.2)
    | .ok staged =>
      let b' := b.publishRefreshedPages staged
      (true, if staged.isEmpty then b' else b'.bumpVersion, r.2)

end FileBacking

end Kandelo.Shared

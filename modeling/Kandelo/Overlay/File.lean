/-
Files of an overlay: what metadata and which block a handle sees, reading and writing at an
offset, and truncation (`metadata_value`, `block_location`, `read_file_at`, `write_file_at`,
`write_file_at_buffered`, `truncate_file_at`).

The bytes of a file come from the buffered blocks, from the blocks the journal holds, or from
the base image, which is a reader that may return less than it is asked for.
-/
import Kandelo.Overlay.Journal

namespace Kandelo.Overlay

open Fallible List

/-- `read_base`: what it answers to each request, for a position and a length. -/
abbrev Reader := Nat → Nat → Nat → Except Errno Bytes

namespace OverlayJournal

/-! ## Metadata -/

def readIndexedMetadata (e : Env) (entry : MetadataCheckpointEntry) : Op (Option Bytes) :=
  match entry.value with
  | none => pure none
  | some (offset, length) =>
    if 4096 < length then throw Errno.EIO
    else do
      allocate e
      let bytes ← readExactAt e offset length
      match entry.valueDigest with
      | some digest => if e.sha.hash bytes = digest then pure (some bytes) else throw Errno.EIO
      | none => pure (some bytes)

/-- The first entry of a cache with the key, and the cache with it moved to the end. -/
def refreshed {κ α : Type} [DecidableEq κ] (cache : List (κ × α)) (key : κ) : Option (α × List (κ × α)) :=
  match cache.find? (·.1 = key) with
  | some cached => some (cached.2, cache.eraseP (·.1 = key) ++ [cached])
  | none => none

/-- A cache with room for one more. -/
def trimmed {α : Type} (limit : Nat) (cache : List α) : List α := if cache.length = limit then cache.drop 1 else cache

def cacheMetadata (e : Env) (key : OverlayKey) (value : Option (Option Bytes)) : Op Unit := do
  let j ← get
  match admitEntry e j.metadataCache j.tick with
  | (none, tick) => modify fun j => { j with metadataCache := [], tick }
  | (some cache, tick) =>
    modify fun j => { j with metadataCache := cache, tick }
    allocate e
    if 255 < key.name.length then throw .EINVAL
    else modify fun j => { j with metadataCache := trimmed metadataCacheEntries j.metadataCache ++ [(key, value)] }

def readIndexed (e : Env) : Option MetadataCheckpointEntry → Op (Option (Option Bytes))
  | none => pure none
  | some entry => do
    let value ← readIndexedMetadata e entry
    pure (some value)

def indexedMetadataValue (e : Env) (key : OverlayKey) : Op (Option (Option Bytes)) := do
  let j ← get
  match j.checkpoint with
  | none => pure none
  | some c =>
    if !c.hasMetadataIndex then pure none
    else
      match refreshed j.metadataCache key with
      | some (value, cache) =>
        allocate e
        modify fun j => { j with metadataCache := cache }
        pure value
      | none =>
        request e
        let value ← readIndexed e (c.lookupMetadata key)
        cacheMetadata e key value
        pure value

/-- The least of two markers; a marker has eight bytes. -/
def leastMarker (current indexed : Bytes) : Op (Option (Option Bytes)) :=
  if current.length = 8 ∧ indexed.length = 8 then pure (some (some (leU64 (min (ofLeU64 current) (ofLeU64 indexed)))))
  else throw Errno.EIO

def metadataValue (e : Env) (key : OverlayKey) : Op (Option (Option Bytes)) := do
  if key.isBlock then throw .EINVAL
  else
    let j ← get
    match j.state.lookup key with
    | none => indexedMetadataValue e key
    | some current =>
      when current.isSome (allocate e)
      match key with
      | .fileZeroFrom _ =>
        let indexed ← indexedMetadataValue e key
        match current, indexed with
        | some current, some (some indexed) => leastMarker current indexed
        | _, _ => pure (some current)
      | _ => pure (some current)

def visibleFileSize (e : Env) (inode : UInt64) (baseSize : Nat) : Op Nat := do
  if inode = 0 then throw .EINVAL
  else
    let j ← get
    match j.dirtySizes.get? inode with
    | some size => pure size.toNat
    | none =>
      match ← metadataValue e (.fileSize inode) with
      | some (some bytes) => if bytes.length = 8 then pure (ofLeU64 bytes).toNat else throw Errno.EIO
      | _ => pure baseSize

def visibleZeroFrom (e : Env) (inode : UInt64) : Op (Option UInt64) := do
  match ← metadataValue e (.fileZeroFrom inode) with
  | some (some bytes) => if bytes.length = 8 then pure (some (ofLeU64 bytes)) else throw Errno.EIO
  | some none => throw Errno.EIO
  | none => pure none

/-! ## Reading -/

def blockLocation (e : Env) (id : BlockId) : Op (Option (Option BlockLocation)) := do
  let j ← get
  match j.state.blocks.get? id with
  | some location => pure (some location)
  | none =>
    if (j.state.invalidCheckpointFrom.get? id.inode).any fun invalidFrom => invalidFrom ≤ id.block then pure (some none)
    else
      match j.checkpoint with
      | none => pure none
      | some c =>
        request e
        pure ((c.lookup id.inode id.block).map fun entry => entry.location)

def readCachedBlock (e : Env) (id : BlockId) (location : BlockLocation) (within length : Nat) : Op Bytes := do
  let j ← get
  match refreshed j.blockCache id with
  | some (bytes, cache) =>
    modify fun j => { j with blockCache := cache }
    pure (slice bytes within length)
  | none =>
    match admitEntry e j.blockCache j.tick with
    | (none, tick) =>
      modify fun j => { j with blockCache := [], tick }
      throw .ENOMEM
    | (some cache, tick) =>
      modify fun j => { j with blockCache := cache, tick }
      let block ← readExactAt e location.offset fileBlockBytes
      if e.sha.hash block ≠ location.digest then throw Errno.EIO
      else
        modify fun j => { j with blockCache := trimmed cacheBlocks j.blockCache ++ [(id, block)] }
        pure (slice block within length)

/-- What the base gives for a range of it, in as many reads as it takes. -/
def readBase (reader : Reader) (position left : Nat) : Op Bytes :=
  if left = 0 then pure []
  else do
    let j ← get
    modify fun j => { j with tick := j.tick + 1 }
    match reader j.tick position left with
    | .error error => throw error
    | .ok bytes =>
      if _h : bytes = [] ∨ left < bytes.length then throw Errno.EIO
      else
        let rest ← readBase reader (position + bytes.length) (left - bytes.length)
        pure (bytes ++ rest)
termination_by left
decreasing_by
  have : 0 < bytes.length := length_pos_iff.mpr fun hnil => _h (.inl hnil)
  omega

def blockOf (position : Nat) : UInt64 := UInt64.ofNat (position / fileBlockBytes)

def zeros (n : Nat) : Bytes := replicate n 0

/-- `length` bytes at `position`, which lie in one block. -/
def readChunk (e : Env) (reader : Reader) (inode : UInt64) (baseSize position length : Nat) : Op Bytes := do
  let id : BlockId := ⟨inode, blockOf position⟩
  let within := position % fileBlockBytes
  let j ← get
  match refreshed j.dirtyBlocks id with
  | some (bytes, blocks) =>
    modify fun j => { j with dirtyBlocks := blocks }
    pure (slice bytes within length)
  | none =>
    match ← blockLocation e id with
    | some (some location) => readCachedBlock e id location within length
    | some none => pure (zeros length)
    | none =>
      let zeroFrom ← visibleZeroFrom e inode
      let baseVisible := !zeroFrom.any fun zeroFrom => decide (zeroFrom ≤ id.block)
      let fromBase := if baseVisible && decide (position < baseSize) then min (baseSize - position) length else 0
      let bytes ← readBase reader position fromBase
      pure (bytes ++ zeros (length - fromBase))

/-- How much of `left` bytes at `position` lies in the first block. -/
def chunkAt (position left : Nat) : Nat := min left (fileBlockBytes - position % fileBlockBytes)

theorem chunkAt_pos (position : Nat) {left : Nat} (h : left ≠ 0) : 0 < chunkAt position left := by
  have : position % fileBlockBytes < fileBlockBytes := Nat.mod_lt _ (by decide)
  rw [chunkAt]
  omega

def readBlocks (e : Env) (reader : Reader) (inode : UInt64) (baseSize position left : Nat) : Op Bytes :=
  if h : left = 0 then pure []
  else do
    let bytes ← readChunk e reader inode baseSize position (chunkAt position left)
    let rest ← readBlocks e reader inode baseSize (position + chunkAt position left) (left - chunkAt position left)
    pure (bytes ++ rest)
termination_by left
decreasing_by
  have := chunkAt_pos position h
  omega

/-- `read_file_at` into a buffer of `length` bytes: the bytes it filled. -/
def readFileAt (e : Env) (reader : Reader) (inode : UInt64) (baseSize offset length : Nat) : Op Bytes := do
  let size ← visibleFileSize e inode baseSize
  if size ≤ offset then pure [] else readBlocks e reader inode baseSize offset (min length (size - offset))

/-! ## Writing -/

/-- `bytes` with `src` copied to `start`. -/
def patched (bytes : Bytes) (start : Nat) (src : Bytes) : Bytes := bytes.take start ++ src ++ bytes.drop (start + src.length)

/-- The block a chunk is written to, as it is before: read in unless all of it is overwritten. -/
def oldBlock (e : Env) (reader : Reader) (inode : UInt64) (baseSize position chunk : Nat) : Op Bytes :=
  if position % fileBlockBytes ≠ 0 ∨ chunk ≠ fileBlockBytes then do
    let read ← readFileAt e reader inode baseSize (position - position % fileBlockBytes) fileBlockBytes
    pure (read ++ zeros (fileBlockBytes - read.length))
  else pure (zeros fileBlockBytes)

/-- The blocks a write covers, with the bytes around it read in. -/
def prepareBlocks (e : Env) (reader : Reader) (inode : UInt64) (baseSize position : Nat) (src : Bytes) : Op (List (BlockId × Bytes)) :=
  if h : src = [] then pure []
  else do
    let chunk := chunkAt position src.length
    allocate e
    let old ← oldBlock e reader inode baseSize position chunk
    let rest ← prepareBlocks e reader inode baseSize (position + chunk) (src.drop chunk)
    pure ((⟨inode, blockOf position⟩, patched old (position % fileBlockBytes) (src.take chunk)) :: rest)
termination_by src.length
decreasing_by
  have hne : src.length ≠ 0 := fun hzero => h (length_eq_zero_iff.mp hzero)
  have := chunkAt_pos position hne
  rw [length_drop]
  omega

def blockCount (offset length : Nat) : Nat := (offset + length - 1) / fileBlockBytes - offset / fileBlockBytes + 1

/-- Room for the prepared blocks: buffered blocks of others are committed, with the sizes of their files. -/
def evictBlocks (e : Env) (prepared : List (BlockId × Bytes)) : Op Unit := do
  let j ← get
  let newBlocks := (prepared.filter fun entry => !j.dirtyBlocks.any (·.1 = entry.1)).length
  if j.dirtyBlocks.length + newBlocks ≤ cacheBlocks then pure ()
  else
    let required := j.dirtyBlocks.length + newBlocks - cacheBlocks
    let count := max required (cacheBlocks / 4)
    let victims := ((j.dirtyBlocks.filter fun entry => !prepared.any (·.1 = entry.1)).take count).map (·.1)
    allocate e
    if victims.length < required then throw Errno.EIO
    else
      allocate e
      commitTransactionInternal e
        (((j.dirtyBlocks.filter fun entry => victims.contains entry.1).map putBlock) ++
          (j.dirtySizes.entries.filter fun entry => victims.any (·.inode = entry.1)).map putSize)
      modify fun j =>
        { j with dirtyBlocks := j.dirtyBlocks.filter fun entry => !victims.contains entry.1,
                 dirtySizes := j.dirtySizes.retain fun owner size => if victims.any (·.inode = owner) then none else some size }

def bufferBlock (j : OverlayJournal) (entry : BlockId × Bytes) : OverlayJournal :=
  { j with blockCache := j.blockCache.filter fun cached => cached.1 ≠ entry.1,
           dirtyBlocks := j.dirtyBlocks.eraseP (·.1 = entry.1) ++ [entry] }

/-- Whether a write up to `stop` makes the file longer; a file of fixed size never grows. -/
def growsTo (e : Env) (fixedSize : Bool) (inode : UInt64) (baseSize stop : Nat) : Op Bool :=
  if fixedSize then pure false
  else do
    let size ← visibleFileSize e inode baseSize
    pure (decide (size < stop))

def writeBufferedFileChunk (e : Env) (reader : Reader) (fixedSize : Bool) (inode : UInt64) (baseSize offset : Nat) (src : Bytes) :
    Op Nat := do
  allocate e
  checkActiveTailLimit
  let stop := offset + src.length
  let grows ← growsTo e fixedSize inode baseSize stop
  let j ← get
  when (grows && !j.dirtySizes.contains inode && j.dirtySizes.entries.length == cacheBlocks) (flushDirty e)
  allocate e
  let prepared ← prepareBlocks e reader inode baseSize offset src
  evictBlocks e prepared
  allocate e
  modify fun j => prepared.foldl bufferBlock j
  when grows (modify fun j => { j with dirtySizes := j.dirtySizes.insert inode (UInt64.ofNat stop) })
  pure src.length

/-- How much of a large write is buffered at a time. -/
def pieceAt (position left : Nat) : Nat := min left (cacheBlocks * fileBlockBytes - position % fileBlockBytes)

/-- The pieces of a large write: one that fails after others ends it with what was written. -/
def writePieces (e : Env) (reader : Reader) (fixedSize : Bool) (inode : UInt64) (baseSize position : Nat) (src : Bytes) (done : Nat) :
    Op Nat :=
  if h : src = [] then pure done
  else do
    let piece := pieceAt position src.length
    let written ← onError
      (do
        checkActiveTailLimit
        let written ← writeBufferedFileChunk e reader fixedSize inode baseSize position (src.take piece)
        pure (some written))
      fun error => if 0 < done then pure none else throw error
    match written with
    | none => pure done
    | some written => writePieces e reader fixedSize inode baseSize (position + piece) (src.drop piece) (done + written)
termination_by src.length
decreasing_by
  have hne : src.length ≠ 0 := fun hzero => h (length_eq_zero_iff.mp hzero)
  have : position % fileBlockBytes < fileBlockBytes := Nat.mod_lt _ (by decide)
  have : fileBlockBytes ≤ cacheBlocks * fileBlockBytes := by decide
  rw [length_drop, pieceAt]
  omega

def writeBufferedFileAt (e : Env) (reader : Reader) (fixedSize : Bool) (inode : UInt64) (baseSize offset : Nat) (src : Bytes) :
    Op Nat := do
  let j ← get
  match j.failure with
  | some error => throw error
  | none =>
    if src = [] then pure 0
    else
      checkActiveTailLimit
      if 2 ^ 64 ≤ offset + src.length then throw .EFBIG
      else if fixedSize && decide (baseSize < offset + src.length) then throw .EFBIG
      else if cacheBlocks < blockCount offset src.length then writePieces e reader fixedSize inode baseSize offset src 0
      else writeBufferedFileChunk e reader fixedSize inode baseSize offset src

def writeFileAtBuffered (e : Env) (reader : Reader) (inode : UInt64) (baseSize offset : Nat) (src : Bytes) : Op Nat :=
  writeBufferedFileAt e reader false inode baseSize offset src

/-- What a transaction has for blocks, beside a size record if the file grows. -/
def availableBytes (grows : Bool) : Nat :=
  maxTransactionBytes - transactionHeaderBytes - transactionTrailerBytes - if grows then 31 else 0

def sizeRecord (grows : Bool) (inode : UInt64) (stop : Nat) : List Mutation :=
  if grows then [putSize (inode, UInt64.ofNat stop)] else []

def writeFileAt (e : Env) (reader : Reader) (inode : UInt64) (baseSize offset : Nat) (src : Bytes) : Op Nat := do
  let j ← get
  match j.failure with
  | some error => throw error
  | none =>
    let size ← visibleFileSize e inode baseSize
    if src = [] then pure 0
    else
      let stop := offset + src.length
      if 2 ^ 64 ≤ stop then throw .EFBIG
      else
        let grows := decide (size < stop)
        if availableBytes grows / (fileBlockBytes + 23) < blockCount offset src.length then throw .EFBIG
        else
          allocate e
          let prepared ← prepareBlocks e reader inode baseSize offset src
          when grows (allocate e)
          commit e (prepared.map putBlock ++ sizeRecord grows inode stop)
          pure src.length

/-! ## The blocks a file has -/

/-- The sources of a walk over the blocks of a file, each by increasing block: buffered blocks, blocks of the journal after
its index and blocks of the index with whether they have bytes, and the base blocks, as the caller lists them. -/
structure Sources where
  dirty : List Nat
  tail : List (Nat × Bool)
  indexed : List (Nat × Bool)
  base : Option Nat
  previousBase : Option Nat
  rest : List (Except Errno Nat)

def Sources.size (s : Sources) : Nat :=
  s.dirty.length + s.tail.length + s.indexed.length + (s.base.toList.length + s.rest.length)

def Sources.heads (s : Sources) : List (Option Nat) :=
  [s.tail.head?.map (·.1), s.dirty.head?, s.indexed.head?.map (·.1), s.base]

/-- The next base block below the limit, with what was listed last and what is left of the list. -/
def advanceBase (start baseLimit : Nat) (previous : Option Nat) :
    List (Except Errno Nat) → Except Errno (Option Nat × Option Nat × List (Except Errno Nat))
  | rest =>
    if baseLimit ≤ start then .ok (none, previous, rest)
    else
      match rest with
      | [] => .ok (none, previous, [])
      | .error e :: _ => .error e
      | .ok block :: rest =>
        if block < start ∨ previous.any fun previous => decide (block ≤ previous) then .error .EINVAL
        else .ok (if block < baseLimit then some block else none, some block, rest)

theorem advanceBase_size {start baseLimit : Nat} {previous base previous' : Option Nat} {rest rest' : List (Except Errno Nat)}
    (h : advanceBase start baseLimit previous rest = .ok (base, previous', rest')) :
    base.toList.length + rest'.length ≤ rest.length := by
  simp only [advanceBase] at h
  split at h
  · cases h
    simp
  split at h
  · cases h
    simp
  · cases h
  split at h
  · cases h
  cases h
  split
  · simp
    omega
  · simp

/-- A source without its head, when that is the block. -/
def afterBlock (block : Nat) (source : List (Nat × Bool)) : Option Bool × List (Nat × Bool) :=
  match source with
  | [] => (none, [])
  | head :: rest => if head.1 = block then (some head.2, rest) else (none, head :: rest)

theorem length_afterBlock (block : Nat) (source : List (Nat × Bool)) : (afterBlock block source).2.length ≤ source.length ∧
      (source.head?.map (·.1) = some block → (afterBlock block source).2.length < source.length) := by
  cases source with
  | nil => exact ⟨le_rfl, nofun⟩
  | cons head rest =>
    simp only [afterBlock]
    split_ifs with hne
    · exact ⟨Nat.le_succ _, fun _ => Nat.lt_succ_self _⟩
    · exact ⟨le_rfl, fun h => absurd (Option.some.inj h) hne⟩

theorem length_dropWhile_head {block : Nat} {source : List Nat} (h : source.head? = some block) :
    (source.dropWhile (· = block)).length < source.length := by
  cases source with
  | nil => cases h
  | cons head rest =>
    cases h
    rw [dropWhile_cons_of_pos (by simp)]
    exact Nat.lt_succ_of_le (dropWhile_sublist _).length_le

/-- The loop of `visit_composed_file_blocks_from`: the least block of all sources is shown if it is buffered, or has bytes in
the first of journal, index and base that knows it. -/
def visitSources {γ : Type} (visit : γ → Nat → Except Errno (γ × Bool)) (start baseLimit : Nat) (s : Sources) (acc : γ) : Except Errno γ :=
  match h : (s.heads.filterMap id).min? with
  | none => .ok acc
  | some block =>
    let dirty := s.dirty.dropWhile (· = block)
    let tail := afterBlock block s.tail
    let indexed := afterBlock block s.indexed
    let baseMatches := decide (s.base = some block)
    let shown := decide (s.dirty.head? = some block) || (tail.1.or indexed.1).getD baseMatches
    let visited := if shown then (if block < 2 ^ 32 then visit acc block else .error .EFBIG) else .ok (acc, true)
    match visited with
    | .error e => .error e
    | .ok (acc, false) => .ok acc
    | .ok (acc, true) =>
      match hadvance : if baseMatches then advanceBase start baseLimit s.previousBase s.rest else .ok (s.base, s.previousBase, s.rest) with
      | .error e => .error e
      | .ok (base, previousBase, rest) => visitSources visit start baseLimit ⟨dirty, tail.2, indexed.2, base, previousBase, rest⟩ acc
termination_by s.size
decreasing_by
  have hmem := mem_filterMap.mp (min?_mem h)
  have htail := length_afterBlock block s.tail
  have hindexed := length_afterBlock block s.indexed
  have hdirty := (dropWhile_sublist (l := s.dirty) fun x => decide (x = block)).length_le
  have hbase : base.toList.length + rest.length ≤ s.base.toList.length + s.rest.length ∧
      (s.base = some block → base.toList.length + rest.length < s.base.toList.length + s.rest.length) := by
    split_ifs at hadvance with hmatch
    · have hsome : s.base = some block := of_decide_eq_true hmatch
      have := advanceBase_size hadvance
      rw [hsome]
      simp only [Option.toList_some, length_singleton]
      omega
    · cases hadvance
      exact ⟨le_rfl, fun hsome => absurd (decide_eq_true hsome) hmatch⟩
  have hhead : s.tail.head?.map (·.1) = some block ∨ s.dirty.head? = some block ∨ s.indexed.head?.map (·.1) = some block ∨
      s.base = some block := by
    obtain ⟨head, hhead, rfl⟩ := hmem
    simp only [Sources.heads, mem_cons, not_mem_nil, or_false] at hhead
    exact hhead.imp Eq.symm (Or.imp Eq.symm (Or.imp Eq.symm Eq.symm))
  simp only [Sources.size]
  rcases hhead with hhead | hhead | hhead | hhead
  · have := htail.2 hhead
    omega
  · have := length_dropWhile_head hhead
    omega
  · have := hindexed.2 hhead
    omega
  · have := hbase.2 hhead
    omega

def divCeil (size : Nat) : Nat := (size + fileBlockBytes - 1) / fileBlockBytes

/-- The marker from which the base is hidden; an empty base is not asked for one. -/
def baseZeroFrom (e : Env) (inode : UInt64) (baseSize : Nat) : Op (Option UInt64) :=
  if baseSize = 0 then pure none else visibleZeroFrom e inode

/-- `n` or an earlier marker. -/
def boundedBy (marker : Option UInt64) (n : Nat) : Nat :=
  match marker with
  | some marker => min n marker.toNat
  | none => n

/-- `visit_composed_file_blocks_from` over the blocks `[start, stop)`. -/
def visitComposedFileBlocksFrom {γ : Type} (e : Env) (inode : UInt64) (baseSize size start stop : Nat) (base : List (Except Errno Nat))
    (visit : γ → Nat → Except Errno (γ × Bool)) (acc : γ) : Op γ := do
  let j ← get
  match j.failure with
  | some error => throw error
  | none =>
    if inode = 0 ∨ stop < start then throw .EINVAL
    else
      let limit := min stop (divCeil size)
      if limit ≤ start then pure acc
      else
        let zeroFrom ← baseZeroFrom e inode baseSize
        let j ← get
        let invalidFrom := j.state.invalidCheckpointFrom.get? inode
        let baseLimit := boundedBy invalidFrom (boundedBy zeroFrom (min (divCeil (min baseSize size)) limit))
        let dirty := ((j.dirtyBlocks.filter fun entry => entry.1.inode = inode).map fun entry => entry.1.block.toNat).filter
          fun block => start ≤ block ∧ block < limit
        let tail := (j.state.blocks.entries.filter fun entry =>
          entry.1.inode = inode ∧ start ≤ entry.1.block.toNat ∧ entry.1.block.toNat < limit).map
            fun entry => (entry.1.block.toNat, entry.2.isSome)
        when j.checkpoint.isSome (request e)
        let indexed := match j.checkpoint with
          | none => []
          | some c => (c.entries.filter fun entry => entry.inode = inode ∧ start ≤ entry.block.toNat ∧ entry.block.toNat < limit).map
            fun entry => (entry.block.toNat, !entry.isTombstone && !invalidFrom.any fun invalidFrom => decide (invalidFrom ≤ entry.block))
        match advanceBase start baseLimit none base with
        | .error error => throw error
        | .ok (base, previousBase, rest) =>
          lift (visitSources visit start baseLimit ⟨dirty.mergeSort, tail, indexed, base, previousBase, rest⟩ acc)

/-- The base blocks from `start` on: those listed, or all of them. -/
def baseBlocksFrom (start : Nat) : Option (List Nat) → Nat → List (Except Errno Nat)
  | some blocks, _ => (blocks.filter fun block => start ≤ block).map .ok
  | none, count => (range' start count).map fun block => if block < 2 ^ 32 then .ok block else .error .EFBIG

def firstComposedFileBlock (e : Env) (inode : UInt64) (baseSize size : Nat) (baseBlocks : Option (List Nat)) (start stop : Nat) :
    Op (Option Nat) :=
  visitComposedFileBlocksFrom e inode baseSize size start stop (baseBlocksFrom start baseBlocks (stop - start + 1))
    (fun _ block => .ok (some block, false)) none

/-! ## Truncation -/

/-- The block a file is cut in, as it is after: none if the cut is between blocks or the block has no bytes. -/
def cutBlock (e : Env) (reader : Reader) (inode : UInt64) (baseSize oldSize newSize : Nat) (baseTailAllocated : Bool) :
    Op (List Mutation) :=
  let block := newSize / fileBlockBytes
  let remainder := newSize % fileBlockBytes
  if remainder = 0 then pure []
  else do
    let composed ← firstComposedFileBlock e inode baseSize oldSize (if baseTailAllocated then none else some []) block (block + 1)
    match composed with
    | none => pure []
    | some _ =>
      allocate e
      let read ← readFileAt e reader inode baseSize (block * fileBlockBytes) fileBlockBytes
      let bytes := read ++ zeros (fileBlockBytes - read.length)
      pure [putBlock (⟨inode, UInt64.ofNat block⟩, bytes.take remainder ++ zeros (fileBlockBytes - remainder))]

/-- The records of a truncation; those that hide the end of the file only when it shrinks. -/
def truncation (e : Env) (reader : Reader) (inode : UInt64) (baseSize oldSize newSize : Nat) (baseTailAllocated : Bool) :
    Op (List Mutation) := do
  allocate e
  if newSize < oldSize then
    let clearFrom := newSize / fileBlockBytes + if newSize % fileBlockBytes ≠ 0 then 1 else 0
    let cut ← cutBlock e reader inode baseSize oldSize newSize baseTailAllocated
    allocate e
    pure (.put (.fileZeroFrom inode) (leU64 (UInt64.ofNat clearFrom)) :: cut ++ [putSize (inode, UInt64.ofNat newSize)])
  else pure [putSize (inode, UInt64.ofNat newSize)]

def truncateFileAtWithBaseTail (e : Env) (reader : Reader) (inode : UInt64) (baseSize : Nat) (newSize : UInt64) (baseTailAllocated : Bool) :
    Op Unit := do
  let j ← get
  match j.failure with
  | some error => throw error
  | none =>
    let oldSize ← visibleFileSize e inode baseSize
    if newSize.toNat = oldSize then pure ()
    else
      allocate e
      let ms ← truncation e reader inode baseSize oldSize newSize.toNat baseTailAllocated
      commit e ms

def truncateFileAt (e : Env) (reader : Reader) (inode : UInt64) (baseSize : Nat) (newSize : UInt64) : Op Unit :=
  truncateFileAtWithBaseTail e reader inode baseSize newSize true

end OverlayJournal

end Kandelo.Overlay

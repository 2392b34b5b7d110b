/-
The part of a handle that recovery depends on (`Log`), and journals that open.

Every call changes that part only by committing transactions and by flushing: a predicate of it
that these two keep is kept by every call. `Replays` is a journal that is read to its last
byte; what `OverlayJournal::open` accepts is such a journal with a torn tail (`open_replays`).
-/
import Kandelo.Overlay.Commit

namespace Kandelo.Overlay

open List

/-- What recovery depends on. -/
structure Log where
  storage : Storage
  nextSequence : Nat
  journalEnd : Nat
  needsTailRepair : Bool
  failure : Option Errno
  issued : List (List Mutation)

namespace OverlayJournal

open Fallible

def log (j : OverlayJournal) : Log := ⟨j.storage, j.nextSequence, j.journalEnd, j.needsTailRepair, j.failure, j.issued⟩

/-! ## Calls change the log by commits and flushes -/

section Frame

variable {α : Type} {P : Log → Prop}

/-- A part that leaves the log as it is. -/
def KeepsLog (P : Log → Prop) (m : Op α) : Prop := Keeps (fun j => P j.log) m

theorem kept_of_log {m : Op α} (h : ∀ j, (m j).2.log = j.log) : KeepsLog P m := by
  intro j hj
  rw [h]
  exact hj

theorem kept_modify {f : OverlayJournal → OverlayJournal} (h : ∀ j, (f j).log = j.log) : KeepsLog P (modify f) := kept_of_log h

section

variable (e : Env)

theorem kept_allocate : KeepsLog P (allocate e) := kept_of_log fun j => by
  rw [allocate]
  split <;> rfl

theorem kept_request : KeepsLog P (request e) := kept_of_log fun j => by
  rw [request]
  split <;> rfl

theorem kept_readExactAt (offset length : Nat) : KeepsLog P (readExactAt e offset length) := by
  refine (kept_request e).bind fun _ => keeps_get.bind fun j => ?_
  split
  · exact .pure _
  · exact .throw _

theorem kept_checkActiveTailLimit : KeepsLog P checkActiveTailLimit := by
  refine keeps_get.bind fun j => ?_
  split
  · exact .pure _
  dsimp only
  split <;> split
  · exact .throw _
  · exact .pure _
  · exact .throw _
  · exact .pure _

theorem kept_readIndexedMetadata (entry : MetadataCheckpointEntry) : KeepsLog P (readIndexedMetadata e entry) := by
  rw [readIndexedMetadata]
  split
  · exact .pure _
  split
  · exact .throw _
  refine (kept_allocate e).bind fun _ => (kept_readExactAt e _ _).bind fun bytes => ?_
  split
  · split
    · exact .pure _
    · exact .throw _
  · exact .pure _

theorem kept_readIndexed (entry : Option MetadataCheckpointEntry) : KeepsLog P (readIndexed e entry) := by
  cases entry with
  | none => exact .pure _
  | some entry => exact (kept_readIndexedMetadata e entry).bind fun _ => .pure _

theorem kept_cacheMetadata (key : OverlayKey) (value : Option (Option Bytes)) : KeepsLog P (cacheMetadata e key value) := by
  refine keeps_get.bind fun j => ?_
  split
  · exact kept_modify fun _ => rfl
  refine .bind (kept_modify fun _ => rfl) fun _ => (kept_allocate e).bind fun _ => ?_
  split
  · exact .throw _
  · exact kept_modify fun _ => rfl

theorem kept_indexedMetadataValue (key : OverlayKey) : KeepsLog P (indexedMetadataValue e key) := by
  refine keeps_get.bind fun j => ?_
  split
  · exact .pure _
  split
  · exact .pure _
  split
  · exact (kept_allocate e).bind fun _ => .bind (kept_modify fun _ => rfl) fun _ => .pure _
  · exact (kept_request e).bind fun _ => (kept_readIndexed e _).bind fun value =>
      (kept_cacheMetadata e key value).bind fun _ => .pure _

theorem kept_metadataValue (key : OverlayKey) : KeepsLog P (metadataValue e key) := by
  rw [metadataValue]
  split
  · exact .throw _
  refine keeps_get.bind fun j => ?_
  split
  · exact kept_indexedMetadataValue e key
  refine ((kept_allocate e).when _).bind fun _ => ?_
  split
  · refine (kept_indexedMetadataValue e _).bind fun indexed => ?_
    split
    · rw [leastMarker]
      split
      · exact .pure _
      · exact .throw _
    · exact .pure _
  · exact .pure _

theorem kept_visibleFileSize (inode : UInt64) (baseSize : Nat) : KeepsLog P (visibleFileSize e inode baseSize) := by
  rw [visibleFileSize]
  split
  · exact .throw _
  refine keeps_get.bind fun j => ?_
  split
  · exact .pure _
  refine (kept_metadataValue e _).bind fun value => ?_
  split
  · split
    · exact .pure _
    · exact .throw _
  · exact .pure _

theorem kept_visibleZeroFrom (inode : UInt64) : KeepsLog P (visibleZeroFrom e inode) := by
  refine (kept_metadataValue e _).bind fun value => ?_
  split
  · split
    · exact .pure _
    · exact .throw _
  · exact .throw _
  · exact .pure _

theorem kept_blockLocation (id : BlockId) : KeepsLog P (blockLocation e id) := by
  refine keeps_get.bind fun j => ?_
  iterate 3 (split; · exact .pure _)
  · exact (kept_request e).bind fun _ => .pure _

theorem kept_readCachedBlock (id : BlockId) (location : BlockLocation) (within length : Nat) :
    KeepsLog P (readCachedBlock e id location within length) := by
  refine keeps_get.bind fun j => ?_
  split
  · exact .bind (kept_modify fun _ => rfl) fun _ => .pure _
  split
  · exact .bind (kept_modify fun _ => rfl) fun _ => .throw _
  refine .bind (kept_modify fun _ => rfl) fun _ => (kept_readExactAt e _ _).bind fun block => ?_
  split
  · exact .throw _
  · exact .bind (kept_modify fun _ => rfl) fun _ => .pure _

section

variable (reader : Reader)

theorem kept_readBase (position left : Nat) : KeepsLog P (readBase reader position left) := by
  fun_induction readBase reader position left with
  | case1 position => exact .pure _
  | case2 position left hleft ih =>
    refine keeps_get.bind fun j => .bind (kept_modify fun _ => rfl) fun _ => ?_
    iterate 2 (split; · exact .throw _)
    · rename_i bytes _ h
      exact (ih bytes h).bind fun _ => .pure _

section

variable (inode : UInt64)

theorem kept_readChunk (baseSize position length : Nat) : KeepsLog P (readChunk e reader inode baseSize position length) := by
  refine keeps_get.bind fun j => ?_
  split
  · exact .bind (kept_modify fun _ => rfl) fun _ => .pure _
  refine (kept_blockLocation e _).bind fun location => ?_
  split
  · exact kept_readCachedBlock e _ _ _ _
  · exact .pure _
  · exact (kept_visibleZeroFrom e _).bind fun _ => (kept_readBase reader _ _).bind fun _ => .pure _

theorem kept_readBlocks (baseSize position left : Nat) : KeepsLog P (readBlocks e reader inode baseSize position left) := by
  fun_induction readBlocks e reader inode baseSize position left with
  | case1 position => exact .pure _
  | case2 position left hleft ih => exact (kept_readChunk e reader inode baseSize _ _).bind fun _ => ih.bind fun _ => .pure _

theorem kept_readFileAt (baseSize offset length : Nat) : KeepsLog P (readFileAt e reader inode baseSize offset length) := by
  refine (kept_visibleFileSize e inode baseSize).bind fun size => ?_
  split
  · exact .pure _
  · exact kept_readBlocks e reader inode baseSize _ _

theorem kept_prepareBlocks (baseSize position : Nat) (src : Bytes) :
    KeepsLog P (prepareBlocks e reader inode baseSize position src) := by
  fun_induction prepareBlocks e reader inode baseSize position src with
  | case1 position => exact .pure _
  | case2 position src hsrc chunk ih =>
    refine (kept_allocate e).bind fun _ => .bind ?_ fun old => ih.bind fun _ => .pure _
    rw [oldBlock]
    split
    · exact (kept_readFileAt e reader inode baseSize _ _).bind fun _ => .pure _
    · exact .pure _

theorem kept_growsTo (fixedSize : Bool) (inode : UInt64) (baseSize stop : Nat) :
    KeepsLog P (growsTo e fixedSize inode baseSize stop) := by
  rw [growsTo]
  split
  · exact .pure _
  · exact (kept_visibleFileSize e inode baseSize).bind fun _ => .pure _

theorem kept_firstComposedFileBlock (baseSize size : Nat) (baseBlocks : Option (List Nat)) (start stop : Nat) :
    KeepsLog P (firstComposedFileBlock e inode baseSize size baseBlocks start stop) := by
  refine keeps_get.bind fun j => ?_
  split
  · exact .throw _
  split
  · exact .throw _
  dsimp only
  split
  · exact .pure _
  refine .bind ?_ fun zeroFrom => keeps_get.bind fun j => ((kept_request e).when _).bind fun _ => ?_
  · rw [baseZeroFrom]
    split
    · exact .pure _
    · exact kept_visibleZeroFrom e inode
  · split
    · exact .throw _
    · exact fun _ h => h

theorem kept_truncation (baseSize oldSize newSize : Nat) (allocated : Bool) :
    KeepsLog P (truncation e reader inode baseSize oldSize newSize allocated) := by
  refine (kept_allocate e).bind fun _ => ?_
  split
  · refine .bind ?_ fun _ => (kept_allocate e).bind fun _ => .pure _
    rw [cutBlock]
    split
    · exact .pure _
    refine (kept_firstComposedFileBlock e inode baseSize oldSize _ _ _).bind fun composed => ?_
    split
    · exact .pure _
    · exact (kept_allocate e).bind fun _ => (kept_readFileAt e reader inode baseSize _ _).bind fun _ => .pure _
  · exact .pure _

end

end

end

theorem log_bufferBlocks (prepared : List (BlockId × Bytes)) : ∀ j : OverlayJournal, (prepared.foldl bufferBlock j).log = j.log := by
  induction prepared with
  | nil => exact fun _ => rfl
  | cons entry prepared ih => exact fun j => ih (bufferBlock j entry)

variable {e : Env} (hcommit : ∀ ms, KeepsLog P (commitTransactionInternal e ms))
include hcommit

theorem kept_flushDirty : KeepsLog P (flushDirty e) := by
  refine keeps_get.bind fun j => ?_
  split
  · exact .pure _
  · exact (kept_allocate e).bind fun _ => (hcommit _).bind fun _ => kept_modify fun _ => rfl

theorem kept_commit (ms : List Mutation) : KeepsLog P (commit e ms) := by
  refine keeps_get.bind fun j => ?_
  split
  · exact .throw _
  split
  · exact kept_flushDirty hcommit
  · exact kept_checkActiveTailLimit.bind fun _ => (kept_flushDirty hcommit).bind fun _ =>
      kept_checkActiveTailLimit.bind fun _ => hcommit ms

theorem kept_evictBlocks (prepared : List (BlockId × Bytes)) : KeepsLog P (evictBlocks e prepared) := by
  refine keeps_get.bind fun j => ?_
  dsimp only
  split
  · exact .pure _
  refine (kept_allocate e).bind fun _ => ?_
  split
  · exact .throw _
  · exact (kept_allocate e).bind fun _ => (hcommit _).bind fun _ => kept_modify fun _ => rfl

section

variable (reader : Reader)

theorem kept_writeBufferedFileChunk (fixedSize : Bool) (inode : UInt64) (baseSize offset : Nat) (src : Bytes) :
    KeepsLog P (writeBufferedFileChunk e reader fixedSize inode baseSize offset src) := by
  refine (kept_allocate e).bind fun _ => kept_checkActiveTailLimit.bind fun _ =>
    (kept_growsTo e fixedSize inode baseSize _).bind fun grows => keeps_get.bind fun j =>
    ((kept_flushDirty hcommit).when _).bind fun _ => (kept_allocate e).bind fun _ =>
    (kept_prepareBlocks e reader inode baseSize offset src).bind fun prepared =>
    (kept_evictBlocks hcommit prepared).bind fun _ => (kept_allocate e).bind fun _ => .bind ?_ fun _ =>
    .bind (.when ?_ grows) fun _ => .pure _
  · exact kept_modify (log_bufferBlocks prepared)
  · exact kept_modify fun _ => rfl

theorem kept_writePieces (fixedSize : Bool) (inode : UInt64) (baseSize position : Nat) (src : Bytes) (done : Nat) :
    KeepsLog P (writePieces e reader fixedSize inode baseSize position src done) := by
  fun_induction writePieces e reader fixedSize inode baseSize position src done with
  | case1 position done => exact .pure _
  | case2 position src done hsrc piece ih =>
    refine .bind (.onError ?_ fun error => ?_) fun written => ?_
    · exact kept_checkActiveTailLimit.bind fun _ => (kept_writeBufferedFileChunk hcommit reader fixedSize inode baseSize _ _).bind
        fun _ => .pure _
    · split
      · exact .pure _
      · exact .throw _
    · split
      · exact .pure _
      · exact ih _

theorem kept_writeBufferedFileAt (fixedSize : Bool) (inode : UInt64) (baseSize offset : Nat) (src : Bytes) :
    KeepsLog P (writeBufferedFileAt e reader fixedSize inode baseSize offset src) := by
  refine keeps_get.bind fun j => ?_
  split
  · exact .throw _
  split
  · exact .pure _
  refine kept_checkActiveTailLimit.bind fun _ => ?_
  split
  · exact .throw _
  split
  · exact .throw _
  split
  · exact kept_writePieces hcommit reader fixedSize inode baseSize _ _ _
  · exact kept_writeBufferedFileChunk hcommit reader fixedSize inode baseSize _ _

theorem kept_writeFileAt (inode : UInt64) (baseSize offset : Nat) (src : Bytes) :
    KeepsLog P (writeFileAt e reader inode baseSize offset src) := by
  refine keeps_get.bind fun j => ?_
  split
  · exact .throw _
  refine (kept_visibleFileSize e inode baseSize).bind fun size => ?_
  split
  · exact .pure _
  dsimp only
  split
  · exact .throw _
  split
  · exact .throw _
  · exact (kept_allocate e).bind fun _ => (kept_prepareBlocks e reader inode baseSize offset src).bind fun _ =>
      ((kept_allocate e).when _).bind fun _ => (kept_commit hcommit _).bind fun _ => .pure _

theorem kept_truncateFileAtWithBaseTail (inode : UInt64) (baseSize : Nat) (newSize : UInt64) (allocated : Bool) :
    KeepsLog P (truncateFileAtWithBaseTail e reader inode baseSize newSize allocated) := by
  refine keeps_get.bind fun j => ?_
  split
  · exact .throw _
  refine (kept_visibleFileSize e inode baseSize).bind fun size => ?_
  split
  · exact .pure _
  · exact (kept_allocate e).bind fun _ => (kept_truncation e reader inode baseSize _ _ _).bind fun ms => kept_commit hcommit ms

end

theorem kept_sync (hflush : ∀ j : OverlayJournal, j.failure = none → P j.log → P (flush e j).2.log) : KeepsLog P (sync e) := by
  refine keeps_get_bind fun j hj => ?_
  cases hfailure : j.failure with
  | some error => exact hj
  | none =>
    split
    · exact hflush j hfailure hj
    · exact kept_flushDirty hcommit j hj

end Frame

/-! ## Journals that open -/

/-- A journal that is read to its last byte. -/
structure Replays (sha : Digest) (base journal : Bytes) (next : Nat) (s : OverlayState) : Prop where
  length : headerBytes ≤ journal.length
  header : readOverlayHeader sha journal base = .ok ()
  replayed : replay sha (replayAll true false) (journal.drop headerBytes) headerBytes 1 (OverlayState.default, ()) =
    .ok (journal.length, next, (s, ()))

section Replays

variable {sha : Digest} {base journal : Bytes} {next : Nat} {s : OverlayState}

theorem readOverlayHeader_append (h : headerBytes ≤ journal.length) (tail : Bytes) :
    readOverlayHeader sha (journal ++ tail) base = readOverlayHeader sha journal base := by
  rw [readOverlayHeader, readOverlayHeader, take_append_of_le_length h]

section

variable (h : Replays sha base journal next s)

include h

theorem Replays.stop_eq : headerBytes + (journal.drop headerBytes).length = journal.length := by
  have := h.length
  rw [length_drop]
  omega

/-- The replay goes on behind the journal. -/
theorem Replays.replay_append (tail : Bytes) :
    replay sha (replayAll true false) ((journal ++ tail).drop headerBytes) headerBytes 1 (OverlayState.default, ()) =
      replay sha (replayAll true false) tail journal.length next (s, ()) := by
  have hreplayed := h.replayed
  rw [← h.stop_eq] at hreplayed
  rw [drop_append_of_le_length h.length, Overlay.replay_append hreplayed, h.stop_eq]

theorem Replays.append {ms : List Mutation} {t : Bytes} (hencode : encodeTransaction sha next ms = .ok t)
    (hnext : next + 1 < 2 ^ 64) : Replays sha base (journal ++ t) (next + 1) (applyMutations sha false journal.length 0 s ms) where
  length := le_trans h.length (by rw [length_append]; omega)
  header := by rw [readOverlayHeader_append h.length, h.header]
  replayed := by
    obtain ⟨-, hlength, -⟩ := encodeTransaction_ok hencode
    have hstep := replay_encode hencode hnext true false [] journal.length s
    rw [append_nil] at hstep
    rw [h.replay_append, hstep, replay, if_pos rfl, length_append, hlength]

/-- Such a journal with a torn tail opens. -/
theorem Replays.opens {tail : Bytes} (htail : Torn tail) :
    openJournal sha (journal ++ tail) base = .ok (openedHandle (journal ++ tail) base none s next journal.length) := by
  have hlength : headerBytes ≤ (journal ++ tail).length := le_trans h.length (by rw [length_append]; omega)
  have hne : ¬journal ++ tail = [] := by
    intro hnil
    rw [hnil] at hlength
    exact absurd hlength (by decide)
  have hreplay := h.replay_append tail
  rw [replay_torn htail rfl] at hreplay
  simp only [openJournal, openInternal, hne, false_and, if_false, Option.isSome_none]
  rw [if_neg (Nat.not_lt.mpr hlength), readOverlayHeader_append h.length, h.header]
  simp only [replayTransactions, take_length, hreplay]

end

/-- What opens is such a journal with a torn tail. -/
theorem open_replays {stored : Bytes} {j : OverlayJournal} (h : openJournal sha stored base = .ok j) :
    ∃ journal tail, Replays sha base journal j.nextSequence j.state ∧ Torn tail ∧
      j = openedHandle (journal ++ tail) base none j.state j.nextSequence journal.length := by
  simp only [openJournal, openInternal, Option.isSome_none, Bool.false_eq_true, and_false, if_false] at h
  generalize (if stored = [] then journalHeader sha base else stored) = bytes at h
  split at h
  · cases h
  split at h
  · cases h
  rename_i hheader
  split at h
  · cases h
  rename_i stop next state hreplay
  cases h
  rw [replayTransactions, take_length] at hreplay
  obtain ⟨taken, tail, hbytes, hstop, htaken, htail⟩ := replay_ok hreplay
  have hfull : bytes = bytes.take headerBytes ++ taken ++ tail := by
    rw [append_assoc, ← hbytes, take_append_drop]
  have hfront : (bytes.take headerBytes).length = headerBytes := by
    rw [length_take]
    omega
  have hjournal : (bytes.take headerBytes ++ taken).length = stop := by
    rw [length_append, hfront, hstop]
  refine ⟨bytes.take headerBytes ++ taken, tail, ⟨?_, ?_, ?_⟩, ?_, ?_⟩
  · omega
  · rw [hfull, readOverlayHeader_append (by rw [length_append, hfront]; omega)] at hheader
    exact hheader
  · rw [drop_left' hfront, hjournal]
    exact htaken
  · by_cases hnil : tail = []
    · rw [hnil]
      exact torn_nil
    · exact htail hnil
  · rw [← hfull, hjournal]
    rfl

/-- A new journal is its header. -/
theorem journalHeaderBaseDigest_header (sha : Digest) {base : Bytes} (h : base.length = 32) :
    (journalHeader sha base).length = headerBytes ∧ journalHeaderBaseDigest sha (journalHeader sha base) = .ok base := by
  have hfront : (journalMagic ++ Wire.leBytes 4 1 ++ base).length = 40 := by
    simp [journalMagic, h]
  have hlength : (journalHeader sha base).length = headerBytes := by
    rw [journalHeader, length_append, hfront, sha.length_hash]
    rfl
  have hassoc : journalHeader sha base =
    journalMagic ++ (Wire.leBytes 4 1 ++ (base ++ sha.hash (journalMagic ++ Wire.leBytes 4 1 ++ base))) := by
    simp [journalHeader]
  have hmagic : (journalHeader sha base).take 4 = journalMagic := by
    rw [hassoc]
    exact take_left' rfl
  have hversion : u32At (journalHeader sha base) 4 = 1 := by
    rfl
  have htake : (journalHeader sha base).take 40 = journalMagic ++ Wire.leBytes 4 1 ++ base := take_left' hfront
  have hdrop : (journalHeader sha base).drop 40 = sha.hash (journalMagic ++ Wire.leBytes 4 1 ++ base) := drop_left' hfront
  have hbase : slice (journalHeader sha base) 8 32 = base := by
    rw [slice, hassoc, ← append_assoc]
    exact slice_middle (by simp [journalMagic]) h _
  refine ⟨hlength, ?_⟩
  rw [journalHeaderBaseDigest, hlength, hmagic, hversion, htake, hdrop, hbase, if_neg (by simp)]

theorem replays_header (sha : Digest) {base : Bytes} (h : base.length = 32) :
    Replays sha base (journalHeader sha base) 1 OverlayState.default := by
  obtain ⟨hlength, hdigest⟩ := journalHeaderBaseDigest_header sha h
  refine ⟨le_of_eq hlength.symm, ?_, ?_⟩
  · rw [readOverlayHeader, take_of_length_le (le_of_eq hlength), hdigest]
    simp
  · rw [drop_of_length_le (le_of_eq hlength), replay, if_pos rfl, hlength]

theorem openJournal_nil (sha : Digest) {base : Bytes} (h : base.length = 32) :
    openJournal sha [] base = .ok (openedHandle (journalHeader sha base) base none OverlayState.default 1 headerBytes) := by
  have hopens := (replays_header sha h).opens torn_nil
  have hlength := (journalHeaderBaseDigest_header sha h).1
  have hne : ¬journalHeader sha base = [] := by
    intro hnil
    rw [hnil] at hlength
    exact absurd hlength (by decide)
  rw [append_nil, hlength] at hopens
  rw [← hopens]
  simp [openJournal, openInternal, hne]

end Replays

end OverlayJournal

end Kandelo.Overlay

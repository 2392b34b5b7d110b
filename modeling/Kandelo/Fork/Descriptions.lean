/-
Open file descriptions in a fork record: the identity and position come back as they
were, the device state without what stays with the parent (the GL session, the KMS lease,
its cursor and events). `Readable` is what the decoder asks of a description; nothing
makes the encoder ask it too.
-/
import Kandelo.Fork.Parts

namespace Kandelo.Fork

open Fd Memory Signal Process Wire List Nat Carries

/-! ## Identity -/

theorem carries_fileId (fileId : Option FileId) : Carries 0 (writeFileId fileId) readFileId True True fileId := by
  have hkernel (kind : KernelFileKind) (objectId : UInt64) :
      Carries 0 (writeU64 objectId) (readKernelFileId kind) True True (some (.kernel kind objectId)) :=
    ((u64 objectId).last _).least (zero_le _)
  cases fileId with
  | none => exact ((u8 0).finish (.done none)).least (zero_le _)
  | some fileId =>
    cases fileId with
    | host dev ino =>
      exact (u8 1).next ((u64 dev).next (((u64 ino).last _).least (zero_le _)))
    | kernel kind objectId =>
      cases kind with
      | memFd => exact (u8 2).next (hkernel .memFd objectId)
      | syntheticRegular => exact (u8 3).next (hkernel .syntheticRegular objectId)
      | procFsRegular => exact (u8 4).next (hkernel .procFsRegular objectId)

theorem u32ToFileType_fileTypeToU32 (fileType : FileType) : u32ToFileType (fileTypeToU32 fileType) = .ok fileType := by
  cases fileType <;> rfl

/-! ## Maps -/

variable {V : Type}

/-- A key above all others goes to the end. -/
theorem insert_entries_last {m : OrdMap UInt32 V} {k : UInt32} {v : V}
    (h : ∀ e ∈ m.entries, compare e.1 k = .lt) : (m.insert k v).entries = m.entries ++ [(k, v)] := by
  obtain ⟨es, hs⟩ := m
  change OrdMap.insertEntries k v es = es ++ [(k, v)]
  replace h : ∀ e ∈ es, compare e.1 k = .lt := h
  clear hs
  induction es with
  | nil => rfl
  | cons e es ih =>
    have he := h e mem_cons_self
    rw [OrdMap.insertEntries, Std.OrientedCmp.gt_of_lt he, ih fun x hx => h x (mem_cons_of_mem e hx), cons_append]

theorem not_contains_of_lt {m : OrdMap UInt32 V} {k : UInt32} (h : ∀ e ∈ m.entries, compare e.1 k = .lt) : m.contains k = false := by
  rw [Bool.eq_false_iff]
  intro hsome
  obtain ⟨e, he, rfl⟩ := mem_map.mp (OrdMap.isSome_get?_iff.mp hsome)
  have := h e he
  rw [Std.ReflOrd.compare_self] at this
  cases this

/-- The entries of a map, read back in order, are the map. -/
theorem carries_map {put : UInt32 × V → Encoder} {entry : Decoder (UInt32 × V)}
    (hentry : ∀ e, Carries 0 (put e) entry True True e) (m : OrdMap UInt32 V) :
    Carries 0 (putEach put m.entries) (loop (readMapEntry entry) m.entries.length OrdMap.empty) True (∀ e ∈ m.entries, e.1 ≠ 0) m := by
  -- what is read so far stands before what is left
  let I : OrdMap UInt32 V → List (UInt32 × V) → Prop := fun read rest => read.entries ++ rest = m.entries
  have hbefore : ∀ read e rest, I read (e :: rest) → ∀ x ∈ read.entries, compare x.1 e.1 = .lt := by
    intro read e rest hI x hx
    have hsorted := m.sorted
    rw [← hI, pairwise_append] at hsorted
    exact hsorted.2.2 x hx e mem_cons_self
  have hstep : ∀ read e rest, I read (e :: rest) →
      Carries 0 (put e) (readMapEntry entry read) True (e.1 ≠ 0) (read.insert e.1 e.2) ∧ I (read.insert e.1 e.2) rest := by
    intro read e rest hI
    refine ⟨?_, ?_⟩
    · have hnew := not_contains_of_lt (hbefore read e rest hI)
      refine ((hentry e).tail (e := e.1 ≠ 0) ?_).congr Iff.rfl fun _ => iff_of_eq (true_and _)
      refine ((done (read.insert e.1 e.2)).require.allocate.require).congr Iff.rfl fun _ => ?_
      rw [hnew]
      simp
    · change _ ++ rest = m.entries
      rw [insert_entries_last (hbefore read e rest hI), append_assoc]
      exact hI
  have hloop := loop (fun read e => read.insert e.1 e.2) m.entries hstep (s := OrdMap.empty) rfl
  have hall : ∀ (rest : List (UInt32 × V)) (read : OrdMap UInt32 V), I read rest →
      (rest.foldl (fun read e => read.insert e.1 e.2) read).entries = m.entries := by
    intro rest
    induction rest with
    | nil =>
      intro read hI
      rw [← hI, append_nil]
      rfl
    | cons e rest ih => exact fun read hI => ih _ (hstep read e rest hI).2
  have hvalue : m.entries.foldl (fun read e => read.insert e.1 e.2) .empty = m := by
    have hentries := hall m.entries OrdMap.empty rfl
    cases m
    generalize hfold : List.foldl _ _ _ = folded at hentries ⊢
    cases folded
    cases hentries
    rfl
  rw [hvalue] at hloop
  exact hloop.written.least (zero_le _)

/-! ## Device state -/

def DriFdState.Readable (dri : DriFdState) : Prop :=
  dri.handles.entries.length ≤ 65536 ∧ (∀ e ∈ dri.handles.entries, e.1 ≠ 0) ∧
    dri.nextHandle ≠ 0 ∧ ∀ e ∈ dri.handles.entries, e.1 < dri.nextHandle

/-- The GL session stays with the parent. -/
def DriFdState.child (dri : DriFdState) : DriFdState := { dri with gl := none }

theorem carries_handle (e : UInt32 × UInt32) : Carries 0 (writeHandle e) readHandle True True e :=
  (u32 _).next (((u32 _).last _).least (zero_le _))

theorem carries_driFd {dri : DriFdState} (h : dri.handles.entries.length < 2 ^ 32) :
    Carries 0 (writeDriFdState dri) readDriFdState True dri.Readable dri.child := by
  refine (boundedCount h 65536).after ?_
  refine ((carries_map carries_handle dri.handles).least (zero_le _)).after ?_
  refine (((u32 _).tail (done dri.child).require).congr Iff.rfl fun _ => ?_).least (zero_le _)
  simp

def KmsFdState.Readable (kms : KmsFdState) : Prop :=
  kms.fbs.entries.length ≤ 65536 ∧ (∀ e ∈ kms.fbs.entries, e.1 ≠ 0) ∧ (∀ e ∈ kms.fbs.entries, e.1 ≤ kms.nextFbId) ∧
    kms.pendingFlips.length ≤ 65536

/-- The lease, the cursor and the events stay with the parent. -/
def KmsFdState.child (kms : KmsFdState) : KmsFdState := { kms with holdsMaster := false, cursorBo := none, eventRing := [] }

theorem carries_fb (e : UInt32 × KmsFb) : Carries 0 (writeFb e) readFb True True e := by
  refine (u32 _).next ((u32 _).next ((u32 _).next ((u32 _).next ?_)))
  exact (u32 _).next (((u32 _).last _).least (zero_le _))

theorem carries_flip (flip : PendingFlip) : Carries 0 (writeFlip flip) readFlip True True flip :=
  (u32 _).next ((u32 _).next (((u64 _).last _).least (zero_le _)))

theorem carries_kmsFd {kms : KmsFdState} (hfbs : kms.fbs.entries.length < 2 ^ 32) (hflips : kms.pendingFlips.length < 2 ^ 32) :
    Carries 0 (writeKmsFdState kms) readKmsFdState True kms.Readable kms.child := by
  have hall := (same fun flip (_ : flip ∈ kms.pendingFlips) => carries_flip flip).written
  refine (u8 0).next ((u32 0).next ?_)
  refine (boundedCount hfbs 65536).after ?_
  refine ((carries_map carries_fb kms.fbs).least (zero_le _)).after ?_
  refine (u32 _).next ?_
  refine .congr (.require ?_) Iff.rfl fun _ => and_congr_left fun _ => ?_
  · refine .congr ((boundedCount hflips 65536).after ?_) Iff.rfl fun _ => iff_of_eq (and_true _)
    exact ((hall.finish (done kms.child).allocate).allocate).least (zero_le _)
  · simp

def DriOfdState.Readable : DriOfdState → Prop
  | .primeBo _ _ => True
  | .renderNode dri => dri.Readable
  | .card dri kms => dri.Readable ∧ kms.Readable

def DriOfdState.child : DriOfdState → DriOfdState
  | .primeBo boId cookie => .primeBo boId cookie
  | .renderNode dri => .renderNode dri.child
  | .card dri kms => .card dri.child kms.child

/-- The lengths are those of a 32-bit address space. -/
def DriOfdState.Narrow : DriOfdState → Prop
  | .primeBo _ _ => True
  | .renderNode dri => dri.handles.entries.length < 2 ^ 32
  | .card dri kms =>
    dri.handles.entries.length < 2 ^ 32 ∧ kms.fbs.entries.length < 2 ^ 32 ∧ kms.pendingFlips.length < 2 ^ 32

theorem carries_dri (state : Option DriOfdState) (h : ∀ dri ∈ state, dri.Narrow) :
    Carries 0 (writeDriState state) readDriState True (∀ dri ∈ state, dri.Readable) (state.map DriOfdState.child) := by
  cases state with
  | none =>
    simp only [Option.not_mem_none, false_implies, implies_true]
    exact ((u8 0).finish (.done none)).least (zero_le _)
  | some state =>
    have hstate := h state rfl
    simp only [Option.mem_def, Option.some.injEq, forall_eq']
    cases state with
    | primeBo boId cookie =>
      refine (u8 3).next ((u32 boId).next ?_)
      exact ((u64 cookie).finish (done (some (DriOfdState.primeBo boId cookie))).allocate).least (zero_le _)
    | renderNode dri =>
      refine (u8 1).next ?_
      exact ((carries_driFd hstate).finish (done (some (DriOfdState.renderNode dri.child))).allocate).least (zero_le _)
    | card dri kms =>
      refine (u8 2).next ((carries_driFd hstate.1).after ?_)
      exact ((carries_kmsFd hstate.2.1 hstate.2.2).finish (done (some (DriOfdState.card dri.child kms.child))).allocate).least
        (zero_le _)

/-- Whole records, and no more than the ring holds. -/
def InputFdState.Readable (input : InputFdState) : Prop :=
  input.eventRing.length ≤ inputRingMaxBytes ∧ input.eventRing.length % 24 = 0

theorem carries_input (state : Option InputFdState) (h : ∀ input ∈ state, input.eventRing.length < 2 ^ 32) :
    Carries 0 (writeInputState state) readInputState True (∀ input ∈ state, input.Readable) state := by
  cases state with
  | none =>
    simp only [Option.not_mem_none, false_implies, implies_true]
    exact ((u8 0).finish (.done none)).least (zero_le _)
  | some input =>
    have hall := (same fun b (_ : b ∈ input.eventRing) => u8 b).written
    have hdropped : decide ((if input.dropped then (1 : UInt8) else 0) ≠ 0) = input.dropped := by cases input.dropped <;> rfl
    simp only [Option.mem_def, Option.some.injEq, forall_eq']
    refine (u8 1).next ((u8 _).next ((u8 _).next ((small (h input rfl)).next ?_)))
    rw [hdropped]
    refine .congr (.require (d := True) ?_) Iff.rfl fun _ => ?_
    · exact ((hall.finish (done (some input)).allocate.allocate).allocate).least (zero_le _)
    · rw [and_true, decide_eq_true_iff]
      rfl

/-! ## The table -/

namespace OfdTable

/-- Nothing is at `index`. -/
def Vacant (t : OfdTable) (index : Nat) : Prop := ∀ slot, t.entries.values[index]? = some slot → slot = .free

theorem reserve_provided {storage : Storage} (hs : FdTable.Provides storage) (b : IoBuffer OfdSlot) (length : Nat) :
    ∃ b', reserve b storage length = .ok b' := by
  rw [reserve]
  split
  · exact ⟨_, rfl⟩
  obtain ⟨actual, hactual, hle⟩ := hs (max (max length (b.capacity * 2)) 4)
  have hreserve : ∃ b', b.reserveWith (max (max length (b.capacity * 2)) 4) storage = .ok b' := by
    rw [IoBuffer.reserveWith]
    split
    · exact ⟨_, rfl⟩
    rw [hactual]
    dsimp only
    rw [dif_neg (not_lt.mpr hle)]
    exact ⟨_, rfl⟩
  obtain ⟨b', hb'⟩ := hreserve
  rw [hb']
  exact ⟨_, rfl⟩

theorem getElem?_grown {b : IoBuffer OfdSlot} {length : Nat} (h : max length b.values.length ≤ b.capacity) (i : Nat) :
    (b.resize (max length b.values.length) .free h).values[i]? =
      if i < b.values.length then b.values[i]? else if i < length then some .free else none := by
  have htake : b.values.take (max length b.values.length) = b.values := take_of_length_le (le_max_right _ _)
  change (b.values.take _ ++ List.replicate _ _)[i]? = _
  rw [htake]
  by_cases hi : i < b.values.length
  · rw [if_pos hi, getElem?_append_left hi]
  rw [if_neg hi, getElem?_append_right (Nat.le_of_not_lt hi), getElem?_replicate]
  by_cases hl : i < length
  · rw [if_pos hl, if_pos (by omega)]
  · rw [if_neg hl, if_neg (by omega)]

/-- A description is put where nothing is, and nothing else changes. -/
theorem restoreEntry_provided {storage : Storage} (hs : FdTable.Provides storage) {t : OfdTable} {index : Nat}
    (hindex : index + 1 ≤ Usize.wasm32.max) (hfree : t.Vacant index) (ofd : OpenFileDesc) :
    ∃ t', t.restoreEntry storage index ofd = .ok t' ∧ t'.get index = some ofd ∧
      ∀ i, i ≠ index → t'.get i = t.get i ∧ (t.Vacant i → t'.Vacant i) := by
  obtain ⟨⟨b, hvalues, hb⟩, hreserve⟩ := reserve_provided hs t.entries (index + 1)
  rw [restoreEntry, if_neg (Nat.not_lt.mpr hindex), hreserve]
  dsimp only
  have hgrown := getElem?_grown (b := b) (Nat.max_le.mpr ⟨hb, b.len_le⟩)
  generalize hg : b.resize (max (index + 1) b.values.length) .free _ = grown at hgrown ⊢
  have hslot : grown.values[index]? = some .free := by
    rw [hgrown]
    by_cases hi : index < b.values.length
    · rw [getElem?_eq_getElem hi]
      rw [hvalues] at hi
      have := hfree _ (getElem?_eq_getElem hi)
      simp [hvalues, this]
    · rw [if_neg hi, if_pos (Nat.lt_succ_self index)]
  have hlt : index < grown.values.length := (List.getElem?_eq_some_iff.mp hslot).1
  rw [hslot]
  refine ⟨_, rfl, ?_, fun i hi => ?_⟩
  · simp [get, IoBuffer.set, getElem?_set_self hlt]
  have hother : (grown.set index (.opened ofd)).values[i]? = grown.values[i]? := getElem?_set_ne (Ne.symm hi)
  have hsame : t.entries.values[i]? = none ∧ (grown.values[i]? = some .free ∨ grown.values[i]? = none) ∨
      grown.values[i]? = t.entries.values[i]? := by
    rw [hgrown]
    by_cases hlen : i < b.values.length
    · exact .inr (by rw [if_pos hlen, hvalues])
    refine .inl ⟨getElem?_eq_none (by rw [← hvalues]; exact Nat.le_of_not_lt hlen), ?_⟩
    rw [if_neg hlen]
    split
    · exact .inl rfl
    · exact .inr rfl
  rcases hsame with ⟨hnone, hsome | hsome⟩ | hsame
  · refine ⟨by simp [get, hother, hsome, hnone], fun _ slot hslot' => ?_⟩
    rw [hother, hsome] at hslot'
    exact (Option.some.inj hslot').symm
  · refine ⟨by simp [get, hother, hsome, hnone], fun _ slot hslot' => ?_⟩
    rw [hother, hsome] at hslot'
    cases hslot'
  · refine ⟨by simp [get, hother, hsame], fun hv slot hslot' => hv slot ?_⟩
    rwa [hother, hsame] at hslot'

end OfdTable

/-! ## A description -/

namespace OpenFileDesc

/-- What the decoder asks of a description. -/
structure Readable (ofd : OpenFileDesc) : Prop where
  id : ofd.ofdId ≠ 0
  position : ¬(ofd.fileType = .directory ∧ ofd.offset < 0)
  path : ofd.path.length ≤ maxPathLen
  dri : ∀ dri ∈ ofd.driState, dri.Readable
  input : ∀ input ∈ ofd.inputState, input.Readable

structure Narrow (ofd : OpenFileDesc) : Prop where
  path : ofd.path.length < 2 ^ 32
  dri : ∀ dri ∈ ofd.driState, dri.Narrow
  input : ∀ input ∈ ofd.inputState, input.eventRing.length < 2 ^ 32

/-- The description the child `pid` has for the parent's. -/
def child (ofd : OpenFileDesc) (pid refCount : UInt32) : OpenFileDesc :=
  resetDirectoryIteratorForReopen { ofd with
    ownerPid := pid
    refCount := refCount
    driState := ofd.driState.map DriOfdState.child
    dirHostHandle := -1
    dirSynthState := 0
    dirEntryOffset := 0
    dirPositionGeneration := 0
    dirPendingEntry := none }

end OpenFileDesc

/-- The table with one more of the parent's descriptions. -/
def restoreOfd (pid : UInt32) (storage : Storage) (refs : List (Nat × UInt32)) (t : OfdTable) (e : Nat × OpenFileDesc) : OfdTable :=
  match t.restoreEntry storage e.1 (e.2.child pid (refsOf refs e.1)) with
  | .ok t' => t'
  | .error _ => t

variable {pid : UInt32} {storage : Storage}

theorem carries_ofd (hs : FdTable.Provides storage) (refs : List (Nat × UInt32)) {e : Nat × OpenFileDesc}
    (hindex : e.1 + 1 ≤ Usize.wasm32.max) (hnarrow : e.2.Narrow) {t : OfdTable} (hfree : t.Vacant e.1) :
    Carries 0 (writeOfd refs e) (readOfd pid storage t) True e.2.Readable (restoreOfd pid storage refs t e) := by
  obtain ⟨t', hrestore, -, -⟩ := OfdTable.restoreEntry_provided hs hindex hfree (e.2.child pid (refsOf refs e.1))
  have hvalue : restoreOfd pid storage refs t e = t' := by rw [restoreOfd, hrestore]
  have hmax : Usize.wasm32.max = 2 ^ 32 - 1 := rfl
  rw [hvalue]
  unfold writeOfd readOfd readOfdBody
  simp only [bind_assoc]
  refine (small (by omega)).next ?_
  refine .congr (d := e.2.ofdId ≠ 0 ∧ ¬(e.2.fileType = .directory ∧ e.2.offset < 0) ∧ e.2.path.length ≤ maxPathLen ∧
    (∀ dri ∈ e.2.driState, dri.Readable) ∧ ∀ input ∈ e.2.inputState, input.Readable) ?_ Iff.rfl
    fun _ => ⟨fun ⟨h1, h2, h3, h4, h5⟩ => ⟨h1, h2, h3, h4, h5⟩, fun ⟨h1, h2, h3, h4, h5⟩ => ⟨h1, h2, h3, h4, h5⟩⟩
  refine (u64 _).next ?_
  refine .congr (.require ?_) Iff.rfl fun _ => and_congr_left fun _ => decide_eq_true_iff
  refine (carries_fileId _).next ((u32 _).next ?_)
  rw [u32ToFileType_fileTypeToU32, lift, pure_bind]
  refine (u32 _).next ((i64 _).next ((i64 _).next ?_))
  refine .congr (.require ?_) Iff.rfl fun _ => and_congr_left fun _ => ?_
  · refine (u32 _).next ((carries_string hnarrow.path maxPathLen).after ?_)
    refine ((carries_dri _ hnarrow.dri).after ?_)
    refine ((carries_input _ hnarrow.input).finish (.allocate ?_)).least (zero_le _)
    change Carries 0 (pure ()) (lift (t.restoreEntry storage e.1 (e.2.child pid (refsOf refs e.1)))) True True t'
    rw [hrestore]
    exact .done t'
  · rw [Bool.not_eq_true', decide_eq_false_iff_not]

variable {ofds : List (Nat × OpenFileDesc)}

theorem carries_ofds (pid : UInt32) (hs : FdTable.Provides storage) (refs : List (Nat × UInt32))
    (hindex : ∀ e ∈ ofds, e.1 + 1 ≤ Usize.wasm32.max) (hnarrow : ∀ e ∈ ofds, e.2.Narrow)
    (hdistinct : (ofds.map (·.1)).Nodup) (hcount : ofds.length < 2 ^ 32) (hrefs : refs.length = ofds.length) :
    Carries 0 (writeOfds refs ofds) (readOfdTable pid storage) True
      (ofds.length ≤ maxOfds ∧ ∀ e ∈ ofds, e.2.Readable) (ofds.foldl (restoreOfd pid storage refs) OfdTable.new) := by
  have hstep : ∀ (t : OfdTable) (e : Nat × OpenFileDesc) (rest : List (Nat × OpenFileDesc)),
      (∀ y ∈ e :: rest, y ∈ ofds ∧ t.Vacant y.1) ∧ ((e :: rest).map (·.1)).Nodup →
      Carries 0 (writeOfd refs e) (readOfd pid storage t) True e.2.Readable (restoreOfd pid storage refs t e) ∧
        (∀ y ∈ rest, y ∈ ofds ∧ (restoreOfd pid storage refs t e).Vacant y.1) ∧ (rest.map (·.1)).Nodup := by
    intro t e rest hI
    obtain ⟨hin, hfree⟩ := hI.1 e mem_cons_self
    obtain ⟨hnew, hrest⟩ := nodup_cons.mp hI.2
    refine ⟨carries_ofd hs refs (hindex e hin) (hnarrow e hin) hfree, fun y hy => ?_, hrest⟩
    obtain ⟨t', hrestore, -, hothers⟩ := OfdTable.restoreEntry_provided hs (hindex e hin) hfree (e.2.child pid (refsOf refs e.1))
    obtain ⟨hyin, hyfree⟩ := hI.1 y (mem_cons_of_mem e hy)
    have hne : y.1 ≠ e.1 := fun heq => hnew (mem_map.mpr ⟨y, hy, heq⟩)
    rw [restoreOfd, hrestore]
    exact ⟨hyin, (hothers y.1 hne).2 hyfree⟩
  have hempty : ∀ index, OfdTable.new.Vacant index := fun _ _ h => nomatch h
  have hloop := loop (restoreOfd pid storage refs) ofds
    (I := fun t rest => (∀ y ∈ rest, y ∈ ofds ∧ t.Vacant y.1) ∧ (rest.map (·.1)).Nodup) hstep
    (s := OfdTable.new) ⟨fun y hy => ⟨hy, hempty y.1⟩, hdistinct⟩
  rw [writeOfds, hrefs]
  exact (boundedCount hcount maxOfds).after (hloop.written.least (zero_le _))

/-- The restored table has the children of the listed descriptions, and no others. -/
theorem get_restoredOfds (hs : FdTable.Provides storage) (refs : List (Nat × UInt32)) {t : OfdTable}
    (hall : ∀ e ∈ ofds, e.1 + 1 ≤ Usize.wasm32.max ∧ t.Vacant e.1) (hdistinct : (ofds.map (·.1)).Nodup) :
    (∀ e ∈ ofds, (ofds.foldl (restoreOfd pid storage refs) t).get e.1 = some (e.2.child pid (refsOf refs e.1))) ∧
      ∀ i ∉ ofds.map (·.1), (ofds.foldl (restoreOfd pid storage refs) t).get i = t.get i := by
  induction ofds generalizing t with
  | nil => exact ⟨fun e he => absurd he not_mem_nil, fun _ _ => rfl⟩
  | cons e ofds ih =>
    obtain ⟨hindex, hfree⟩ := hall e mem_cons_self
    obtain ⟨hnew, hrest⟩ := nodup_cons.mp hdistinct
    obtain ⟨t', hrestore, hget, hothers⟩ := OfdTable.restoreEntry_provided hs hindex hfree (e.2.child pid (refsOf refs e.1))
    have ht' : restoreOfd pid storage refs t e = t' := by rw [restoreOfd, hrestore]
    have hne : ∀ y ∈ ofds, y.1 ≠ e.1 := fun y hy heq => hnew (mem_map.mpr ⟨y, hy, heq⟩)
    have hkeep : ∀ y ∈ ofds, y.1 + 1 ≤ Usize.wasm32.max ∧ t'.Vacant y.1 := fun y hy =>
      ⟨(hall y (mem_cons_of_mem e hy)).1, (hothers y.1 (hne y hy)).2 (hall y (mem_cons_of_mem e hy)).2⟩
    obtain ⟨hin, hout⟩ := ih hkeep hrest
    rw [foldl_cons, ht']
    refine ⟨fun y hy => ?_, fun i hi => ?_⟩
    · rcases mem_cons.mp hy with rfl | hy
      · rw [hout _ hnew, hget]
      · exact hin y hy
    · rw [map_cons, mem_cons, not_or] at hi
      rw [hout i hi.2, (hothers i hi.1).1]

end Kandelo.Fork

/-
What `set_lock` computes before it commits, read off its loops.

`fileSlice_eq`: the binary searches find exactly the file's records.
`splitRecords` and `coalesce`, on records that are pairwise `Apart` (one
owner's records are disjoint and those of one type do not even touch), give a
`Plan`: the left fragment is what the only record straddling the start of the
request keeps, the right one likewise, and the merged request covers the
requested bytes and bytes already locked at the requested type, nothing else.
-/
import Kandelo.Lock.Manager

namespace Kandelo.Lock

open SortedVec LockRange List

/-! ## One file's slice -/

variable {a b : LockRecord}

theorem file_isLE_of_recordCmp (h : (recordCmp a b).isLE) : (compare a.file b.file).isLE := by
  simp only [recordCmp] at h
  cases hc : compare a.file b.file <;> simp_all [Ordering.then]

variable {records : List LockRecord}

theorem partitioned_lt (h : Sorted recordCmp records) (file : FileId) :
    Partitioned (fun record => compare record.file file == .lt) records := by
  refine h.imp fun {a b} hab hb => ?_
  simp only [beq_iff_eq] at hb ⊢
  exact Std.TransCmp.lt_of_isLE_of_lt (file_isLE_of_recordCmp hab) hb

variable {file : FileId}

/-- Past the records of smaller files, the file's own come first. -/
theorem partitioned_eq (h : Sorted recordCmp records) (hge : ∀ r ∈ records, (compare r.file file == .lt) = false) :
    Partitioned (fun record => record.file == file) records := by
  refine .imp_of_mem ?_ h
  intro a b ha _ hab hb
  have hle := file_isLE_of_recordCmp hab
  cases hc : compare a.file b.file <;> simp_all
  exact FileId.compare_eq_iff.mp hc

variable {m : AdvisoryLockManager}

section

variable (h : Sorted recordCmp m.records)

include h

/-- How the bounds of a file split the vector. -/
theorem fileBounds_spec (file : FileId) : (m.fileBounds file).1 ≤ (m.fileBounds file).2 ∧ (m.fileBounds file).2 ≤ m.records.length ∧
      (∀ r ∈ m.records.take (m.fileBounds file).1, r.file ≠ file) ∧
      (∀ r ∈ m.fileSlice file, r.file = file) ∧ ∀ r ∈ m.records.drop (m.fileBounds file).2, r.file ≠ file := by
  obtain ⟨hl, hlo, hhi⟩ := partitionPoint_spec (partitioned_lt h file)
  set start := partitionPoint m.records fun record => compare record.file file == .lt with hstart
  have hsorted : Sorted recordCmp (m.records.drop start) := .sublist (drop_sublist _ _) h
  obtain ⟨hl', hlo', hhi'⟩ := partitionPoint_spec (partitioned_eq hsorted hhi)
  set len := partitionPoint (m.records.drop start) (fun record => record.file == file) with hlen
  have hb : m.fileBounds file = (start, len + start) := rfl
  simp only [length_drop] at hl'
  simp only [AdvisoryLockManager.fileSlice, hb]
  refine ⟨by omega, by omega, fun r hr he => ?_, fun r hr => ?_, fun r hr he => ?_⟩
  · have := hlo r hr
    rw [he, Std.ReflOrd.compare_self] at this
    cases this
  · rw [Nat.add_sub_cancel] at hr
    simpa using hlo' r hr
  · have : r ∈ (m.records.drop start).drop len := by rwa [drop_drop, Nat.add_comm]
    simpa [he] using hhi' r this

theorem records_split (file : FileId) :
    m.records = m.records.take (m.fileBounds file).1 ++ m.fileSlice file ++ m.records.drop (m.fileBounds file).2 := by
  obtain ⟨h1, h2, -⟩ := fileBounds_spec h file
  have hd : m.records.drop (m.fileBounds file).2 =
      (m.records.drop (m.fileBounds file).1).drop ((m.fileBounds file).2 - (m.fileBounds file).1) := by
    rw [drop_drop]; congr 1; omega
  rw [hd, AdvisoryLockManager.fileSlice, append_assoc, take_append_drop, take_append_drop]

/-- The slice the binary searches find is exactly the file's records. -/
theorem fileSlice_eq (file : FileId) : m.fileSlice file = m.records.filter fun r => r.file == file := by
  obtain ⟨-, -, h1, h2, h3⟩ := fileBounds_spec h file
  have before : (m.records.take (m.fileBounds file).1).filter (fun r => r.file == file) = [] :=
    filter_eq_nil_iff.mpr fun r hr => by simpa using h1 r hr
  have within : (m.fileSlice file).filter (fun r => r.file == file) = m.fileSlice file :=
    filter_eq_self.mpr fun r hr => by simpa using h2 r hr
  have after : (m.records.drop (m.fileBounds file).2).filter (fun r => r.file == file) = [] :=
    filter_eq_nil_iff.mpr fun r hr => by simpa using h3 r hr
  conv_rhs => rw [records_split h file]
  simp [before, within, after]

end

variable {r : LockRecord}

theorem mem_fileSlice (h : Sorted recordCmp m.records) : r ∈ m.fileSlice file ↔ r ∈ m.records ∧ r.file = file := by
  simp [fileSlice_eq h]

/-- Compacting a file's slice drops exactly the file's removed records. -/
theorem compact_slice_eq (h : Sorted recordCmp m.records) (file : FileId) (keep : LockRecord → Bool) :
    compactRange keep (m.fileBounds file).1 (m.fileBounds file).2 m.records = (m.records.filter fun r => !(r.file == file) || keep r,
        (m.fileBounds file).1 + ((m.fileSlice file).filter keep).length) := by
  obtain ⟨h0, h₀', h1, h2, h3⟩ := fileBounds_spec h file
  rw [compactRange_eq keep h0 h₀']
  refine Prod.ext_iff.mpr ⟨?_, rfl⟩
  conv_rhs => rw [records_split h file]
  simp only [filter_append]
  congr 1
  · congr 1
    · rw [filter_eq_self.mpr fun r hr => by simp [h1 r hr]]
    · exact filter_congr fun r hr => by simp [h2 r hr]
  · rw [filter_eq_self.mpr fun r hr => by simp [h3 r hr]]

/-! ## Records that stand apart -/

/-- How two entries of the vector stand to each other. -/
structure Apart (a b : LockRecord) : Prop where
  disjoint : a.file = b.file → a.owner = b.owner → a.range.overlaps b.range = false
  coalesced : a.file = b.file → a.owner = b.owner → a.lockType = b.lockType → a.range.touchesOrOverlaps b.range = false
  compatible : a.file = b.file → a.owner ≠ b.owner → a.owner.conflictsInNamespace b.owner →
    (a.lockType = .write ∨ b.lockType = .write) → a.range.overlaps b.range = false

theorem LockRange.overlaps_comm (r s : LockRange) : r.overlaps s = s.overlaps r := by
  rw [Bool.eq_iff_iff, overlaps_iff, overlaps_iff]
  omega

theorem LockRange.touches_comm (r s : LockRange) : r.touchesOrOverlaps s = s.touchesOrOverlaps r := by
  rw [Bool.eq_iff_iff, touches_iff, touches_iff]
  omega

theorem LockOwner.conflictsInNamespace_comm (a b : LockOwner) : a.conflictsInNamespace b = b.conflictsInNamespace a := by
  simp [LockOwner.conflictsInNamespace, Bool.beq_comm]

theorem Apart.symm (h : Apart a b) : Apart b a where
  disjoint hf ho := by rw [overlaps_comm]; exact h.disjoint hf.symm ho.symm
  coalesced hf ho ht := by rw [touches_comm]; exact h.coalesced hf.symm ho.symm ht.symm
  compatible hf ho hn ht := by
    rw [overlaps_comm]
    exact h.compatible hf.symm ho.symm (by rwa [LockOwner.conflictsInNamespace_comm]) ht.symm

instance : Std.Symm Apart := ⟨fun _ _ => Apart.symm⟩

theorem LockRange.not_share {r s : LockRange} (h : r.overlaps s = false) {b : Int} (hr : r.contains b) (hs : s.contains b) : False := by
  rw [overlaps_iff_exists.mpr ⟨b, hr, hs⟩] at h
  cases h

theorem LockRange.touches_of_overlaps {r s : LockRange} (h : r.overlaps s) : r.touchesOrOverlaps s := by
  rw [overlaps_iff] at h
  rw [touches_iff]
  omega

variable {range : LockRange}

/-- A record blocks a request by a byte of both. -/
theorem LockRecord.blocks_iff {record : LockRecord} {owner : LockOwner} {lockType : AdvisoryLockType} : record.blocks owner lockType range ↔
      record.owner ≠ owner ∧ record.owner.conflictsInNamespace owner ∧ ∃ b, record.range.contains b ∧ range.contains b ∧
          (record.lockType = .write ∨ lockType = .write) := by
  simp only [LockRecord.blocks, Bool.and_eq_true, overlaps_iff_exists]
  simp [← and_assoc]

/-- Two records of one file and owner that share a byte are the same one. -/
theorem eq_of_share (h : records.Pairwise Apart)
    (ha : a ∈ records) (hb : b ∈ records) (hf : a.file = b.file) (ho : a.owner = b.owner) {x : Int}
    (hax : a.range.contains x) (hbx : b.range.contains x) : a = b := by
  by_contra hne
  exact not_share ((h.forall ha hb hne).disjoint hf ho) hax hbx

/-! ## Fragments -/

/-- What a straddled record keeps before the request. -/
def leftPiece (owner : LockOwner) (lockType : Option AdvisoryLockType) (requested : LockRange)
    (record : LockRecord) : Option LockRecord :=
  if record.owner = owner ∧ record.range.overlaps requested ∧ lockType ≠ some record.lockType then
    if h : record.range.start < requested.start then
      some { record with range := record.range.leftOf requested h }
    else none
  else none

/-- What a straddled record keeps after the request. -/
def rightPiece (owner : LockOwner) (lockType : Option AdvisoryLockType) (requested : LockRange)
    (record : LockRecord) : Option LockRecord :=
  if record.owner = owner ∧ record.range.overlaps requested ∧ lockType ≠ some record.lockType then
    if h : compare requested.stop record.range.stop = .lt then
      some { record with range := record.range.rightOf requested h }
    else none
  else none

section Split

variable {owner : LockOwner} {lockType : Option AdvisoryLockType} {requested : LockRange}

section

variable (acc : Split)

section

variable (r : LockRecord)

@[simp] theorem keepLeft_right : (acc.keepLeft lockType requested r).rightFragment = acc.rightFragment := by
  unfold Split.keepLeft; split_ifs <;> rfl

@[simp] theorem keepLeft_typeChanged : (acc.keepLeft lockType requested r).typeChanged = acc.typeChanged := by
  unfold Split.keepLeft; split_ifs <;> rfl

@[simp] theorem keepRight_left : (acc.keepRight lockType requested r).leftFragment = acc.leftFragment := by
  unfold Split.keepRight; split_ifs <;> rfl

@[simp] theorem keepRight_typeChanged : (acc.keepRight lockType requested r).typeChanged = acc.typeChanged := by
  unfold Split.keepRight; split_ifs <;> rfl

@[simp] theorem noteType_left : (acc.noteType lockType r).leftFragment = acc.leftFragment := by
  cases lockType <;> rfl

@[simp] theorem noteType_right : (acc.noteType lockType r).rightFragment = acc.rightFragment := by
  cases lockType <;> rfl

@[simp] theorem noteType_merged : (acc.noteType lockType r).mergedRequest = acc.mergedRequest := by
  cases lockType <;> rfl

end

end

variable {acc : Split}

/-- A turn skips records of other owners and records off the request. -/
theorem splitStep_skip (h : ¬ (r.owner = owner ∧ r.range.overlaps requested)) : splitStep owner lockType requested acc r = acc := by
  unfold splitStep
  rw [if_pos]
  simp only [Bool.or_eq_true, bne_iff_ne]
  by_cases ho : r.owner = owner
  · exact .inr (by simpa [ho] using h)
  · exact .inl ho

theorem splitStep_own (h : r.owner = owner ∧ r.range.overlaps requested) : splitStep owner lockType requested acc r =
      ((acc.keepLeft lockType requested r).keepRight lockType requested r).noteType lockType r := by
  unfold splitStep
  rw [if_neg (by simp [h.1, h.2])]

theorem splitStep_left (acc : Split) (r : LockRecord) : (splitStep owner lockType requested acc r).leftFragment =
      (leftPiece owner lockType requested r).or acc.leftFragment := by
  by_cases h : r.owner = owner ∧ r.range.overlaps requested
  · rw [splitStep_own h]
    simp only [Split.keepLeft, leftPiece, h]
    split_ifs <;> simp_all
  · rw [splitStep_skip h, leftPiece, if_neg (fun h' => h ⟨h'.1, h'.2.1⟩), Option.none_or]

theorem splitStep_right (acc : Split) (r : LockRecord) : (splitStep owner lockType requested acc r).rightFragment =
      (rightPiece owner lockType requested r).or acc.rightFragment := by
  by_cases h : r.owner = owner ∧ r.range.overlaps requested
  · rw [splitStep_own h]
    simp only [Split.keepRight, rightPiece, h]
    split_ifs <;> simp_all
  · rw [splitStep_skip h, rightPiece, if_neg (fun h' => h ⟨h'.1, h'.2.1⟩), Option.none_or]

theorem splitStep_typeChanged (acc : Split) (r : LockRecord) :
    (splitStep owner lockType requested acc r).typeChanged ↔ acc.typeChanged ∨
      r.owner = owner ∧ r.range.overlaps requested ∧ ∃ t, lockType = some t ∧ r.lockType ≠ t := by
  by_cases h : r.owner = owner ∧ r.range.overlaps requested
  · rw [splitStep_own h]
    cases lockType <;> simp [Split.noteType, h]
  · rw [splitStep_skip h]
    simp [← and_assoc, h]

/-- A fold that overwrites a slot with what each element offers ends with the
only offer, when all offers agree. -/
theorem foldl_offer {σ α β : Type*} (get : σ → Option β) {step : σ → α → σ} {offer : α → Option β}
    (hstep : ∀ s a, get (step s a) = (offer a).or (get s)) {l : List α} {s : σ} (hs : get s = none)
    (huniq : ∀ a ∈ l, ∀ b ∈ l, ∀ x y, offer a = some x → offer b = some y → x = y) {x : β} :
    get (l.foldl step s) = some x ↔ ∃ a ∈ l, offer a = some x := by
  have hfold : ∀ (l : List α) (s : σ), get (l.foldl step s) = (l.reverse.findSome? offer).or (get s) := by
    intro l
    induction l with
    | nil => intro s; simp
    | cons a l ih => intro s; rw [foldl_cons, ih, hstep]; simp [Option.or_assoc]
  rw [hfold, hs, Option.or_none]
  constructor
  · intro h
    obtain ⟨a, ha, hx⟩ := exists_of_findSome?_eq_some h
    exact ⟨a, mem_reverse.mp ha, hx⟩
  rintro ⟨a, ha, hx⟩
  have hsome : (l.reverse.findSome? offer).isSome := by
    rw [findSome?_isSome_iff]
    exact ⟨a, mem_reverse.mpr ha, by simp [hx]⟩
  obtain ⟨y, hy⟩ := Option.isSome_iff_exists.mp hsome
  obtain ⟨b, hb, hby⟩ := exists_of_findSome?_eq_some hy
  rw [hy, huniq b (mem_reverse.mp hb) a ha y x hby hx]

variable {f : LockRecord}

theorem leftPiece_eq_some : leftPiece owner lockType requested r = some f ↔
    (r.owner = owner ∧ r.range.overlaps requested ∧ lockType ≠ some r.lockType) ∧
      ∃ h : r.range.start < requested.start, f = { r with range := r.range.leftOf requested h } := by
  unfold leftPiece
  split_ifs with h1 h2
  · simp [h1, h2, eq_comm]
  · simp [h2]
  · simp [h1]

theorem rightPiece_eq_some : rightPiece owner lockType requested r = some f ↔
    (r.owner = owner ∧ r.range.overlaps requested ∧ lockType ≠ some r.lockType) ∧
      ∃ h : compare requested.stop r.range.stop = .lt, f = { r with range := r.range.rightOf requested h } := by
  unfold rightPiece
  split_ifs with h1 h2
  · simp [h1, h2, eq_comm]
  · simp [h2]
  · simp [h1]

variable {slice : List LockRecord}

/-- Only one record of an owner straddles the start of the request: two would
share its first byte. -/
theorem splitRecords_left (hap : slice.Pairwise Apart) (hfile : ∀ r ∈ slice, r.file = file) :
    (splitRecords owner lockType requested slice).leftFragment = some f ↔
      ∃ r ∈ slice, leftPiece owner lockType requested r = some f := by
  refine foldl_offer Split.leftFragment splitStep_left rfl ?_
  intro a ha b hb x y hx hy
  obtain ⟨⟨hao, hav, -⟩, has, rfl⟩ := leftPiece_eq_some.mp hx
  obtain ⟨⟨hbo, hbv, -⟩, hbs, rfl⟩ := leftPiece_eq_some.mp hy
  rw [overlaps_iff] at hav hbv
  obtain rfl := eq_of_share hap ha hb ((hfile a ha).trans (hfile b hb).symm) (hao.trans hbo.symm)
    (contains_iff.mpr ⟨Int.le_of_lt has, hav.1⟩) (contains_iff.mpr ⟨Int.le_of_lt hbs, hbv.1⟩)
  rfl

/-- Only one record of an owner straddles the end of the request: two would
share its last byte. -/
theorem splitRecords_right (hap : slice.Pairwise Apart) (hfile : ∀ r ∈ slice, r.file = file) :
    (splitRecords owner lockType requested slice).rightFragment = some f ↔
      ∃ r ∈ slice, rightPiece owner lockType requested r = some f := by
  refine foldl_offer Split.rightFragment splitStep_right rfl ?_
  intro a ha b hb x y hx hy
  obtain ⟨⟨hao, hav, -⟩, has, rfl⟩ := rightPiece_eq_some.mp hx
  obtain ⟨⟨hbo, hbv, -⟩, hbs, rfl⟩ := rightPiece_eq_some.mp hy
  rw [overlaps_iff] at hav hbv
  have hae := compare_stop_lt.mp has
  have hbe := compare_stop_lt.mp hbs
  obtain rfl := eq_of_share hap ha hb ((hfile a ha).trans (hfile b hb).symm) (hao.trans hbo.symm)
    (contains_iff.mpr (by omega : a.range.start ≤ requested.hi - 1 ∧ requested.hi - 1 < a.range.hi))
    (contains_iff.mpr (by omega))
  rfl

theorem splitRecords_typeChanged : (splitRecords owner lockType requested slice).typeChanged ↔
      ∃ r ∈ slice, r.owner = owner ∧ r.range.overlaps requested ∧ ∃ t, lockType = some t ∧ r.lockType ≠ t := by
  have hfold : ∀ (slice : List LockRecord) (acc : Split),
      (slice.foldl (splitStep owner lockType requested) acc).typeChanged ↔ acc.typeChanged ∨
        ∃ r ∈ slice, r.owner = owner ∧ r.range.overlaps requested ∧ ∃ t, lockType = some t ∧ r.lockType ≠ t := by
    intro slice
    induction slice with
    | nil => simp
    | cons r slice ih =>
      intro acc
      rw [foldl_cons, ih, splitStep_typeChanged]
      simp only [mem_cons, exists_eq_or_imp, or_assoc]
  simpa [splitRecords] using hfold slice { mergedRequest := requested }

/-! ## The merged request -/

/-- `merged` covers the request, and otherwise only bytes the owner already
holds at the requested type. -/
structure Merged (owner : LockOwner) (lockType : Option AdvisoryLockType) (requested : LockRange)
    (slice : List LockRecord) (merged : LockRange) : Prop where
  start_le : merged.start ≤ requested.start
  le_hi : requested.hi ≤ merged.hi
  covered : ∀ b, merged.contains b → requested.contains b ∨
    ∃ r ∈ slice, r.owner = owner ∧ lockType = some r.lockType ∧ r.range.contains b

theorem Merged.refl : Merged owner lockType requested slice requested := ⟨Int.le_refl _, Int.le_refl _, fun _ hb => .inl hb⟩

/-- A range that touches the merged request and is part of a record of the
requested type may join it: the two leave no gap. -/
theorem Merged.union {merged : LockRange} (h : Merged owner lockType requested slice merged) (hr : r ∈ slice) (ho : r.owner = owner)
    (ht : lockType = some r.lockType) (h1 : range.start ≤ merged.hi) (h2 : merged.start ≤ range.hi)
    (h3 : r.range.start ≤ range.start) (h4 : range.hi ≤ r.range.hi) : Merged owner lockType requested slice (merged.union range) := by
  refine ⟨?_, ?_, fun b hb => ?_⟩
  · have := h.start_le; simp only [union_start]; omega
  · have := h.le_hi; simp only [union_hi]; omega
  rw [contains_iff, union_start, union_hi] at hb
  by_cases hm : merged.start ≤ b ∧ b < merged.hi
  · exact h.covered b (contains_iff.mpr hm)
  · exact .inr ⟨r, hr, ho, ht, contains_iff.mpr (by omega)⟩

theorem Merged.splitStep (h : Merged owner lockType requested slice acc.mergedRequest) (hr : r ∈ slice) :
    Merged owner lockType requested slice (splitStep owner lockType requested acc r).mergedRequest := by
  by_cases hown : r.owner = owner ∧ r.range.overlaps requested
  · rw [splitStep_own hown, noteType_merged]
    have hv := overlaps_iff.mp hown.2
    -- Both fragments touch the request, which the merged one contains.
    have hleft : Merged owner lockType requested slice (acc.keepLeft lockType requested r).mergedRequest := by
      have h1 := h.start_le
      have h2 := h.le_hi
      unfold Split.keepLeft
      split_ifs with hs ht
      · exact h.union hr hown.1 ht (by simp; omega) (by simp; omega) (by simp) (by simp; omega)
      · exact h
      · exact h
    have h1 := hleft.start_le
    have h2 := hleft.le_hi
    unfold Split.keepRight
    split_ifs with hs ht
    · exact hleft.union hr hown.1 ht (by simp; omega) (by simp; omega) (by simp; omega) (by simp)
    · exact hleft
    · exact hleft
  · rw [splitStep_skip hown]
    exact h

theorem splitRecords_merged (slice : List LockRecord) :
    Merged owner lockType requested slice (splitRecords owner lockType requested slice).mergedRequest := by
  have hfold : ∀ (rest : List LockRecord) (acc : Split), (∀ r ∈ rest, r ∈ slice) →
      Merged owner lockType requested slice acc.mergedRequest →
      Merged owner lockType requested slice (rest.foldl (splitStep owner lockType requested) acc).mergedRequest := by
    intro rest
    induction rest with
    | nil => intro acc _ h; exact h
    | cons r rest ih =>
      intro acc hmem h
      exact ih _ (fun x hx => hmem x (by simp [hx])) (h.splitStep (hmem r (by simp)))
  exact hfold slice _ (fun _ hr => hr) .refl

end Split

section Coalesce

variable {owner : LockOwner} {t : AdvisoryLockType}

/-- `range` lies inside `merged`. -/
def LockRange.Inside (range merged : LockRange) : Prop := merged.start ≤ range.start ∧ range.hi ≤ merged.hi

instance (range merged : LockRange) : Decidable (range.Inside merged) := inferInstanceAs (Decidable (_ ∧ _))

theorem LockRange.Inside.trans {a b c : LockRange} (h1 : a.Inside b) (h2 : b.Inside c) : a.Inside c :=
  ⟨Int.le_trans h2.1 h1.1, Int.le_trans h1.2 h2.2⟩

variable {merged : LockRange}

theorem LockRange.Inside.contains (h : range.Inside merged) {b : Int} (hb : range.contains b) : merged.contains b := by
  rw [contains_iff] at hb ⊢
  exact ⟨Int.le_trans h.1 hb.1, Int.lt_of_lt_of_le hb.2 h.2⟩

theorem LockRange.inside_union_left (a b : LockRange) : a.Inside (a.union b) := by
  simp only [LockRange.Inside, union_start, union_hi]
  omega

theorem LockRange.inside_union_right (a b : LockRange) : b.Inside (a.union b) := by
  simp only [LockRange.Inside, union_start, union_hi]
  omega

theorem LockRange.union_of_inside {a b : LockRange} (h : b.Inside a) : a.union b = a := by
  obtain ⟨h1, h2⟩ := h
  refine ext_hi ?_ ?_
  · simp only [union_start]; omega
  · simp only [union_hi]; omega

theorem LockRange.touches_of_inside {r a b : LockRange} (h : r.touchesOrOverlaps a) (hab : a.Inside b) : r.touchesOrOverlaps b := by
  rw [touches_iff] at h ⊢
  obtain ⟨h1, h2⟩ := hab
  omega

/-- The record joins the merged request in a scan. -/
def Joins (owner : LockOwner) (t : AdvisoryLockType) (merged : LockRange) (r : LockRecord) : Prop :=
  r.owner = owner ∧ r.lockType = t ∧ r.range.touchesOrOverlaps merged

variable {slice : List LockRecord}

theorem coalescePass_cons_join (h : Joins owner t merged r) :
    coalescePass owner t (r :: slice) merged = coalescePass owner t slice (merged.union r.range) := by
  simp [coalescePass, h.1, h.2.1, h.2.2]

theorem coalescePass_cons_skip (h : ¬ Joins owner t merged r) :
    coalescePass owner t (r :: slice) merged = coalescePass owner t slice merged := by
  simp only [coalescePass, foldl_cons]
  rw [if_neg]
  simpa [Joins] using h

theorem coalescePass_grows : ∀ (slice : List LockRecord) (merged : LockRange), merged.Inside (coalescePass owner t slice merged)
  | [], merged => ⟨Int.le_refl _, Int.le_refl _⟩
  | r :: slice, merged => by
    by_cases h : Joins owner t merged r
    · rw [coalescePass_cons_join h]
      exact (merged.inside_union_left r.range).trans (coalescePass_grows slice _)
    · rw [coalescePass_cons_skip h]
      exact coalescePass_grows slice merged

theorem coalescePass_takes (hr : r ∈ slice) (h : Joins owner t merged r) : r.range.Inside (coalescePass owner t slice merged) := by
  induction slice generalizing merged with
  | nil => cases hr
  | cons x slice ih =>
    have hx : ∀ {m : LockRange}, merged.Inside m → r ∈ slice → r.range.Inside (coalescePass owner t slice m) :=
      fun hm hr => ih hr ⟨h.1, h.2.1, touches_of_inside h.2.2 hm⟩
    rcases mem_cons.mp hr with rfl | hr
    · rw [coalescePass_cons_join h]
      exact (merged.inside_union_right r.range).trans (coalescePass_grows slice _)
    by_cases hj : Joins owner t merged x
    · rw [coalescePass_cons_join hj]
      exact hx (merged.inside_union_left _) hr
    · rw [coalescePass_cons_skip hj]
      exact hx ⟨Int.le_refl _, Int.le_refl _⟩ hr

/-- A scan that changes the request takes in a record that was not inside it. -/
theorem coalescePass_progress : ∀ {slice : List LockRecord} {merged : LockRange}, coalescePass owner t slice merged ≠ merged →
      ∃ r ∈ slice, ¬ r.range.Inside merged ∧ r.range.Inside (coalescePass owner t slice merged)
  | [], _, h => absurd rfl h
  | r :: slice, merged, h => by
    by_cases hj : Joins owner t merged r
    · rw [coalescePass_cons_join hj] at h ⊢
      by_cases hin : r.range.Inside merged
      · rw [union_of_inside hin] at h ⊢
        obtain ⟨x, hx, h'⟩ := coalescePass_progress h
        exact ⟨x, by simp [hx], h'⟩
      · exact ⟨r, by simp, hin, (merged.inside_union_right r.range).trans (coalescePass_grows slice _)⟩
    · rw [coalescePass_cons_skip hj] at h ⊢
      obtain ⟨x, hx, h'⟩ := coalescePass_progress h
      exact ⟨x, by simp [hx], h'⟩

theorem countP_lt {α : Type*} {p q : α → Bool} : ∀ {l : List α}, (∀ a ∈ l, p a → q a) →
    (∃ a ∈ l, q a ∧ p a = false) → l.countP p < l.countP q
  | [], _, h => by simp at h
  | a :: l, hpq, h => by
    have hle : l.countP p ≤ l.countP q := countP_mono_left fun b hb => hpq b (by simp [hb])
    obtain ⟨b, hb, hq, hp⟩ := h
    rcases mem_cons.mp hb with rfl | hb
    · rw [countP_cons_of_pos hq, countP_cons_of_neg (by simp [hp])]
      omega
    have ih := countP_lt (fun b hb => hpq b (by simp [hb])) ⟨b, hb, hq, hp⟩
    simp only [countP_cons]
    have ha := hpq a (by simp)
    by_cases hpa : p a
    · rw [if_pos hpa, if_pos (ha hpa)]
      omega
    · rw [if_neg hpa]
      omega

/-- The loop stops by its own test: each scan before that takes in one more
record. -/
theorem coalesceLoop_fixed (slice : List LockRecord) : ∀ {fuel : Nat} {merged : LockRange},
    slice.countP (fun r => !decide (r.range.Inside merged)) < fuel →
      coalescePass owner t slice (coalesceLoop owner t slice fuel merged) = coalesceLoop owner t slice fuel merged
  | 0, _, h => by omega
  | fuel + 1, merged, h => by
    by_cases hp : coalescePass owner t slice merged = merged
    · simp [coalesceLoop, hp]
    simp only [coalesceLoop, if_neg hp]
    refine coalesceLoop_fixed slice (Nat.lt_of_lt_of_le (countP_lt (fun r _ hr => ?_) ?_) (Nat.le_of_lt_succ h))
    · simp only [Bool.not_eq_true', decide_eq_false_iff_not] at hr ⊢
      exact fun hin => hr (hin.trans (coalescePass_grows slice merged))
    · obtain ⟨r, hr, hout, hin⟩ := coalescePass_progress hp
      exact ⟨r, hr, by simpa using hout, by simpa using hin⟩

variable {requested : LockRange}

theorem Merged.coalescePass {all : List LockRecord} : ∀ {slice : List LockRecord}
    {merged : LockRange}, (∀ r ∈ slice, r ∈ all) → Merged owner (some t) requested all merged →
      Merged owner (some t) requested all (coalescePass owner t slice merged)
  | [], _, _, h => h
  | r :: slice, merged, hall, h => by
    have hrest : ∀ x ∈ slice, x ∈ all := fun x hx => hall x (by simp [hx])
    by_cases hj : Joins owner t merged r
    · rw [coalescePass_cons_join hj]
      obtain ⟨h1, h2⟩ := touches_iff.mp hj.2.2
      exact .coalescePass hrest (h.union (hall r (by simp)) hj.1 (by rw [hj.2.1]) h1 h2 (Int.le_refl _) (Int.le_refl _))
    · rw [coalescePass_cons_skip hj]
      exact .coalescePass hrest h

theorem Merged.coalesceLoop : ∀ {fuel : Nat} {merged : LockRange}, Merged owner (some t) requested slice merged →
      Merged owner (some t) requested slice (coalesceLoop owner t slice fuel merged)
  | 0, _, h => h
  | fuel + 1, merged, h => by
    simp only [Lock.coalesceLoop]
    split
    · exact h.coalescePass fun _ hr => hr
    · exact .coalesceLoop (h.coalescePass fun _ hr => hr)

theorem Merged.coalesce {lockType : Option AdvisoryLockType} (h : Merged owner lockType requested slice merged) :
    Merged owner lockType requested slice (coalesce owner lockType slice merged) := by
  cases lockType with
  | none => exact h
  | some t => exact h.coalesceLoop

/-- After coalescing, a record of the requested type that touches the merged
request lies inside it. -/
theorem coalesce_fixed (hr : r ∈ slice) (h : Joins owner t (coalesce owner (some t) slice merged) r) :
    r.range.Inside (coalesce owner (some t) slice merged) := by
  have hfix : coalescePass owner t slice (coalesce owner (some t) slice merged) = coalesce owner (some t) slice merged :=
    coalesceLoop_fixed slice (Nat.lt_succ_of_le countP_le_length)
  rw [← hfix]
  exact coalescePass_takes hr h

end Coalesce

/-! ## The plan of a call -/

/-- What `set_lock` knows when it commits. -/
structure Plan (records : List LockRecord) (file : FileId) (owner : LockOwner) (lockType : Option AdvisoryLockType)
    (requested : LockRange) (left right : Option LockRecord) (merged : LockRange) : Prop where
  start_le : merged.start ≤ requested.start
  le_hi : requested.hi ≤ merged.hi
  covered : ∀ b, merged.contains b → requested.contains b ∨
    ∃ r ∈ records, r.file = file ∧ r.owner = owner ∧ lockType = some r.lockType ∧ r.range.contains b
  absorbed : ∀ r ∈ records, r.file = file → r.owner = owner → lockType = some r.lockType →
    r.range.touchesOrOverlaps merged → r.range.Inside merged
  left_iff : ∀ f, left = some f ↔ ∃ r ∈ records, r.file = file ∧ leftPiece owner lockType requested r = some f
  right_iff : ∀ f, right = some f ↔ ∃ r ∈ records, r.file = file ∧ rightPiece owner lockType requested r = some f

/-- The scans over one file's slice compute a plan for the whole vector. -/
theorem plan_of_scan (hs : Sorted recordCmp m.records) (hap : m.records.Pairwise Apart)
    (file : FileId) (owner : LockOwner) (lockType : Option AdvisoryLockType) (req : LockRange) :
    Plan m.records file owner lockType req (splitRecords owner lockType req (m.fileSlice file)).leftFragment
      (splitRecords owner lockType req (m.fileSlice file)).rightFragment (coalesce owner lockType (m.fileSlice file)
        (splitRecords owner lockType req (m.fileSlice file)).mergedRequest) := by
  have hmem : ∀ {r}, r ∈ m.fileSlice file ↔ r ∈ m.records ∧ r.file = file := mem_fileSlice hs
  have hslice : (m.fileSlice file).Pairwise Apart := by
    rw [fileSlice_eq hs]
    exact hap.sublist filter_sublist
  have hfile : ∀ r ∈ m.fileSlice file, r.file = file := fun r hr => (hmem.mp hr).2
  have hmerged : Merged owner lockType req (m.fileSlice file) (coalesce owner lockType (m.fileSlice file)
      (splitRecords owner lockType req (m.fileSlice file)).mergedRequest) := (splitRecords_merged _).coalesce
  refine ⟨hmerged.start_le, hmerged.le_hi, fun b hb => ?_, fun r hr hf ho ht htouch => ?_, fun f => ?_, fun f => ?_⟩
  · rcases hmerged.covered b hb with hb | ⟨r, hr, ho, ht, hb⟩
    · exact .inl hb
    · exact .inr ⟨r, (hmem.mp hr).1, (hmem.mp hr).2, ho, ht, hb⟩
  · subst ht
    exact coalesce_fixed (hmem.mpr ⟨hr, hf⟩) ⟨ho, rfl, htouch⟩
  · simp only [splitRecords_left hslice hfile, hmem, and_assoc]
  · simp only [splitRecords_right hslice hfile, hmem, and_assoc]

end Kandelo.Lock

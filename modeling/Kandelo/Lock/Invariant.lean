/-
The record vector's invariant: sorted by `record_cmp`, entries pairwise
`Apart`, no more than the machine's limit. `set_lock` keeps it (a committed
call leaves the kept records and at most three pieces, which stand apart from
them and from each other), the removals keep it, so it holds in every state a
sequence of calls reaches.
-/
import Kandelo.Lib.Machine
import Kandelo.Lock.Plan

namespace Kandelo.Lock

open SortedVec LockRange List AdvisoryLockManager

/-- The invariant of the record vector. -/
structure Inv (records : List LockRecord) : Prop where
  sorted : Sorted recordCmp records
  apart : records.Pairwise Apart
  bounded : records.length ≤ MAX_ADVISORY_LOCK_RECORDS

theorem Inv.nil : Inv [] := ⟨.nil, .nil, by simp⟩

/-- Dropping records keeps the invariant. -/
theorem Inv.sublist {records records' : List LockRecord} (h : Inv records) (hs : records'.Sublist records) : Inv records' :=
  ⟨h.sorted.sublist hs, h.apart.sublist hs, Nat.le_trans hs.length_le h.bounded⟩

/-! ## The commit -/

/-- The records after a committed call, in no particular order. -/
def committed (records : List LockRecord) (file : FileId) (owner : LockOwner) (lockType : Option AdvisoryLockType)
    (requested : LockRange) (left right : Option LockRecord) (merged : LockRange) : List LockRecord :=
  right.toList ++ ((lockType.map fun t => LockRecord.mk file owner t merged).toList ++ (left.toList ++
    records.filter fun r => !(r.file == file) || !shouldRemove owner lockType requested merged r))

variable {m : AdvisoryLockManager} {records : List LockRecord} {file : FileId} {owner : LockOwner}
  {lockType : Option AdvisoryLockType} {t : AdvisoryLockType} {requested merged : LockRange} {left right : Option LockRecord}
  {r k f : LockRecord}

theorem shouldRemove_iff : shouldRemove owner lockType requested merged r ↔ r.owner = owner ∧
      (r.range.overlaps requested ∨ lockType = some r.lockType ∧ r.range.touchesOrOverlaps merged) := by
  unfold shouldRemove
  by_cases ho : r.owner = owner
  · by_cases hv : r.range.overlaps requested
    · simp [hv]
    cases lockType with
    | none => simp [ho]
    | some t => simp [eq_comm (a := t)]
  · simp [ho]

theorem insertPiece_perm (m : AdvisoryLockManager) (piece : Option LockRecord) :
    (m.insertPiece piece).records.Perm (piece.toList ++ m.records) := by
  cases piece with
  | none => exact .refl _
  | some r => exact insertSorted_perm recordCmp m.records r

section

variable (h : Sorted recordCmp m.records)

include h

theorem insertPiece_sorted (piece : Option LockRecord) : Sorted recordCmp (m.insertPiece piece).records := by
  cases piece with
  | none => exact h
  | some r => exact h.insertSorted r

/-- The commit leaves the kept records and the pieces. -/
theorem commit_perm (file : FileId) (owner : LockOwner)
    (lockType : Option AdvisoryLockType) (req merged : LockRange) (left right : Option LockRecord) :
    (m.commit file (shouldRemove owner lockType req merged) left
        (lockType.map fun t => LockRecord.mk file owner t merged) right).records.Perm
      (committed m.records file owner lockType req left right merged) := by
  refine (insertPiece_perm _ right).trans (.append_left _ ?_)
  refine (insertPiece_perm _ _).trans (.append_left _ ?_)
  refine (insertPiece_perm _ left).trans (.append_left _ ?_)
  simp only [compact_slice_eq h]
  exact .refl _

theorem commit_sorted (file : FileId) (remove : LockRecord → Bool) (left replacement right : Option LockRecord) :
    Sorted recordCmp (m.commit file remove left replacement right).records := by
  refine insertPiece_sorted (insertPiece_sorted (insertPiece_sorted ?_ _) _) _
  simp only [compact_slice_eq h]
  exact .sublist filter_sublist h

end

/-! ## The pieces stand apart -/

/-- A part of a record stands apart from whatever the record does. -/
theorem Apart.of_inside {range : LockRange} (h : Apart r k) (hin : range.Inside r.range) : Apart { r with range := range } k := by
  have hover : range.overlaps k.range → r.range.overlaps k.range := by
    rw [overlaps_iff, overlaps_iff]
    obtain ⟨h1, h2⟩ := hin
    omega
  have htouch : range.touchesOrOverlaps k.range → r.range.touchesOrOverlaps k.range := by
    rw [touches_iff, touches_iff]
    obtain ⟨h1, h2⟩ := hin
    omega
  refine ⟨fun hf ho => ?_, fun hf ho ht => ?_, fun hf ho hn ht => ?_⟩
  · exact Bool.eq_false_iff.mpr fun hc => Bool.eq_false_iff.mp (h.disjoint hf ho) (hover hc)
  · exact Bool.eq_false_iff.mpr fun hc => Bool.eq_false_iff.mp (h.coalesced hf ho ht) (htouch hc)
  · exact Bool.eq_false_iff.mpr fun hc => Bool.eq_false_iff.mp (h.compatible hf ho hn ht) (hover hc)

/-- What a fragment is: part of an own record of another type, off the
request. -/
structure Fragment (records : List LockRecord) (file : FileId) (owner : LockOwner) (lockType : Option AdvisoryLockType)
    (requested : LockRange) (whole f : LockRecord) : Prop where
  mem : whole ∈ records
  file_eq : whole.file = file
  owner_eq : whole.owner = owner
  overlaps : whole.range.overlaps requested
  type_ne : lockType ≠ some whole.lockType
  part : f = { whole with range := f.range }
  inside : f.range.Inside whole.range
  off : f.range.overlaps requested = false

section

variable (plan : Plan records file owner lockType requested left right merged)

include plan

theorem Plan.left_fragment (h : left = some f) :
    f.range.hi = requested.start ∧ ∃ r, Fragment records file owner lockType requested r f := by
  obtain ⟨r, hr, hf, hp⟩ := (plan.left_iff f).mp h
  obtain ⟨⟨ho, hv, ht⟩, hs, rfl⟩ := leftPiece_eq_some.mp hp
  have hv' := overlaps_iff.mp hv
  refine ⟨by simp, r, hr, hf, ho, hv, ht, rfl, ⟨by simp, by simp; omega⟩, ?_⟩
  rw [Bool.eq_false_iff, ne_eq, overlaps_iff]
  simp

theorem Plan.right_fragment (h : right = some f) :
    f.range.start = requested.hi ∧ ∃ r, Fragment records file owner lockType requested r f := by
  obtain ⟨r, hr, hf, hp⟩ := (plan.right_iff f).mp h
  obtain ⟨⟨ho, hv, ht⟩, hs, rfl⟩ := rightPiece_eq_some.mp hp
  have hv' := overlaps_iff.mp hv
  refine ⟨by simp, r, hr, hf, ho, hv, ht, rfl, ⟨by simp; omega, by simp⟩, ?_⟩
  rw [Bool.eq_false_iff, ne_eq, overlaps_iff]
  simp

end

section

variable (hap : records.Pairwise Apart)

include hap

/-- A fragment stands apart from every record that stays. -/
theorem Fragment.apart_kept {whole : LockRecord} (h : Fragment records file owner lockType requested whole f) (hk : k ∈ records)
    (hkeep : k.file = file → shouldRemove owner lockType requested merged k = false) : Apart f k := by
  have hne : whole ≠ k := by
    rintro rfl
    have := hkeep h.file_eq
    rw [shouldRemove_iff.mpr ⟨h.owner_eq, .inl h.overlaps⟩] at this
    cases this
  rw [h.part]
  exact (hap.forall h.mem hk hne).of_inside h.inside

/-- A fragment stands apart from the new lock: a byte of both would be locked
at two types. -/
theorem Fragment.apart_replacement {whole : LockRecord} (plan : Plan records file owner (some t) requested left right merged)
    (h : Fragment records file owner (some t) requested whole f) : Apart f ⟨file, owner, t, merged⟩ := by
  have ho : f.owner = owner := by rw [h.part]; exact h.owner_eq
  have ht : f.lockType ≠ t := by rw [h.part]; exact fun he => h.type_ne (by rw [he])
  refine ⟨fun _ _ => ?_, fun _ _ he => absurd he ht, fun _ hne => absurd ho hne⟩
  rw [Bool.eq_false_iff]
  intro hover
  obtain ⟨b, hfb, hmb⟩ := overlaps_iff_exists.mp hover
  rcases plan.covered b hmb with hb | ⟨r, hr, hrf, hro, hrt, hb⟩
  · exact not_share h.off hfb hb
  have hwb := h.inside.contains hfb
  obtain rfl := eq_of_share hap h.mem hr (h.file_eq.trans hrf.symm) (h.owner_eq.trans hro.symm) hwb hb
  exact h.type_ne hrt

/-- The new lock stands apart from every record that stays. -/
theorem Plan.replacement_apart_kept (plan : Plan records file owner (some t) requested left right merged) (hk : k ∈ records)
    (hkeep : k.file = file → shouldRemove owner (some t) requested merged k = false)
    (hfree : k.file = file → k.blocks owner t requested = false) : Apart ⟨file, owner, t, merged⟩ k := by
  have hkept : file = k.file → owner = k.owner → k.range.overlaps requested = false ∧
      (t = k.lockType → k.range.touchesOrOverlaps merged = false) := by
    intro hf ho
    have := hkeep hf.symm
    rw [Bool.eq_false_iff, ne_eq, shouldRemove_iff, not_and_or, not_or, not_and] at this
    obtain ⟨h1, h2⟩ := this.resolve_left (not_not_intro ho.symm)
    exact ⟨by simpa using h1, fun ht => by simpa using h2 (by rw [ht])⟩
  refine ⟨fun hf ho => ?_, fun hf ho ht => ?_, fun hf ho hn hw => ?_⟩
  · rw [Bool.eq_false_iff]
    intro hover
    obtain ⟨b, hmb, hkb⟩ := overlaps_iff_exists.mp hover
    obtain ⟨hoff, htouch⟩ := hkept hf ho
    rcases plan.covered b hmb with hb | ⟨r, hr, hrf, hro, hrt, hb⟩
    · exact not_share hoff hkb hb
    obtain rfl := eq_of_share hap hk hr (hf.symm.trans hrf.symm) (ho.symm.trans hro.symm) hkb hb
    rw [touches_of_overlaps (overlaps_iff_exists.mpr ⟨b, hb, hmb⟩)] at htouch
    cases htouch (Option.some.inj hrt)
  · rw [touches_comm]
    exact (hkept hf ho).2 ht
  rw [Bool.eq_false_iff]
  intro hover
  obtain ⟨b, hmb, hkb⟩ := overlaps_iff_exists.mp hover
  rw [LockOwner.conflictsInNamespace_comm] at hn
  rcases plan.covered b hmb with hb | ⟨r, hr, hrf, hro, hrt, hb⟩
  · have := hfree hf.symm
    rw [LockRecord.blocks_iff.mpr ⟨Ne.symm ho, hn, b, hkb, hb, hw.symm⟩] at this
    cases this
  subst hro
  have hap' := hap.forall hk hr (fun he => ho (by rw [he]))
  have hw' : k.lockType = .write ∨ r.lockType = .write := by
    rw [← Option.some.inj hrt]
    exact hw.symm
  exact not_share (hap'.compatible (hf.symm.trans hrf.symm) (Ne.symm ho) hn hw') hkb hb

/-- The vector of a committed call: the pieces stand apart from each other and
from what stays. -/
theorem Plan.committed_apart (plan : Plan records file owner lockType requested left right merged)
    (hfree : ∀ t, lockType = some t → ∀ r ∈ records, r.file = file → r.blocks owner t requested = false) :
    (committed records file owner lockType requested left right merged).Pairwise Apart := by
  have hkept : ∀ {k}, k ∈ records.filter (fun r => !(r.file == file) || !shouldRemove owner lockType requested merged r) →
      k ∈ records ∧ (k.file = file → shouldRemove owner lockType requested merged k = false) := by
    intro k hk
    obtain ⟨hk, hp⟩ := mem_filter.mp hk
    exact ⟨hk, fun hf => by simpa [hf] using hp⟩
  have hrep : ∀ {p}, p ∈ (lockType.map fun t => LockRecord.mk file owner t merged).toList →
      ∃ t, lockType = some t ∧ p = ⟨file, owner, t, merged⟩ := by
    intro p hp
    simp only [Option.mem_toList, Option.map_eq_some_iff] at hp
    obtain ⟨t, ht, rfl⟩ := hp
    exact ⟨t, ht, rfl⟩
  unfold committed
  simp only [pairwise_append, mem_append, Option.pairwise_toList, true_and]
  refine ⟨⟨⟨hap.sublist filter_sublist, fun f hf k hk => ?_⟩, fun p hp q hq => ?_⟩, fun f hf q hq => ?_⟩
  · obtain ⟨-, r, hfrag⟩ := plan.left_fragment (Option.mem_toList.mp hf)
    exact hfrag.apart_kept hap (hkept hk).1 (hkept hk).2
  · obtain ⟨t, rfl, rfl⟩ := hrep hp
    rcases hq with hq | hq
    · obtain ⟨-, r, hfrag⟩ := plan.left_fragment (Option.mem_toList.mp hq)
      exact (hfrag.apart_replacement hap plan).symm
    · exact plan.replacement_apart_kept hap (hkept hq).1 (hkept hq).2 (hfree t rfl q (hkept hq).1)
  obtain ⟨hstart, r, hfrag⟩ := plan.right_fragment (Option.mem_toList.mp hf)
  rcases hq with hq | hq | hq
  · obtain ⟨t, rfl, rfl⟩ := hrep hq
    exact hfrag.apart_replacement hap plan
  · obtain ⟨hhi, r', hfrag'⟩ := plan.left_fragment (Option.mem_toList.mp hq)
    have hown : f.owner = q.owner := by
      rw [hfrag.part, hfrag'.part]
      exact hfrag.owner_eq.trans hfrag'.owner_eq.symm
    have hlt := requested.start_lt_hi
    have htouch : f.range.touchesOrOverlaps q.range = false := by
      rw [Bool.eq_false_iff, ne_eq, touches_iff]
      omega
    refine ⟨fun _ _ => ?_, fun _ _ _ => htouch, fun _ hne => absurd hown hne⟩
    rw [Bool.eq_false_iff]
    exact fun hover => by rw [touches_of_overlaps hover] at htouch; cases htouch
  · exact hfrag.apart_kept hap (hkept hq).1 (hkept hq).2

end

/-! ## What a call of `set_lock` does -/

/-- No record of another owner stands in the way of the request. -/
def Free (records : List LockRecord) (file : FileId) (owner : LockOwner) (lockType : Option AdvisoryLockType)
    (requested : LockRange) : Prop :=
  ∀ t, lockType = some t → ∀ r ∈ records, r.file = file → r.blocks owner t requested = false

/-- The request asks for what is already so: there is nothing to unlock, or
the lock wanted is part of one that is held. -/
def Idle (records : List LockRecord) (file : FileId) (owner : LockOwner) (requested : LockRange) : Option AdvisoryLockType → Prop
  | none => ∀ r ∈ records, r.file = file → r.owner = owner → r.range.overlaps requested = false
  | some t => ∃ r ∈ records, r.file = file ∧ r.owner = owner ∧ r.lockType = t ∧ requested.Inside r.range

/-- The call takes bytes from their owner or changes their type. -/
def Releases (records : List LockRecord) (file : FileId) (owner : LockOwner) (lockType : Option AdvisoryLockType)
    (requested : LockRange) : Prop :=
  ∃ r ∈ records, r.file = file ∧ r.owner = owner ∧ r.range.overlaps requested ∧ lockType ≠ some r.lockType

/-- Every way a call of `set_lock` ends. -/
inductive Outcome (m : AdvisoryLockManager) (file : FileId) (owner : LockOwner) (lockType : Option AdvisoryLockType)
    (requested : LockRange) : Except Errno LockMutation × AdvisoryLockManager → Prop
  | blocked (t : AdvisoryLockType) : lockType = some t → (m.getBlockingLock file owner t requested).isSome →
      Outcome m file owner lockType requested (.error .EAGAIN, m)
  | refused : Free m.records file owner lockType requested →
      Outcome m file owner lockType requested (.error .ENOLCK, m)
  | idle : Free m.records file owner lockType requested → Idle m.records file owner requested lockType →
      Outcome m file owner lockType requested (.ok {}, m)
  | committed (left right : Option LockRecord) (merged : LockRange) (mayUnblock : Bool) (m' : AdvisoryLockManager) :
      Free m.records file owner lockType requested → ¬ Idle m.records file owner requested lockType →
      Plan m.records file owner lockType requested left right merged →
      m'.records.Perm (committed m.records file owner lockType requested left right merged) →
      Sorted recordCmp m'.records → m'.records.length ≤ MAX_ADVISORY_LOCK_RECORDS →
      (mayUnblock ↔ Releases m.records file owner lockType requested) →
      Outcome m file owner lockType requested (.ok { changed := true, mayUnblock }, m')

theorem getBlockingLock_isSome (h : Sorted recordCmp m.records) {range : LockRange} :
    (m.getBlockingLock file owner t range).isSome ↔ ∃ r ∈ m.records, r.file = file ∧ r.blocks owner t range := by
  simp only [getBlockingLock, find?_isSome, mem_fileSlice h, and_assoc]

/-- `ensure_capacity` touches no record, and fails with `ENOLCK` only. -/
theorem ensureCapacity_cases (m : AdvisoryLockManager) (alloc : Allocator) (required : Nat) :
    m.ensureCapacity alloc required = .error .ENOLCK ∨ ∃ capacity, m.ensureCapacity alloc required = .ok { m with capacity } := by
  simp only [ensureCapacity]
  split
  · exact .inr ⟨m.capacity, rfl⟩
  split
  · exact .inl rfl
  split
  · exact .inr ⟨_, rfl⟩
  · exact .inl rfl

/-! ### A lock that is already held -/

theorem filter_eq_singleton {l : List LockRecord} (hn : l.Nodup) {p : LockRecord → Bool} (hr : r ∈ l)
    (hp : ∀ x ∈ l, p x ↔ x = r) : l.filter p = [r] := by
  have hbeq : l.filter p = l.filter (· == r) := filter_congr fun x hx => by
    rw [Bool.eq_iff_iff, hp x hx, beq_iff_eq]
  rw [hbeq, filter_beq, count_eq_one_of_mem hn hr]
  rfl

theorem overlaps_of_inside (hin : requested.Inside r.range) : r.range.overlaps requested := by
  have := requested.start_lt_hi
  obtain ⟨h1, h2⟩ := hin
  rw [overlaps_iff]
  omega

section Held

variable (hap : records.Pairwise Apart)

include hap

/-- Apart records are distinct: none overlaps itself. -/
theorem nodup_of_apart : records.Nodup := by
  refine hap.imp fun {a b} hab he => ?_
  subst he
  have := a.range.start_lt_hi
  exact not_share (hab.disjoint rfl rfl) (contains_iff.mpr ⟨Int.le_refl _, this⟩)
    (contains_iff.mpr ⟨Int.le_refl _, this⟩)

variable (hr : r ∈ records) (hf : r.file = file) (ho : r.owner = owner) (hin : requested.Inside r.range)

include hr hf ho hin

/-- An own record that overlaps a request inside a held lock is that lock. -/
theorem eq_held {x : LockRecord} (hx : x ∈ records) (hxf : x.file = file) (hxo : x.owner = owner)
    (hover : x.range.overlaps requested) : x = r := by
  obtain ⟨b, hxb, hb⟩ := overlaps_iff_exists.mp hover
  exact eq_of_share hap hx hr (hxf.trans hf.symm) (hxo.trans ho.symm) hxb (hin.contains hb)

variable (ht : r.lockType = t)

include ht

/-- Nothing touches a held lock that the request lies in, so merging gives
that lock back. -/
theorem Plan.merged_of_held (plan : Plan records file owner (some t) requested left right merged) : merged = r.range := by
  subst ht
  have htouch : r.range.touchesOrOverlaps merged :=
    touches_of_inside (touches_of_overlaps (overlaps_of_inside hin)) ⟨plan.start_le, plan.le_hi⟩
  obtain ⟨h1, h2⟩ := plan.absorbed r hr hf ho rfl htouch
  have hlt := r.range.start_lt_hi
  -- A byte just outside the held lock is not merged: its own record would touch it.
  have houtside : ∀ b, merged.contains b → r.range.contains b = false → ¬ (r.range.start ≤ b + 1 ∧ b ≤ r.range.hi) := by
    intro b hmb hrb hnext
    rcases plan.covered b hmb with hb | ⟨x, hx, hxf, hxo, hxt, hb⟩
    · rw [hin.contains hb] at hrb
      cases hrb
    have hne : x ≠ r := by rintro rfl; rw [hb] at hrb; cases hrb
    have := (hap.forall hx hr hne).coalesced (hxf.trans hf.symm) (hxo.trans ho.symm) (Option.some.inj hxt).symm
    rw [Bool.eq_false_iff, ne_eq, touches_iff] at this
    rw [contains_iff] at hb
    omega
  refine ext_hi (Int.le_antisymm h1 (Int.not_lt.mp fun hlo => ?_)) (Int.le_antisymm (Int.not_lt.mp fun hhi => ?_) h2)
  · refine houtside (r.range.start - 1) (contains_iff.mpr (by omega)) ?_ (by omega)
    rw [Bool.eq_false_iff, ne_eq, contains_iff]
    omega
  refine houtside r.range.hi (contains_iff.mpr (by omega)) ?_ (by omega)
  rw [Bool.eq_false_iff, ne_eq, contains_iff]
  omega

theorem Fragment.not_held {whole : LockRecord} (h : Fragment records file owner (some t) requested whole f) : False := by
  obtain rfl := eq_held hap hr hf ho hin h.mem h.file_eq h.owner_eq h.overlaps
  exact h.type_ne (by rw [ht])

/-- Of a file's records, a request inside a held lock removes that one, to
insert it again. -/
theorem Plan.removed_of_held (plan : Plan records file owner (some t) requested left right merged) :
    (records.filter fun x => x.file == file).filter (shouldRemove owner (some t) requested merged) = [r] := by
  refine filter_eq_singleton ((nodup_of_apart hap).filter _) (by simp [hr, hf]) fun x hx => ?_
  obtain ⟨hx, hxf⟩ := mem_filter.mp hx
  simp only [beq_iff_eq] at hxf
  rw [shouldRemove_iff, plan.merged_of_held hap hr hf ho hin ht]
  constructor
  · rintro ⟨hxo, hover | ⟨hxt, htouch⟩⟩
    · exact eq_held hap hr hf ho hin hx hxf hxo hover
    by_contra hne
    have := (hap.forall hx hr hne).coalesced (hxf.trans hf.symm) (hxo.trans ho.symm)
      ((Option.some.inj hxt).symm.trans ht.symm)
    rw [htouch] at this
    cases this
  · rintro rfl
    exact ⟨ho, .inl (overlaps_of_inside hin)⟩

end Held

/-! ### The outcome -/

/-- The conflict test of `set_lock` and `get_blocking_lock` agree. -/
theorem anyBlocks_iff : anyBlocks owner lockType requested (m.fileSlice file) ↔
    ∃ t, lockType = some t ∧ (m.getBlockingLock file owner t requested).isSome := by
  cases lockType <;> simp [anyBlocks, getBlockingLock]

theorem free_of_not_blocked (h : Sorted recordCmp m.records)
    (hb : ¬ ∃ t, lockType = some t ∧ (m.getBlockingLock file owner t requested).isSome) :
    Free m.records file owner lockType requested := by
  intro t ht r hr hf
  rw [Bool.eq_false_iff]
  exact fun hbl => hb ⟨t, ht, (getBlockingLock_isSome h).mpr ⟨r, hr, hf, hbl⟩⟩

theorem Free.not_blocked (h : Sorted recordCmp m.records) (hfree : Free m.records file owner lockType requested) :
    ¬ ∃ t, lockType = some t ∧ (m.getBlockingLock file owner t requested).isSome := by
  rintro ⟨t, ht, hsome⟩
  obtain ⟨r, hr, hf, hb⟩ := (getBlockingLock_isSome h).mp hsome
  rw [hfree t ht r hr hf] at hb
  cases hb

theorem removed_eq_zero (h : Sorted recordCmp m.records) :
    ((m.fileSlice file).filter (shouldRemove owner none requested merged)).length = 0 ↔ Idle m.records file owner requested none := by
  simp only [length_eq_zero_iff, filter_eq_nil_iff, mem_fileSlice h, shouldRemove_iff, Idle]
  simp

/-- The test for a request that changes nothing is exact. -/
theorem noop_iff (h : Inv m.records) (plan : Plan m.records file owner (some t) requested left right merged) :
    (((m.fileSlice file).filter (shouldRemove owner (some t) requested merged)).length = 1 ∧
      left.isSome.toNat + (some t).isSome.toNat + right.isSome.toNat = 1 ∧ left = none ∧ right = none ∧
      (some (LockRecord.mk file owner t merged)).isSome ∧ (m.fileSlice file).find? (shouldRemove owner (some t) requested merged) =
        some (LockRecord.mk file owner t merged)) ↔ Idle m.records file owner requested (some t) := by
  constructor
  · rintro ⟨-, -, -, -, -, hfind⟩
    obtain ⟨hr, hf⟩ := (mem_fileSlice h.sorted).mp (mem_of_find?_eq_some hfind)
    exact ⟨_, hr, hf, rfl, rfl, plan.start_le, plan.le_hi⟩
  rintro ⟨r, hr, hf, ho, ht, hin⟩
  have hl : left = none := Option.eq_none_iff_forall_not_mem.mpr fun f hf' => by
    obtain ⟨-, w, hw⟩ := plan.left_fragment hf'
    exact hw.not_held h.apart hr hf ho hin ht
  have hr' : right = none := Option.eq_none_iff_forall_not_mem.mpr fun f hf' => by
    obtain ⟨-, w, hw⟩ := plan.right_fragment hf'
    exact hw.not_held h.apart hr hf ho hin ht
  have hrec : .mk file owner t merged = r := by
    rw [plan.merged_of_held h.apart hr hf ho hin ht, ← hf, ← ho, ← ht]
  have hrem := plan.removed_of_held h.apart hr hf ho hin ht
  rw [← fileSlice_eq h.sorted] at hrem
  rw [← head?_filter, hrem, hl, hr', hrec]
  simp

/-- The length the code computes for the new vector is the one it gets. -/
theorem committed_length (h : Sorted recordCmp m.records) :
    (committed m.records file owner lockType requested left right merged).length =
      m.records.length - ((m.fileSlice file).filter (shouldRemove owner lockType requested merged)).length +
        (left.isSome.toNat + lockType.isSome.toNat + right.isSome.toNat) := by
  have hsplit := length_eq_length_filter_add (l := m.records)
    fun r => !(r.file == file) || !shouldRemove owner lockType requested merged r
  have hrem : (m.fileSlice file).filter (shouldRemove owner lockType requested merged) =
      m.records.filter fun r => !(!(r.file == file) || !shouldRemove owner lockType requested merged r) := by
    rw [fileSlice_eq h, filter_filter]
    exact filter_congr fun r _ => by simp [Bool.and_comm]
  rw [hrem]
  cases left <;> cases right <;> cases lockType <;> simp [committed] at hsplit ⊢ <;> omega

/-- The wakeup hint `set_lock` computes from counts and type changes. -/
theorem mayUnblock_iff (h : Sorted recordCmp m.records) :
    ((lockType.isNone && ((m.fileSlice file).filter (shouldRemove owner lockType requested merged)).length != 0) ||
      (splitRecords owner lockType requested (m.fileSlice file)).typeChanged) ↔ Releases m.records file owner lockType requested := by
  rw [Bool.or_eq_true, splitRecords_typeChanged]
  simp only [mem_fileSlice h]
  cases lockType with
  | none =>
    simp only [Option.isNone_none, Bool.true_and, bne_iff_ne, ne_eq, removed_eq_zero h, Idle, Releases]
    simp
  | some t =>
    simp only [Releases, and_assoc]
    simp [eq_comm (a := t)]

/-- Every call of `set_lock` ends in one of the ways of `Outcome`. -/
theorem setLock_outcome (h : Inv m.records) (alloc : Allocator) (file : FileId) (owner : LockOwner)
    (lockType : Option AdvisoryLockType) (req : LockRange) :
    Outcome m file owner lockType req (m.setLock alloc file owner lockType req) := by
  have plan := plan_of_scan h.sorted h.apart file owner lockType req
  unfold setLock
  extract_lets slice split merged remove removedCount pieceCount replacement finalLen
  by_cases hb : anyBlocks owner lockType req slice
  · obtain ⟨t, ht, hsome⟩ := anyBlocks_iff.mp hb
    rw [if_pos hb]
    exact .blocked t ht hsome
  have hfree := free_of_not_blocked h.sorted fun hc => hb (anyBlocks_iff.mpr hc)
  rw [if_neg hb]
  have hidle : (removedCount = 0 ∧ lockType = none) ∨ (removedCount = 1 ∧ pieceCount = 1 ∧ split.leftFragment = none ∧
      split.rightFragment = none ∧ replacement.isSome ∧ slice.find? remove = replacement) ↔ Idle m.records file owner req lockType := by
    cases lockType with
    | none =>
      refine ⟨?_, fun hi => .inl ⟨(removed_eq_zero h.sorted).mpr hi, rfl⟩⟩
      rintro (hz | hz)
      · exact (removed_eq_zero h.sorted).mp hz.1
      · cases hz.2.2.2.2.1
    | some t =>
      refine ⟨?_, fun hi => .inr ((noop_iff h plan).mpr hi)⟩
      rintro (hz | hz)
      · cases hz.2
      · exact (noop_iff h plan).mp hz
  by_cases hi : Idle m.records file owner req lockType
  · have hout : Outcome m file owner lockType req (.ok {}, m) := .idle hfree hi
    rcases hidle.mpr hi with h1 | h2
    · rwa [if_pos h1]
    by_cases h1 : removedCount = 0 ∧ lockType = none
    · rwa [if_pos h1]
    · rwa [if_neg h1, if_pos h2]
  rw [if_neg (fun hc => hi (hidle.mp (.inl hc))), if_neg (fun hc => hi (hidle.mp (.inr hc)))]
  split
  · exact .refused hfree
  rename_i hmax
  rcases ensureCapacity_cases m alloc finalLen with he | ⟨capacity, he⟩
  · rw [he]
    exact .refused hfree
  rw [he]
  have hperm := commit_perm (m := { m with capacity }) h.sorted file owner lockType req merged
    split.leftFragment split.rightFragment
  refine .committed split.leftFragment split.rightFragment merged _ _ hfree hi plan hperm
    (commit_sorted (m := { m with capacity }) h.sorted _ _ _ _ _) ?_ (mayUnblock_iff h.sorted)
  have hlen : (committed m.records file owner lockType req split.leftFragment split.rightFragment merged).length =
      finalLen := committed_length h.sorted
  exact Nat.le_trans (Nat.le_of_eq (hperm.length_eq.trans hlen)) (Nat.le_of_not_gt fun hgt => hmax (.inr hgt))

/-- Any outcome keeps the invariant. -/
theorem Outcome.inv {res : Except Errno LockMutation × AdvisoryLockManager} (h : Inv m.records)
    (ho : Outcome m file owner lockType requested res) : Inv res.2.records := by
  cases ho with
  | blocked | refused | idle => exact h
  | committed left right merged mayUnblock m' hfree _ plan hperm hsorted hlen _ =>
    exact ⟨hsorted, (hperm.pairwise_iff .symm).mpr (plan.committed_apart h.apart hfree), hlen⟩

/-! ## The removals -/

/-- A removal filters the vector, and reports whether that dropped a record. -/
structure Removal (m : AdvisoryLockManager) (keep : LockRecord → Bool)
    (res : LockMutation × AdvisoryLockManager) : Prop where
  records_eq : res.2.records = m.records.filter keep
  unblock_eq : res.1.mayUnblock = res.1.changed
  changed_iff : res.1.changed ↔ res.2.records ≠ m.records

theorem retain_removal (m : AdvisoryLockManager) (keep : LockRecord → Bool) : Removal m keep (m.retain keep) := by
  refine ⟨rfl, rfl, ?_⟩
  simp [retain]

theorem removeFileOwner_removal (h : Sorted recordCmp m.records) (file : FileId) (owner : LockOwner) :
    Removal m (fun r => !(r.file == file) || !(r.owner == owner)) (m.removeFileOwner file owner) := by
  refine ⟨by simp [removeFileOwner, compact_slice_eq h], rfl, ?_⟩
  obtain ⟨h1, h2, -⟩ := fileBounds_spec h file
  have hlen : (m.fileSlice file).length = (m.fileBounds file).2 - (m.fileBounds file).1 := by
    simp only [fileSlice, length_take, length_drop]
    omega
  have hle := length_filter_le (fun r => !(r.owner == owner)) (m.fileSlice file)
  have heq : ((m.fileSlice file).filter fun r => !(r.owner == owner)).length = (m.fileSlice file).length ↔
      m.records.filter (fun r => !(r.file == file) || !(r.owner == owner)) = m.records := by
    rw [length_filter_eq_length_iff]
    simp only [mem_fileSlice h]
    simp [or_iff_not_imp_left]
  simp only [removeFileOwner, compact_slice_eq h, bne_iff_ne, ne_eq, ← heq]
  omega

/-! ## Runs -/

/-- The calls that change the manager. -/
inductive LockOp
  | setLock (alloc : Allocator) (file : FileId) (owner : LockOwner) (lockType : Option AdvisoryLockType)
      (requested : LockRange)
  | removeProcessFile (pid : Nat) (file : FileId)
  | removeFileOwner (file : FileId) (owner : LockOwner)
  | removeProcess (pid : Nat)
  | removeOfd (ofdId : OfdId)
  | removeDeadOfdOwners (live : OfdId → Bool)

def AdvisoryLockManager.call (m : AdvisoryLockManager) : LockOp → Except Errno LockMutation × AdvisoryLockManager
  | .setLock alloc file owner lockType requested => m.setLock alloc file owner lockType requested
  | .removeProcessFile pid file => (m.removeProcessFile pid file).map .ok id
  | .removeFileOwner file owner => (m.removeFileOwner file owner).map .ok id
  | .removeProcess pid => (m.removeProcess pid).map .ok id
  | .removeOfd ofdId => (m.removeOfd ofdId).map .ok id
  | .removeDeadOfdOwners live => (m.removeDeadOfdOwners live).map .ok id

/-- The managers any sequence of calls leads to. -/
abbrev AdvisoryLockManager.Reachable (m : AdvisoryLockManager) : Prop :=
  Machine.Reachable (· = AdvisoryLockManager.new) AdvisoryLockManager.call m

/-- A call sets a lock or is a removal. -/
theorem call_cases (h : Inv m.records) (op : LockOp) :
    (∃ file owner lockType requested, Outcome m file owner lockType requested (m.call op)) ∨
      ∃ keep mutation, (m.call op).1 = .ok mutation ∧ Removal m keep (mutation, (m.call op).2) := by
  cases op with
  | setLock alloc file owner lockType requested =>
    exact .inl ⟨file, owner, lockType, requested, setLock_outcome h alloc _ _ _ _⟩
  | removeProcessFile pid file => exact .inr ⟨_, _, rfl, removeFileOwner_removal h.sorted file (.process pid)⟩
  | removeFileOwner file owner => exact .inr ⟨_, _, rfl, removeFileOwner_removal h.sorted file owner⟩
  | _ => exact .inr ⟨_, _, rfl, retain_removal m _⟩

theorem Inv.call (h : Inv m.records) (op : LockOp) : Inv (m.call op).2.records := by
  rcases call_cases h op with ⟨_, _, _, _, ho⟩ | ⟨keep, mutation, -, hr⟩
  · exact ho.inv h
  · rw [hr.records_eq]
    exact h.sublist filter_sublist

theorem AdvisoryLockManager.Reachable.inv (h : m.Reachable) : Inv m.records := by
  refine Machine.Reachable.invariant (I := fun m => Inv m.records) ?_ (fun _ op hi => hi.call op) h
  rintro s rfl
  exact .nil

/-- The vector in every reachable state: sorted, of non-empty ranges, disjoint
within one file and owner, coalesced within one type, free of conflicts between
the owners of a namespace, and no longer than the machine's limit. -/
theorem reachable_records_normal {m : AdvisoryLockManager} (h : m.Reachable) :
    Sorted recordCmp m.records ∧ (∀ r ∈ m.records, r.range.start < r.range.hi) ∧ m.records.Pairwise (fun a b =>
        (a.file = b.file → a.owner = b.owner → ∀ x, ¬ (a.range.contains x = true ∧ b.range.contains x = true)) ∧
        (a.file = b.file → a.owner = b.owner → a.lockType = b.lockType → a.range.touchesOrOverlaps b.range = false) ∧
        (a.file = b.file → a.owner ≠ b.owner → a.owner.conflictsInNamespace b.owner = true →
          (a.lockType = .write ∨ b.lockType = .write) → ∀ x, ¬ (a.range.contains x = true ∧ b.range.contains x = true))) ∧
      m.records.length ≤ MAX_ADVISORY_LOCK_RECORDS := by
  have hinv := h.inv
  refine ⟨hinv.sorted, fun r _ => r.range.start_lt_hi, hinv.apart.imp fun {a b} hab => ⟨?_, hab.coalesced, ?_⟩, hinv.bounded⟩
  · rintro hf ho x ⟨ha, hb⟩
    exact not_share (hab.disjoint hf ho) ha hb
  · rintro hf ho hn hw x ⟨ha, hb⟩
    exact not_share (hab.compatible hf ho hn hw) ha hb

/-- A write lock with its middle downgraded to a read lock. -/
def downgradeCalls : List LockOp :=
  [.setLock some (.host 1 2) (.process 7) (some .write) .whole,
    .setLock some (.host 1 2) (.process 7) (some .read) ⟨10, .offset 20, by simp [i64Max]⟩]

def downgraded : AdvisoryLockManager := downgradeCalls.foldl (fun m op => (m.call op).2) .new

theorem downgraded_reachable : downgraded.Reachable := .next _ (.next _ (.start rfl))

theorem downgraded_records_normal : downgraded.records.length = 3 ∧ Sorted recordCmp downgraded.records :=
  ⟨by decide, (reachable_records_normal downgraded_reachable).1⟩

end Kandelo.Lock

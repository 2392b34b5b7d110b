/-
What the lock manager is for: a map from file, owner and byte to the lock held
there. `set_lock` refines the update of that map on the requested bytes, its
`changed` answer says whether the map changed, and its conflict test is
conflict in the map. From that, no wakeup is lost: a request that some call
unblocks was held up by a byte the call released or downgraded, and then the
call says so.
-/
import Kandelo.Lock.Invariant

namespace Kandelo.Lock

open SortedVec LockRange

/-- Who holds which lock on which byte. -/
abbrev LockMap := FileId → LockOwner → Int → Option AdvisoryLockType

/-- The map with the requested bytes of one file and owner set to `lockType`. -/
def LockMap.set (map : LockMap) (file : FileId) (owner : LockOwner) (lockType : Option AdvisoryLockType)
    (requested : LockRange) : LockMap := fun f o b =>
  if f = file ∧ o = owner ∧ requested.contains b then lockType else map f o b

/-- Another owner of the namespace holds a requested byte, and one of the two
locks is exclusive. -/
def LockMap.Blocked (map : LockMap) (file : FileId) (owner : LockOwner) (lockType : AdvisoryLockType) (range : LockRange) : Prop :=
  ∃ o b t, o ≠ owner ∧ o.conflictsInNamespace owner ∧ range.contains b ∧ map file o b = some t ∧ (t = .write ∨ lockType = .write)

/-- The map a record vector stands for. -/
def lockMap (records : List LockRecord) : LockMap := fun file owner b =>
  (records.find? fun r => r.file == file && r.owner == owner && r.range.contains b).map (·.lockType)

variable {t : AdvisoryLockType} {owner : LockOwner} {b : Int} {file : FileId}

theorem lockMap_eq_some {records : List LockRecord} (hap : records.Pairwise Apart) : lockMap records file owner b = some t ↔
      ∃ r ∈ records, r.file = file ∧ r.owner = owner ∧ r.range.contains b ∧ r.lockType = t := by
  simp only [lockMap, Option.map_eq_some_iff]
  constructor
  · rintro ⟨r, hfind, ht⟩
    have hp := List.find?_some hfind
    simp only [Bool.and_eq_true, beq_iff_eq, and_assoc] at hp
    exact ⟨r, List.mem_of_find?_eq_some hfind, hp.1, hp.2.1, hp.2.2, ht⟩
  rintro ⟨r, hr, hf, ho, hb, ht⟩
  have hsome : (records.find? fun r => r.file == file && r.owner == owner && r.range.contains b).isSome := by
    rw [List.find?_isSome]
    exact ⟨r, hr, by simp [hf, ho, hb]⟩
  obtain ⟨x, hx⟩ := Option.isSome_iff_exists.mp hsome
  have hp := List.find?_some hx
  simp only [Bool.and_eq_true, beq_iff_eq, and_assoc] at hp
  -- Only one record of an owner covers a byte, so the first found is `r`.
  obtain rfl := eq_of_share hap (List.mem_of_find?_eq_some hx) hr (hp.1.trans hf.symm) (hp.2.1.trans ho.symm) hp.2.2 hb
  exact ⟨x, hx, ht⟩

/-- The conflict test of the manager is conflict in the map. -/
theorem getBlockingLock_iff_blocked {m : AdvisoryLockManager} (h : Inv m.records) {range : LockRange} :
    (m.getBlockingLock file owner t range).isSome ↔ (lockMap m.records).Blocked file owner t range := by
  rw [getBlockingLock_isSome h.sorted]
  simp only [LockMap.Blocked, lockMap_eq_some h.apart, LockRecord.blocks_iff]
  constructor
  · rintro ⟨r, hr, hf, ho, hn, b, hrb, hb, hw⟩
    exact ⟨r.owner, b, r.lockType, ho, hn, hb, ⟨r, hr, hf, rfl, hrb, rfl⟩, hw⟩
  · rintro ⟨o, b, t', ho, hn, hb, ⟨r, hr, hf, rfl, hrb, rfl⟩, hw⟩
    exact ⟨r, hr, hf, ho, hn, b, hrb, hb, hw⟩

/-! ## The committed vector stands for the updated map -/

section Committed

variable {records : List LockRecord} {file : FileId} {owner : LockOwner} {lockType : Option AdvisoryLockType}
  {requested merged : LockRange} {left right : Option LockRecord}

variable {x : LockRecord}

theorem mem_committed : x ∈ committed records file owner lockType requested left right merged ↔
    right = some x ∨ (∃ t, lockType = some t ∧ x = ⟨file, owner, t, merged⟩) ∨ left = some x ∨
      x ∈ records ∧ (x.file = file → shouldRemove owner lockType requested merged x = false) := by
  simp [committed, beq_eq_false_iff_ne, imp_iff_not_or, eq_comm (a := x)]

section

variable (plan : Plan records file owner lockType requested left right merged)

include plan

section

variable (hx : x ∈ committed records file owner lockType requested left right merged)

include hx

/-- A committed record on a requested byte of the owner is the new lock. -/
theorem Plan.on_request (hf : x.file = file) (ho : x.owner = owner) (hb : x.range.contains b) (hreq : requested.contains b) :
    lockType = some x.lockType := by
  rcases mem_committed.mp hx with h | ⟨t, ht, rfl⟩ | h | ⟨hr, hkeep⟩
  · obtain ⟨-, r, hfrag⟩ := plan.right_fragment h
    exact (not_share hfrag.off hb hreq).elim
  · exact ht
  · obtain ⟨-, r, hfrag⟩ := plan.left_fragment h
    exact (not_share hfrag.off hb hreq).elim
  · have := hkeep hf
    rw [shouldRemove_iff.mpr ⟨ho, .inl (overlaps_iff_exists.mpr ⟨b, hb, hreq⟩)⟩] at this
    cases this

/-- A committed record off the requested bytes was there before. -/
theorem Plan.off_request (hb : x.range.contains b) (hoff : ¬ (x.file = file ∧ x.owner = owner ∧ requested.contains b)) :
    ∃ r ∈ records, r.file = x.file ∧ r.owner = x.owner ∧ r.range.contains b ∧ r.lockType = x.lockType := by
  have hpart : ∀ {r}, Fragment records file owner lockType requested r x →
      ∃ r ∈ records, r.file = x.file ∧ r.owner = x.owner ∧ r.range.contains b ∧ r.lockType = x.lockType := by
    intro r hfrag
    refine ⟨r, hfrag.mem, ?_, ?_, hfrag.inside.contains hb, ?_⟩ <;> rw [hfrag.part]
  rcases mem_committed.mp hx with h | ⟨t, ht, rfl⟩ | h | ⟨hr, -⟩
  · obtain ⟨-, r, hfrag⟩ := plan.right_fragment h
    exact hpart hfrag
  · rcases plan.covered b hb with hreq | ⟨r, hr, hf, ho, hrt, hrb⟩
    · exact (hoff ⟨rfl, rfl, hreq⟩).elim
    · rw [ht] at hrt
      exact ⟨r, hr, hf, ho, hrb, (Option.some.inj hrt).symm⟩
  · obtain ⟨-, r, hfrag⟩ := plan.left_fragment h
    exact hpart hfrag
  · exact ⟨x, hr, rfl, rfl, hb, rfl⟩

end

/-- What was held off the requested bytes is still held. -/
theorem Plan.still_held {r : LockRecord} (hr : r ∈ records) (hb : r.range.contains b)
    (hoff : ¬ (r.file = file ∧ r.owner = owner ∧ requested.contains b)) :
    ∃ x ∈ committed records file owner lockType requested left right merged,
      x.file = r.file ∧ x.owner = r.owner ∧ x.range.contains b ∧ x.lockType = r.lockType := by
  by_cases hkeep : r.file = file → shouldRemove owner lockType requested merged r = false
  · exact ⟨r, mem_committed.mpr (.inr (.inr (.inr ⟨hr, hkeep⟩))), rfl, rfl, hb, rfl⟩
  rw [Classical.not_imp, Bool.not_eq_false, shouldRemove_iff] at hkeep
  obtain ⟨hf, ho, hrem⟩ := hkeep
  have hb' := contains_iff.mp hb
  by_cases ht : lockType = some r.lockType
  · -- Of the requested type: all of it is merged into the new lock.
    have htouch : r.range.touchesOrOverlaps merged := by
      rcases hrem with hover | ⟨-, htouch⟩
      · exact touches_of_inside (touches_of_overlaps hover) ⟨plan.start_le, plan.le_hi⟩
      · exact htouch
    exact ⟨⟨file, owner, r.lockType, merged⟩, mem_committed.mpr (.inr (.inl ⟨r.lockType, ht, rfl⟩)), hf.symm, ho.symm,
      (plan.absorbed r hr hf ho ht htouch).contains hb, rfl⟩
  -- Of another type: the byte is in the part before or after the request.
  have hover := hrem.resolve_right fun h => ht h.1
  have hreq : ¬ requested.contains b := fun h => hoff ⟨hf, ho, h⟩
  rw [contains_iff] at hreq
  by_cases hlow : b < requested.start
  · have hs : r.range.start < requested.start := by omega
    have hpiece := (plan.left_iff _).mpr ⟨r, hr, hf, leftPiece_eq_some.mpr ⟨⟨ho, hover, ht⟩, hs, rfl⟩⟩
    refine ⟨_, mem_committed.mpr (.inr (.inr (.inl hpiece))), rfl, rfl, ?_, rfl⟩
    rw [contains_iff]
    simp only [leftOf_start, leftOf_hi]
    omega
  have hs : compare requested.stop r.range.stop = .lt := compare_stop_lt.mpr (by omega)
  have hpiece := (plan.right_iff _).mpr ⟨r, hr, hf, rightPiece_eq_some.mpr ⟨⟨ho, hover, ht⟩, hs, rfl⟩⟩
  refine ⟨_, mem_committed.mpr (.inl hpiece), rfl, rfl, ?_, rfl⟩
  rw [contains_iff]
  simp only [rightOf_start, rightOf_hi]
  omega

/-- The committed vector, in any order, stands for the updated map. -/
theorem Plan.lockMap_eq (hap : records.Pairwise Apart) {records' : List LockRecord} (hap' : records'.Pairwise Apart)
    (hperm : records'.Perm (committed records file owner lockType requested left right merged)) :
    lockMap records' = (lockMap records).set file owner lockType requested := by
  funext f o b
  refine Option.ext fun t => ?_
  simp only [lockMap_eq_some hap', hperm.mem_iff, LockMap.set]
  split_ifs with hon
  · obtain ⟨rfl, rfl, hreq⟩ := hon
    constructor
    · rintro ⟨x, hx, hf, ho, hb, rfl⟩
      exact plan.on_request hx hf ho hb hreq
    intro ht
    exact ⟨⟨f, o, t, merged⟩, mem_committed.mpr (.inr (.inl ⟨t, ht, rfl⟩)), rfl, rfl,
      LockRange.Inside.contains ⟨plan.start_le, plan.le_hi⟩ hreq, rfl⟩
  · rw [lockMap_eq_some hap]
    constructor
    · rintro ⟨x, hx, rfl, rfl, hb, rfl⟩
      exact plan.off_request hx hb hon
    · rintro ⟨r, hr, rfl, rfl, hb, rfl⟩
      exact plan.still_held hr hb hon

end

end Committed

/-! ## `set_lock` refines the update -/

section Refinement

variable {m : AdvisoryLockManager} {file : FileId} {owner : LockOwner} {lockType : Option AdvisoryLockType}
  {requested : LockRange}

/-- The requests that ask for what is already so are those whose update
leaves the map as it is. -/
theorem idle_iff_set_eq (h : Inv m.records) : Idle m.records file owner requested lockType ↔
    (lockMap m.records).set file owner lockType requested = lockMap m.records := by
  have hheld : (lockMap m.records).set file owner lockType requested = lockMap m.records ↔
      ∀ b, requested.contains b → lockMap m.records file owner b = lockType := by
    constructor
    · intro heq b hb
      have := congrFun (congrFun (congrFun heq file) owner) b
      simpa [LockMap.set, hb] using this.symm
    intro hall
    funext f o b
    simp only [LockMap.set]
    split_ifs with hon
    · obtain ⟨rfl, rfl, hb⟩ := hon
      exact (hall b hb).symm
    · rfl
  rw [hheld]
  cases lockType with
  | none =>
    constructor
    · intro hidle b hb
      refine Option.eq_none_iff_forall_ne_some.mpr fun t ht => ?_
      obtain ⟨r, hr, hf, ho, hrb, -⟩ := (lockMap_eq_some h.apart).mp ht
      exact not_share (hidle r hr hf ho) hrb hb
    intro hall r hr hf ho
    rw [Bool.eq_false_iff]
    intro hover
    obtain ⟨b, hrb, hb⟩ := overlaps_iff_exists.mp hover
    have hsome := (lockMap_eq_some h.apart).mpr ⟨r, hr, hf, ho, hrb, rfl⟩
    rw [hall b hb] at hsome
    cases hsome
  | some t =>
    constructor
    · rintro ⟨r, hr, hf, ho, ht, hin⟩ b hb
      exact (lockMap_eq_some h.apart).mpr ⟨r, hr, hf, ho, hin.contains hb, ht⟩
    intro hall
    have hlt := requested.start_lt_hi
    obtain ⟨r, hr, hf, ho, hrb, ht⟩ := (lockMap_eq_some h.apart).mp
      (hall requested.start (contains_iff.mpr ⟨Int.le_refl _, hlt⟩))
    rw [contains_iff] at hrb
    refine ⟨r, hr, hf, ho, ht, hrb.1, Int.not_lt.mp fun hhi => ?_⟩
    -- The first byte past `r` would be held by a record that touches it.
    obtain ⟨x, hx, hxf, hxo, hxb, hxt⟩ := (lockMap_eq_some h.apart).mp
      (hall r.range.hi (contains_iff.mpr (by omega)))
    rw [contains_iff] at hxb
    have hne : x ≠ r := by rintro rfl; omega
    have hgap := (h.apart.forall hx hr hne).coalesced (hxf.trans hf.symm) (hxo.trans ho.symm) (hxt.trans ht.symm)
    rw [Bool.eq_false_iff, ne_eq, touches_iff] at hgap
    omega

/-- What an outcome does to the map. -/
theorem Outcome.lockMap_eq {m' : AdvisoryLockManager} {mutation : LockMutation} (h : Inv m.records)
    (ho : Outcome m file owner lockType requested (.ok mutation, m')) :
    lockMap m'.records = (lockMap m.records).set file owner lockType requested := by
  have hinv := ho.inv h
  cases ho with
  | idle _ hidle => exact ((idle_iff_set_eq h).mp hidle).symm
  | committed left right merged mayUnblock _ _ _ plan hperm _ _ _ => exact plan.lockMap_eq h.apart hinv.apart hperm

theorem Outcome.changed_iff {m' : AdvisoryLockManager} {mutation : LockMutation} (h : Inv m.records)
    (ho : Outcome m file owner lockType requested (.ok mutation, m')) : mutation.changed ↔ lockMap m'.records ≠ lockMap m.records := by
  rw [ho.lockMap_eq h, ne_eq, ← idle_iff_set_eq h]
  cases ho with
  | idle _ hidle => simpa using hidle
  | committed left right merged mayUnblock _ _ hidle => simpa using hidle

theorem Outcome.eagain_iff {res : Except Errno LockMutation × AdvisoryLockManager} (h : Sorted recordCmp m.records)
    (ho : Outcome m file owner lockType requested res) : res.1 = .error .EAGAIN ↔
      ∃ t, lockType = some t ∧ (m.getBlockingLock file owner t requested).isSome := by
  cases ho with
  | blocked t ht hsome => exact ⟨fun _ => ⟨t, ht, hsome⟩, fun _ => rfl⟩
  | refused hfree => simpa using hfree.not_blocked h
  | idle hfree => simpa using hfree.not_blocked h
  | committed _ _ _ _ _ hfree => simpa using hfree.not_blocked h

end Refinement

/-- `set_lock` in any reachable state is the update of the lock map, or fails
and leaves every record in place. -/
theorem setLock_refines_update {m : AdvisoryLockManager} (h : m.Reachable) (alloc : Allocator) (file : FileId)
    (owner : LockOwner) (lockType : Option AdvisoryLockType) (requested : LockRange) :
    ((m.setLock alloc file owner lockType requested).1 = .error .EAGAIN ↔
      ∃ t, lockType = some t ∧ (m.getBlockingLock file owner t requested).isSome) ∧
    (∀ mutation, (m.setLock alloc file owner lockType requested).1 = .ok mutation →
      lockMap (m.setLock alloc file owner lockType requested).2.records =
        (lockMap m.records).set file owner lockType requested ∧ (mutation.changed = true ↔
        lockMap (m.setLock alloc file owner lockType requested).2.records ≠ lockMap m.records)) ∧
    ∀ e, (m.setLock alloc file owner lockType requested).1 = .error e →
      (e = .EAGAIN ∨ e = .ENOLCK) ∧ (m.setLock alloc file owner lockType requested).2.records = m.records := by
  have hout := setLock_outcome h.inv alloc file owner lockType requested
  generalize m.setLock alloc file owner lockType requested = res at hout
  obtain ⟨answer, m'⟩ := res
  refine ⟨hout.eagain_iff h.inv.sorted, ?_, ?_⟩
  · rintro mutation rfl
    exact ⟨hout.lockMap_eq h.inv, hout.changed_iff h.inv⟩
  rintro e rfl
  cases hout with
  | blocked => exact ⟨.inl rfl, rfl⟩
  | refused => exact ⟨.inr rfl, rfl⟩

/-- Unlocking the middle of the downgraded lock once more splits the read lock. -/
theorem downgraded_unlock_refines :
    lockMap (downgraded.setLock some (.host 1 2) (.process 7) none ⟨12, .offset 14, by simp [i64Max]⟩).2.records
      (.host 1 2) (.process 7) 13 = none ∧ lockMap downgraded.records (.host 1 2) (.process 7) 13 = some .read :=
  ⟨by rw [((setLock_refines_update downgraded_reachable some _ _ _ _).2.1 _ rfl).1]; decide, by decide⟩

/-! ## No wakeup is lost -/

/-- If an update takes a byte's lock away or changes it, the byte was
requested, and the owner held it at another type. -/
theorem releases_of_update {m : AdvisoryLockManager} (h : Inv m.records) {f : FileId} {o : LockOwner}
    {lockType : Option AdvisoryLockType} {requested : LockRange} (hheld : lockMap m.records f o b = some t)
    (hlost : (lockMap m.records).set file owner lockType requested f o b ≠ some t) :
    Releases m.records file owner lockType requested := by
  obtain ⟨r, hr, hf, ho, hb, rfl⟩ := (lockMap_eq_some h.apart).mp hheld
  simp only [LockMap.set] at hlost
  split_ifs at hlost with hon
  · obtain ⟨rfl, rfl, hreq⟩ := hon
    exact ⟨r, hr, hf, ho, overlaps_iff_exists.mpr ⟨b, hb, hreq⟩, hlost⟩
  · exact absurd hheld hlost

/-- A call that unblocks a request says it may. -/
theorem unblocked_request_is_announced {m : AdvisoryLockManager} (h : m.Reachable) (op : LockOp)
    {mutation : LockMutation} (hok : (m.call op).1 = .ok mutation) (file : FileId) (owner : LockOwner)
    (lockType : AdvisoryLockType) (range : LockRange) (hbefore : (m.getBlockingLock file owner lockType range).isSome)
    (hafter : (m.call op).2.getBlockingLock file owner lockType range = none) : mutation.mayUnblock = true := by
  have hinv := h.inv
  have hinv' := hinv.call op
  rw [getBlockingLock_iff_blocked hinv] at hbefore
  have hnot : ¬ (lockMap (m.call op).2.records).Blocked file owner lockType range := by
    rw [← getBlockingLock_iff_blocked hinv', hafter]
    simp
  rcases call_cases hinv op with ⟨f, o, want, requested, hout⟩ | ⟨keep, mutation', hok', hrem⟩
  · generalize m.call op = res at hout hok hnot
    obtain ⟨answer, m'⟩ := res
    subst hok
    obtain ⟨o', b, t, hne, hn, hb, hheld, hw⟩ := hbefore
    have hlost : lockMap m'.records file o' b ≠ some t := fun hstill => hnot ⟨o', b, t, hne, hn, hb, hstill, hw⟩
    have hmap := hout.lockMap_eq hinv
    rw [hmap] at hlost
    have hrel := releases_of_update hinv hheld hlost
    cases hout with
    | idle _ hidle =>
      rw [(idle_iff_set_eq hinv).mp hidle] at hlost
      exact absurd hheld hlost
    | committed _ _ _ _ _ _ _ _ _ _ _ hmay => exact hmay.mpr hrel
  · rw [hok] at hok'
    cases hok'
    have hchanged := hrem.changed_iff
    rw [hrem.unblock_eq, hchanged]
    intro hsame
    rw [hsame] at hnot
    exact hnot hbefore

/-- Unlocking the file lets a waiting reader in, and says so. -/
theorem unlock_announces_reader : ∃ mutation,
    (downgraded.call (.setLock some (.host 1 2) (.process 7) none .whole)).1 = .ok mutation ∧ mutation.mayUnblock = true :=
  ⟨_, rfl, unblocked_request_is_announced downgraded_reachable (.setLock some (.host 1 2) (.process 7) none .whole)
    rfl (.host 1 2) (.process 8) .read .whole (by decide) (by decide)⟩

end Kandelo.Lock

/-
What a descriptor table is for: a slot for every descriptor number and a limit
(`Descriptors`). `FdTable.abs` reads the table so, with every number past its
storage free, and each call is specified by what it does to that reading. How
the slots are stored, grown and given back is invisible in it.

`Inv` is what the calls rely on and keep: the counter counts the slots in use
behind the inline ones, which is why giving storage back loses no descriptor,
and every stored index is an `i32`.
-/
import Kandelo.Fd.Table

namespace Kandelo.Fd

open List

variable {i : Nat}

theorem tryFrom_ofNat (h : i ≤ i32Max) : tryFrom (Int32.ofNat i) = some i := by
  have hlt : i < 2 ^ 31 := Nat.lt_of_le_of_lt h (by decide)
  have hnonneg : ¬ Int32.ofNat i < 0 := by
    rw [Int32.lt_iff_toInt_lt, Int32.toInt_ofNat_of_lt hlt]
    exact Int.not_lt.2 (Int.natCast_nonneg i)
  rw [tryFrom, if_neg hnonneg, Int32.toNatClampNeg_ofNat_of_lt hlt]

theorem tryFrom_some {fd : Int32} (h : tryFrom fd = some i) : fd = Int32.ofNat i ∧ i ≤ i32Max := by
  unfold tryFrom at h
  split at h
  · cases h
  rename_i hneg
  cases h
  refine ⟨(Int32.ofNat_toNatClampNeg fd (Int32.not_lt.1 hneg)).symm, ?_⟩
  exact Nat.le_sub_one_of_lt fd.toNatClampNeg_lt

/-- A slot for every descriptor number, and the first number not to be given out. -/
@[ext]
structure Descriptors where
  slotOf : Nat → FdSlot
  limit : Nat

namespace Descriptors

def put (d : Descriptors) (i : Nat) (s : FdSlot) : Descriptors := { d with slotOf := Function.update d.slotOf i s }

/-- `i` may be given to a call that asks for a number from `min` on. -/
def Available (d : Descriptors) (min i : Nat) : Prop := min ≤ i ∧ d.slotOf i = .free ∧ i < d.limit ∧ i ≤ i32Max

/-- `i` is the number POSIX asks for: the least available one. -/
def Lowest (d : Descriptors) (min i : Nat) : Prop := IsLeast {j | d.Available min j} i

theorem put_put (d : Descriptors) (i : Nat) (s s' : FdSlot) : (d.put i s).put i s' = d.put i s' := by
  simp [put]

theorem put_self (d : Descriptors) {s : FdSlot} (h : d.slotOf i = s) : d.put i s = d := by
  subst h
  simp [put]

/-- The descriptors without their reservations: what a lookup, an iteration and a clone see. -/
def visible (d : Descriptors) : Descriptors where
  limit := d.limit
  slotOf i :=
    match d.slotOf i with
    | .opened entry => .opened entry
    | _ => .free

/-- `fd` is open with `entry`. -/
def OpenAt (d : Descriptors) (fd : Int32) (entry : FdEntry) : Prop := ∃ i, tryFrom fd = some i ∧ d.slotOf i = .opened entry

/-- The least free number is available or none is. -/
theorem lowest_of_free {d : Descriptors} {min : Nat} (hmin : min ≤ i) (hi : d.slotOf i = .free)
    (hbelow : ∀ j, min ≤ j → j < i → d.slotOf j ≠ .free) : (i < d.limit ∧ i ≤ i32Max → d.Lowest min i) ∧
      (d.limit ≤ i ∨ i32Max < i → ∀ j, ¬ d.Available min j) := by
  have hle : ∀ j, d.Available min j → i ≤ j := by
    intro j hj
    by_contra hlt
    exact hbelow j hj.1 (Nat.lt_of_not_le hlt) hj.2.1
  refine ⟨fun h => ⟨⟨hmin, hi, h⟩, hle⟩, fun h j hj => ?_⟩
  have := hle j hj
  have := hj.2.2
  omega

end Descriptors

namespace FdTable

/-! ## Reading a table -/

def abs (t : FdTable) : Descriptors := ⟨fun i => (t.slot i).getD .free, t.maxFds⟩

section

variable (t : FdTable)

theorem slot_eq (i : Nat) : t.slot i = (t.inline ++ t.slots.values)[i]? := by
  simp only [slot, getElem?_append]

@[simp] theorem abs_limit : t.abs.limit = t.maxFds := rfl

theorem abs_slotOf (i : Nat) : t.abs.slotOf i = (t.slot i).getD .free := rfl

theorem abs_slotOf_of_ge (h : t.slotCount ≤ i) : t.abs.slotOf i = .free := by
  have hnone : t.slot i = none := by
    rw [slot_eq, getElem?_eq_none_iff, length_append]
    exact h
  rw [abs_slotOf, hnone, Option.getD_none]

/-- Away from free slots the table and its reading agree. -/
theorem slot_eq_some_iff {s : FdSlot} (hs : s ≠ .free) : t.slot i = some s ↔ t.abs.slotOf i = s := by
  rw [abs_slotOf]
  cases t.slot i with
  | none => simpa using fun h => hs h.symm
  | some s' => simp

theorem slot_eq_free_iff (hi : i < t.slotCount) : t.slot i = some .free ↔ t.abs.slotOf i = .free := by
  obtain ⟨s, hs⟩ : ∃ s, t.slot i = some s := by
    rw [slot_eq]
    exact ⟨_, getElem?_eq_getElem (by rw [length_append]; exact hi)⟩
  simp [abs_slotOf, hs]

end

variable {t t' : FdTable}

/-- Two tables that read alike have the same slots in use. -/
theorem ext_slot (hslots : ∀ i, (t'.slot i).getD .free = (t.slot i).getD .free) (hmax : t'.maxFds = t.maxFds) : t'.abs = t.abs :=
  Descriptors.ext (funext hslots) hmax

/-! ## The invariant -/

structure Inv (t : FdTable) : Prop where
  counted : t.occupiedSlots = t.slots.values.countP (· ≠ .free)
  small : t.slotCount ≤ i32Max + 1

theorem inv_withMax (maxFds : Nat) : (withMax maxFds).Inv where
  counted := rfl
  small := show 3 ≤ i32Max + 1 by decide

theorem abs_withMax (maxFds : Nat) : (withMax maxFds).abs = ⟨fun _ => .free, maxFds⟩ := by
  refine Descriptors.ext (funext fun i => ?_) rfl
  match i with
  | 0 | 1 | 2 => rfl
  | i + 3 => exact abs_slotOf_of_ge _ (Nat.le_add_left 3 i)

/-! ## Storing one slot -/

@[simp] theorem replaceSlot_maxFds (t : FdTable) (i : Nat) (s : FdSlot) (h : i < t.slotCount) :
    (t.replaceSlot i s h).maxFds = t.maxFds := by
  unfold replaceSlot
  split <;> rfl

theorem replaceSlot_list (t : FdTable) (i : Nat) (s : FdSlot) (h : i < t.slotCount) :
    (t.replaceSlot i s h).inline ++ (t.replaceSlot i s h).slots.values = (t.inline ++ t.slots.values).set i s := by
  unfold replaceSlot
  split
  · rw [set_append_left _ _ ‹_›]
  · rw [set_append_right _ _ (Nat.le_of_not_lt ‹_›)]
    rfl

theorem abs_replaceSlot (t : FdTable) (i : Nat) (s : FdSlot) (h : i < t.slotCount) : (t.replaceSlot i s h).abs = t.abs.put i s := by
  refine Descriptors.ext (funext fun j => ?_) (replaceSlot_maxFds t i s h)
  have hlen : i < (t.inline ++ t.slots.values).length := by rw [length_append]; exact h
  simp only [Descriptors.put, Function.update_apply, abs_slotOf, slot_eq, replaceSlot_list, getElem?_set, hlen]
  by_cases hj : i = j
  · simp [hj]
  · simp [hj, Ne.symm hj]

theorem Inv.replaceSlot (ht : t.Inv) (i : Nat) (s : FdSlot) (h : i < t.slotCount) : (t.replaceSlot i s h).Inv := by
  have hcount : (t.replaceSlot i s h).slotCount = t.slotCount := by
    have := congrArg List.length (replaceSlot_list t i s h)
    simpa only [length_append, length_set, slotCount] using this
  refine ⟨?_, hcount ▸ ht.small⟩
  unfold FdTable.replaceSlot
  split
  · exact ht.counted
  have hlt : i - t.inline.length < t.slots.values.length := by unfold slotCount at h; omega
  -- the slot being replaced is one of those counted when it is in use
  have hpos : t.slots.values[i - t.inline.length] ≠ .free → 0 < t.slots.values.countP (· ≠ .free) := fun hp =>
    countP_pos_iff.2 ⟨_, getElem_mem hlt, by simpa using hp⟩
  simp only [IoBuffer.set, countP_set hlt, ht.counted]
  by_cases hp : t.slots.values[i - t.inline.length] = .free <;> by_cases hs : s = .free <;>
    simp_all

/-! ## Growing and giving back storage -/

/-- `t'` is `t` with its storage grown by free slots. -/
structure Grown (t t' : FdTable) : Prop where
  inline : t'.inline = t.inline
  values : ∃ n, t'.slots.values = t.slots.values ++ List.replicate n .free
  occupied : t'.occupiedSlots = t.occupiedSlots
  maxFds : t'.maxFds = t.maxFds

theorem Grown.refl (t : FdTable) : Grown t t := ⟨rfl, ⟨0, by simp⟩, rfl, rfl⟩

theorem Grown.abs (h : Grown t t') : t'.abs = t.abs := by
  obtain ⟨n, hn⟩ := h.values
  refine ext_slot (fun i => ?_) h.maxFds
  rw [slot_eq, slot_eq, h.inline, hn, ← append_assoc, getElem?_append]
  split
  · rfl
  rename_i hi
  rw [getElem?_eq_none (Nat.le_of_not_lt hi), getElem?_replicate]
  split <;> rfl

theorem Grown.inv (h : Grown t t') (ht : t.Inv) (hsmall : t'.slotCount ≤ i32Max + 1) : t'.Inv := by
  obtain ⟨n, hn⟩ := h.values
  refine ⟨?_, hsmall⟩
  rw [h.occupied, ht.counted, hn, countP_append]
  simp [countP_replicate]

variable {storage : Storage} {index limit : Nat} {hlimit : index < limit}

/-- A success of `ensure_slot` grows the table to the index asked for, not further. -/
theorem ensureSlot_ok {t' : { t' : FdTable // index < t'.slotCount }} (h : t.ensureSlot storage index limit hlimit = .ok t') :
    Grown t t'.1 ∧ t'.1.slotCount = max t.slotCount (index + 1) := by
  unfold ensureSlot at h
  split at h
  · rename_i hin
    cases h
    exact ⟨.refl t, (Nat.max_eq_left hin).symm⟩
  rename_i hout
  have hlen : t.slots.values.length ≤ index + 1 - t.inline.length := by unfold slotCount at hout; omega
  -- both ways to grow end in a `resize` of a buffer with the values of `t`
  have hgrown : ∀ (b : IoBuffer FdSlot) (hb : index + 1 - t.inline.length ≤ b.capacity), b.values = t.slots.values →
      let t₁ : FdTable := { t with slots := b.resize (index + 1 - t.inline.length) .free hb }
      Grown t t₁ ∧ t₁.slotCount = max t.slotCount (index + 1) := by
    intro b hb hv
    have hres : (b.resize _ .free hb).values =
        t.slots.values ++ List.replicate (index + 1 - t.inline.length - t.slots.values.length) .free := by
      simp [IoBuffer.resize, hv, take_of_length_le hlen]
    refine ⟨⟨rfl, ⟨_, hres⟩, rfl, rfl⟩, ?_⟩
    unfold slotCount at hout ⊢
    simp only [hres, length_append, length_replicate]
    omega
  dsimp only at h
  split at h
  · cases h
    exact hgrown t.slots _ rfl
  split at h
  · cases h
  · cases h
    exact hgrown _ _ (by assumption)

/-- Growing to `index` and storing there, as every call that may grow the table does. -/
theorem store_ensured (ht : t.Inv) (hidx : index ≤ i32Max) {ht' : index < t'.slotCount}
    (h : t.ensureSlot storage index limit hlimit = .ok ⟨t', ht'⟩) (s : FdSlot) :
    (t'.replaceSlot index s ht').Inv ∧ (t'.replaceSlot index s ht').abs = t.abs.put index s := by
  obtain ⟨hgrown, hcount⟩ := ensureSlot_ok h
  have hsmall := ht.small
  exact ⟨(hgrown.inv ht (by omega)).replaceSlot index s ht', by rw [abs_replaceSlot, hgrown.abs]⟩

/-- The storage answers every request with at least the capacity asked for. -/
def Provides (storage : Storage) : Prop := ∀ capacity, ∃ actual, storage capacity = .ok actual ∧ capacity ≤ actual

/-- The storage answers some request with `e`, or with too little. -/
def Refuses (storage : Storage) (e : Errno) : Prop :=
  ∃ capacity, storage capacity = .error e ∨ e = Errno.EIO ∧ ∃ actual < capacity, storage capacity = .ok actual

theorem not_refuses (hs : Provides storage) {e : Errno} : ¬ Refuses storage e := by
  rintro ⟨capacity, hr⟩
  obtain ⟨actual, hok, hle⟩ := hs capacity
  simp only [hok, reduceCtorEq, false_or, Except.ok.injEq] at hr
  omega

/-- Only slots behind the inline ones need storage. -/
theorem ensureSlot_refused {e : Errno} (h : t.ensureSlot storage index limit hlimit = .error e) : 3 ≤ index ∧ Refuses storage e := by
  unfold ensureSlot at h
  split at h
  · cases h
  rename_i hout
  have hthree := t.inline_len
  refine ⟨by unfold slotCount at hout; omega, ?_⟩
  dsimp only at h
  split at h
  · cases h
  split at h
  · rename_i herr
    cases h
    unfold IoBuffer.reserveWith at herr
    repeat' split at herr
    all_goals cases herr
    · exact ⟨_, .inl ‹_›⟩
    · exact ⟨_, .inr ⟨rfl, _, ‹_›, ‹_›⟩⟩
  · cases h

theorem Inv.reclaimEmptySlots (ht : t.Inv) : t.reclaimEmptySlots.Inv := by
  unfold FdTable.reclaimEmptySlots
  split
  · rename_i hzero
    exact ⟨hzero, by show t.inline.length + 0 ≤ _; rw [t.inline_len]; decide⟩
  · exact ht

/-- Storage is given back only when the counter says that no slot in it is in use. -/
theorem abs_reclaimEmptySlots (ht : t.Inv) : t.reclaimEmptySlots.abs = t.abs := by
  unfold reclaimEmptySlots
  split
  · rename_i hzero
    have hfree : ∀ s ∈ t.slots.values, s = .free := by
      have := ht.counted.symm.trans hzero
      simpa using countP_eq_zero.1 this
    refine ext_slot (fun i => ?_) rfl
    rw [slot_eq, slot_eq]
    show ((t.inline ++ [])[i]?).getD .free = _
    rw [append_nil, getElem?_append]
    split
    · rfl
    rename_i hi
    rw [getElem?_eq_none (Nat.le_of_not_lt hi)]
    cases hv : t.slots.values[i - t.inline.length]? with
    | none => rfl
    | some s => exact (hfree s (mem_of_getElem? hv)).symm
  · rfl

/-! ## Giving out the lowest number -/

variable {min : Nat}

/-- The number a claim goes for, stored or not: the least free one from `min` on. -/
theorem firstFree_some (h : t.firstFree min = some i) :
    min ≤ i ∧ t.abs.slotOf i = .free ∧ ∀ j, min ≤ j → j < i → t.abs.slotOf j ≠ .free := by
  have hlt := firstFree_lt h
  obtain ⟨hi, hmem, hbelow⟩ := find?_range'_eq_some.1 h
  refine ⟨(mem_range'_1.1 hmem).1, (slot_eq_free_iff t hlt).1 (by simpa using hi), fun j hj hji => ?_⟩
  rw [Ne, ← slot_eq_free_iff t (Nat.lt_trans hji hlt)]
  simpa using hbelow j hj hji

theorem firstFree_none (h : t.firstFree min = none) : ∀ j, min ≤ j → j < max t.slotCount min → t.abs.slotOf j ≠ .free := by
  intro j hj hlt
  have hin : j < t.slotCount := by omega
  rw [Ne, ← slot_eq_free_iff t hin]
  simpa using find?_eq_none.1 h j (mem_range'_1.2 (by omega))

/-- What a call that claims a number from `min` on for `value` does. -/
structure Claims (t : FdTable) (storage : Storage) (min : Nat) (value : FdSlot)
    (r : Except Errno Int32 × FdTable) : Prop where
  /-- A success answers the lowest available number and stores `value` there, nothing else. -/
  lowest : ∀ fd, r.1 = .ok fd → ∃ i, t.abs.Lowest min i ∧ fd = Int32.ofNat i ∧ r.2.abs = t.abs.put i value
  /-- An error leaves the table as it was. -/
  unchanged : ∀ e, r.1 = .error e → r.2 = t
  /-- When storage can be had, a call fails exactly when no number is available, with `EMFILE`. -/
  full : Provides storage → ∀ e, r.1 = .error e ↔ e = .EMFILE ∧ ∀ i, ¬ t.abs.Available min i
  /-- Any other error is the storage's, for a number behind the inline slots. -/
  refused : ∀ e, r.1 = .error e → e = .EMFILE ∧ (∀ i, ¬ t.abs.Available min i) ∨ ∃ i, t.abs.Lowest min i ∧ 3 ≤ i ∧ Refuses storage e

theorem claims_none {value : FdSlot} (hnone : ∀ i, ¬ t.abs.Available min i) : Claims t storage min value (.error .EMFILE, t) where
  lowest _ h := nomatch h
  unchanged _ _ := rfl
  full _ e := ⟨fun h => ⟨(Except.error.inj h).symm, hnone⟩, fun h => by rw [h.1]⟩
  refused _ h := .inl ⟨(Except.error.inj h).symm, hnone⟩

theorem claims_stored {value : FdSlot} (hi : t.abs.Lowest min i) (ht' : t'.abs = t.abs.put i value) :
    Claims t storage min value (.ok (Int32.ofNat i), t') where
  lowest _ h := ⟨i, hi, (Except.ok.inj h).symm, ht'⟩
  unchanged _ h := nomatch h
  full _ _ := ⟨fun h => (nomatch h), fun h => absurd hi.1 (h.2 i)⟩
  refused _ h := nomatch h

theorem claim_claims (ht : t.Inv) (storage : Storage) (min : Nat) (value : FdSlot) :
    (t.claim storage min value).2.Inv ∧ Claims t storage min value (t.claim storage min value) := by
  unfold claim
  split
  · rename_i i hi
    obtain ⟨hmin, hfree, hbelow⟩ := firstFree_some hi
    obtain ⟨hlow, hfull⟩ := Descriptors.lowest_of_free hmin hfree hbelow
    split
    · exact ⟨ht, claims_none (hfull ‹_›)⟩
    · exact ⟨ht.replaceSlot i value (firstFree_lt hi), claims_stored (hlow (by rw [abs_limit]; omega)) (abs_replaceSlot t i value _)⟩
  rename_i hnone
  obtain ⟨hlow, hfull⟩ := Descriptors.lowest_of_free (Nat.le_max_right t.slotCount min)
    (abs_slotOf_of_ge t (Nat.le_max_left _ _)) (firstFree_none hnone)
  dsimp only
  split
  · exact ⟨ht, claims_none (hfull ‹_›)⟩
  split
  · rename_i herr
    obtain ⟨hthree, hrefused⟩ := ensureSlot_refused herr
    have hnext := hlow (by rw [abs_limit]; omega)
    refine ⟨ht, fun _ h => (nomatch h), fun _ _ => rfl, fun hs => absurd hrefused (not_refuses hs), fun e h => ?_⟩
    cases h
    exact .inr ⟨_, hnext, hthree, hrefused⟩
  rename_i hok
  obtain ⟨hinv, habs⟩ := store_ensured ht (by omega) hok value
  exact ⟨hinv, claims_stored (hlow (by rw [abs_limit]; omega)) habs⟩

/-! ## Lookups, iteration and clones -/

theorem get_eq_ok_iff (t : FdTable) (fd : Int32) (entry : FdEntry) : t.get fd = .ok entry ↔ t.abs.OpenAt fd entry := by
  unfold get Descriptors.OpenAt
  cases htry : tryFrom fd with
  | none => simp
  | some i =>
    have hopen := slot_eq_some_iff t (i := i) (s := .opened entry) (by simp)
    simp only [Option.some.injEq, exists_eq_left', ← hopen]
    split
    · rename_i hslot
      simp [hslot]
    · rename_i hslot
      simpa using hslot entry

theorem mem_iter_iff (ht : t.Inv) (fd : Int32) (entry : FdEntry) : (fd, entry) ∈ t.iter ↔ t.abs.OpenAt fd entry := by
  have hopen := fun i => slot_eq_some_iff t (i := i) (s := .opened entry) (by simp)
  unfold iter Descriptors.OpenAt
  rw [mem_filterMap]
  constructor
  · rintro ⟨⟨s, i⟩, hmem, heq⟩
    have hslot : t.slot i = some s := (slot_eq t i).trans (mem_zipIdx_iff_getElem?.1 hmem)
    have hi : i ≤ i32Max := Nat.le_of_lt_succ (Nat.lt_of_lt_of_le (slot_lt hslot) ht.small)
    cases s with
    | free => cases heq
    | reserved => cases heq
    | opened e =>
      cases heq
      exact ⟨i, tryFrom_ofNat hi, (hopen i).1 hslot⟩
  · rintro ⟨i, htry, hi⟩
    refine ⟨(.opened entry, i), mem_zipIdx_iff_getElem?.2 ?_, ?_⟩
    · exact (slot_eq t i).symm.trans ((hopen i).2 hi)
    · rw [(tryFrom_some htry).1]

/-- The loop of `try_clone`: a number it does not restore keeps its slot. -/
theorem restoreEntries_ok : ∀ {entries : List (Int32 × FdEntry)} {result c : FdTable},
    (∀ p ∈ entries, ∃ i, tryFrom p.1 = some i) → result.Inv → restoreEntries storage result entries = .ok c →
    c.Inv ∧ c.maxFds = result.maxFds ∧ ∀ i, ((∀ p ∈ entries, tryFrom p.1 ≠ some i) ∧ c.abs.slotOf i = result.abs.slotOf i) ∨
        ∃ p ∈ entries, tryFrom p.1 = some i ∧ c.abs.slotOf i = .opened p.2
  | [], result, c, _, hinv, h => by
    cases h
    exact ⟨hinv, rfl, fun i => .inl ⟨by simp, rfl⟩⟩
  | (fd, entry) :: entries, result, c, hfds, hinv, h => by
    obtain ⟨k, hk⟩ := hfds (fd, entry) (by simp)
    have hnat : fd.toNatClampNeg = k := by
      unfold tryFrom at hk
      split at hk <;> simp_all
    simp only [restoreEntries, hnat] at h
    split at h
    · cases h
    rename_i result' hres
    unfold restoreEntry at hres
    iterate 2 (split at hres; · cases hres)
    rename_i hle _ _ _ hok
    obtain ⟨hinv', habs⟩ := store_ensured hinv (Nat.le_of_not_lt hle) hok (.opened entry)
    cases hres
    obtain ⟨hc, hmax, hslots⟩ := restoreEntries_ok (fun p hp => hfds p (by simp [hp])) hinv' h
    have hlimit := congrArg Descriptors.limit habs
    refine ⟨hc, hmax.trans hlimit, fun i => ?_⟩
    rcases hslots i with ⟨hnot, hsame⟩ | ⟨p, hp, hpi, hslot⟩
    · by_cases hik : i = k
      · subst hik
        exact .inr ⟨(fd, entry), by simp, hk, by simp [hsame, habs, Descriptors.put]⟩
      · refine .inl ⟨?_, by simp [hsame, habs, Descriptors.put, hik]⟩
        simpa [hk, Ne.symm hik] using hnot
    · exact .inr ⟨p, by simp [hp], hpi, hslot⟩

/-- A clone has the open descriptors and the limit, and nothing of the reservations. -/
theorem tryClone_ok {c : FdTable} (ht : t.Inv) (h : t.tryClone storage = .ok c) : c.Inv ∧ c.abs = t.abs.visible := by
  have hfds : ∀ p ∈ t.iter, ∃ i, tryFrom p.1 = some i := fun p hp =>
    let ⟨i, hi, _⟩ := (mem_iter_iff ht p.1 p.2).1 hp
    ⟨i, hi⟩
  obtain ⟨hc, hmax, hslots⟩ := restoreEntries_ok hfds (inv_withMax _) h
  refine ⟨hc, Descriptors.ext (funext fun i => ?_) hmax⟩
  rcases hslots i with ⟨hnot, hsame⟩ | ⟨p, hp, hpi, hslot⟩
  · have hclosed : ∀ entry, t.abs.slotOf i ≠ .opened entry := by
      intro entry hi
      have hle : i ≤ i32Max := by
        have := slot_lt ((slot_eq_some_iff t (by simp)).2 hi)
        have := ht.small
        omega
      have hmem := (mem_iter_iff ht (.ofNat i) entry).2 ⟨i, tryFrom_ofNat hle, hi⟩
      exact hnot _ hmem (tryFrom_ofNat hle)
    rw [hsame, abs_withMax]
    dsimp only [Descriptors.visible]
    split
    · exact absurd ‹_› (hclosed _)
    · rfl
  · obtain ⟨j, hj, hopen⟩ := (mem_iter_iff ht p.1 p.2).1 hp
    cases hpi.symm.trans hj
    rw [hslot]
    simp [Descriptors.visible, hopen]

theorem restoreEntry_provided (hs : Provides storage) {fd : Nat} (hfd : fd ≤ i32Max)
    (entry : FdEntry) : (t.restoreEntry storage fd entry).1 = .ok () := by
  unfold restoreEntry
  rw [dif_neg (Nat.not_lt.2 hfd)]
  split
  · exact absurd (ensureSlot_refused ‹_›).2 (not_refuses hs)
  · rfl

theorem restoreEntries_refused {e : Errno} : ∀ {entries : List (Int32 × FdEntry)} {result : FdTable},
    restoreEntries storage result entries = .error e → ∃ p ∈ entries, 3 ≤ p.1.toNatClampNeg ∧ Refuses storage e
  | [], _, h => nomatch h
  | p :: entries, result, h => by
    simp only [restoreEntries] at h
    split at h
    · rename_i hres
      cases h
      have hle : p.1.toNatClampNeg ≤ i32Max := Nat.le_sub_one_of_lt p.1.toNatClampNeg_lt
      rw [restoreEntry, dif_neg (Nat.not_lt.2 hle)] at hres
      split at hres
      · cases hres
        exact ⟨p, mem_cons_self, ensureSlot_refused ‹_›⟩
      · cases hres
    · obtain ⟨q, hq, hrefused⟩ := restoreEntries_refused h
      exact ⟨q, mem_cons_of_mem _ hq, hrefused⟩

/-- When storage can be had, a clone is made. -/
theorem tryClone_provided (t : FdTable) (hs : Provides storage) : ∃ c, t.tryClone storage = .ok c := by
  cases h : t.tryClone storage with
  | ok c => exact ⟨c, rfl⟩
  | error e =>
    obtain ⟨_, _, _, hrefused⟩ := restoreEntries_refused h
    exact absurd hrefused (not_refuses hs)

end FdTable

end Kandelo.Fd

/-
Who names what in the child of a fork: the references the encoder counts are those of the
descriptors it writes and of the executable, the descriptions it writes are the ones
referenced, and the descriptors the decoder restores are the ones written.
-/
import Kandelo.Fork.Descriptions

namespace Kandelo.Fork

open Fd Memory Signal Process Wire List FdTable

/-! ## Counting -/

variable {refs : List (Nat × UInt32)}

theorem refsOf_cons (e : Nat × UInt32) (i : Nat) : refsOf (e :: refs) i = if e.1 = i then e.2 else refsOf refs i := by
  by_cases h : e.1 = i <;> simp [refsOf, h]

/-- The counts are by increasing index and say how often an index is listed. -/
theorem tally_spec {l : List Nat} (hs : l.Pairwise (· ≤ ·)) (h : tally l = .ok refs) :
    (refs.map (·.1)).Pairwise (· < ·) ∧ (∀ i, i ∈ refs.map (·.1) ↔ i ∈ l) ∧ ∀ i, (refsOf refs i).toNat = l.count i := by
  induction l generalizing refs with
  | nil =>
    cases h
    exact ⟨.nil, fun _ => Iff.rfl, fun _ => rfl⟩
  | cons index rest ih =>
    obtain ⟨hle, hrest⟩ := pairwise_cons.mp hs
    rw [tally] at h
    cases hcounts : tally rest with
    | error e =>
      rw [hcounts] at h
      cases h
    | ok counts =>
      rw [hcounts] at h
      obtain ⟨hsorted, hlisted, hcount⟩ := ih hrest hcounts
      by_cases hnew : index ∈ rest
      · -- the least index, so it is counted first
        cases counts with
        | nil => cases (hlisted index).mpr hnew
        | cons e counts =>
          obtain ⟨next, count⟩ := e
          have hfirst : next = index := by
            refine le_antisymm ?_ (hle next ((hlisted next).mp mem_cons_self))
            rcases mem_cons.mp ((hlisted index).mpr hnew) with heq | hin
            · exact heq.ge
            · exact ((pairwise_cons.mp hsorted).1 index hin).le
          subst hfirst
          change (if next = next then _ else _) = _ at h
          rw [if_pos rfl] at h
          split_ifs at h with hfull
          cases h
          refine ⟨hsorted, fun i => (hlisted i).trans ⟨mem_cons_of_mem _, fun hi => (mem_cons.mp hi).elim (· ▸ hnew) id⟩, fun i => ?_⟩
          have hi := hcount i
          rw [refsOf_cons] at hi ⊢
          rw [count_cons, ← hi]
          by_cases heq : next = i
          · have hne : count.toNat ≠ 0xFFFFFFFF := fun h' => hfull (UInt32.toNat_inj.mp h')
            have hlt := count.toNat_lt
            simp only [heq, if_true, UInt32.toNat_add, beq_self_eq_true, UInt32.reduceToNat]
            omega
          · simp [heq]
      · have hrefs : refs = (index, 1) :: counts := by
          cases counts with
          | nil => cases h; rfl
          | cons e counts =>
            change (if e.1 = index then _ else _) = _ at h
            rw [if_neg fun heq : e.1 = index => hnew ((hlisted index).mp (heq ▸ mem_cons_self))] at h
            cases h
            rfl
        subst hrefs
        refine ⟨pairwise_cons.mpr ⟨fun k hk => ?_, hsorted⟩, fun i => by simp [← hlisted], fun i => ?_⟩
        · have hk := (hlisted k).mp hk
          exact lt_of_le_of_ne (hle k hk) fun heq : index = k => hnew (heq ▸ hk)
        rw [refsOf_cons, count_cons, ← hcount]
        by_cases heq : index = i
        · subst heq
          simp [hcount, count_eq_zero.mpr hnew]
        · simp [heq]

/-- What the inherited descriptors and the executable name. -/
def references (p : ProcessRecord) : List Nat := (inheritedFds p.fdTable).map (·.2.ofdRef) ++ p.exe.toList

/-- The encoder has counted every reference, and each is to a description. -/
structure Counted (p : ProcessRecord) (refs : List (Nat × UInt32)) : Prop where
  keys : (refs.map (·.1)).Nodup
  listed : ∀ i, i ∈ refs.map (·.1) ↔ i ∈ references p
  count : ∀ i, (refsOf refs i).toNat = (references p).count i
  held : ∀ i ∈ references p, (p.ofdTable.get i).isSome

variable {p : ProcessRecord}

theorem counted_of_prepare {scratch : Scratch} (h : prepareInheritedOfdRefs scratch p = .ok refs) : Counted p refs := by
  rw [prepareInheritedOfdRefs] at h
  split at h
  · cases h
  change (if ((references p).any fun index => (p.ofdTable.get index).isNone) then _ else _) = _ at h
  split at h
  · cases h
  rename_i hany
  have hsorted : ((references p).mergeSort fun a b => a ≤ b).Pairwise (· ≤ ·) := by
    have htrans : ∀ a b c : Nat, decide (a ≤ b) → decide (b ≤ c) → decide (a ≤ c) :=
      fun a b c hab hbc => decide_eq_true (le_trans (of_decide_eq_true hab) (of_decide_eq_true hbc))
    have htotal : ∀ a b : Nat, (decide (a ≤ b) || decide (b ≤ a)) := fun a b => by simpa using le_total a b
    have hle := pairwise_mergeSort htrans htotal (references p)
    exact hle.imp fun h => of_decide_eq_true h
  have hperm := mergeSort_perm (references p) fun a b => decide (a ≤ b)
  obtain ⟨hkeys, hlisted, hcount⟩ := tally_spec hsorted h
  refine ⟨hkeys.imp fun h => ne_of_lt h, fun i => (hlisted i).trans hperm.mem_iff,
    fun i => (hcount i).trans (hperm.count_eq i), fun i hi => ?_⟩
  have hsome := any_eq_false.mp (Bool.eq_false_iff.mpr hany) i hi
  rwa [Option.isNone_iff_eq_none, ← ne_eq, ← Option.isSome_iff_ne_none] at hsome

/-! ## The descriptions written -/

/-- The descriptions that are referenced. -/
def heldOfds (p : ProcessRecord) : List (Nat × OpenFileDesc) := p.ofdTable.iter.filter fun e => e.1 ∈ references p

theorem OfdTable.iter_index {e : OfdSlot × Nat} {y : Nat × OpenFileDesc} (h : (match e.1 with
      | .opened ofd => some (e.2, ofd)
      | _ => none) = some y) : y.1 = e.2 := by
  split at h
  · cases h
    rfl
  · cases h

theorem OfdTable.mem_iter_iff {t : OfdTable} {i : Nat} {ofd : OpenFileDesc} : (i, ofd) ∈ t.iter ↔ t.get i = some ofd := by
  rw [OfdTable.iter, mem_filterMap, OfdTable.get]
  constructor
  · rintro ⟨⟨slot, j⟩, hmem, heq⟩
    have hslot := List.mem_zipIdx_iff_getElem?.mp hmem
    cases slot with
    | free => cases heq
    | reserved => cases heq
    | opened o =>
      cases heq
      rw [hslot]
  · intro h
    split at h
    · rename_i o hslot
      cases h
      exact ⟨(.opened ofd, i), List.mem_zipIdx_iff_getElem?.mpr hslot, rfl⟩
    · cases h

theorem OfdTable.iter_lt {t : OfdTable} {e : Nat × OpenFileDesc} (he : e ∈ t.iter) : e.1 < t.entries.values.length :=
  slots_lt (fun _ _ => OfdTable.iter_index) he

theorem Counted.ofds (h : Counted p refs) : inheritedOfds p refs = heldOfds p := by
  refine filter_congr fun e _ => ?_
  have hpos : 0 < refsOf refs e.1 ↔ e.1 ∈ references p := by
    rw [UInt32.lt_iff_toNat_lt, h.count, ← count_pos_iff]
    rfl
  rw [decide_eq_decide]
  exact hpos

theorem heldOfds_nodup (p : ProcessRecord) : ((heldOfds p).map (·.1)).Nodup :=
  (slots_nodup (fun _ _ => OfdTable.iter_index) p.ofdTable.entries.values).sublist (filter_sublist.map _)

/-- As many descriptions are written as there are indices counted. -/
theorem Counted.length (h : Counted p refs) : refs.length = (heldOfds p).length := by
  have hmem : ∀ i, i ∈ refs.map (·.1) ↔ i ∈ (heldOfds p).map (·.1) := by
    intro i
    rw [h.listed, mem_map]
    constructor
    · intro hi
      obtain ⟨ofd, hofd⟩ := Option.isSome_iff_exists.mp (h.held i hi)
      exact ⟨(i, ofd), mem_filter.mpr ⟨OfdTable.mem_iter_iff.mpr hofd, decide_eq_true hi⟩, rfl⟩
    · rintro ⟨e, he, rfl⟩
      exact of_decide_eq_true (mem_filter.mp he).2
  have hperm := (perm_ext_iff_of_nodup h.keys (heldOfds_nodup p)).mpr hmem
  rw [← length_map (f := (·.1)), hperm.length_eq, length_map]

/-! ## The descriptors restored -/

theorem restoreEntries_eq_foldl {storage : Storage} (hs : FdTable.Provides storage) (entries : List (Int32 × FdEntry))
    (t : FdTable) : restoreEntries storage t entries = .ok (entries.foldl (restoreFd storage) t) := by
  induction entries generalizing t with
  | nil => rfl
  | cons e entries ih =>
    have hok := restoreEntry_provided hs (t := t) (Nat.le_sub_one_of_lt e.1.toNatClampNeg_lt) e.2
    rw [restoreEntries, foldl_cons, restoreFd]
    cases hres : t.restoreEntry storage e.1.toNatClampNeg e.2 with
    | mk r t' =>
      rw [hres] at hok
      cases hok
      exact ih t'

/-- No descriptor is listed twice. -/
theorem fdTable_iter_nodup {t : FdTable} (ht : t.Inv) : t.iter.Nodup := by
  refine List.Nodup.of_map (fun e => e.1.toNatClampNeg) ?_
  -- the numbers are the slots, below `i32::MAX`
  have hnumbers : t.iter.map (fun e => e.1.toNatClampNeg) = ((t.inline ++ t.slots.values).zipIdx.filterMap
      fun e => e.1.ofdRef.map fun ofdRef => (e.2, ofdRef)).map (·.1) := by
    rw [FdTable.iter, map_filterMap, map_filterMap]
    refine filterMap_congr fun e he => ?_
    obtain ⟨slot, index⟩ := e
    have hlt : index < t.slotCount := by
      have h := (List.getElem?_eq_some_iff.mp (List.mem_zipIdx_iff_getElem?.mp he)).1
      rwa [length_append] at h
    have hsmall : index < 2 ^ 31 := lt_of_lt_of_le hlt ht.small
    cases slot with
    | free => rfl
    | reserved => rfl
    | opened entry => simp [Int32.toNatClampNeg_ofNat_of_lt hsmall, FdSlot.ofdRef]
  rw [hnumbers]
  refine slots_nodup (fun e y h => ?_) _
  obtain ⟨_, _, rfl⟩ := Option.map_eq_some_iff.mp h
  rfl

theorem mem_childFds_iff {storage : Storage} (hs : FdTable.Provides storage) (hp : p.fdTable.Inv) :
    (childFds storage p).Inv ∧ ∀ e, e ∈ (childFds storage p).iter ↔ e ∈ inheritedFds p.fdTable := by
  have hfds : ∀ e ∈ inheritedFds p.fdTable, ∃ i, tryFrom e.1 = some i ∧ p.fdTable.abs.slotOf i = .opened e.2 := by
    intro e he
    exact (mem_iter_iff hp e.1 e.2).mp (mem_filter.mp he).1
  have hrestored := restoreEntries_eq_foldl hs (inheritedFds p.fdTable) (.withMax (asU32 p.fdTable.maxFds))
  obtain ⟨hinv, -, hslots⟩ := restoreEntries_ok (fun e he => ⟨(hfds e he).choose, (hfds e he).choose_spec.1⟩)
    (inv_withMax _) hrestored
  refine ⟨hinv, fun e => ?_⟩
  change (e.1, e.2) ∈ FdTable.iter (List.foldl _ _ _) ↔ _
  rw [mem_iter_iff hinv e.1 e.2]
  constructor
  · rintro ⟨i, htry, hopen⟩
    rcases hslots i with ⟨_, hfree⟩ | ⟨e', he', htry', hslot⟩
    · rw [hfree, abs_withMax] at hopen
      cases hopen
    rw [hopen] at hslot
    have hfd : e = e' := Prod.ext ((tryFrom_some htry).1.trans (tryFrom_some htry').1.symm) (FdSlot.opened.inj hslot)
    rw [hfd]
    exact he'
  intro he
  obtain ⟨i, htry, hopen⟩ := hfds e he
  refine ⟨i, htry, ?_⟩
  rcases hslots i with ⟨hnone, _⟩ | ⟨e', he', htry', hslot⟩
  · exact absurd htry (hnone e he)
  obtain ⟨j, htryj, hopen'⟩ := hfds e' he'
  cases htry'.symm.trans htryj
  rw [hslot, ← hopen', hopen]

end Kandelo.Fork

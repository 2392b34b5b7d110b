/-
What `munmap`, and a `MAP_FIXED` placement before it maps, leave behind: the range is
unmapped and every other address as before (`munmap_exact`). The count made beforehand
is that of the mappings left, so the vector has room for each part of a split.

A length that cannot be rounded up is answered `Ok(false)` and releases nothing.
-/
import Kandelo.Memory.Invariant

namespace Kandelo.Memory.MemoryManager

open Spanned MappedRegion

variable {U : Usize} {s s' : MemoryManager} {addr len : Nat}

/-- The assertion of `IoBuffer::insert` in the loop of `munmap_prepared`, with `i`
mappings before the index. -/
def munmapHasRoom (U : Usize) (addr stop capacity : Nat) : Nat → List MappedRegion → Bool
  | _, [] => true
  | i, m :: ms =>
    if U.satStop m ≤ addr then munmapHasRoom U addr stop capacity (i + 1) ms
    else if stop ≤ m.addr then true
    else
      match decide (m.addr < addr), decide (stop < U.satStop m) with
      | false, false => munmapHasRoom U addr stop capacity i ms
      | true, false => munmapHasRoom U addr stop capacity (i + 1) ms
      | false, true => true
      | true, true => decide (i + 1 + ms.length < capacity)

/-- The count is the length of what the loop leaves, and enough for its insertion. -/
theorem countAfterUnmap_spec {lo hi : Nat} : ∀ {v : List MappedRegion} {i n : Nat},
    (∀ m ∈ v, U.satStop m = stop m) → Tiled v → countAfterUnmap U lo hi v (i + v.length) = some n →
    n = i + (munmapLoop U lo hi v).1.length ∧ ∀ capacity, n ≤ capacity → i + v.length ≤ capacity → munmapHasRoom U lo hi capacity i v
  | [], i, n, _, _, h => by
    cases h
    exact ⟨rfl, fun _ _ _ => rfl⟩
  | m :: ms, i, n, hs, hv, h => by
    obtain ⟨hpos, hafter, hms⟩ := tiled_cons.mp hv
    have hs' : ∀ a ∈ ms, U.satStop a = stop a := fun a ha => hs a (by simp [ha])
    have ih := fun i (h : countAfterUnmap U lo hi ms (i + ms.length) = some n) => countAfterUnmap_spec hs' hms h
    have hbeyond : ∀ k, lo < stop m → hi < stop m → countAfterUnmap U lo hi ms k = some k := by
      intro k hlo hhi
      cases ms with
      | nil => rfl
      | cons a _ =>
        have := hafter a (by simp)
        simp only [stop, spanned_addr] at *
        rw [countAfterUnmap, hs' a (by simp), if_neg (by omega), if_pos (by omega)]
    rw [List.length_cons, show i + (ms.length + 1) = i + 1 + ms.length by omega] at h ⊢
    simp only [countAfterUnmap, munmapLoop, munmapHasRoom, hs m (by simp)] at h ⊢
    by_cases hbefore : stop m ≤ lo
    · simp only [if_pos hbefore, List.length_cons] at h ⊢
      obtain ⟨hn, hroom⟩ := ih (i + 1) h
      exact ⟨by omega, hroom⟩
    simp only [if_neg hbefore] at h ⊢
    by_cases hpast : hi ≤ m.addr
    · simp only [if_pos hpast, Option.some.injEq, List.length_cons] at h ⊢
      exact ⟨by omega, fun _ _ _ => trivial⟩
    simp only [if_neg hpast] at h ⊢
    by_cases hl : m.addr < lo <;> by_cases hr : hi < stop m
    · -- the right part is the only insertion: no mapping was removed before it
      rw [if_neg (by omega), if_pos ⟨hl, hr⟩] at h
      obtain ⟨k, hk, h⟩ := Option.bind_eq_some_iff.mp h
      obtain ⟨rfl, _⟩ := Usize.checkedAdd_eq_some hk
      rw [hbeyond _ (by omega) hr, Option.some.injEq] at h
      simp only [hl, hr, decide_true, List.length_cons, decide_eq_true_eq]
      exact ⟨by omega, fun capacity h1 h2 => by omega⟩
    · rw [if_neg (by omega), if_neg (by omega)] at h
      simp only [hl, hr, decide_true, decide_false, List.length_cons]
      obtain ⟨hn, hroom⟩ := ih (i + 1) h
      exact ⟨by omega, hroom⟩
    · rw [if_neg (by omega), if_neg (by omega), hbeyond _ (by omega) hr, Option.some.injEq] at h
      simp only [hl, hr, decide_true, decide_false, List.length_cons]
      exact ⟨by omega, fun _ _ _ => trivial⟩
    · rw [if_pos (by omega), show i + 1 + ms.length - 1 = i + ms.length by omega] at h
      simp only [hl, hr]
      obtain ⟨hn, hroom⟩ := ih i h
      exact ⟨hn, fun capacity h1 h2 => hroom capacity h1 (by omega)⟩

/-- The loop finds something exactly if a mapping overlaps the range. -/
theorem munmapLoop_found (lo hi : Nat) : ∀ {v : List MappedRegion}, (∀ m ∈ v, U.satStop m = stop m) → Tiled v →
    ((munmapLoop U lo hi v).2 ↔ ∃ m ∈ v, lo < stop m ∧ m.addr < hi)
  | [], _, _ => by simp [munmapLoop]
  | m :: ms, hs, hv => by
    obtain ⟨hpos, hafter, hms⟩ := tiled_cons.mp hv
    have ih := munmapLoop_found lo hi (fun a ha => hs a (by simp [ha])) hms
    simp only [munmapLoop, hs m (by simp), List.mem_cons, exists_eq_or_imp]
    split_ifs with hbefore hpast
    · rw [ih]
      exact ⟨.inr, fun h => h.resolve_left fun h => absurd hbefore (by omega)⟩
    · refine iff_of_false (by simp) ?_
      rintro (h | ⟨a, ha, -, hlt⟩)
      · omega
      have := hafter a ha
      simp only [stop, spanned_addr] at *
      omega
    · refine iff_of_true ?_ (.inl ⟨by omega, by omega⟩)
      split <;> rfl

/-- Protection and flags at an address. -/
def attrsAt (s : MemoryManager) (x : Nat) : Option (UInt32 × UInt32) := attrAt attrs s.mappings x

/-- The range is unmapped, every other address as before, and `found` says whether
anything was there. -/
structure Released (s : MemoryManager) (addr len : Nat) (found : Bool) (s' : MemoryManager) : Prop where
  view : ∀ x, s'.attrsAt x = if addr ≤ x ∧ x < addr + len then none else s.attrsAt x
  found_iff : found ↔ ∃ x, addr ≤ x ∧ x < addr + len ∧ s.attrsAt x ≠ none

theorem Inv.released (h : Inv s) (hlen : 0 < len) :
    Released s addr len (MemoryManager.munmapPrepared U s addr len).1 (MemoryManager.munmapPrepared U s addr len).2 := by
  refine ⟨(h.munmapPrepared_spec addr len).2, ?_⟩
  have hU := U.defaultMaxAddr_lt
  have hsat : ∀ m ∈ s.mappings, U.satStop m = stop m := fun m hm => Usize.satStop_eq (h.maps_stop m hm)
  simp only [MemoryManager.munmapPrepared, munmapLoop_found _ _ hsat h.maps, attrsAt, ne_eq, attrAt_eq_none, not_not]
  constructor
  · rintro ⟨m, hm, hlo, hhi⟩
    have := h.maps.nonempty m hm
    simp only [Usize.saturatingAdd, stop, spanned_addr, spanned_len] at *
    refine ⟨max addr m.addr, by omega, by omega, m, hm, ?_⟩
    simp only [Covers, stop, spanned_addr, spanned_len]
    omega
  rintro ⟨x, hlo, hhi, m, hm, hc⟩
  have := h.maps_stop m hm
  simp only [Covers, spanned_addr] at hc
  refine ⟨m, hm, by omega, ?_⟩
  simp only [Usize.saturatingAdd]
  omega

theorem Inv.munmap_released (h : Inv s) {alignedLen : Nat} {alloc found : Bool} (hround : U.roundUp len = some alignedLen)
    (hok : MemoryManager.munmap U s addr len alloc = (.ok found, s')) : Released s addr alignedLen found s' := by
  simp only [MemoryManager.munmap, hround] at hok
  split at hok
  · cases hok
    obtain rfl : alignedLen = 0 := by have := Usize.roundUp_eq_some hround; omega
    exact ⟨fun x => by rw [if_neg (by omega)], by simp; omega⟩
  rename_i hlen
  split at hok
  · cases hok
  · cases hok
    exact h.released (Usize.roundUp_pos hlen hround)

/-- In every reachable state: a `munmap` that succeeds releases its range in whole
pages, a `MAP_FIXED` mapping is put where such a range was released, and the count made
before is the number of mappings after, with room for each insertion on the way. -/
theorem munmap_exact (h : Reachable U s) {alignedLen : Nat} (hround : U.roundUp len = some alignedLen) :
    (∀ alloc found s', munmap U s addr len alloc = (.ok found, s') → Released s addr alignedLen found s') ∧
      (∀ prot flags alloc, addr ≠ 0 → flags &&& mapFixed ≠ 0 →
        (mmapAnonymous U s addr len prot flags alloc).1 ≠ U.mapFailed → ∃ found carved, Released s addr alignedLen found carved ∧
          (mmapAnonymous U s addr len prot flags alloc).2 = carved.insertMapping ⟨addr, alignedLen, prot, flags⟩) ∧
      ∀ count, len ≠ 0 → mappingCountAfterUnmap U s addr alignedLen = .ok count →
        (munmapPrepared U s addr alignedLen).2.mappings.length = count ∧ ∀ capacity, count ≤ capacity →
          s.mappings.length ≤ capacity → munmapHasRoom U addr (U.saturatingAdd addr alignedLen) capacity 0 s.mappings = true := by
  have hi := h.inv
  refine ⟨fun alloc found s' => hi.munmap_released hround, fun prot flags alloc haddr hfixed hplaced => ?_, fun count hlen hcount => ?_⟩
  · rcases mmapAnonymous_cases U s addr len prot flags alloc with he | ⟨r, hlen, hr, ⟨_, _, _, he⟩ | ⟨_, hno, _⟩⟩
    · exact absurd (by rw [he]) hplaced
    · cases hround.symm.trans hr
      rw [he]
      exact ⟨_, _, hi.released (Usize.roundUp_pos hlen hround), rfl⟩
    · exact absurd ⟨haddr, hfixed⟩ hno
  rw [mappingCountAfterUnmap, if_neg (Usize.roundUp_pos hlen hround).ne'] at hcount
  split at hcount
  · rename_i remaining hrem
    cases hcount
    rw [← Nat.zero_add s.mappings.length] at hrem ⊢
    obtain ⟨hlength, hroom⟩ := countAfterUnmap_spec (fun m hm => Usize.satStop_eq (hi.maps_stop m hm)) hi.maps hrem
    exact ⟨by rw [hlength, Nat.zero_add]; rfl, hroom⟩
  · cases hcount

/-- Three pages, mapped at `0x4000000`. -/
def threePages : MemoryManager := Machine.run (call .wasm32) .new [.mmapAnonymous 0 0x30000 3 0x22 true]

theorem munmap_exact_threePages : (munmap .wasm32 threePages 0x4010000 1 true).2.attrsAt 0x4010000 = none := by
  have hreach : Reachable .wasm32 threePages := .run _ (.start rfl)
  have hround : Usize.wasm32.roundUp 1 = some 0x10000 := by decide
  exact ((munmap_exact hreach hround).1 true true _ (Prod.ext (by decide +kernel) rfl)).view 0x4010000

/-- The range has a mapped page, but its length does not round up. -/
theorem munmap_of_huge_length : (munmap .wasm32 threePages 0x4000000 (2 ^ 32 - 1) true).1 = .ok false ∧
    (munmap .wasm32 threePages 0x4000000 (2 ^ 32 - 1) true).2.attrsAt 0x4000000 = some (3, 0x22) := by
  decide +kernel

end Kandelo.Memory.MemoryManager

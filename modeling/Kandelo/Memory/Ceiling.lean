/-
Automatic placement and the ceiling. `find_gap` compares a place with
`max_addr` only behind the last region, so a gap below a region that a lowered
ceiling left above it is handed out although it ends above the ceiling.

The place automatic placement looks for is the lowest one that is free
(`LowestPlace`). It ends below the ceiling exactly when that place does, or
when no region lies behind it and the ceiling is looked at.
-/
import Kandelo.Memory.Invariant

namespace Kandelo.Memory.MemoryManager

open Spanned

/-- The lowest free place for `needed` bytes at or above the base of automatic
placement. -/
structure LowestPlace (s : MemoryManager) (needed p : Nat) : Prop where
  ge : s.placementBase ≤ p
  free : s.Free p (p + needed)
  lowest : ∀ q, s.placementBase ≤ q → q < p → ¬ s.Free q (q + needed)

variable {s : MemoryManager} {needed p : Nat}

theorem LowestPlace.unique {q : Nat} (hp : s.LowestPlace needed p) (hq : s.LowestPlace needed q) : p = q := by
  rcases Nat.lt_trichotomy p q with hlt | heq | hlt
  · exact absurd hp.free (hq.lowest p hp.ge hlt)
  · exact heq
  · exact absurd hq.free (hp.lowest q hq.ge hlt)

/-- No region starts at or behind `x`. -/
def NothingFrom (s : MemoryManager) (x : Nat) : Prop := (∀ m ∈ s.mappings, m.addr < x) ∧ ∀ r ∈ s.reservedRegions, r.addr < x

theorem nothingFrom_iff {x : Nat} : s.NothingFrom x ↔ ∀ r ∈ regions s.mappings s.reservedRegions, r.1 < x := by
  constructor
  · intro h r hr
    rcases hr with ⟨m, hm, rfl⟩ | ⟨m, hm, rfl⟩
    · exact h.1 m hm
    · exact h.2 m hm
  · intro h
    exact ⟨fun m hm => h _ (.inl ⟨m, hm, rfl⟩), fun r hr => h _ (.inr ⟨r, hr, rfl⟩)⟩

/-- A place a region reaches into is not free. -/
theorem Inv.not_free (h : Inv s) {lo hi : Nat} {r : Nat × Nat}
    (hr : r ∈ regions s.mappings s.reservedRegions) (h1 : r.1 < hi) (h2 : lo < r.1 + r.2) (hlt : lo < hi) : ¬ s.Free lo hi := by
  intro hfree
  -- the later of the two starts is in both
  have hin := hfree (max lo r.1) (le_max_left _ _) (by omega)
  rcases hr with ⟨m, hm, rfl⟩ | ⟨m, hm, rfl⟩
  · have hlen : 0 < m.len := h.maps.nonempty m hm
    refine hin.1 ⟨m, hm, le_max_right _ _, ?_⟩
    simp only [stop, MappedRegion.spanned_addr, MappedRegion.spanned_len]
    omega
  have hlen : 0 < m.len := h.reserved.nonempty m hm
  refine hin.2 ⟨m, hm, le_max_right _ _, ?_⟩
  simp only [stop, ReservedRegion.spanned_addr, ReservedRegion.spanned_len]
  omega

theorem Inv.lowestPlace (h : Inv s) (hn : 0 < needed)
    (hfit : LowestFit needed (regions s.mappings s.reservedRegions) s.placementBase p) : s.LowestPlace needed p := by
  refine ⟨hfit.ge, free_of_fit hfit.free, ?_⟩
  intro q hq hlt
  obtain ⟨r, hr, h1, h2⟩ := hfit.lowest q hq hlt
  exact h.not_free hr h1 h2 (by omega)

/-- What `find_gap` answers: the lowest place, unless nothing lies behind it
and it ends above the ceiling. -/
theorem Inv.findGap_eq {U : Usize} (h : Inv s) (hn : 0 < needed) (hp : s.LowestPlace needed p) :
    (findGap U s needed = some p ∧ (p + needed ≤ s.maxAddr ∨ ¬ s.NothingFrom (p + needed))) ∨
      (findGap U s needed = none ∧ s.maxAddr < p + needed ∧ s.NothingFrom (p + needed)) := by
  obtain ⟨q, hfit, hans⟩ := h.findGap_spec (U := U) hn
  obtain rfl := hp.unique (h.lowestPlace hn hfit)
  rcases hans with ⟨hq, hb⟩ | ⟨hq, hb, hc⟩
  · refine .inl ⟨hq, hb.imp id ?_⟩
    intro hr hnothing
    obtain ⟨r, hr, hle⟩ := hr
    have := nothingFrom_iff.mp hnothing r hr
    omega
  · exact .inr ⟨hq, hb, nothingFrom_iff.mpr hc⟩

/-! ## Automatic calls -/

/-- The calls that choose an address by themselves. -/
inductive Automatic
  /-- `mmap_anonymous` without `MAP_FIXED`. -/
  | mmap (hint : Nat) (prot flags : UInt32) (hflags : flags &&& mapFixed = 0)
  | reserve

/-- The address the call answers and the state after it. -/
def Automatic.place (U : Usize) (s : MemoryManager) (len : Nat) (alloc : Bool) : Automatic → Nat × MemoryManager
  | .mmap hint prot flags _ => s.mmapAnonymous U hint len prot flags alloc
  | .reserve => s.reserveHostRegion U len alloc

/-- The hint of the call, if it can be used. -/
def Automatic.hinted (U : Usize) (s : MemoryManager) (alignedLen : Nat) : Automatic → Option Nat
  | .mmap hint _ _ _ => hintedAddr U s hint alignedLen
  | .reserve => none

/-- Both calls answer the place of the hint or of `find_gap`, if the allocator
lets them. -/
theorem Automatic.place_eq (U : Usize) (s : MemoryManager) {len alignedLen : Nat} (hlen : len ≠ 0)
    (hround : U.roundUp len = some alignedLen) (alloc : Bool) (c : Automatic) : (c.place U s len alloc).1 =
      if alloc then ((c.hinted U s alignedLen).or (findGap U s alignedLen)).getD U.mapFailed else U.mapFailed := by
  cases c with
  | mmap hint prot flags hflags =>
    simp only [place, hinted, mmapAnonymous, hlen, hround, hflags, tryReserve]
    cases (hintedAddr U s hint alignedLen).or (findGap U s alignedLen) <;> cases alloc <;> simp
  | reserve =>
    simp only [place, hinted, reserveHostRegion, hlen, hround, tryReserve]
    cases findGap U s alignedLen <;> cases alloc <;> simp

theorem Automatic.hinted_le {U : Usize} {alignedLen : Nat} {c : Automatic}
    (h : c.hinted U s alignedLen = some p) : p + alignedLen ≤ s.maxAddr := by
  cases c with
  | mmap hint prot flags hflags =>
    simp only [hinted, hintedAddr] at h
    split at h
    · rename_i hc
      simp only [Bool.and_eq_true, Option.some.injEq] at hc h
      exact h ▸ (canGrowAt_spec hc.2).1
    · simp at h
  | reserve => simp [hinted] at h

/-- An automatic call keeps below the ceiling exactly when its hint is used,
when the lowest free place ends below the ceiling, or when no region lies
behind that place. -/
theorem automatic_placement_below_ceiling_iff (U : Usize) {s : MemoryManager} (h : Reachable U s) (c : Automatic)
    {len alignedLen : Nat} (hlen : len ≠ 0) (hround : U.roundUp len = some alignedLen) :
    (∀ alloc, (c.place U s len alloc).1 ≠ U.mapFailed → (c.place U s len alloc).1 + alignedLen ≤ s.maxAddr) ↔
      (c.hinted U s alignedLen).isSome ∨
        ∀ p, s.LowestPlace alignedLen p → p + alignedLen ≤ s.maxAddr ∨ s.NothingFrom (p + alignedLen) := by
  have hi := h.inv
  have hn := Usize.roundUp_pos hlen hround
  simp only [Automatic.place_eq U s hlen hround]
  cases hhint : c.hinted U s alignedLen with
  | some q =>
    have := Automatic.hinted_le hhint
    simp only [Option.isSome_some, true_or, iff_true]
    intro alloc
    cases alloc <;> simp [this]
  | none =>
    simp only [Option.none_or, Option.isSome_none, Bool.false_eq_true, false_or]
    constructor
    · intro hall p hp
      rcases hi.findGap_eq (U := U) hn hp with ⟨hg, hb⟩ | ⟨_, _, hnothing⟩
      · have hplace := hi.findGap_placeable hn hg
        have hne : p ≠ U.mapFailed := by
          have := hplace.below
          have := U.defaultMaxAddr_lt
          simp only [Usize.mapFailed]
          omega
        have := hall true
        simp only [hg, if_true, Option.getD_some] at this
        exact .inl (this hne)
      · exact .inr hnothing
    intro hall alloc
    obtain ⟨p, hfit, _⟩ := hi.findGap_spec (U := U) hn
    have hp := hi.lowestPlace hn hfit
    cases alloc with
    | false => simp
    | true =>
      intro hne
      rcases hi.findGap_eq (U := U) hn hp with ⟨hg, hb⟩ | ⟨hg, _, _⟩
      · simp only [hg, if_true, Option.getD_some]
        rcases hall p hp with hle | hnothing
        · exact hle
        · exact hb.resolve_right fun hno => hno hnothing
      · simp [hg] at hne

/-- A mapping at 0x30000000, then the ceiling lowered to 0x20000000. -/
def loweredRun : List Call := [.mmapAnonymous 0x30000000 0x10000 3 0x32 true, .setMaxAddr 0x20000000]

/-- Two pages are placed below the lowered ceiling, so the lowest place for them is. -/
theorem automatic_placement_below_ceiling_iff_lowered : Usize.wasm32.roundUp 0x12345 = some 0x20000 ∧
    ∀ p, (Machine.run (call .wasm32) MemoryManager.new loweredRun).LowestPlace 0x20000 p → p + 0x20000 ≤ 0x20000000 ∨
      (Machine.run (call .wasm32) MemoryManager.new loweredRun).NothingFrom (p + 0x20000) :=
  ⟨by decide, ((automatic_placement_below_ceiling_iff .wasm32 (.run loweredRun (.start rfl)) .reserve
    (show 0x12345 ≠ 0 by decide) (by decide)).mp (by decide +kernel)).resolve_left (by decide +kernel)⟩

/-- Below the mapping the lowered ceiling left above it, `find_gap` hands out
0x28000000 bytes that end at 0x2C000000. -/
theorem placement_above_lowered_ceiling : Reachable .wasm32 (Machine.run (call .wasm32) MemoryManager.new loweredRun) ∧
      (Machine.run (call .wasm32) MemoryManager.new loweredRun).maxAddr = 0x20000000 ∧
      ((Machine.run (call .wasm32) MemoryManager.new loweredRun).mmapAnonymous .wasm32 0 0x28000000 3 0x22 true).1 =
        0x04000000 ∧ ((Machine.run (call .wasm32) MemoryManager.new loweredRun).reserveHostRegion .wasm32 0x28000000 true).1 =
        0x04000000 ∧ ¬ 0x04000000 + 0x28000000 ≤ (Machine.run (call .wasm32) MemoryManager.new loweredRun).maxAddr :=
  ⟨.run loweredRun (.start rfl), by decide +kernel, by decide +kernel,
    by decide +kernel, by decide +kernel⟩

end Kandelo.Memory.MemoryManager

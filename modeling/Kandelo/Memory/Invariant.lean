/-
The regions of a process stay apart. In every state the memory manager reaches
from a fresh one, both vectors are in address order with no empty and no
overlapping region, no mapping meets a host-reserved region, and a protected
heap meets neither.

The invariant (`Inv`) is stated on addresses; each call is described by the
range it adds or removes, and the vectors' own facts follow from `Tiled`. The
layout setters run only while nothing is placed: a call that sets the layout
of a populated manager does nothing here.
-/
import Kandelo.Memory.Placement

namespace Kandelo.Memory

open Spanned MemoryManager

namespace MemoryManager

/-- What every call keeps. -/
structure Inv (s : MemoryManager) : Prop where
  maps : Tiled s.mappings
  reserved : Tiled s.reservedRegions
  apart : ∀ x, Mapped s.mappings x → ¬ Mapped s.reservedRegions x
  heap : s.reservedUntil ≠ 0 → s.Free s.initialBrk s.programBreak
  ceiling : s.maxAddr ≤ defaultMaxAddr
  mapsBelow : ∀ x, Mapped s.mappings x → x < defaultMaxAddr
  reservedBelow : ∀ x, Mapped s.reservedRegions x → x < defaultMaxAddr

variable {s : MemoryManager}

theorem Inv.maps_stop (h : Inv s) : ∀ m ∈ s.mappings, stop m ≤ defaultMaxAddr := stop_le_of_mapped h.maps h.mapsBelow

theorem Inv.reserved_stop (h : Inv s) : ∀ r ∈ s.reservedRegions, stop r ≤ defaultMaxAddr :=
  stop_le_of_mapped h.reserved h.reservedBelow

theorem Inv.new : Inv new :=
  ⟨.nil, .nil, by simp [MemoryManager.new], fun h => absurd rfl h, le_rfl, by simp [MemoryManager.new],
    by simp [MemoryManager.new]⟩

/-! ## Placing -/

/-- A range a region may be put into. -/
structure Placeable (s : MemoryManager) (addr len : Nat) : Prop where
  pos : 0 < len
  free : s.Free addr (addr + len)
  offHeap : s.OffHeap addr (addr + len)
  below : addr + len ≤ defaultMaxAddr

/-- Mappings that cover what was covered and what may be placed. -/
theorem Inv.remap (h : Inv s) {ms : List MappedRegion} (hms : Tiled ms)
    (hcover : ∀ x, Mapped ms x → Mapped s.mappings x ∨ ∃ addr len, s.Placeable addr len ∧ addr ≤ x ∧ x < addr + len) :
    Inv { s with mappings := ms } := by
  refine ⟨hms, h.reserved, ?_, ?_, h.ceiling, ?_, h.reservedBelow⟩
  · intro x hx
    rcases hcover x hx with hx | ⟨_, _, hp, hlo, hhi⟩
    · exact h.apart x hx
    · exact (hp.free x hlo hhi).2
  · intro hru x hlo hhi
    refine ⟨?_, (h.heap hru x hlo hhi).2⟩
    intro hx
    rcases hcover x hx with hx | ⟨_, _, hp, hlo', hhi'⟩
    · exact (h.heap hru x hlo hhi).1 hx
    · exact hp.offHeap hru x hlo' hhi' ⟨hlo, hhi⟩
  · intro x hx
    rcases hcover x hx with hx | ⟨_, _, hp, _, hhi⟩
    · exact h.mapsBelow x hx
    · exact lt_of_lt_of_le hhi hp.below

theorem Inv.insertMapping (h : Inv s) {m : MappedRegion} (hp : s.Placeable m.addr m.len) : Inv (s.insertMapping m) := by
  refine h.remap (h.maps.insertByAddr hp.pos fun x hx => (hp.free x hx.1 hx.2).1) fun x hx => ?_
  rw [mapped_insertByAddr] at hx
  rcases hx with hx | hx
  · exact .inr ⟨m.addr, m.len, hp, hx⟩
  · exact .inl hx

theorem Inv.insertReserved (h : Inv s) {r : ReservedRegion} (hp : s.Placeable r.addr r.len) : Inv (s.insertReserved r) := by
  have hfree : ∀ x, Covers r x → ¬ Mapped s.mappings x ∧ ¬ Mapped s.reservedRegions x := fun x hx => hp.free x hx.1 hx.2
  refine ⟨h.maps, h.reserved.insertByAddr hp.pos fun x hx => (hfree x hx).2, ?_, ?_, h.ceiling, h.mapsBelow, ?_⟩
  · intro x hx hr
    simp only [MemoryManager.insertReserved, mapped_insertByAddr] at hr
    rcases hr with hr | hr
    · exact (hfree x hr).1 hx
    · exact h.apart x hx hr
  · intro hru x hlo hhi
    refine ⟨(h.heap hru x hlo hhi).1, ?_⟩
    simp only [MemoryManager.insertReserved, mapped_insertByAddr, not_or]
    refine ⟨?_, (h.heap hru x hlo hhi).2⟩
    intro hx
    exact hp.offHeap hru x hx.1 hx.2 ⟨hlo, hhi⟩
  · intro x hx
    simp only [MemoryManager.insertReserved, mapped_insertByAddr] at hx
    rcases hx with hx | hx
    · exact lt_of_lt_of_le hx.2 hp.below
    · exact h.reservedBelow x hx

variable {U : Usize} {needed : Nat}

/-- `find_gap` stops at the lowest place above the base, and takes it if a
region lies behind it or it ends below the ceiling. -/
theorem Inv.findGap_spec (h : Inv s) (hn : 0 < needed) :
    ∃ p, LowestFit needed (regions s.mappings s.reservedRegions) s.placementBase p ∧
      GapAnswer needed s.maxAddr (regions s.mappings s.reservedRegions) p (findGap U s needed) :=
  findGapLoop_spec hn h.ceiling _ _ _ h.maps h.reserved h.maps_stop h.reserved_stop

variable {p : Nat}

/-- What fits between the regions is free. -/
theorem free_of_fit (hfit : ∀ r ∈ regions s.mappings s.reservedRegions, r.1 + r.2 ≤ p ∨ p + needed ≤ r.1) : s.Free p (p + needed) := by
  intro x hlo hhi
  constructor
  · intro hx
    obtain ⟨m, hm, hc⟩ := hx
    have hout : Outside p (p + needed) m := hfit _ (.inl ⟨m, hm, rfl⟩)
    exact hout.not_covers hlo hhi hc
  intro hx
  obtain ⟨r, hr, hc⟩ := hx
  have hout : Outside p (p + needed) r := hfit _ (.inr ⟨r, hr, rfl⟩)
  exact hout.not_covers hlo hhi hc

theorem Inv.findGap_placeable (h : Inv s) (hn : 0 < needed) (hg : findGap U s needed = some p) : s.Placeable p needed := by
  obtain ⟨q, hfit, hans⟩ := h.findGap_spec (U := U) hn
  rcases hans with ⟨hq, hb⟩ | ⟨hq, _⟩
  · rw [hg, Option.some.injEq] at hq
    subst hq
    refine ⟨hn, free_of_fit hfit.free, ?_, ?_⟩
    · intro _ x hlo _ hx
      have := hfit.ge
      simp only [placementBase] at this
      omega
    rcases hb with hb | ⟨r, hr, hb⟩
    · exact le_trans hb h.ceiling
    have hle : r.1 ≤ defaultMaxAddr := by
      rcases hr with ⟨m, hm, rfl⟩ | ⟨m, hm, rfl⟩
      · exact le_trans (Nat.le_add_right _ _) (h.maps_stop m hm)
      · exact le_trans (Nat.le_add_right _ _) (h.reserved_stop m hm)
    exact le_trans hb hle
  · rw [hg] at hq
    simp at hq

theorem canGrowAt_placeable (h : Inv s) {addr len : Nat} (hlen : 0 < len) (hg : canGrowAt U s addr len) : s.Placeable addr len := by
  obtain ⟨hmax, hfree, hoff⟩ := canGrowAt_spec hg
  exact ⟨hlen, hfree, hoff, le_trans hmax h.ceiling⟩

theorem Inv.automatic_placeable (h : Inv s) {hint : Nat} (hn : 0 < needed)
    (hp : (hintedAddr U s hint needed).or (findGap U s needed) = some p) : s.Placeable p needed := by
  rcases Option.or_eq_some_iff.mp hp with hp | ⟨_, hp⟩
  · simp only [hintedAddr] at hp
    split at hp
    · rename_i hc
      simp only [Bool.and_eq_true, Option.some.injEq] at hc hp
      exact hp ▸ canGrowAt_placeable h hn hc.2
    · simp at hp
  · exact h.findGap_placeable hn hp

/-! ## Releasing -/

theorem munmapLoop_of_before {lo hi : Nat} : ∀ {v : List MappedRegion}, (∀ m ∈ v, U.satStop m ≤ lo) → (munmapLoop U lo hi v).1 = v
  | [], _ => rfl
  | m :: ms, h => by
    simp only [munmapLoop, if_pos (h m (by simp))]
    rw [munmapLoop_of_before fun a ha => h a (by simp [ha])]

/-- Releasing a range keeps the mappings in order and removes exactly the
addresses of the range. -/
theorem Inv.munmapPrepared_spec (h : Inv s) (addr len : Nat) : Tiled (munmapPrepared U s addr len).2.mappings ∧
      ∀ x, attrAt attrs (munmapPrepared U s addr len).2.mappings x =
        if addr ≤ x ∧ x < addr + len then none else attrAt attrs s.mappings x := by
  have hU := U.defaultMaxAddr_lt
  have hsat : ∀ m ∈ s.mappings, U.satStop m = stop m := fun m hm => Usize.satStop_eq (h.maps_stop m hm)
  have htop : ∀ x, defaultMaxAddr ≤ x → attrAt attrs s.mappings x = none := by
    intro x hx
    refine attrAt_eq_none.mpr fun hm => ?_
    have := h.mapsBelow x hm
    omega
  simp only [munmapPrepared]
  by_cases hadd : addr ≤ U.max
  · have hlo : addr ≤ U.saturatingAdd addr len := by simp only [Usize.saturatingAdd]; omega
    refine ⟨munmapLoop_tiled hlo hsat h.maps, ?_⟩
    intro x
    rw [munmapLoop_attrAt hlo x hsat h.maps]
    by_cases hx : x < defaultMaxAddr
    · have : x < U.saturatingAdd addr len ↔ x < addr + len := by simp only [Usize.saturatingAdd]; omega
      simp [this]
    · rw [htop x (by omega)]
      simp
  -- past the end of the address space: nothing is there
  have hbefore : ∀ m ∈ s.mappings, U.satStop m ≤ addr := by
    intro m hm
    have := h.maps_stop m hm
    rw [hsat m hm]
    omega
  rw [munmapLoop_of_before hbefore]
  refine ⟨h.maps, ?_⟩
  intro x
  split
  · exact htop x (by omega)
  · rfl

theorem Inv.munmapPrepared_sub (h : Inv s) {addr len x : Nat} (hx : Mapped (munmapPrepared U s addr len).2.mappings x) :
    Mapped s.mappings x ∧ ¬ (addr ≤ x ∧ x < addr + len) := by
  have hspec := (h.munmapPrepared_spec (U := U) addr len).2 x
  by_cases hin : addr ≤ x ∧ x < addr + len
  · rw [if_pos hin] at hspec
    exact absurd hx (attrAt_eq_none.mp hspec)
  · rw [if_neg hin] at hspec
    exact ⟨(mapped_congr hspec).mp hx, hin⟩

theorem Inv.munmapPrepared (h : Inv s) (addr len : Nat) : Inv (munmapPrepared U s addr len).2 :=
  h.remap (h.munmapPrepared_spec addr len).1 fun _ hx => .inl (h.munmapPrepared_sub hx).1

/-- `munmap` changes nothing, or releases a range. -/
theorem munmap_cases (U : Usize) (s : MemoryManager) (addr len : Nat) (alloc : Bool) :
    (munmap U s addr len alloc).2 = s ∨ ∃ alignedLen, (munmap U s addr len alloc).2 = (munmapPrepared U s addr alignedLen).2 := by
  rw [munmap]
  iterate 3 (split; · exact .inl rfl)
  · exact .inr ⟨_, rfl⟩

theorem Inv.munmap (h : Inv s) (addr len : Nat) (alloc : Bool) : Inv (munmap U s addr len alloc).2 := by
  rcases munmap_cases U s addr len alloc with hs | ⟨alignedLen, hs⟩
  · rw [hs]; exact h
  · rw [hs]; exact h.munmapPrepared addr alignedLen

/-! ## Mapping and reserving -/

theorem Usize.roundUp_pos {len r : Nat} (hlen : len ≠ 0) (h : U.roundUp len = some r) : 0 < r := by
  have := Usize.roundUp_eq_some h
  omega

/-- A fixed range the checks let through may be mapped once it is released. -/
theorem Inv.fixed_placeable (h : Inv s) {hint len : Nat} (hlen : 0 < len) (hok : fixedRefused U s hint len = false) :
    (MemoryManager.munmapPrepared U s hint len).2.Placeable hint len := by
  simp only [fixedRefused, Bool.or_eq_false_iff, decide_eq_false_iff_not, Bool.and_eq_false_iff, bne_eq_false_iff_eq] at hok
  obtain ⟨⟨⟨⟨hmax, _⟩, hres⟩, _⟩, hheap⟩ := hok
  have hceil := h.ceiling
  obtain ⟨hwrap, hfree⟩ := overlapsSpans_false hres
  refine ⟨hlen, ?_, ?_, ?_⟩
  · intro x hlo hhi
    exact ⟨fun hx => (h.munmapPrepared_sub hx).2 ⟨hlo, hhi⟩, hfree x hlo hhi⟩
  · intro hru x hlo hhi
    exact overlapsBrkHeap_false (hheap.resolve_left hru) hlo hhi
  · simp only [Usize.saturatingAdd] at hmax
    omega

/-- What `mmap_anonymous` does: nothing, a fixed mapping over a released range,
or a mapping at a place the automatic search found. -/
theorem mmapAnonymous_cases (U : Usize) (s : MemoryManager) (hint len : Nat) (prot flags : UInt32) (alloc : Bool) :
    mmapAnonymous U s hint len prot flags alloc = (U.mapFailed, s) ∨ ∃ alignedLen, len ≠ 0 ∧ U.roundUp len = some alignedLen ∧
        ((hint ≠ 0 ∧ flags &&& mapFixed ≠ 0 ∧ fixedRefused U s hint alignedLen = false ∧ mmapAnonymous U s hint len prot flags alloc =
              (hint, (munmapPrepared U s hint alignedLen).2.insertMapping ⟨hint, alignedLen, prot, flags⟩)) ∨
          ∃ addr, ¬ (hint ≠ 0 ∧ flags &&& mapFixed ≠ 0) ∧ (hintedAddr U s hint alignedLen).or (findGap U s alignedLen) = some addr ∧
            mmapAnonymous U s hint len prot flags alloc = (addr, s.insertMapping ⟨addr, alignedLen, prot, flags⟩)) := by
  simp only [mmapAnonymous]
  split
  · exact .inl rfl
  rename_i hlen
  split
  · exact .inl rfl
  rename_i alignedLen hround
  split
  · rename_i hfixed
    split
    · exact .inl rfl
    rename_i hok
    split
    · exact .inr ⟨alignedLen, hlen, hround, .inl ⟨hfixed.1, hfixed.2, by simpa using hok, rfl⟩⟩
    · exact .inl rfl
  rename_i hauto
  split
  · exact .inl rfl
  rename_i addr haddr
  split
  · exact .inr ⟨alignedLen, hlen, hround, .inr ⟨addr, hauto, haddr, rfl⟩⟩
  · exact .inl rfl

theorem Inv.mmapAnonymous (h : Inv s) (hint len : Nat) (prot flags : UInt32)
    (alloc : Bool) : Inv (mmapAnonymous U s hint len prot flags alloc).2 := by
  rcases mmapAnonymous_cases U s hint len prot flags alloc with
    he | ⟨alignedLen, hlen, hround, ⟨_, _, hok, he⟩ | ⟨addr, _, haddr, he⟩⟩
  · rw [he]; exact h
  · rw [he]
    exact (h.munmapPrepared hint alignedLen).insertMapping (h.fixed_placeable (Usize.roundUp_pos hlen hround) hok)
  · rw [he]
    exact h.insertMapping (h.automatic_placeable (Usize.roundUp_pos hlen hround) haddr)

theorem Inv.reserveHostRegion (h : Inv s) (len : Nat) (alloc : Bool) : Inv (reserveHostRegion U s len alloc).2 := by
  simp only [MemoryManager.reserveHostRegion]
  split
  · exact h
  rename_i hlen
  split
  · exact h
  rename_i alignedLen hround
  split
  · exact h
  rename_i addr haddr
  split
  · exact h.insertReserved (h.findGap_placeable (Usize.roundUp_pos hlen hround) haddr)
  · exact h

theorem Inv.reserveHostRegionAt (h : Inv s) (addr len : Nat) (alloc : Bool) : Inv (reserveHostRegionAt U s addr len alloc).2 := by
  simp only [MemoryManager.reserveHostRegionAt]
  split
  · exact h
  rename_i hargs
  split
  · exact h
  rename_i alignedLen hround
  split
  · exact h
  rename_i stop hstop
  split
  · exact h
  rename_i hok
  split
  · refine h.insertReserved ?_
    obtain ⟨rfl, _⟩ := Usize.checkedAdd_eq_some hstop
    simp only [reserveAtRefused, Bool.not_eq_true, Bool.or_eq_false_iff, decide_eq_false_iff_not, not_lt,
      Bool.and_eq_false_iff, bne_eq_false_iff_eq] at hok
    obtain ⟨⟨⟨⟨⟨hmax, _⟩, _⟩, hmaps⟩, hres⟩, hheap⟩ := hok
    refine ⟨Usize.roundUp_pos (fun h => hargs (.inl h)) hround, ?_, ?_, le_trans hmax h.ceiling⟩
    · intro x hlo hhi
      exact ⟨(overlapsSpans_false hmaps).2 x hlo hhi, (overlapsSpans_false hres).2 x hlo hhi⟩
    · intro hru x hlo hhi
      exact overlapsBrkHeap_false (hheap.resolve_left hru) hlo hhi
  · exact h

/-! ## The break, the ceiling and `mremap` -/

/-- What `set_brk` asks of a break. -/
structure Grants (U : Usize) (s : MemoryManager) (newBrk : Nat) : Prop where
  nonzero : newBrk ≠ 0
  base : s.initialBrk ≤ newBrk
  ceiling : newBrk ≤ s.maxAddr
  limit : newBrk ≤ s.brkLimit
  maps : s.programBreak < newBrk → overlapsMappings U s s.programBreak (newBrk - s.programBreak) = false
  reserved : s.programBreak < newBrk → overlapsReservedRegions U s s.programBreak (newBrk - s.programBreak) = false
  data : s.initialBrk < newBrk → newBrk - s.initialBrk ≤ s.dataLimit

theorem setBrk_cases (U : Usize) (s : MemoryManager) (newBrk : Nat) :
    Grants U s newBrk ∧ setBrk U s newBrk = (newBrk, { s with programBreak := newBrk }) ∨
      ¬Grants U s newBrk ∧ setBrk U s newBrk = (s.programBreak, s) := by
  simp only [setBrk]
  split_ifs with h1 h2 h3 h4 h5 h6 h7
  · exact .inr ⟨fun g => g.nonzero h1, rfl⟩
  · exact .inr ⟨fun g => Nat.not_lt.mpr g.base h2, rfl⟩
  · exact .inr ⟨fun g => Nat.not_lt.mpr g.ceiling h3, rfl⟩
  · exact .inr ⟨fun g => Nat.not_lt.mpr g.limit h4, rfl⟩
  · exact .inr ⟨fun g => Bool.false_ne_true ((g.maps h5.1).symm.trans h5.2), rfl⟩
  · exact .inr ⟨fun g => Bool.false_ne_true ((g.reserved h6.1).symm.trans h6.2), rfl⟩
  · exact .inr ⟨fun g => Nat.not_lt.mpr (g.data h7.1) h7.2, rfl⟩
  · simp only [not_and, Bool.not_eq_true, not_lt] at h2 h3 h4 h5 h6 h7
    exact .inl ⟨⟨h1, h2, h3, h4, h5, h6, h7⟩, rfl⟩

theorem Inv.setBrk (h : Inv s) (newBrk : Nat) : Inv (setBrk U s newBrk).2 := by
  rcases setBrk_cases U s newBrk with ⟨g, heq⟩ | ⟨_, heq⟩ <;> rw [heq]
  · refine ⟨h.maps, h.reserved, h.apart, fun hru x hlo hhi => ?_, h.ceiling, h.mapsBelow, h.reservedBelow⟩
    -- below the old break the heap was free already; above it the tests say so
    by_cases hx : x < s.programBreak
    · exact h.heap hru x hlo hx
    have hgrow : s.programBreak < newBrk := lt_of_le_of_lt (Nat.le_of_not_lt hx) hhi
    have hwidth : s.programBreak + (newBrk - s.programBreak) = newBrk := by omega
    exact ⟨(overlapsSpans_false (g.maps hgrow)).2 x (by omega) (hwidth.symm ▸ hhi),
      (overlapsSpans_false (g.reserved hgrow)).2 x (by omega) (hwidth.symm ▸ hhi)⟩
  · exact h

theorem Inv.setMaxAddr (h : Inv s) (addr : Nat) : Inv (s.setMaxAddr addr) := by
  simp only [MemoryManager.setMaxAddr]
  split_ifs with hlt
  · refine ⟨h.maps, h.reserved, h.apart, h.heap, ?_, h.mapsBelow, h.reservedBelow⟩
    exact le_of_lt (lt_of_lt_of_le hlt h.ceiling)
  · exact h

/-- A mapping that grows into a placeable range keeps the invariant. -/
theorem Inv.grow (h : Inv s) {before after : List MappedRegion} {m : MappedRegion} {newLen : Nat}
    (hms : s.mappings = before ++ m :: after) (hlt : m.len < newLen) (hp : s.Placeable (stop m) (newLen - m.len)) :
    Inv { s with mappings := before ++ { m with len := newLen } :: after } := by
  have hstop : stop m = m.addr + m.len := rfl
  have hfree : ∀ x, stop m ≤ x → x < m.addr + newLen → ¬ Mapped (before ++ m :: after) x := by
    intro x hlo hhi
    rw [← hms]
    exact (hp.free x hlo (by omega)).1
  refine h.remap (Tiled.grow (hms ▸ h.maps) hlt hfree) fun x hx => ?_
  have hattr := attrAt_grow hlt hfree x
  by_cases hin : stop m ≤ x ∧ x < m.addr + newLen
  · exact .inr ⟨_, _, hp, hin.1, by omega⟩
  rw [if_neg hin] at hattr
  rw [hms]
  exact .inl ((mapped_congr hattr).mp hx)

/-- `extend_mapping` changes nothing, or grows the one mapping it is about. -/
theorem extendMapping_cases (s : MemoryManager) (addr oldLen newLen : Nat) : extendMapping s addr oldLen newLen = (false, s) ∨
      ∃ before m after, s.mappings = before ++ m :: after ∧ m.addr = addr ∧ m.len = oldLen ∧
        extendMapping s addr oldLen newLen = (true, { s with mappings := before ++ { m with len := newLen } :: after }) := by
  simp only [extendMapping]
  split
  · rename_i ms hms
    obtain ⟨before, m, after, hv, h1, h2, rfl⟩ := extendLoop_eq_some hms
    exact .inr ⟨before, m, after, hv, h1, h2, rfl⟩
  · exact .inl rfl

/-- What mapping, releasing and growing in place keep, `sys_mremap` keeps. -/
theorem sysMremap_rule {P : MemoryManager → Prop} (h : P s)
    (hmap : ∀ len alloc, P (mmapAnonymous U s 0 len 3 (mapPrivate ||| mapAnonymous) alloc).2)
    (hunmap : ∀ s' addr len alloc, P s' → P (munmap U s' addr len alloc).2)
    (hgrow : ∀ before m after newLen, s.mappings = before ++ m :: after → m.len < newLen →
      canGrowAt U s (stop m) (newLen - m.len) → P { s with mappings := before ++ { m with len := newLen } :: after })
    (oldAddr oldLen newLen : Nat) (flags : UInt32) (alloc : MremapAlloc) :
    P (sysMremap U s oldAddr oldLen newLen flags alloc).2 := by
  simp only [sysMremap]
  split
  · exact h
  split
  · exact h
  split
  · rename_i alignedOld alignedNew _ _
    simp only [mremapAligned]
    split
    · split
      · split
        · exact h
        rename_i tail _
        have hreleased := hunmap s tail (alignedOld - alignedNew) alloc.munmap h
        split <;> simp_all
      · exact h
    rename_i hlt
    split
    · exact h
    rename_i growStart hstart
    obtain ⟨rfl, _⟩ := Usize.checkedAdd_eq_some hstart
    split
    · rename_i hcan
      rcases extendMapping_cases s oldAddr alignedOld alignedNew with he | ⟨before, m, after, hms, rfl, rfl, he⟩ <;>
        rw [he]
      · exact h
      · exact hgrow before m after alignedNew hms (Nat.lt_of_not_le hlt) hcan
    split
    · simp only [mremapMove]
      split
      · exact h
      have hmapped := hmap alignedNew alloc.mmap
      split
      · exact hmapped
      have hreleased := hunmap _ oldAddr alignedOld alloc.munmap hmapped
      split <;> simp_all
    · exact h
  · exact h

theorem Inv.sysMremap (h : Inv s) (oldAddr oldLen newLen : Nat) (flags : UInt32)
    (alloc : MremapAlloc) : Inv (sysMremap U s oldAddr oldLen newLen flags alloc).2 :=
  sysMremap_rule h (fun len alloc => h.mmapAnonymous 0 len 3 _ alloc) (fun _ addr len alloc h' => h'.munmap addr len alloc)
    (fun _ _ _ _ hms hlt hcan => h.grow hms hlt (canGrowAt_placeable h (Nat.sub_pos_of_lt hlt) hcan))
    oldAddr oldLen newLen flags alloc

/-! ## Runs -/

/-- The layout setters: the host calls them before anything is placed. -/
inductive LayoutCall
  | setBrkBase (addr : Nat)
  | setMmapBase (addr : Nat)
  | setBrkLimit (addr : Nat)
  deriving DecidableEq, Repr

def layoutCall (U : Usize) (s : MemoryManager) : LayoutCall → MemoryManager
  | .setBrkBase addr => s.setBrkBase U addr
  | .setMmapBase addr => s.setMmapBase U addr
  | .setBrkLimit addr => s.setBrkLimit addr

/-- The calls of a run, each with the allocator's answers. -/
inductive Call
  | mmapAnonymous (hint len : Nat) (prot flags : UInt32) (alloc : Bool)
  | munmap (addr len : Nat) (alloc : Bool)
  | setBrk (newBrk : Nat)
  | reserveHostRegion (len : Nat) (alloc : Bool)
  | reserveHostRegionAt (addr len : Nat) (alloc : Bool)
  | setMaxAddr (addr : Nat)
  | setDataLimit (limit : Nat)
  | mremap (oldAddr oldLen newLen : Nat) (flags : UInt32) (alloc : MremapAlloc)
  | layout (c : LayoutCall)
  deriving DecidableEq, Repr

/-- One call: its answer, as a number or an error, and the state after it. -/
def call (U : Usize) (s : MemoryManager) : Call → Except Errno Nat × MemoryManager
  | .mmapAnonymous hint len prot flags alloc =>
    let r := s.mmapAnonymous U hint len prot flags alloc
    (.ok r.1, r.2)
  | .munmap addr len alloc =>
    let r := s.munmap U addr len alloc
    (r.1.map Bool.toNat, r.2)
  | .setBrk newBrk =>
    let r := s.setBrk U newBrk
    (.ok r.1, r.2)
  | .reserveHostRegion len alloc =>
    let r := s.reserveHostRegion U len alloc
    (.ok r.1, r.2)
  | .reserveHostRegionAt addr len alloc =>
    let r := s.reserveHostRegionAt U addr len alloc
    (.ok r.1, r.2)
  | .setMaxAddr addr => (.ok 0, s.setMaxAddr addr)
  | .setDataLimit limit => (.ok 0, s.setDataLimit limit)
  | .mremap oldAddr oldLen newLen flags alloc => s.sysMremap U oldAddr oldLen newLen flags alloc
  | .layout c => (.ok 0, if s.mappings = [] ∧ s.reservedRegions = [] then s.layoutCall U c else s)

/-- States of a process: a fresh manager and any sequence of calls. -/
abbrev Reachable (U : Usize) : MemoryManager → Prop := Machine.Reachable (· = new) (call U)

theorem Inv.layout (h : Inv s) (hm : s.mappings = []) (hr : s.reservedRegions = []) (c : LayoutCall) : Inv (s.layoutCall U c) := by
  have hempty : ∀ s' : MemoryManager, s'.mappings = s.mappings → s'.reservedRegions = s.reservedRegions →
      s'.maxAddr = s.maxAddr → Inv s' := by
    intro s' hm' hr' hmax
    rw [hm] at hm'
    rw [hr] at hr'
    refine ⟨hm' ▸ .nil, hr' ▸ .nil, ?_, ?_, hmax ▸ h.ceiling, ?_, ?_⟩
    · simp [hm']
    · simp [Free, hm', hr']
    · simp [hm']
    · simp [hr']
  cases c with
  | setBrkBase | setMmapBase => exact hempty _ rfl rfl rfl
  | setBrkLimit addr =>
    simp only [layoutCall, setBrkLimit]
    split
    · exact hempty _ rfl rfl rfl
    · exact h

theorem Inv.call (h : Inv s) (c : Call) : Inv (s.call U c).2 := by
  cases c with
  | mmapAnonymous hint len prot flags alloc => exact h.mmapAnonymous hint len prot flags alloc
  | munmap addr len alloc => exact h.munmap addr len alloc
  | setBrk newBrk => exact h.setBrk newBrk
  | reserveHostRegion len alloc => exact h.reserveHostRegion len alloc
  | reserveHostRegionAt addr len alloc => exact h.reserveHostRegionAt addr len alloc
  | setMaxAddr addr => exact h.setMaxAddr addr
  | setDataLimit limit => exact ⟨h.maps, h.reserved, h.apart, h.heap, h.ceiling, h.mapsBelow, h.reservedBelow⟩
  | mremap oldAddr oldLen newLen flags alloc => exact h.sysMremap oldAddr oldLen newLen flags alloc
  | layout c =>
    simp only [MemoryManager.call]
    split_ifs with he
    · exact h.layout he.1 he.2 c
    · exact h

theorem Reachable.inv (h : Reachable U s) : Inv s :=
  Machine.Reachable.invariant (I := Inv) (fun s (hs : s = new) => hs ▸ Inv.new)
    (fun _ c hi => hi.call c) h

/-- In order, without an empty region and without an overlap. -/
structure WellPlaced {α : Type} [Spanned α] (v : List α) : Prop where
  sorted : v.Pairwise fun a b => addr a < addr b
  nonempty : ∀ a ∈ v, 0 < len a
  disjoint : v.Pairwise Apart

theorem Tiled.wellPlaced {α : Type} [Spanned α] {v : List α} (h : Tiled v) : WellPlaced v := ⟨h.sorted, h.nonempty, h.apart⟩

/-- Whatever the guest maps, releases and remaps, however the break moves and
whatever the host reserves: the regions stay apart from each other and from a
protected heap. -/
theorem regions_stay_apart (U : Usize) {s : MemoryManager} (h : Reachable U s) :
    WellPlaced s.mappings ∧ WellPlaced s.reservedRegions ∧ (∀ m ∈ s.mappings, ∀ r ∈ s.reservedRegions, Apart m r) ∧
      (s.reservedUntil ≠ 0 → ∀ x, s.initialBrk ≤ x → x < s.programBreak →
        (∀ m ∈ s.mappings, ¬ Covers m x) ∧ ∀ r ∈ s.reservedRegions, ¬ Covers r x) := by
  have hi := h.inv
  refine ⟨Tiled.wellPlaced hi.maps, Tiled.wellPlaced hi.reserved, ?_, ?_⟩
  · intro m hm r hr x hx
    exact hi.apart x ⟨m, hm, hx.1⟩ ⟨r, hr, hx.2⟩
  intro hru x hlo hhi
  obtain ⟨hm, hr⟩ := hi.heap hru x hlo hhi
  exact ⟨fun m hmem hc => hm ⟨m, hmem, hc⟩, fun r hmem hc => hr ⟨r, hmem, hc⟩⟩

/-- A process with a protected heap: a mapping, a reserved region behind it, a
moved break, and a fixed mapping that splits the first one. -/
def splitRun : List Call :=
  [.layout (.setBrkBase 0x20000), .layout (.setMmapBase 0x200000), .mmapAnonymous 0 0x30000 3 0x22 true,
    .reserveHostRegion 0x10000 true, .setBrk 0x50000, .mmapAnonymous 0x210000 0x10000 1 0x32 true]

theorem regions_stay_apart_splitRun :
    (Machine.run (call .wasm32) MemoryManager.new splitRun).mappings.map (·.addr) = [0x200000, 0x210000, 0x220000] ∧
      (Machine.run (call .wasm32) MemoryManager.new splitRun).mappings.Pairwise Apart :=
  ⟨by decide +kernel,
    (regions_stay_apart .wasm32 (.run splitRun (.start rfl))).1.disjoint⟩

end MemoryManager

end Kandelo.Memory

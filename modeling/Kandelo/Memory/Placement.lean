/-
What the tests, searches and loops of the memory manager answer, read through
the addresses the two vectors cover: an overlap test that passes leaves its
range free, `find_gap` answers the lowest free place (and looks at the ceiling
only behind the last region), releasing a range removes exactly its addresses,
growing a mapping adds exactly the new ones.
-/
import Kandelo.Memory.Manager

namespace Kandelo.Memory

open Spanned List Usize

/-! ## Widths -/

variable {α : Type} {U : Usize}

theorem Usize.checkedAdd_eq_some {a b c : Nat} (h : U.checkedAdd a b = some c) : c = a + b ∧ a + b ≤ U.max := by
  simp only [checkedAdd] at h
  split at h
  · rename_i hle
    simp only [Option.some.injEq] at h
    exact ⟨h.symm, hle⟩
  · simp at h

/-- A length rounded up is a positive number of pages and no smaller. -/
theorem Usize.roundUp_eq_some {len r : Nat} (h : U.roundUp len = some r) : len ≤ r ∧ r % 0x10000 = 0 ∧ r < len + 0x10000 := by
  simp only [roundUp, Option.map_eq_some_iff] at h
  obtain ⟨c, hc, rfl⟩ := h
  obtain ⟨rfl, _⟩ := checkedAdd_eq_some hc
  simp only [alignDown]
  omega

/-- Rounding up leaves whole pages as they are. -/
theorem Usize.satStop_eq [Spanned α] {m : α} (h : stop m ≤ defaultMaxAddr) : U.satStop m = stop m := by
  have := U.defaultMaxAddr_lt
  simp only [satStop, saturatingAdd, stop] at *
  omega

/-- Spans that cover only addresses below the default ceiling end there. -/
theorem stop_le_of_mapped [Spanned α] {v : List α} (h : Tiled v)
    (hb : ∀ x, Mapped v x → x < defaultMaxAddr) : ∀ m ∈ v, stop m ≤ defaultMaxAddr := by
  intro m hm
  have hlen := h.nonempty m hm
  have := hb (stop m - 1) ⟨m, hm, by simp only [Covers, stop]; omega⟩
  omega

namespace MemoryManager

/-! ## Overlap tests -/

/-- A range an overlap test passes is free, and it does not wrap. -/
theorem overlapsSpans_false [Spanned α] {v : List α} {addr len : Nat} (h : overlapsSpans U v addr len = false) :
    addr + len ≤ U.max ∧ ∀ x, addr ≤ x → x < addr + len → ¬ Mapped v x := by
  simp only [overlapsSpans] at h
  split at h
  · simp at h
  rename_i stop hstop
  obtain ⟨rfl, hle⟩ := checkedAdd_eq_some hstop
  refine ⟨hle, ?_⟩
  intro x hlo hhi hx
  obtain ⟨m, hm, hmx⟩ := hx
  simp only [any_eq_false, Bool.and_eq_true, decide_eq_true_eq, not_and] at h
  simp only [Covers, Spanned.stop] at hmx
  have := h m hm (by simp only [satStop, saturatingAdd]; omega)
  omega

/-- A range the break test passes lies outside the heap. -/
theorem overlapsBrkHeap_false {s : MemoryManager} {addr len : Nat}
    (h : overlapsBrkHeap U s addr len = false) {x : Nat} (hlo : addr ≤ x) (hhi : x < addr + len) :
    ¬ (s.initialBrk ≤ x ∧ x < s.programBreak) := by
  simp only [overlapsBrkHeap] at h
  split at h
  · omega
  split at h
  · simp at h
  rename_i stop hstop
  obtain ⟨rfl, _⟩ := checkedAdd_eq_some hstop
  simp only [Bool.and_eq_false_iff, decide_eq_false_iff_not] at h
  omega

/-- Both vectors leave the range `[lo, hi)` free. -/
def Free (s : MemoryManager) (lo hi : Nat) : Prop := ∀ x, lo ≤ x → x < hi → ¬ Mapped s.mappings x ∧ ¬ Mapped s.reservedRegions x

/-- The range `[lo, hi)` keeps out of the heap, once the heap is protected. -/
def OffHeap (s : MemoryManager) (lo hi : Nat) : Prop :=
  s.reservedUntil ≠ 0 → ∀ x, lo ≤ x → x < hi → ¬ (s.initialBrk ≤ x ∧ x < s.programBreak)

/-- A range `can_grow_at` accepts is free, off the heap and below the ceiling. -/
theorem canGrowAt_spec {s : MemoryManager} {addr len : Nat} (h : canGrowAt U s addr len) :
    addr + len ≤ s.maxAddr ∧ s.Free addr (addr + len) ∧ s.OffHeap addr (addr + len) := by
  simp only [canGrowAt] at h
  split at h
  · simp at h
  rename_i stop hstop
  obtain ⟨rfl, hle⟩ := checkedAdd_eq_some hstop
  iterate 4 (split at h; · simp at h)
  rename_i hres
  split at h
  · simp at h
  rename_i hheap
  simp only [Bool.not_eq_true] at hres
  refine ⟨by omega, ?_, ?_⟩
  · intro x hlo hhi
    have hmaps : overlapsSpans U s.mappings addr len = false := by
      simp only [overlapsSpans, hstop]
      simpa using h
    exact ⟨(overlapsSpans_false hmaps).2 x hlo hhi, (overlapsSpans_false hres).2 x hlo hhi⟩
  · intro hru x hlo hhi
    have hoff : overlapsBrkHeap U s addr len = false := by simpa [hru] using hheap
    exact overlapsBrkHeap_false hoff hlo hhi

/-! ## `find_gap` -/

/-- The regions of both vectors, as start and length. -/
def regions (ms : List MappedRegion) (rs : List ReservedRegion) : Set (Nat × Nat) :=
  { z | (∃ m ∈ ms, z = (m.addr, m.len)) ∨ ∃ r ∈ rs, z = (r.addr, r.len) }

theorem regions_cons_mapping (m : MappedRegion) (ms : List MappedRegion) (rs : List ReservedRegion) :
    regions (m :: ms) rs = insert (m.addr, m.len) (regions ms rs) := by
  ext z
  simp only [regions, mem_cons, exists_eq_or_imp, Set.mem_ofPred_eq, Set.mem_insert_iff, or_assoc]

theorem regions_cons_reserved (ms : List MappedRegion) (r : ReservedRegion) (rs : List ReservedRegion) :
    regions ms (r :: rs) = insert (r.addr, r.len) (regions ms rs) := by
  ext z
  simp only [regions, mem_cons, exists_eq_or_imp, Set.mem_ofPred_eq]
  exact or_left_comm

/-- What a search that stops at the place `p` answers: `p` if a region lies
behind it or it ends below the ceiling, nothing otherwise. -/
def GapAnswer (needed maxAddr : Nat) (R : Set (Nat × Nat)) (p : Nat) (answer : Option Nat) : Prop :=
  (answer = some p ∧ (p + needed ≤ maxAddr ∨ ∃ r ∈ R, p + needed ≤ r.1)) ∨
    (answer = none ∧ maxAddr < p + needed ∧ ∀ r ∈ R, r.1 < p + needed)

/-- One region at the head of the streams: the gap before it is taken, or the
rest of the search decides. -/
theorem gap_step [Spanned α] {m : α} {needed maxAddr cursor : Nat} {R : Set (Nat × Nat)}
    {answer : Option Nat} (hstop : stop m ≤ defaultMaxAddr) (hfirst : ∀ r ∈ R, addr m ≤ r.1)
    (ih : ∃ p, LowestFit needed R (advanceCursor U m cursor) p ∧ GapAnswer needed maxAddr R p answer) :
    ∃ p, LowestFit needed (insert (addr m, len m) R) cursor p ∧ GapAnswer needed maxAddr (insert (addr m, len m) R) p
        (if gapBefore needed cursor (addr m) then some cursor else answer) := by
  by_cases hgap : gapBefore needed cursor (addr m)
  · have hg := hgap
    simp only [gapBefore, Bool.and_eq_true, decide_eq_true_eq] at hg
    refine ⟨cursor, .here (a := addr m) ?_ (by omega), .inl ⟨by simp [hgap], .inr ⟨_, .inl rfl, ?_⟩⟩⟩
    · intro r hr
      rcases hr with rfl | hr
      · exact le_rfl
      · exact hfirst r hr
    · simp only; omega
  obtain ⟨p, hp, ha⟩ := ih
  have hcur : advanceCursor U m cursor = max cursor (addr m + len m) := by
    rw [advanceCursor, satStop_eq hstop, stop]
    split <;> omega
  rw [hcur] at hp
  have hle := hp.ge
  have hno : ¬ cursor + needed ≤ addr m := by
    simp only [gapBefore, Bool.and_eq_true, decide_eq_true_eq] at hgap
    omega
  refine ⟨p, hp.skip hno, ?_⟩
  simp only [hgap, Bool.false_eq_true]
  rcases ha with ⟨ha, hb⟩ | ⟨ha, hb, hc⟩
  · refine .inl ⟨ha, hb.imp id ?_⟩
    intro hr
    obtain ⟨r, hr, hb⟩ := hr
    exact ⟨r, .inr hr, hb⟩
  refine .inr ⟨ha, hb, ?_⟩
  intro r hr
  rcases hr with rfl | hr
  · simp only; omega
  · exact hc r hr

/-- The regions behind the first one of a vector start no earlier. -/
theorem Tiled.addr_le [Spanned α] {a : α} {v : List α} (h : Tiled (a :: v)) : ∀ b ∈ v, addr a ≤ addr b := by
  intro b hb
  have := (tiled_cons.mp h).2.1 b hb
  simp only [stop] at this
  omega

variable {n : Nat}

theorem le_regions {ms : List MappedRegion} {rs : List ReservedRegion} (hms : ∀ m ∈ ms, n ≤ m.addr)
    (hrs : ∀ r ∈ rs, n ≤ r.addr) : ∀ z ∈ regions ms rs, n ≤ z.1 := by
  intro z hz
  rcases hz with ⟨m, hm, rfl⟩ | ⟨r, hr, rfl⟩
  · exact hms m hm
  · exact hrs r hr

/-- `find_gap` from a cursor: it stops at the lowest place the regions leave. -/
theorem findGapLoop_spec {needed maxAddr : Nat} (hn : 0 < needed) (hmax : maxAddr ≤ defaultMaxAddr) :
    ∀ (ms : List MappedRegion) (rs : List ReservedRegion) (cursor : Nat), Tiled ms → Tiled rs →
      (∀ m ∈ ms, stop m ≤ defaultMaxAddr) → (∀ r ∈ rs, stop r ≤ defaultMaxAddr) →
      ∃ p, LowestFit needed (regions ms rs) cursor p ∧
        GapAnswer needed maxAddr (regions ms rs) p (findGapLoop U needed maxAddr ms rs cursor)
  | [], [], cursor, _, _, _, _ => by
    have hU := U.defaultMaxAddr_lt
    rw [findGapLoop, show regions [] [] = ∅ by simp [regions]]
    refine ⟨cursor, .empty _ _, ?_⟩
    by_cases hfit : U.saturatingAdd cursor needed ≤ maxAddr
    · rw [if_pos hfit]
      simp only [saturatingAdd] at hfit
      exact .inl ⟨rfl, .inl (by omega)⟩
    rw [if_neg hfit]
    simp only [saturatingAdd] at hfit
    exact .inr ⟨rfl, by omega, by simp⟩
  | m :: ms, [], cursor, hms, hrs, hmb, hrb => by
    rw [findGapLoop, regions_cons_mapping]
    have ih := findGapLoop_spec hn hmax ms [] (advanceCursor U m cursor) (tiled_cons.mp hms).2.2 hrs
      (forall_mem_cons.mp hmb).2 hrb
    exact gap_step (hmb m (by simp)) (le_regions (Tiled.addr_le hms) (by simp)) ih
  | [], r :: rs, cursor, hms, hrs, hmb, hrb => by
    rw [findGapLoop, regions_cons_reserved]
    have ih := findGapLoop_spec hn hmax [] rs (advanceCursor U r cursor) hms (tiled_cons.mp hrs).2.2 hmb
      (forall_mem_cons.mp hrb).2
    exact gap_step (hrb r (by simp)) (le_regions (by simp) (Tiled.addr_le hrs)) ih
  | m :: ms, r :: rs, cursor, hms, hrs, hmb, hrb => by
    rw [findGapLoop]
    split
    · rename_i hle
      rw [regions_cons_mapping]
      have ih := findGapLoop_spec hn hmax ms (r :: rs) (advanceCursor U m cursor) (tiled_cons.mp hms).2.2 hrs
        (forall_mem_cons.mp hmb).2 hrb
      refine gap_step (hmb m (by simp)) (le_regions (Tiled.addr_le hms) ?_) ih
      intro b hb
      rcases mem_cons.mp hb with rfl | hb
      · exact hle
      · exact le_trans hle (Tiled.addr_le hrs b hb)
    rename_i hlt
    rw [regions_cons_reserved]
    have ih := findGapLoop_spec hn hmax (m :: ms) rs (advanceCursor U r cursor) hms (tiled_cons.mp hrs).2.2 hmb
      (forall_mem_cons.mp hrb).2
    refine gap_step (hrb r (by simp)) (le_regions ?_ (Tiled.addr_le hrs)) ih
    intro b hb
    have hle : r.addr ≤ m.addr := by omega
    rcases mem_cons.mp hb with rfl | hb
    · exact hle
    · exact le_trans hle (Tiled.addr_le hms b hb)
termination_by ms rs => ms.length + rs.length

/-! ## Releasing a range -/

/-- What a mapping says about an address it covers. -/
def attrs (m : MappedRegion) : UInt32 × UInt32 := (m.prot, m.flags)

/-- What `[lo, hi)` leaves of a mapping. -/
def pieces (lo hi : Nat) (m : MappedRegion) : List MappedRegion :=
  (if m.addr < lo then [{ m with len := min (stop m) lo - m.addr }] else []) ++
    if hi < stop m then [{ m with addr := max m.addr hi, len := stop m - max m.addr hi }] else []

variable {m : MappedRegion} {lo hi : Nat}

theorem pieces_of_outside (hlo : lo ≤ hi) (hlen : 0 < len m) (h : Outside lo hi m) : pieces lo hi m = [m] := by
  have hstop : stop m = m.addr + m.len := rfl
  have hpos : 0 < m.len := hlen
  rcases h with h | h
  · rw [pieces, if_pos (by omega), if_neg (by omega), min_eq_left h, hstop, Nat.add_sub_cancel_left]
    rfl
  have h : hi ≤ m.addr := h
  rw [pieces, if_neg (by omega), if_pos (by omega), max_eq_left h, hstop, Nat.add_sub_cancel_left]
  rfl

/-- The loop cuts every mapping, though it stops at the first that reaches past `hi`. -/
theorem munmapLoop_eq (hlo : lo ≤ hi) : ∀ {v : List MappedRegion},
    (∀ m ∈ v, U.satStop m = stop m) → Tiled v → (munmapLoop U lo hi v).1 = v.flatMap (pieces lo hi)
  | [], _, _ => rfl
  | m :: ms, hs, hv => by
    obtain ⟨hlen, hafter, hms⟩ := tiled_cons.mp hv
    obtain ⟨hsm, hsms⟩ := forall_mem_cons.mp hs
    have ih := munmapLoop_eq hlo hsms hms
    have hrest (h : hi ≤ stop m) : ms.flatMap (pieces lo hi) = ms := by
      rw [flatMap_congr fun b hb => pieces_of_outside hlo (hms.nonempty b hb) (.inr (h.trans (hafter b hb))), flatMap_singleton']
    have hpos : m.addr < stop m := Nat.lt_add_of_pos_right hlen
    simp only [munmapLoop, hsm, flatMap_cons]
    split_ifs with hbefore hbehind
    · rw [pieces_of_outside hlo hlen (.inl hbefore), ih]
      rfl
    · rw [pieces_of_outside hlo hlen (.inr hbehind), hrest (hbehind.trans hpos.le)]
      rfl
    have hmin : min (stop m) lo = lo := by omega
    have hmax : max m.addr hi = hi := by omega
    by_cases hl : m.addr < lo <;> by_cases hr : hi < stop m <;>
      simp [pieces, hl, hr, hmin, hmax, ih]
    · exact (hrest hr.le).symm
    · exact (hrest hr.le).symm

/-- What is left is still in order. -/
theorem munmapLoop_tiled (hlo : lo ≤ hi) {v : List MappedRegion} (hs : ∀ m ∈ v, U.satStop m = stop m) (hv : Tiled v) :
    Tiled (munmapLoop U lo hi v).1 := by
  rw [munmapLoop_eq hlo hs hv]
  refine hv.flatMap fun m hm => ?_
  have hlen := hv.nonempty m hm
  unfold pieces
  split_ifs <;> simp [tiled_cons, Tiled.nil, stop, MappedRegion.spanned_addr, MappedRegion.spanned_len] at * <;> omega

/-- Releasing `[lo, hi)` removes exactly those addresses. -/
theorem munmapLoop_attrAt (hlo : lo ≤ hi) (x : Nat) {v : List MappedRegion} (hs : ∀ m ∈ v, U.satStop m = stop m)
    (hv : Tiled v) : attrAt attrs (munmapLoop U lo hi v).1 x = if lo ≤ x ∧ x < hi then none else attrAt attrs v x := by
  rw [munmapLoop_eq hlo hs hv]
  refine attrAt_flatMap fun m _ => ?_
  have hcovers : ∀ r : MappedRegion, Covers r x ↔ r.addr ≤ x ∧ x < r.addr + r.len := fun _ => Iff.rfl
  have hstop : stop m = m.addr + m.len := rfl
  unfold pieces
  split_ifs <;> simp only [nil_append, append_nil, cons_append, attrAt_cons, attrAt_nil, hcovers, hstop] at * <;>
    split_ifs <;> first | rfl | omega

/-! ## Growing a mapping -/

variable {newLen : Nat}

/-- `extend_mapping` finds the mapping with exactly this address and length. -/
theorem extendLoop_eq_some {addr oldLen : Nat} : ∀ {v w : List MappedRegion}, extendLoop addr oldLen newLen v = some w →
    ∃ before m after, v = before ++ m :: after ∧ m.addr = addr ∧ m.len = oldLen ∧ w = before ++ { m with len := newLen } :: after
  | [], w, h => by simp [extendLoop] at h
  | m :: ms, w, h => by
    simp only [extendLoop] at h
    split_ifs at h with hm
    · simp only [Option.some.injEq] at h
      exact ⟨[], m, ms, rfl, hm.1, hm.2, h.symm⟩
    simp only [Option.map_eq_some_iff] at h
    obtain ⟨w', hw', rfl⟩ := h
    obtain ⟨before, b, after, rfl, hb1, hb2, rfl⟩ := extendLoop_eq_some hw'
    exact ⟨m :: before, b, after, rfl, hb1, hb2, rfl⟩

/-- A mapping grown into a free range leaves the vector in order. -/
theorem Tiled.grow {before after : List MappedRegion} (h : Tiled (before ++ m :: after)) (hlt : m.len < newLen)
    (hfree : ∀ x, stop m ≤ x → x < m.addr + newLen → ¬ Mapped (before ++ m :: after) x) :
    Tiled (before ++ { m with len := newLen } :: after) := by
  obtain ⟨h1, h2, h3⟩ := pairwise_append.mp h.ordered
  obtain ⟨h4, h5⟩ := pairwise_cons.mp h2
  have hafter : ∀ b ∈ after, m.addr + newLen ≤ b.addr := by
    intro b hb
    have hout : Outside (stop m) (m.addr + newLen) b :=
      h.outside (by simp only [stop, MappedRegion.spanned_addr, MappedRegion.spanned_len]; omega) hfree (by simp [hb])
    have hlen := h.nonempty b (by simp [hb])
    have hle := h4 b hb
    rcases hout with ho | ho
    · simp only [stop, MappedRegion.spanned_addr] at *; omega
    · exact ho
  refine ⟨pairwise_append.mpr ⟨h1, pairwise_cons.mpr ⟨hafter, h5⟩, ?_⟩, ?_⟩
  · intro a ha b hb
    rcases mem_cons.mp hb with rfl | hb
    · exact h3 a ha m (by simp)
    · exact h3 a ha b (by simp [hb])
  intro a ha
  rcases mem_append.mp ha with ha | ha
  · exact h.nonempty a (by simp [ha])
  rcases mem_cons.mp ha with rfl | ha
  · simp only [MappedRegion.spanned_len]; omega
  · exact h.nonempty a (by simp [ha])

/-- Growing a mapping into a free range adds exactly that range. -/
theorem attrAt_grow {before after : List MappedRegion} (hlt : m.len < newLen)
    (hfree : ∀ x, stop m ≤ x → x < m.addr + newLen → ¬ Mapped (before ++ m :: after) x) (x : Nat) :
    attrAt attrs (before ++ { m with len := newLen } :: after) x =
      if stop m ≤ x ∧ x < m.addr + newLen then some (attrs m) else attrAt attrs (before ++ m :: after) x := by
  have hm : Covers m x ↔ m.addr ≤ x ∧ x < stop m := Iff.rfl
  have hm' : Covers { m with len := newLen } x ↔ m.addr ≤ x ∧ x < m.addr + newLen := Iff.rfl
  have hstop : stop m = m.addr + m.len := rfl
  by_cases hx : stop m ≤ x ∧ x < m.addr + newLen
  · have hnone := (attrAt_eq_none (f := attrs)).mpr (hfree x hx.1 hx.2)
    rw [attrAt_append, Option.or_eq_none_iff] at hnone
    rw [if_pos hx, attrAt_append, hnone.1, attrAt_cons, if_pos (hm'.mpr (by omega))]
    rfl
  rw [if_neg hx, attrAt_append, attrAt_append, attrAt_cons, attrAt_cons]
  have hiff : Covers { m with len := newLen } x ↔ Covers m x := by
    rw [hm, hm']
    omega
  simp only [hiff]
  rfl

end MemoryManager

end Kandelo.Memory

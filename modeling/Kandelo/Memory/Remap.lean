/-
What a successful `sys_mremap` leaves behind. Shrinking and growing in place
keep the mapping's protection and flags; moving makes a new private anonymous
mapping with protection 3 whatever the old one was, so its attributes survive
only if they were those. The call works on whole pages: what lies in the rest of
the old range's last page is released with it.
-/
import Kandelo.Memory.Release

namespace Kandelo.Memory.MemoryManager

open Spanned

/-- The range `[result, result + new)` has the attributes `a`, the old range
outside it is unmapped, every other address is as before, and a shared mapping
is still seen as one. -/
structure Remapped (s s' : MemoryManager) (oldAddr old result new : Nat) (a : UInt32 × UInt32) : Prop where
  mapped : ∀ x, result ≤ x → x < result + new → s'.attrsAt x = some a
  unmapped : ∀ x, oldAddr ≤ x → x < oldAddr + old → ¬ (result ≤ x ∧ x < result + new) → s'.attrsAt x = none
  kept : ∀ x, ¬ (oldAddr ≤ x ∧ x < oldAddr + old) → ¬ (result ≤ x ∧ x < result + new) → s'.attrsAt x = s.attrsAt x
  shared : a.2 &&& mapShared ≠ 0 → s'.hasSharedMapping

variable {s : MemoryManager} {x : Nat}

theorem hasSharedMapping_of_attrsAt {a : UInt32 × UInt32} (h : s.attrsAt x = some a)
    (hshared : a.2 &&& mapShared ≠ 0) : s.hasSharedMapping := by
  simp only [attrsAt, attrAt, Option.map_eq_some_iff] at h
  obtain ⟨m, hm, rfl⟩ := h
  simp only [hasSharedMapping, List.any_eq_true, bne_iff_ne]
  exact ⟨m, List.mem_of_find?_eq_some hm, hshared⟩

variable {m : MappedRegion}

theorem Inv.attrsAt_eq (h : Inv s) (hm : m ∈ s.mappings) (hlo : m.addr ≤ x) (hhi : x < stop m) : s.attrsAt x = some (attrs m) :=
  h.maps.attrAt_eq hm ⟨hlo, hhi⟩

/-! ## The steps of a remap -/

variable {s' : MemoryManager} {U : Usize}

theorem Usize.roundUp_self {len : Nat} (hpages : len % 0x10000 = 0) (hwidth : len + 0xFFFF ≤ U.max) : U.roundUp len = some len := by
  simp only [Usize.roundUp, Usize.checkedAdd, if_pos hwidth, Option.map_some, alignDown, Option.some.injEq]
  omega

theorem insertMapping_attrsAt (hfree : s.Free m.addr (m.addr + m.len)) (x : Nat) :
    (s.insertMapping m).attrsAt x = if m.addr ≤ x ∧ x < m.addr + m.len then some (attrs m) else s.attrsAt x :=
  attrAt_insertByAddr (a := m) (fun y hy => (hfree y hy.1 hy.2).1) x

/-! ## What a successful call did -/

/-- The three ways to succeed. -/
inductive Done (U : Usize) (s : MemoryManager) (oldAddr alignedOld alignedNew : Nat) (result : Nat)
    (s' : MemoryManager) : Prop
  /-- The tail is released, or there is none. -/
  | shrunk (hle : alignedNew ≤ alignedOld) (hresult : result = oldAddr)
      (hs : (alignedNew = alignedOld ∧ s' = s) ∨ (alignedNew < alignedOld ∧
        ∃ alloc found, munmap U s (oldAddr + alignedNew) (alignedOld - alignedNew) alloc = (.ok found, s')))
  /-- The mapping with exactly the old range grows. -/
  | grown (hlt : alignedOld < alignedNew) (hresult : result = oldAddr)
      (hcan : canGrowAt U s (oldAddr + alignedOld) (alignedNew - alignedOld))
      (hs : ∃ before m after, s.mappings = before ++ m :: after ∧ m.addr = oldAddr ∧ m.len = alignedOld ∧
        s' = { s with mappings := before ++ { m with len := alignedNew } :: after })
  /-- A new mapping, and then the old range is released. -/
  | moved (hlt : alignedOld < alignedNew) (hcan : ¬canGrowAt U s (oldAddr + alignedOld) (alignedNew - alignedOld))
      (s₁ : MemoryManager) (alloc₁ alloc₂ found : Bool)
      (hmap : mmapAnonymous U s 0 alignedNew 3 (mapPrivate ||| mapAnonymous) alloc₁ = (result, s₁))
      (hplaced : result ≠ U.mapFailed)
      (hunmap : munmap U s₁ oldAddr alignedOld alloc₂ = (.ok found, s'))

variable {alignedNew alignedOld oldAddr result : Nat}

theorem mremapMove_ok {alloc : MremapAlloc} (hlt : alignedOld < alignedNew)
    (hcan : ¬canGrowAt U s (oldAddr + alignedOld) (alignedNew - alignedOld))
    (hok : mremapMove U s oldAddr alignedOld alignedNew alloc = (.ok result, s')) :
    Done U s oldAddr alignedOld alignedNew result s' := by
  simp only [mremapMove] at hok
  split at hok
  · simp at hok
  split at hok
  · simp at hok
  rename_i hplaced
  split at hok
  · simp at hok
  rename_i found s₂ hunmap
  obtain ⟨rfl, rfl⟩ := hok
  exact .moved hlt hcan _ alloc.mmap alloc.munmap found rfl hplaced hunmap

theorem mremapAligned_ok {flags : UInt32} {alloc : MremapAlloc}
    (hok : mremapAligned U s oldAddr alignedOld alignedNew flags alloc = (.ok result, s')) :
    Done U s oldAddr alignedOld alignedNew result s' := by
  simp only [mremapAligned] at hok
  split at hok
  · rename_i hle
    split_ifs at hok with hlt
    · split at hok
      · simp at hok
      rename_i tail htail
      obtain ⟨rfl, _⟩ := Usize.checkedAdd_eq_some htail
      split at hok
      · simp at hok
      rename_i found s₂ hunmap
      obtain ⟨rfl, rfl⟩ := hok
      exact .shrunk hle rfl (.inr ⟨hlt, alloc.munmap, found, hunmap⟩)
    · obtain ⟨rfl, rfl⟩ := hok
      exact .shrunk hle rfl (.inl ⟨by omega, rfl⟩)
  split at hok
  · simp at hok
  rename_i growStart hstart
  obtain ⟨rfl, _⟩ := Usize.checkedAdd_eq_some hstart
  split at hok
  · rename_i hcan
    rcases extendMapping_cases s oldAddr alignedOld alignedNew with he | ⟨before, m, after, hms, h1, h2, he⟩
    · simp [he] at hok
    · simp only [he, Prod.mk.injEq, Except.ok.injEq] at hok
      exact .grown (by omega) hok.1.symm hcan ⟨before, m, after, hms, h1, h2, hok.2.symm⟩
  rename_i hcan
  split at hok
  · exact mremapMove_ok (by omega) hcan hok
  · simp at hok

/-! ## Attributes across a remap -/

/-- When the call keeps the attributes `a` of the mapping that covers
`[oldAddr, oldAddr + oldLen)`, by the state before it. Growth in place always
does. -/
structure KeepsAttributes (U : Usize) (s : MemoryManager) (oldAddr oldLen alignedOld alignedNew : Nat)
    (a : UInt32 × UInt32) : Prop where
  /-- A shrink releases the rest of the last old page, so there must be nothing. -/
  shrunk : alignedNew < alignedOld → ∀ x, oldAddr + oldLen ≤ x → x < oldAddr + alignedOld → s.attrsAt x = none
  /-- Where the pages stay the same, the rest of the last one must have the attributes. -/
  same : alignedNew = alignedOld → ∀ x, oldAddr + oldLen ≤ x → x < oldAddr + alignedOld → s.attrsAt x = some a
  /-- A move must find the attributes it gives, nothing in the rest of the last old
  page, and a place apart from the old pages. -/
  moved : alignedOld < alignedNew → ¬canGrowAt U s (oldAddr + alignedOld) (alignedNew - alignedOld) →
    a = (3, mapPrivate ||| mapAnonymous) ∧ (∀ x, oldAddr + oldLen ≤ x → x < oldAddr + alignedOld → s.attrsAt x = none) ∧
      ∀ place, (hintedAddr U s 0 alignedNew).or (findGap U s alignedNew) = some place →
        place + alignedNew ≤ oldAddr ∨ oldAddr + alignedOld ≤ place

section

variable {oldLen : Nat} (h : Inv s) (hm : m ∈ s.mappings) (hlo : m.addr ≤ oldAddr) (hhi : oldAddr + oldLen ≤ stop m)
  (hold : U.roundUp oldLen = some alignedOld)

include h hm hlo hhi hold

theorem Inv.remapped_shrunk_iff (hlt : alignedNew < alignedOld) (hpos : 0 < alignedNew) (hpages : alignedNew % 0x10000 = 0)
    {alloc found : Bool} (hs : MemoryManager.munmap U s (oldAddr + alignedNew) (alignedOld - alignedNew) alloc = (.ok found, s')) :
    Remapped s s' oldAddr oldLen oldAddr alignedNew (attrs m) ↔
      ∀ x, oldAddr + oldLen ≤ x → x < oldAddr + alignedOld → s.attrsAt x = none := by
  obtain ⟨hle, hpagesOld, hround⟩ := Usize.roundUp_eq_some hold
  have hstop := h.maps_stop m hm
  have hU := U.defaultMaxAddr_lt
  have hat : ∀ x, s'.attrsAt x = if oldAddr + alignedNew ≤ x ∧ x < oldAddr + alignedOld then none else s.attrsAt x := by
    intro x
    rw [(h.munmap_released (Usize.roundUp_self (by omega) (by omega)) hs).view, add_assoc, Nat.add_sub_cancel' hlt.le]
  constructor
  · intro hr x h1 h2
    rw [← hr.kept x (by omega) (by omega), hat, if_pos (by omega)]
  intro hrest
  have hmapped : ∀ x, oldAddr ≤ x → x < oldAddr + alignedNew → s'.attrsAt x = some (attrs m) := by
    intro x h1 h2
    rw [hat, if_neg (by omega), h.attrsAt_eq hm (by omega) (by omega)]
  refine ⟨hmapped, fun x h1 h2 h3 => ?_, fun x h1 h2 => ?_, hasSharedMapping_of_attrsAt (hmapped oldAddr le_rfl (by omega))⟩
  · rw [hat, if_pos (by omega)]
  · rw [hat]
    split_ifs with hx
    · exact (hrest x (by omega) hx.2).symm
    · rfl

theorem Inv.remapped_same_iff (hpos : 0 < alignedOld) : Remapped s s oldAddr oldLen oldAddr alignedOld (attrs m) ↔
    ∀ x, oldAddr + oldLen ≤ x → x < oldAddr + alignedOld → s.attrsAt x = some (attrs m) := by
  obtain ⟨hle, -, -⟩ := Usize.roundUp_eq_some hold
  constructor
  · exact fun hr x h1 h2 => hr.mapped x (by omega) h2
  intro hrest
  have hmapped : ∀ x, oldAddr ≤ x → x < oldAddr + alignedOld → s.attrsAt x = some (attrs m) := by
    intro x h1 h2
    by_cases hx : x < oldAddr + oldLen
    · exact h.attrsAt_eq hm (by omega) (by omega)
    · exact hrest x (by omega) h2
  exact ⟨hmapped, fun x h1 h2 h3 => absurd ⟨h1, by omega⟩ h3, fun _ _ _ => rfl,
    hasSharedMapping_of_attrsAt (hmapped oldAddr le_rfl (by omega))⟩

theorem Inv.remapped_grown {b : MappedRegion} {before after : List MappedRegion} (hms : s.mappings = before ++ b :: after)
    (haddr : b.addr = oldAddr) (hlen : b.len = alignedOld) (hlt : alignedOld < alignedNew)
    (hcan : canGrowAt U s (oldAddr + alignedOld) (alignedNew - alignedOld)) :
    Remapped s { s with mappings := before ++ { b with len := alignedNew } :: after } oldAddr oldLen oldAddr alignedNew
      (attrs m) := by
  subst haddr hlen
  obtain ⟨hle, hpages, hround⟩ := Usize.roundUp_eq_some hold
  have hb : b ∈ s.mappings := by simp [hms]
  have hblen : 0 < b.len := h.maps.nonempty b hb
  have hstop : stop b = b.addr + b.len := rfl
  -- the mapping that covers the old range is the one that grows
  have hmb : m = b := h.maps.eq_of_covers hm hb (x := b.addr) ⟨hlo, by omega⟩ ⟨le_rfl, by omega⟩
  subst hmb
  have hfree : ∀ x, stop m ≤ x → x < m.addr + alignedNew → ¬ Mapped (before ++ m :: after) x := by
    intro x h1 h2
    rw [← hms]
    exact ((canGrowAt_spec hcan).2.1 x h1 (by omega)).1
  have hat := attrAt_grow hlt hfree
  have hmapped : ∀ x, m.addr ≤ x → x < m.addr + alignedNew →
      attrAt attrs (before ++ { m with len := alignedNew } :: after) x = some (attrs m) := by
    intro x h1 h2
    rw [hat]
    split
    · rfl
    · rw [← hms]
      exact h.attrsAt_eq hm h1 (by omega)
  refine ⟨hmapped, fun x h1 h2 h3 => absurd ⟨h1, by omega⟩ h3, ?_, hasSharedMapping_of_attrsAt (hmapped m.addr le_rfl (by omega))⟩
  intro x h1 h2
  simp only [attrsAt]
  rw [hat, if_neg (by omega), hms]

/-- The place a move takes was free, and the new mapping there is private and
anonymous whatever the old one was. -/
theorem Inv.moved_attrsAt {s₁ : MemoryManager} (hnew : alignedNew % 0x10000 = 0) {alloc₁ alloc₂ found : Bool}
    (hmap : MemoryManager.mmapAnonymous U s 0 alignedNew 3 (mapPrivate ||| mapAnonymous) alloc₁ = (result, s₁))
    (hplaced : result ≠ U.mapFailed) (hunmap : MemoryManager.munmap U s₁ oldAddr alignedOld alloc₂ = (.ok found, s')) :
    (hintedAddr U s 0 alignedNew).or (findGap U s alignedNew) = some result ∧ ∀ x, s'.attrsAt x =
      if oldAddr ≤ x ∧ x < oldAddr + alignedOld then none
      else if result ≤ x ∧ x < result + alignedNew then some (3, mapPrivate ||| mapAnonymous) else s.attrsAt x := by
  obtain ⟨hle, hpagesOld, hround⟩ := Usize.roundUp_eq_some hold
  have hU := U.defaultMaxAddr_lt
  have hstop := h.maps_stop m hm
  have hi1 : Inv s₁ := by
    have := h.mmapAnonymous (U := U) 0 alignedNew 3 (mapPrivate ||| mapAnonymous) alloc₁
    rwa [hmap] at this
  rcases mmapAnonymous_cases U s 0 alignedNew 3 (mapPrivate ||| mapAnonymous) alloc₁ with
    he | ⟨len, hlen, hround, ⟨h0, _⟩ | ⟨addr, _, haddr, he⟩⟩
  · rw [hmap, Prod.mk.injEq] at he
    exact absurd he.1 hplaced
  · exact absurd rfl h0
  obtain rfl : len = alignedNew := by
    have := Usize.roundUp_eq_some hround
    omega
  rw [hmap, Prod.mk.injEq] at he
  obtain ⟨rfl, rfl⟩ := he
  have hp := h.automatic_placeable (Usize.roundUp_pos hlen hround) haddr
  refine ⟨haddr, fun x => ?_⟩
  rw [(hi1.munmap_released (Usize.roundUp_self hpagesOld (by simp only [defaultMaxAddr] at *; omega)) hunmap).view]
  split
  · rfl
  · exact insertMapping_attrsAt (m := ⟨result, len, 3, mapPrivate ||| mapAnonymous⟩) hp.free x

end

/-- A move keeps what it should if the mapping was private, anonymous, readable and
writable, the rest of its last page was free, and the new place is apart. -/
theorem remapped_moved_iff {oldLen : Nat} {a : UInt32 × UInt32} (hpos : 0 < alignedOld) (hle : oldLen ≤ alignedOld)
    (hlt : alignedOld < alignedNew) (hat : ∀ x, s'.attrsAt x = if oldAddr ≤ x ∧ x < oldAddr + alignedOld then none
      else if result ≤ x ∧ x < result + alignedNew then some (3, mapPrivate ||| mapAnonymous) else s.attrsAt x) :
    Remapped s s' oldAddr oldLen result alignedNew a ↔ a = (3, mapPrivate ||| mapAnonymous) ∧
      (∀ x, oldAddr + oldLen ≤ x → x < oldAddr + alignedOld → s.attrsAt x = none) ∧
      (result + alignedNew ≤ oldAddr ∨ oldAddr + alignedOld ≤ result) := by
  constructor
  · intro hr
    have happart : result + alignedNew ≤ oldAddr ∨ oldAddr + alignedOld ≤ result := by
      by_contra hover
      have hhole := hr.mapped (max oldAddr result) (by omega) (by omega)
      rw [hat, if_pos (by omega)] at hhole
      cases hhole
    refine ⟨?_, fun x h1 h2 => ?_, happart⟩
    · have hfirst := hr.mapped result le_rfl (by omega)
      rw [hat, if_neg (by omega), if_pos (by omega), Option.some.injEq] at hfirst
      exact hfirst.symm
    · rw [← hr.kept x (by omega) (by omega), hat, if_pos (by omega)]
  rintro ⟨rfl, hrest, happart⟩
  have hmapped : ∀ x, result ≤ x → x < result + alignedNew → s'.attrsAt x = some (3, mapPrivate ||| mapAnonymous) := by
    intro x h1 h2
    rw [hat, if_neg (by omega), if_pos ⟨h1, h2⟩]
  refine ⟨hmapped, fun x h1 h2 _ => ?_, fun x h1 h2 => ?_, hasSharedMapping_of_attrsAt (hmapped result le_rfl (by omega))⟩
  · rw [hat, if_pos (by omega)]
  · rw [hat, if_neg h2]
    split_ifs with hx
    · exact (hrest x (by omega) hx.2).symm
    · rfl

/-- A successful `mremap` of a range one mapping covers leaves that mapping's
attributes over the whole new range, and everything else as it was, exactly
when the state before it says so: by the lengths, by whether the range can grow
where it is, and by what a move would find. -/
theorem sysMremap_keeps_attributes_iff (U : Usize) {s s' : MemoryManager} (h : Reachable U s) {m : MappedRegion}
    (hm : m ∈ s.mappings) {oldAddr oldLen newLen alignedOld alignedNew result : Nat} {flags : UInt32}
    {alloc : MremapAlloc} (hcov : m.addr ≤ oldAddr ∧ oldAddr + oldLen ≤ stop m)
    (hold : U.roundUp oldLen = some alignedOld) (hnew : U.roundUp newLen = some alignedNew)
    (hok : s.sysMremap U oldAddr oldLen newLen flags alloc = (.ok result, s')) :
    Remapped s s' oldAddr oldLen result alignedNew (attrs m) ↔ KeepsAttributes U s oldAddr oldLen alignedOld alignedNew (attrs m) := by
  have hi := h.inv
  simp only [sysMremap, hold, hnew] at hok
  split at hok
  · simp at hok
  rename_i hlens
  split at hok
  · simp at hok
  have hposOld := Usize.roundUp_pos (fun h0 => hlens (.inl h0)) hold
  have hposNew := Usize.roundUp_pos (fun h0 => hlens (.inr h0)) hnew
  have hpagesNew := (Usize.roundUp_eq_some hnew).2.1
  cases mremapAligned_ok hok with
  | shrunk hle hresult hs =>
    subst hresult
    rcases hs with ⟨rfl, rfl⟩ | ⟨hlt, alloc, found, hunmap⟩
    · rw [hi.remapped_same_iff hm hcov.1 hcov.2 hold hposOld]
      exact ⟨fun hrest => ⟨by omega, fun _ => hrest, by omega⟩, fun hk => hk.same rfl⟩
    · rw [hi.remapped_shrunk_iff hm hcov.1 hcov.2 hold hlt hposNew hpagesNew hunmap]
      exact ⟨fun hrest => ⟨fun _ => hrest, by omega, by omega⟩, fun hk => hk.shrunk hlt⟩
  | grown hlt hresult hcan hs =>
    obtain ⟨before, b, after, hms, haddr, hlen, rfl⟩ := hs
    subst hresult
    exact iff_of_true (hi.remapped_grown hm hcov.1 hcov.2 hold hms haddr hlen hlt hcan)
      ⟨by omega, by omega, fun _ hcannot => absurd hcan hcannot⟩
  | moved hlt hcan s₁ alloc₁ alloc₂ found hmap hplaced hunmap =>
    obtain ⟨hplace, hat⟩ := hi.moved_attrsAt hm hcov.1 hcov.2 hold hpagesNew hmap hplaced hunmap
    rw [remapped_moved_iff hposOld (Usize.roundUp_eq_some hold).1 hlt hat]
    constructor
    · rintro ⟨ha, hrest, happart⟩
      exact ⟨by omega, by omega, fun _ _ => ⟨ha, hrest, fun place hp => Option.some.inj (hplace.symm.trans hp) ▸ happart⟩⟩
    · intro hk
      obtain ⟨ha, hrest, happart⟩ := hk.moved hlt hcan
      exact ⟨ha, hrest, happart result hplace⟩

/-- Growing in place keeps a shared mapping shared. -/
def sharedRun : List Call := [.mmapAnonymous 0x05000000 0x10000 1 0x31 true]

theorem sysMremap_keeps_attributes_iff_sharedRun : Remapped (Machine.run (call .wasm32) MemoryManager.new sharedRun)
      { MemoryManager.new with mappings := [⟨0x05000000, 0x20000, 1, 0x31⟩] } 0x05000000 0x8000 0x05000000 0x20000
      (1, 0x31) :=
  (sysMremap_keeps_attributes_iff .wasm32 (.run sharedRun (.start rfl))
    (m := ⟨0x05000000, 0x10000, 1, 0x31⟩) (by decide +kernel) (by decide) (show _ = some 0x10000 by decide) (by decide)
    (show sysMremap .wasm32 (Machine.run (call .wasm32) new sharedRun) 0x05000000 0x8000 0x20000 1
      ⟨true, true, true⟩ = _ by decide +kernel)).mpr
    ⟨by decide, by decide, fun _ hcannot => absurd (by decide +kernel) hcannot⟩

/-- A shared read-only mapping with a neighbour behind it. -/
def crowdedRun : List Call := [.mmapAnonymous 0x05000000 0x10000 1 0x31 true, .mmapAnonymous 0x05010000 0x10000 3 0x32 true]

/-- Moved away from its neighbour, the shared mapping comes back private and
writable, and no shared mapping is left. -/
theorem sysMremap_move_loses_shared : Reachable .wasm32 (Machine.run (call .wasm32) MemoryManager.new crowdedRun) ∧
      (Machine.run (call .wasm32) MemoryManager.new crowdedRun).mappings =
        [⟨0x05000000, 0x10000, 1, 0x31⟩, ⟨0x05010000, 0x10000, 3, 0x32⟩] ∧
      (Machine.run (call .wasm32) MemoryManager.new crowdedRun).hasSharedMapping = true ∧
      ((Machine.run (call .wasm32) MemoryManager.new crowdedRun).sysMremap .wasm32 0x05000000 0x10000 0x20000 1
        ⟨true, true, true⟩).1 = .ok 0x04000000 ∧
      ((Machine.run (call .wasm32) MemoryManager.new crowdedRun).sysMremap .wasm32 0x05000000 0x10000 0x20000 1
        ⟨true, true, true⟩).2.mappings = [⟨0x04000000, 0x20000, 3, 0x22⟩, ⟨0x05010000, 0x10000, 3, 0x32⟩] ∧
      ((Machine.run (call .wasm32) MemoryManager.new crowdedRun).sysMremap .wasm32 0x05000000 0x10000 0x20000 1
        ⟨true, true, true⟩).2.hasSharedMapping = false :=
  ⟨.run crowdedRun (.start rfl), by decide +kernel, by decide +kernel,
    by decide +kernel, by decide +kernel, by decide +kernel⟩

/-- A mapping that is made has its attributes on its whole pages, and nothing else changes. Where
the caller did not fix its place, unmapping it restores the view. -/
theorem mmapAnonymous_exact (h : Reachable U s) {hint len : Nat} {prot flags : UInt32} {alloc : Bool}
    (hmap : mmapAnonymous U s hint len prot flags alloc = (result, s')) (hresult : result ≠ U.mapFailed) :
    ∃ alignedLen, U.roundUp len = some alignedLen ∧
      (∀ x, s'.attrsAt x = if result ≤ x ∧ x < result + alignedLen then some (prot, flags) else s.attrsAt x) ∧
      (hint = 0 ∨ flags &&& mapFixed = 0 → ∀ alloc found s₁, munmap U s' result len alloc = (.ok found, s₁) →
        ∀ x, s₁.attrsAt x = s.attrsAt x) := by
  have hi := h.inv
  have hi' := hi.mmapAnonymous (U := U) hint len prot flags alloc
  rcases mmapAnonymous_cases U s hint len prot flags alloc with
    he | ⟨alignedLen, hlen, hround, ⟨hhint, hfixed, hok, he⟩ | ⟨addr, _, haddr, he⟩⟩ <;> rw [hmap] at he hi' <;> cases he
  · exact absurd rfl hresult
  · refine ⟨alignedLen, hround, fun x => ?_, fun hauto => absurd hauto (by simp [hhint, hfixed])⟩
    have hpos := Usize.roundUp_pos hlen hround
    rw [insertMapping_attrsAt (hi.fixed_placeable hpos hok).free, (hi.released hpos).view]
    split_ifs <;> rfl
  have hfree := (hi.automatic_placeable (Usize.roundUp_pos hlen hround) haddr).free
  have hview := insertMapping_attrsAt (m := ⟨result, alignedLen, prot, flags⟩) hfree
  refine ⟨alignedLen, hround, hview, fun _ alloc found s₁ hunmap x => ?_⟩
  rw [(hi'.munmap_released hround hunmap).view, hview]
  split_ifs with hx
  · exact (attrAt_eq_none.mpr (hfree x hx.1 hx.2).1).symm
  · rfl

theorem mmapAnonymous_exact_threePages : threePages.attrsAt 0x402FFFF = some (3, 0x22) := by
  obtain ⟨_, hround, hview, -⟩ := mmapAnonymous_exact (.start rfl)
    (show mmapAnonymous .wasm32 .new 0 0x30000 3 0x22 true = (0x4000000, threePages) from Prod.ext (by decide +kernel) rfl) (by decide)
  cases hround.symm.trans (show _ = some 0x30000 by decide)
  exact hview 0x402FFFF

end Kandelo.Memory.MemoryManager

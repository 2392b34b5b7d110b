/-
Reconciling the cache with a file that was written past it: dropping clean
pages, marking the dirty ones stale, and reading the resident ones again.

Marking everything stale makes the cache coherent with any file
(`invalidateAllStale_coherent`), whatever it held before; that is why a reload
or a reconciliation that fails half way still ends coherent.
-/
import Kandelo.Shared.WriteBack

namespace Kandelo.Shared

open OrdMap List Option

namespace FileBacking

/-! ## Invalidation -/

/-- Pages were dropped or marked stale: of the dirty bytes none is gone that the
file can hold. -/
structure Retains (b b' : FileBacking) : Prop where
  dirty : ∀ i, (b.sizeValid → i < b.size.toNat) → b'.dirtyAt i = b.dirtyAt i
  less : ∀ i, b'.dirtyAt i → b.dirtyAt i
  bytes : ∀ i, b'.dirtyAt i → b'.byteAt i = b.byteAt i
  wellFormed : b'.WellFormed

variable {b : FileBacking} {io : Io}

/-- Dropping clean pages keeps every dirty byte, wherever it lies. -/
theorem Loads.retains {b' : FileBacking} (h : b.Loads io b' io) : Retains b b' :=
  ⟨fun i _ => h.dirty i, fun i hd => by rwa [h.dirty i] at hd,
    fun i hd => h.bytes i (by rwa [h.dirty i] at hd), h.wellFormed⟩

theorem stale_clampDirty (b : FileBacking) (page : Nat) (d : DirtyFilePage) : (b.clampDirty page d).stale := by
  simp only [clampDirty]
  split <;> rfl

variable {page : Nat}

/-- What is taken out of a dirty page lies past the end of the file. -/
theorem contains_clampDirty (d : DirtyFilePage) (hpage : page < 2 ^ 52) {i : Nat} (hi : i / filePageSize = page) :
    (b.clampDirty page d).contains (i % filePageSize) =
      (d.contains (i % filePageSize) && (!b.sizeValid || decide (i < b.size.toNat))) := by
  have hsplit := page_split i
  have ho := offset_lt_page i
  rw [hi] at hsplit
  simp only [clampDirty, satMul_page hpage]
  split_ifs with hvalid
  · simp only [DirtyFilePage.contains_set, hvalid, Bool.not_true, Bool.false_or]
    by_cases hlt : i < b.size.toNat
    · rw [if_neg (by omega), decide_eq_true hlt, Bool.and_true]
      rfl
    · rw [if_pos (by omega), decide_eq_false hlt, Bool.and_false]
  · simp only [hvalid, Bool.not_false, Bool.true_or, Bool.and_true]
    rfl

theorem dirtyPages_invalidateAllStale (b : FileBacking) (page : Nat) :
    b.invalidateAllStale.dirtyPages.get? page = (b.dirtyPages.get? page).bind fun d =>
      if (b.clampDirty page d).isEmpty then none else some (b.clampDirty page d) := by
  simp [invalidateAllStale, get?_retain]

theorem pages_get?_invalidateAllStale (b : FileBacking) (page : Nat) :
    b.invalidateAllStale.pages.get? page = (b.pages.get? page).bind fun bytes =>
      if b.invalidateAllStale.dirtyPages.contains page then some bytes else none := by
  rw [invalidateAllStale, get?_retain]

theorem pages_invalidateAllStale {bytes : Page} (h : b.invalidateAllStale.pages.get? page = some bytes) :
    b.pages.get? page = some bytes ∧ b.invalidateAllStale.dirtyPages.contains page := by
  rw [pages_get?_invalidateAllStale, bind_eq_some_iff] at h
  obtain ⟨old, hold, hkeep⟩ := h
  split at hkeep
  · rename_i hc
    cases hkeep
    exact ⟨hold, hc⟩
  · cases hkeep

theorem dirtyAt_invalidateAllStale (hwf : b.WellFormed) (i : Nat) :
    b.invalidateAllStale.dirtyAt i = (b.dirtyAt i && (!b.sizeValid || decide (i < b.size.toNat))) := by
  simp only [dirtyAt, dirtyPage, dirtyPages_invalidateAllStale]
  cases hd : b.dirtyPages.get? (i / filePageSize) with
  | none => simp
  | some d =>
    have hpage : i / filePageSize < 2 ^ 52 := hwf.inRange _ (hwf.resident _ (by simp [OrdMap.contains, hd]))
    simp only [bind_some, getD_some]
    rw [← contains_clampDirty d hpage rfl]
    split_ifs with hempty
    · rw [DirtyFilePage.contains_of_isEmpty hempty (offset_lt_page i), getD_none, DirtyFilePage.contains_new]
    · rfl

/-- Everything left is dirty and stale, so nothing is claimed of the file. -/
theorem invalidateAllStale_coherent (b : FileBacking) (io : Io) : b.invalidateAllStale.Coherent io := by
  have hstale : ∀ page, b.invalidateAllStale.pages.contains page → b.invalidateAllStale.isStale page := by
    intro page h
    obtain ⟨bytes, h⟩ := isSome_iff_exists.mp h
    obtain ⟨d, hd⟩ := isSome_iff_exists.mp (pages_invalidateAllStale h).2
    rw [isStale, dirtyPage, hd]
    rw [dirtyPages_invalidateAllStale, bind_eq_some_iff] at hd
    obtain ⟨old, _, hkeep⟩ := hd
    split at hkeep
    · cases hkeep
    · cases hkeep
      exact stale_clampDirty b page old
  refine ⟨fun i v hv _ hs _ => ?_, fun _ => hstale⟩
  rw [hstale _ (by rw [← isSome_byteAt, hv, isSome_some])] at hs
  cases hs

theorem invalidateAllStale_retains (hwf : b.WellFormed) : Retains b b.invalidateAllStale := by
  refine ⟨fun i hi => ?_, fun i hd => ?_, fun i hd => ?_, ⟨fun page h => ?_, fun page h => ?_⟩⟩
  · rw [dirtyAt_invalidateAllStale hwf]
    cases hv : b.sizeValid with
    | false => simp
    | true => simp [hi hv]
  · rw [dirtyAt_invalidateAllStale hwf, Bool.and_eq_true] at hd
    exact hd.1
  · rw [byteAt, byteAt, pages_get?_invalidateAllStale]
    cases b.pages.get? (i / filePageSize) with
    | none => rfl
    | some bytes => rw [bind_some, if_pos (contains_of_dirtyAt hd)]
  · have hold : b.dirtyPages.contains page := by
      rw [OrdMap.contains, dirtyPages_invalidateAllStale] at h
      cases hd : b.dirtyPages.get? page with
      | none => rw [hd] at h; cases h
      | some d => simp [OrdMap.contains, hd]
    obtain ⟨bytes, hbytes⟩ := isSome_iff_exists.mp (hwf.resident page hold)
    rw [OrdMap.contains, pages_get?_invalidateAllStale, hbytes, bind_some, if_pos h]
    rfl
  · obtain ⟨bytes, h⟩ := isSome_iff_exists.mp h
    exact hwf.inRange page (by simp [OrdMap.contains, (pages_invalidateAllStale h).1])

section

variable (b : FileBacking)

theorem dirtyPage_invalidateRangeStale (first last page : Nat) :
    (b.invalidateRangeStale first last).dirtyPages.get? page = (b.dirtyPages.get? page).map fun d =>
      if first ≤ page ∧ page ≤ last then { d with stale := true } else d := by
  simp only [invalidateRangeStale, get?_retain]
  cases b.dirtyPages.get? page <;> rfl

theorem pages_invalidateRangeStale (first last page : Nat) :
    (b.invalidateRangeStale first last).pages.get? page = (b.pages.get? page).bind fun bytes =>
      if page < first ∨ last < page ∨ b.dirtyPages.contains page then some bytes else none := by
  simp [invalidateRangeStale, get?_retain]

theorem dirtyAt_invalidateRangeStale (first last i : Nat) : (b.invalidateRangeStale first last).dirtyAt i = b.dirtyAt i := by
  simp only [dirtyAt, dirtyPage, dirtyPage_invalidateRangeStale]
  cases b.dirtyPages.get? (i / filePageSize) with
  | none => rfl
  | some d =>
    split <;> rfl

theorem isStale_invalidateRangeStale (first last page : Nat) : (b.invalidateRangeStale first last).isStale page =
      (b.isStale page || (decide (first ≤ page ∧ page ≤ last) && b.dirtyPages.contains page)) := by
  simp only [isStale, dirtyPage, dirtyPage_invalidateRangeStale, OrdMap.contains]
  cases b.dirtyPages.get? page with
  | none => simp
  | some d =>
    by_cases h : first ≤ page ∧ page ≤ last
    · simp [h]
    · simp [h]

end

theorem contains_pages_invalidateRangeStale {first last : Nat}
    (h : (b.invalidateRangeStale first last).pages.contains page) : b.pages.contains page := by
  rw [OrdMap.contains, pages_invalidateRangeStale] at h
  cases hp : b.pages.get? page with
  | none => rw [hp] at h; cases h
  | some bytes => simp [OrdMap.contains, hp]

theorem invalidateRangeStale_retains (hwf : b.WellFormed) (first last : Nat) : Retains b (b.invalidateRangeStale first last) := by
  have hkeep : ∀ page, b.dirtyPages.contains page → (b.invalidateRangeStale first last).pages.get? page = b.pages.get? page := by
    intro page h
    rw [pages_invalidateRangeStale]
    cases b.pages.get? page with
    | none => rfl
    | some bytes => rw [bind_some, if_pos (.inr (.inr h))]
  refine ⟨fun i _ => dirtyAt_invalidateRangeStale b first last i, fun i hd => ?_, fun i hd => ?_,
    ⟨fun page h => ?_, fun page h => hwf.inRange page (contains_pages_invalidateRangeStale h)⟩⟩
  · rwa [dirtyAt_invalidateRangeStale] at hd
  · rw [dirtyAt_invalidateRangeStale] at hd
    rw [byteAt, byteAt, hkeep _ (contains_of_dirtyAt hd)]
  rw [OrdMap.contains, dirtyPage_invalidateRangeStale, isSome_map] at h
  rw [OrdMap.contains, hkeep page h]
  exact hwf.resident page h

/-- Marking the pages of a range stale answers for a file that changed there. -/
theorem invalidateRangeStale_coherent {io' : Io} {first last : Nat} (hc : b.Coherent io)
    (hfile : ∀ i, ¬(first ≤ i / filePageSize ∧ i / filePageSize ≤ last) → io'.file b.handle i = io.file b.handle i) :
    (b.invalidateRangeStale first last).Coherent io' := by
  refine ⟨fun i v hv hd hs hi => ?_, fun h page hp => ?_⟩
  · rw [dirtyAt_invalidateRangeStale] at hd
    rw [isStale_invalidateRangeStale, Bool.or_eq_false_iff] at hs
    rw [byteAt, pages_invalidateRangeStale] at hv
    cases hp : b.pages.get? (i / filePageSize) with
    | none => rw [hp] at hv; cases hv
    | some bytes =>
      rw [hp] at hv
      split at hv
      · rename_i hkept
        -- a page that was kept is out of the range: in it, it would be dirty, and so stale
        have hout : ¬(first ≤ i / filePageSize ∧ i / filePageSize ≤ last) := by
          intro hin
          have hdirty : b.dirtyPages.contains (i / filePageSize) := by
            rcases hkept with h | h | h
            · omega
            · omega
            · exact h
          simp [hin, hdirty] at hs
        rw [show (b.invalidateRangeStale first last).handle = b.handle from rfl, hfile i hout]
        exact hc.clean i v (by rw [byteAt, hp]; exact hv) hd hs.1 hi
      · cases hv
  · rw [isStale_invalidateRangeStale, hc.doubtful h page (contains_pages_invalidateRangeStale hp), Bool.true_or]

/-! ## Noticing descriptor writes -/

/-- What reconciling may change: the size and the pages, for a size the host has
just confirmed, or one in doubt. -/
structure Reconciles (b : FileBacking) (io : Io) (b' : FileBacking) (io' : Io) : Prop where
  asked : io.Asked io'
  handle : b'.handle = b.handle
  dirty : ∀ i, (b'.sizeValid → i < b'.size.toNat) → b'.dirtyAt i = b.dirtyAt i
  less : ∀ i, b'.dirtyAt i → b.dirtyAt i
  bytes : ∀ i, b'.dirtyAt i → b'.byteAt i = b.byteAt i
  wellFormed : b'.WellFormed
  coherent : b.Coherent io → b'.Coherent io'

theorem reconcileSource_reconciles (io : Io) (hwf : b.WellFormed) :
    b.Reconciles io (b.reconcileSource io).1 (b.reconcileSource io).2 := by
  have hsame : b.Reconciles io b io := ⟨.refl io, rfl, fun _ _ => rfl, fun _ h => h, fun _ _ => rfl, hwf, fun h => h⟩
  simp only [reconcileSource]
  split
  · split
    · exact hsame
    obtain ⟨size, valid, heq, _, _⟩ := b.revalidate_eq io
    have hret := invalidateAllStale_retains (b := { b with size := size, sizeValid := valid })
      ⟨hwf.resident, hwf.inRange⟩
    have hcoh := invalidateAllStale_coherent { b with size := size, sizeValid := valid } (b.revalidate io).2.2
    rw [heq]
    exact ⟨b.revalidate_asked io, rfl, hret.dirty, hret.less, hret.bytes,
      ⟨hret.wellFormed.resident, hret.wellFormed.inRange⟩, fun _ => ⟨hcoh.clean, hcoh.doubtful⟩⟩
  · exact hsame

theorem adoptSourceGeneration_eq (b : FileBacking) (io : Io) :
    ∃ generation, b.adoptSourceGeneration io = { b with sourceGeneration := generation } := by
  simp only [adoptSourceGeneration]
  split
  · exact ⟨_, rfl⟩
  · exact ⟨b.sourceGeneration, rfl⟩

/-! ## Reading pages again -/

theorem stagePages_spec (b : FileBacking) : ∀ (pages : List Nat) (io : Io), (∀ page ∈ pages, page < 2 ^ 52) →
    io.Asked (b.stagePages pages io).2 ∧ ∀ staged, (b.stagePages pages io).1 = .ok staged →
      staged.map (·.1) = pages ∧ (staged ≠ [] → b.sizeValid) ∧
      ∀ e ∈ staged, ∀ i, i / filePageSize = e.1 → i < b.size.toNat → e.2 (i % filePageSize) = io.file b.handle i
  | [], io, _ => ⟨Io.Asked.refl io, fun staged h => by cases h; exact ⟨rfl, fun h => absurd rfl h, nofun⟩⟩
  | page :: pages, io, hpages => by
    have hread : io.Asked (b.readPage page io).2 := by
      simp only [readPage]
      split
      · exact io.asked_alloc.trans (b.readPageInto_asked page _)
      · exact io.asked_alloc
    have halloc := hread.trans (Io.asked_alloc _)
    obtain ⟨hrest, hstaged⟩ := stagePages_spec b pages (b.readPage page io).2.alloc.2
      fun p hp => hpages p (mem_cons_of_mem _ hp)
    simp only [stagePages]
    split
    · exact ⟨hread, fun staged h => by cases h⟩
    split
    · exact ⟨halloc, fun staged h => by cases h⟩
    rename_i bytes hbytes hroom
    refine ⟨halloc.trans hrest, fun staged h => ?_⟩
    cases hr : (b.stagePages pages (b.readPage page io).2.alloc.2).1 with
    | error e => rw [hr] at h; cases h
    | ok rest =>
      rw [hr] at h
      cases h
      obtain ⟨hmap, hvalid, hfile⟩ := hstaged rest hr
      -- the page itself was read from the file
      have hpage : b.sizeValid ∧ ∀ i, i / filePageSize = page → i < b.size.toNat → bytes (i % filePageSize) = io.file b.handle i := by
        simp only [readPage] at hbytes
        split at hbytes
        · have := readPageInto_ok hbytes (hpages page mem_cons_self)
          rwa [io.asked_alloc.file] at this
        · cases hbytes
      refine ⟨by rw [map_cons, hmap], fun _ => hpage.1, fun e he i hi hlt => ?_⟩
      rcases mem_cons.mp he with rfl | he
      · exact hpage.2 i hi hlt
      · rw [hfile e he i hi hlt, halloc.file]

/-- A staged page replaces the resident one and is clean; the others stay. -/
theorem publishRefreshedPages_spec : ∀ (staged : List (Nat × Page)) (b : FileBacking),
    (∃ pages dirtyPages, b.publishRefreshedPages staged = { b with pages := pages, dirtyPages := dirtyPages }) ∧ ∀ page,
      (∃ bytes, (page, bytes) ∈ staged ∧ (b.publishRefreshedPages staged).pages.get? page = some bytes ∧
        (b.publishRefreshedPages staged).dirtyPages.get? page = none) ∨
      (page ∉ staged.map (·.1) ∧ (b.publishRefreshedPages staged).pages.get? page = b.pages.get? page ∧
        (b.publishRefreshedPages staged).dirtyPages.get? page = b.dirtyPages.get? page)
  | [], b => ⟨⟨b.pages, b.dirtyPages, rfl⟩, fun page => .inr ⟨not_mem_nil, rfl, rfl⟩⟩
  | (p, bytes) :: staged, b => by
    obtain ⟨⟨pages, dirtyPages, heq⟩, hrest⟩ := publishRefreshedPages_spec staged
      { b with pages := b.pages.insert p bytes, dirtyPages := b.dirtyPages.erase p }
    simp only [publishRefreshedPages]
    refine ⟨⟨pages, dirtyPages, heq⟩, fun page => ?_⟩
    rcases hrest page with ⟨old, hmem, hget⟩ | ⟨hnot, hpages, hdirty⟩
    · exact .inl ⟨old, mem_cons_of_mem _ hmem, hget⟩
    rw [get?_insert] at hpages
    rw [get?_erase] at hdirty
    by_cases hp : page = p
    · rw [if_pos hp] at hpages hdirty
      exact .inl ⟨bytes, by rw [hp]; exact mem_cons_self, hpages, hdirty⟩
    · rw [if_neg hp] at hpages hdirty
      exact .inr ⟨by simp [hp, hnot], hpages, hdirty⟩

/-- Pages read again from the file are coherent with it; the others have to be. -/
theorem publishRefreshedPages_keeps (io : Io) {staged : List (Nat × Page)} (hwf : b.WellFormed)
    (hresident : ∀ page ∈ staged.map (·.1), b.pages.contains page) (hvalid : staged ≠ [] → b.sizeValid)
    (hstaged : ∀ e ∈ staged, ∀ i, i / filePageSize = e.1 → i < b.size.toNat → e.2 (i % filePageSize) = io.file b.handle i)
    (hrest : ∀ i v, i / filePageSize ∉ staged.map (·.1) → b.byteAt i = some v → b.dirtyAt i = false →
      b.isStale (i / filePageSize) = false → i < b.size.toNat → v = io.file b.handle i)
    (hdoubt : b.sizeValid = false → ∀ page, b.pages.contains page → b.isStale page) :
    (b.publishRefreshedPages staged).WellFormed ∧ (b.publishRefreshedPages staged).Coherent io := by
  obtain ⟨⟨pages, dirtyPages, heq⟩, hget⟩ := publishRefreshedPages_spec staged b
  refine ⟨⟨fun page h => ?_, fun page h => ?_⟩, fun i v hv hd hs hi => ?_, fun h page hp => ?_⟩
  · rcases hget page with ⟨bytes, _, hpages, _⟩ | ⟨_, hpages, hdirty⟩
    · rw [OrdMap.contains, hpages]
      rfl
    rw [OrdMap.contains, hpages]
    rw [OrdMap.contains, hdirty] at h
    exact hwf.resident page h
  · rcases hget page with ⟨bytes, hmem, _, _⟩ | ⟨_, hpages, _⟩
    · exact hwf.inRange page (hresident page (mem_map.mpr ⟨_, hmem, rfl⟩))
    · rw [OrdMap.contains, hpages] at h
      exact hwf.inRange page h
  · rw [show (b.publishRefreshedPages staged).handle = b.handle by rw [heq]]
    rw [show (b.publishRefreshedPages staged).size = b.size by rw [heq]] at hi
    rcases hget (i / filePageSize) with ⟨bytes, hmem, hpages, _⟩ | ⟨hnot, hpages, hdirty⟩ <;> rw [byteAt, hpages] at hv
    · cases hv
      exact hstaged _ hmem i rfl hi
    rw [dirtyAt, dirtyPage, hdirty] at hd
    rw [isStale, dirtyPage, hdirty] at hs
    exact hrest i v hnot hv hd hs hi
  · -- with the size in doubt nothing was staged
    rw [show (b.publishRefreshedPages staged).sizeValid = b.sizeValid by rw [heq]] at h
    cases staged with
    | nil => exact hdoubt h page hp
    | cons e staged =>
      rw [hvalid (cons_ne_nil e staged)] at h
      cases h

theorem bumpVersion_keeps (h : b.WellFormed ∧ b.Coherent io) : b.bumpVersion.WellFormed ∧ b.bumpVersion.Coherent io :=
  ⟨⟨h.1.resident, h.1.inRange⟩, h.2.clean, h.2.doubtful⟩

theorem stageRefreshedPages_spec (first last : Nat) (io : Io) (hwf : b.WellFormed) :
    io.Asked (b.stageRefreshedPages first last io).2 ∧ ∀ staged, (b.stageRefreshedPages first last io).1 = .ok staged →
      (∀ page, page ∈ staged.map (·.1) ↔ b.pages.contains page ∧ first ≤ page ∧ page ≤ last) ∧ (staged ≠ [] → b.sizeValid) ∧
      ∀ e ∈ staged, ∀ i, i / filePageSize = e.1 → i < b.size.toNat → e.2 (i % filePageSize) = io.file b.handle i := by
  have hmem : ∀ page, page ∈ (b.pages.entries.map (·.1)).filter (fun page => decide (first ≤ page ∧ page ≤ last)) ↔
      b.pages.contains page ∧ first ≤ page ∧ page ≤ last := by
    intro page
    rw [mem_filter, decide_eq_true_iff, ← isSome_get?_iff]
    rfl
  obtain ⟨hasked, hstaged⟩ := b.stagePages_spec _ io fun page hp => hwf.inRange page ((hmem page).mp hp).1
  refine ⟨hasked, fun staged h => ?_⟩
  obtain ⟨hmap, hrest⟩ := hstaged staged h
  exact ⟨fun page => by rw [hmap]; exact hmem page, hrest⟩

/-- A reload makes the cache coherent with whatever the file holds. -/
theorem reloadPages_keeps (io : Io) (hwf : b.WellFormed) (hvalid : b.sizeValid) :
    let r := b.reloadPages io
    (r.2.1.WellFormed ∧ r.2.1.Coherent r.2.2) ∧ io.Asked r.2.2 ∧ r.2.1.handle = b.handle := by
  obtain ⟨hasked, hstaged⟩ := stageRefreshedPages_spec 0 u64Max io hwf
  simp only [reloadPages]
  split
  · rename_i hempty
    have hnone : ∀ page, b.pages.contains page = false := by
      intro page
      cases h : b.pages.contains page with
      | false => rfl
      | true =>
        have := isSome_get?_iff.mp h
        rw [isEmpty_iff.mp hempty] at this
        cases this
    refine ⟨bumpVersion_keeps ⟨hwf, fun i v hv _ _ _ => ?_, fun _ page hp => ?_⟩, .refl io, rfl⟩
    · have := hnone (i / filePageSize)
      rw [← isSome_byteAt, hv] at this
      cases this
    · rw [hnone page] at hp
      cases hp
  split
  · exact ⟨⟨(invalidateAllStale_retains hwf).wellFormed, b.invalidateAllStale_coherent _⟩, hasked, rfl⟩
  rename_i staged heq
  obtain ⟨hmem, _, hfile⟩ := hstaged staged heq
  obtain ⟨⟨pages, dirtyPages, hpub⟩, _⟩ := publishRefreshedPages_spec staged b
  refine ⟨bumpVersion_keeps (publishRefreshedPages_keeps _ hwf (fun page hp => ((hmem page).mp hp).1) (fun _ => hvalid)
    (fun e he i hi hlt => by rw [hasked.file]; exact hfile e he i hi hlt) (fun i v hnot hv _ _ _ => ?_) (fun h => ?_)),
    hasked, by rw [hpub]; rfl⟩
  · -- every resident page was staged
    have hresident : b.pages.contains (i / filePageSize) := by rw [← isSome_byteAt, hv, isSome_some]
    have hle : i / filePageSize ≤ u64Max := by
      have := hwf.inRange _ hresident
      simp only [u64Max]
      omega
    exact absurd ((hmem _).mpr ⟨hresident, Nat.zero_le _, hle⟩) hnot
  · rw [hvalid] at h
    cases h

theorem reload_keeps (exactSize : Option UInt64) (io : Io) (hwf : b.WellFormed) :
    let r := b.reload exactSize io
    (r.2.1.WellFormed ∧ r.2.1.Coherent r.2.2) ∧ io.Asked r.2.2 ∧ r.2.1.handle = b.handle := by
  cases exactSize with
  | some size =>
    exact reloadPages_keeps (b := { b with size := size, sizeValid := true }) io ⟨hwf.resident, hwf.inRange⟩ rfl
  | none =>
    have hasked := b.revalidate_asked io
    obtain ⟨size, valid, heq, hok, _⟩ := b.revalidate_eq io
    have hwf' : (b.revalidate io).2.1.WellFormed := by rw [heq]; exact ⟨hwf.resident, hwf.inRange⟩
    have hhandle : (b.revalidate io).2.1.handle = b.handle := by rw [heq]
    simp only [reload]
    split
    · exact ⟨⟨(invalidateAllStale_retains hwf').wellFormed, invalidateAllStale_coherent _ _⟩, hasked, hhandle⟩
    rename_i hr
    obtain ⟨hkeeps, hasked', hhandle'⟩ := reloadPages_keeps (b.revalidate io).2.2 hwf' (by rw [heq]; exact hok.mpr hr)
    exact ⟨hkeeps, hasked.trans hasked', hhandle'.trans hhandle⟩

/-- A ranged reload makes the cache coherent with a file that changed in the
range. -/
theorem reloadRange_keeps (offset len : Nat) (io' : Io) (hwf : b.WellFormed) (hc : b.Coherent io)
    (hfile : ∀ i, len = 0 ∨ ¬(offset / filePageSize ≤ i / filePageSize ∧
      i / filePageSize ≤ satAdd offset (len - 1) / filePageSize) → io'.file b.handle i = io.file b.handle i) :
    let r := b.reloadRange offset len io'
    (r.2.1.WellFormed ∧ r.2.1.Coherent r.2.2) ∧ io'.Asked r.2.2 ∧ r.2.1.handle = b.handle := by
  obtain ⟨hasked, hstaged⟩ := stageRefreshedPages_spec (offset / filePageSize) (satAdd offset (len - 1) / filePageSize) io' hwf
  simp only [reloadRange]
  split
  · rename_i hzero
    refine ⟨⟨hwf, fun i v hv hd hs hi => ?_, hc.doubtful⟩, .refl io', rfl⟩
    rw [hfile i (.inl hzero)]
    exact hc.clean i v hv hd hs hi
  split
  · refine ⟨⟨(invalidateRangeStale_retains hwf _ _).wellFormed, invalidateRangeStale_coherent hc fun i hi => ?_⟩, hasked, rfl⟩
    rw [hasked.file]
    exact hfile i (.inr hi)
  rename_i staged heq
  obtain ⟨hmem, hvalid, hread⟩ := hstaged staged heq
  obtain ⟨⟨pages, dirtyPages, hpub⟩, _⟩ := publishRefreshedPages_spec staged b
  have hkeeps := publishRefreshedPages_keeps (b.stageRefreshedPages (offset / filePageSize)
    (satAdd offset (len - 1) / filePageSize) io').2 hwf (fun page hp => ((hmem page).mp hp).1) hvalid
    (fun e he i hi hlt => by rw [hasked.file]; exact hread e he i hi hlt) (fun i v hnot hv hd hs hi => by
      have hresident : b.pages.contains (i / filePageSize) := by rw [← isSome_byteAt, hv, isSome_some]
      rw [hasked.file, hfile i (.inr fun hin => hnot ((hmem _).mpr ⟨hresident, hin⟩))]
      exact hc.clean i v hv hd hs hi) hc.doubtful
  split
  · exact ⟨hkeeps, hasked, by rw [hpub]⟩
  · exact ⟨bumpVersion_keeps hkeeps, hasked, by rw [hpub]; rfl⟩

end FileBacking

end Kandelo.Shared

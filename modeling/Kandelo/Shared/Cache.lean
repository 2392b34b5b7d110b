/-
What a `FileBacking` holds, byte by byte: a byte of the file is dirty or not
(`dirtyAt`), cached or not (`byteAt`).

`WellFormed` is what holds of the maps alone, `Coherent` relates the clean bytes
to the file. Everything the cache does to bring a page in (`Loads`) keeps both.
-/
import Kandelo.Shared.FileBacking

namespace Kandelo.Shared

open OrdMap Option

variable {page : Nat}

theorem satMul_page (h : page < 2 ^ 52) : satMul page filePageSize = page * filePageSize := by
  simp only [satMul, filePageSize, u64Max]
  omega

theorem page_split (i : Nat) : i / filePageSize * filePageSize + i % filePageSize = i := by
  simp only [filePageSize]
  omega

theorem offset_lt_page (i : Nat) : i % filePageSize < filePageSize := Nat.mod_lt _ (by decide)

namespace DirtyFilePage

@[simp] theorem contains_new (o : Nat) : new.contains o = false := rfl

theorem contains_set (d : DirtyFilePage) (start stop : Nat) (v : Bool) (o : Nat) :
    (d.set start stop v).contains o = if start ≤ o ∧ o < stop then v else d.contains o := rfl

@[simp] theorem stale_set (d : DirtyFilePage) (start stop : Nat) (v : Bool) : (d.set start stop v).stale = d.stale := rfl

theorem contains_of_isEmpty {d : DirtyFilePage} (h : d.isEmpty) {o : Nat} (ho : o < filePageSize) : d.contains o = false := by
  rw [isEmpty, List.all_eq_true] at h
  have hclear := h o (List.mem_range.mpr ho)
  rw [Bool.not_eq_true'] at hclear
  exact hclear

theorem isEmpty_new : new.isEmpty := by
  rw [isEmpty, List.all_eq_true]
  exact fun _ _ => rfl

end DirtyFilePage

namespace FileBacking

/-- Whether the byte is stored and not yet in the file. -/
def dirtyAt (b : FileBacking) (i : Nat) : Bool := (b.dirtyPage (i / filePageSize)).contains (i % filePageSize)

/-- The byte in the cache, if its page is resident. -/
def byteAt (b : FileBacking) (i : Nat) : Option UInt8 := (b.pages.get? (i / filePageSize)).map (· (i % filePageSize))

def isStale (b : FileBacking) (page : Nat) : Bool := (b.dirtyPage page).stale

structure WellFormed (b : FileBacking) : Prop where
  /-- A dirty page is resident. -/
  resident : ∀ page, b.dirtyPages.contains page → b.pages.contains page
  /-- Page numbers come from 64-bit offsets. -/
  inRange : ∀ page, b.pages.contains page → page < 2 ^ 52

structure Coherent (b : FileBacking) (io : Io) : Prop where
  /-- A clean byte of a page that is not stale is the file's. -/
  clean : ∀ i v, b.byteAt i = some v → b.dirtyAt i = false → b.isStale (i / filePageSize) = false →
    i < b.size.toNat → v = io.file b.handle i
  /-- While the size is in doubt, so is every resident page. -/
  doubtful : b.sizeValid = false → ∀ page, b.pages.contains page → b.isStale page

/-- What names the backing and counts its observers and publications: all but
the pages and the size. -/
def header (b : FileBacking) : String × Int × Bool × Nat × Nat × Option Nat :=
  (b.key, b.handle, b.writable, b.refCount, b.version, b.sourceGeneration)

variable {b b' : FileBacking}

theorem handle_of_header (h : b'.header = b.header) : b'.handle = b.handle := congrArg (fun x => x.2.1) h

variable {i : Nat}

/-- A dirty byte is a byte of a dirty page. -/
theorem contains_of_dirtyAt (h : b.dirtyAt i) : b.dirtyPages.contains (i / filePageSize) := by
  simp only [dirtyAt, dirtyPage] at h
  cases hd : b.dirtyPages.get? (i / filePageSize) with
  | none =>
    rw [hd] at h
    cases h
  | some d => simp [OrdMap.contains, hd]

theorem isSome_byteAt : (b.byteAt i).isSome = b.pages.contains (i / filePageSize) := by
  simp [byteAt, OrdMap.contains]

theorem dirtyPage_insert {d : DirtyFilePage} (h : b'.dirtyPages = b.dirtyPages.insert page d) (p : Nat) :
    b'.dirtyPage p = if p = page then d else b.dirtyPage p := by
  simp only [dirtyPage, h, get?_insert]
  split <;> rfl

theorem dirtyPage_erase (h : b'.dirtyPages = b.dirtyPages.erase page) (p : Nat) :
    b'.dirtyPage p = if p = page then .new else b.dirtyPage p := by
  simp only [dirtyPage, h, get?_erase]
  split <;> rfl

theorem byteAt_insert {bytes : Page} (h : b'.pages = b.pages.insert page bytes)
    (i : Nat) : b'.byteAt i = if i / filePageSize = page then some (bytes (i % filePageSize)) else b.byteAt i := by
  simp only [byteAt, h, get?_insert]
  split <;> rfl

theorem contains_insert {V : Type} (m : OrdMap Nat V) (k : Nat) (v : V) (k' : Nat) :
    (m.insert k v).contains k' = (decide (k' = k) || m.contains k') := by
  simp only [OrdMap.contains, get?_insert]
  split
  · rename_i h; simp [h]
  · rename_i h; simp [h]

/-- A dirty byte is cached. -/
theorem WellFormed.byteAt_of_dirtyAt (h : b.WellFormed) (hd : b.dirtyAt i) : ∃ v, b.byteAt i = some v := by
  rw [← isSome_iff_exists, isSome_byteAt]
  exact h.resident _ (contains_of_dirtyAt hd)

/-! ## Bringing a page in -/

/-- The cache may have read pages and dropped clean ones: no dirty byte has
changed, and the host was only asked. -/
structure Loads (b : FileBacking) (io : Io) (b' : FileBacking) (io' : Io) : Prop where
  asked : io.Asked io'
  header : b'.header = b.header
  size : b.sizeValid → b'.sizeValid ∧ b'.size = b.size
  dirty : ∀ i, b'.dirtyAt i = b.dirtyAt i
  bytes : ∀ i, b.dirtyAt i → b'.byteAt i = b.byteAt i
  fresh : ∀ page, b.isStale page = false → b'.isStale page = false
  wellFormed : b'.WellFormed
  coherent : b.Coherent io → b'.Coherent io'

namespace Loads

variable {b b₁ b₂ : FileBacking} {io io₁ io₂ : Io}

theorem of_asked (hwf : b.WellFormed) (h : io.Asked io₁) : b.Loads io b io₁ where
  asked := h
  header := rfl
  size := fun h => ⟨h, rfl⟩
  dirty := fun _ => rfl
  bytes := fun _ _ => rfl
  fresh := fun _ h => h
  wellFormed := hwf
  coherent := fun hc => ⟨fun i v hv hd hs hi => by rw [h.file]; exact hc.clean i v hv hd hs hi, hc.doubtful⟩

theorem refl (hwf : b.WellFormed) : b.Loads io b io := of_asked hwf (.refl io)

theorem trans (h1 : b.Loads io b₁ io₁) (h2 : b₁.Loads io₁ b₂ io₂) : b.Loads io b₂ io₂ where
  asked := h1.asked.trans h2.asked
  header := h2.header.trans h1.header
  size := by
    intro h
    obtain ⟨hv, hs⟩ := h1.size h
    obtain ⟨hv', hs'⟩ := h2.size hv
    exact ⟨hv', hs'.trans hs⟩
  dirty := fun i => (h2.dirty i).trans (h1.dirty i)
  bytes := fun i hd => (h2.bytes i ((h1.dirty i).trans hd)).trans (h1.bytes i hd)
  fresh := fun page h => h2.fresh page (h1.fresh page h)
  wellFormed := h2.wellFormed
  coherent := fun h => h2.coherent (h1.coherent h)

end Loads

variable {io : Io}

/-- The pages of `b` are `pages`, and nothing else has changed. -/
theorem loads_setPages {io' : Io} {pages : OrdMap Nat Page} (hwf : b.WellFormed)
    (hio : io.Asked io') (hrange : ∀ page, pages.contains page → page < 2 ^ 52)
    (hdirty : ∀ page, b.dirtyPages.contains page → pages.get? page = b.pages.get? page)
    (hclean : b.Coherent io → ∀ i bytes, pages.get? (i / filePageSize) = some bytes → b.dirtyAt i = false →
      b.isStale (i / filePageSize) = false → i < b.size.toNat → bytes (i % filePageSize) = io.file b.handle i)
    (hdoubt : b.sizeValid = false → ∀ page, pages.contains page → b.pages.contains page) :
    b.Loads io { b with pages := pages } io' where
  asked := hio
  header := rfl
  size := fun h => ⟨h, rfl⟩
  dirty := fun _ => rfl
  bytes := fun i hd => by simp [byteAt, hdirty _ (contains_of_dirtyAt hd)]
  fresh := fun _ h => h
  wellFormed := by
    refine ⟨fun page h => ?_, hrange⟩
    simp only [OrdMap.contains, hdirty page h]
    exact hwf.resident page h
  coherent := by
    intro hc
    refine ⟨fun i v hv hd hs hi => ?_, fun hinvalid page hp => ?_⟩
    · obtain ⟨bytes, hbytes, rfl⟩ := map_eq_some_iff.mp hv
      rw [hio.file]
      exact hclean hc i bytes hbytes hd hs hi
    · exact hc.doubtful hinvalid page (hdoubt hinvalid page hp)

/-- Dropping clean pages. -/
theorem loads_retain (hwf : b.WellFormed) (keep : Nat → Prop) [DecidablePred keep]
    (hkeep : ∀ page, b.dirtyPages.contains page → keep page) :
    b.Loads io { b with pages := b.pages.retain fun page bytes => if keep page then some bytes else none } io := by
  have hget : ∀ page bytes, (b.pages.retain fun page bytes => if keep page then some bytes else none).get? page =
      some bytes → b.pages.get? page = some bytes := by
    intro page bytes h
    rw [get?_retain, bind_eq_some_iff] at h
    obtain ⟨v, hv, hk⟩ := h
    split at hk
    · rwa [← hk]
    · cases hk
  have hcontains : ∀ page, (b.pages.retain fun page bytes => if keep page then some bytes else none).contains page =
      true → b.pages.contains page := by
    intro page h
    obtain ⟨bytes, h⟩ := isSome_iff_exists.mp h
    simp [OrdMap.contains, hget page bytes h]
  refine loads_setPages hwf (.refl io) (fun page h => hwf.inRange page (hcontains page h)) ?_ ?_
    (fun _ page h => hcontains page h)
  · intro page h
    rw [get?_retain]
    cases b.pages.get? page with
    | none => rfl
    | some bytes => exact if_pos (hkeep page h)
  · intro hc i bytes h hd hs hi
    exact hc.clean i _ (by simp [byteAt, hget _ _ h]) hd hs hi

theorem invalidateCleanPages_loads (io : Io) (hwf : b.WellFormed) : b.Loads io b.invalidateCleanPages io :=
  loads_retain hwf (fun page => b.dirtyPages.contains page) fun _ h => h

theorem invalidateRange_loads (io : Io) (hwf : b.WellFormed) (offset len : Nat) : b.Loads io (b.invalidateRange offset len) io := by
  simp only [invalidateRange]
  split
  · exact .refl hwf
  · exact loads_retain hwf (fun page => page < offset / filePageSize ∨ (satAdd offset len - 1) / filePageSize < page ∨
      b.dirtyPages.contains page) fun _ h => .inr (.inr h)

/-- A read that succeeds has the file's bytes up to `readable`. -/
theorem readLoop_spec (handle : Int) (pageOffset readable total : Nat) (bytes : Page) (io : Io) :
    io.Asked (readLoop handle pageOffset readable total bytes io).2 ∧
      ∀ out, (readLoop handle pageOffset readable total bytes io).1 = .ok out → ∀ o,
        out o = if total ≤ o ∧ o < readable then io.file handle (pageOffset + o) else bytes o := by
  fun_induction readLoop handle pageOffset readable total bytes io with
  | case1 total bytes io h r e he =>
    refine ⟨io.asked_pread handle (pageOffset + total), fun out hout => ?_⟩
    cases hout
  | case2 total bytes io h r read data he hr =>
    refine ⟨io.asked_pread handle (pageOffset + total), fun out hout => ?_⟩
    cases hout
  | case3 total bytes io h r read data he hr ih =>
    obtain ⟨hasked, hout⟩ := ih
    have hread : io.Asked r.2 := io.asked_pread handle (pageOffset + total)
    refine ⟨hread.trans hasked, fun out ho o => ?_⟩
    have hdata : ∀ k, data k = io.file handle (pageOffset + total + k) := by
      simp only [r, Io.pread] at he
      cases ht : io.next.1.transfer with
      | error e => rw [ht] at he; cases he
      | ok n => rw [ht] at he; cases he; exact fun _ => rfl
    rw [hout out ho o, hread.file, Io.splice]
    by_cases h1 : total + read ≤ o ∧ o < readable
    · rw [if_pos h1, if_pos (by omega)]
    rw [if_neg h1]
    by_cases h2 : total ≤ o ∧ o < total + read
    · rw [if_pos h2, if_pos (by omega), hdata]
      congr 1
      omega
    · rw [if_neg h2, if_neg (by omega)]
  | case4 total bytes io h =>
    refine ⟨.refl _, fun out ho o => ?_⟩
    cases ho
    rw [if_neg (by omega)]

theorem readPageInto_asked (b : FileBacking) (page : Nat) (io : Io) : io.Asked (b.readPageInto page io).2 := by
  simp only [readPageInto]
  split
  · exact .refl _
  · exact (readLoop_spec ..).1

/-- A page that was read holds the file's bytes below its size. -/
theorem readPageInto_ok {bytes : Page} (h : (b.readPageInto page io).1 = .ok bytes) (hpage : page < 2 ^ 52) :
    b.sizeValid ∧ ∀ i, i / filePageSize = page → i < b.size.toNat → bytes (i % filePageSize) = io.file b.handle i := by
  simp only [readPageInto] at h
  split at h
  · cases h
  rename_i hvalid
  refine ⟨by simpa using hvalid, fun i hi hlt => ?_⟩
  have hsplit := page_split i
  have ho := offset_lt_page i
  rw [hi] at hsplit
  rw [(readLoop_spec ..).2 bytes h, satMul_page hpage, if_pos (by omega), hsplit]

/-- What loading adds to `Loads`: the page is resident and not stale, and the
size is known. -/
structure Loaded (b : FileBacking) (io : Io) (page : Nat) (b' : FileBacking) : Prop where
  resident : b'.pages.contains page
  fresh : b'.isStale page = false
  sizeValid : b.Coherent io → b'.sizeValid

theorem isStale_of_not_contains (h : b.dirtyPages.contains page = false) : b.isStale page = false := by
  simp only [OrdMap.contains, isSome_eq_false_iff, isNone_iff_eq_none] at h
  simp [isStale, dirtyPage, h, DirtyFilePage.new]

theorem loadUncachedPage_loads (io : Io) (hwf : b.WellFormed) (hpage : page < 2 ^ 52)
    (habsent : b.pages.contains page = false) :
    let r := b.loadUncachedPage page io
    b.Loads io r.2.1 r.2.2 ∧ (r.1 = .ok () → Loaded b io page r.2.1) := by
  have halloc : io.Asked io.alloc.2.alloc.2 := io.asked_alloc.trans (Io.asked_alloc _)
  have hread := halloc.trans (b.readPageInto_asked page io.alloc.2.alloc.2)
  have hclean : b.dirtyPages.contains page = false := by
    cases hd : b.dirtyPages.contains page with
    | false => rfl
    | true => rw [hwf.resident page hd] at habsent; cases habsent
  simp only [loadUncachedPage]
  split
  · exact ⟨.of_asked hwf io.asked_alloc, fun h => by cases h⟩
  split
  · exact ⟨.of_asked hwf halloc, fun h => by cases h⟩
  split
  · exact ⟨.of_asked hwf hread, fun h => by cases h⟩
  rename_i bytes hbytes
  obtain ⟨hvalid, hfile⟩ := readPageInto_ok hbytes hpage
  refine ⟨loads_setPages hwf hread ?_ ?_ ?_ ?_, fun _ => ⟨?_, isStale_of_not_contains hclean, fun _ => hvalid⟩⟩
  · intro p hp
    simp only [OrdMap.contains, get?_insert] at hp
    split at hp
    · rename_i heq; rwa [heq]
    · exact hwf.inRange p hp
  · intro p hp
    rw [get?_insert, if_neg]
    rintro rfl
    rw [hp] at hclean
    cases hclean
  · intro hc i old hget hd hs hi
    rw [get?_insert] at hget
    split_ifs at hget with heq
    · cases hget
      rw [hfile i heq hi, halloc.file]
    · exact hc.clean i _ (by simp [byteAt, hget]) hd hs hi
  · intro h
    rw [hvalid] at h
    cases h
  · simp [OrdMap.contains]

theorem loadUncachedPage_error {e : Errno} (h : (b.loadUncachedPage page io).1 = .error e) : (b.loadUncachedPage page io).2.1 = b := by
  simp only [loadUncachedPage] at h ⊢
  iterate 3 (split; · rfl)
  rename_i h1 h2 _ bytes hbytes
  rw [if_neg h1, if_neg h2, hbytes] at h
  cases h

theorem Loaded.of_loads {b₁ b₂ : FileBacking} {io₁ : Io} (h : b.Loads io b₁ io₁) (hl : Loaded b₁ io₁ page b₂) : Loaded b io page b₂ :=
  ⟨hl.resident, hl.fresh, fun hc => hl.sizeValid (h.coherent hc)⟩

theorem loadPage_loads (io : Io) (hwf : b.WellFormed) (hpage : page < 2 ^ 52)
    (habsent : b.pages.contains page = false) :
    let r := b.loadPage page io
    b.Loads io r.2.1 r.2.2 ∧ (r.1 = .ok () → Loaded b io page r.2.1) := by
  obtain ⟨hload, hok⟩ := loadUncachedPage_loads io hwf hpage habsent
  simp only [loadPage]
  split
  · rename_i hfull
    have hdrop := hload.trans (invalidateCleanPages_loads (b.loadUncachedPage page io).2.2 hload.wellFormed)
    split
    · exact ⟨hdrop, fun h => by cases h⟩
    have habsent' : (b.loadUncachedPage page io).2.1.invalidateCleanPages.pages.contains page = false := by
      rw [loadUncachedPage_error hfull]
      simp only [OrdMap.contains, isSome_eq_false_iff, isNone_iff_eq_none] at habsent
      simp [OrdMap.contains, invalidateCleanPages, get?_retain, habsent]
    obtain ⟨hagain, hok'⟩ := loadUncachedPage_loads (b.loadUncachedPage page io).2.2 hdrop.wellFormed hpage habsent'
    exact ⟨hdrop.trans hagain, fun h => (hok' h).of_loads hdrop⟩
  · exact ⟨hload, hok⟩

theorem refreshPage_loads {cached : Page} (io : Io) (hwf : b.WellFormed) (hcached : b.pages.get? page = some cached) :
    let r := b.refreshPage page cached io
    b.Loads io r.2.1 r.2.2 ∧ (r.1 = .ok () → Loaded b io page r.2.1) := by
  have hresident : b.pages.contains page := by simp [OrdMap.contains, hcached]
  have hpage := hwf.inRange page hresident
  -- a page that is not stale stays as it is
  have hkept : b.isStale page = false → b.Loads io b io ∧ ((Except.ok () : Except Errno Unit) = .ok () → Loaded b io page b) := by
    intro hfresh
    refine ⟨.refl hwf, fun _ => ⟨hresident, hfresh, fun hc => ?_⟩⟩
    cases hv : b.sizeValid with
    | true => rfl
    | false => rw [hc.doubtful hv page hresident] at hfresh; cases hfresh
  simp only [refreshPage]
  split
  · rename_i hnone
    exact hkept (isStale_of_not_contains (by simp [OrdMap.contains, hnone]))
  rename_i dirty hdirty
  split
  · rename_i hfresh
    exact hkept (by simpa only [isStale, dirtyPage, hdirty, getD_some, Bool.not_eq_true'] using hfresh)
  split
  · exact ⟨.of_asked hwf (b.readPageInto_asked page io), fun h => by cases h⟩
  rename_i latest hlatest
  obtain ⟨hvalid, hfile⟩ := readPageInto_ok hlatest hpage
  refine ⟨⟨b.readPageInto_asked page io, rfl, fun h => ⟨h, rfl⟩, ?_, ?_, ?_, ?_, ?_⟩, fun _ => ⟨?_, ?_, fun _ => hvalid⟩⟩
  · intro i
    simp only [dirtyAt]
    rw [dirtyPage_insert rfl]
    split_ifs with heq
    · rw [heq, dirtyPage, hdirty]
      rfl
    · rfl
  · intro i hd
    rw [byteAt_insert rfl]
    split
    · rename_i heq
      rw [dirtyAt, heq, dirtyPage, hdirty, getD_some] at hd
      rw [if_pos hd, byteAt, heq, hcached, map_some]
    · rfl
  · intro p hp
    rw [isStale, dirtyPage_insert rfl]
    split
    · rfl
    · exact hp
  · refine ⟨fun p hp => ?_, fun p hp => ?_⟩
    · rw [contains_insert, Bool.or_eq_true] at hp ⊢
      exact hp.imp_right (hwf.resident p)
    rw [contains_insert, Bool.or_eq_true, decide_eq_true_iff] at hp
    rcases hp with rfl | hp
    · exact hpage
    · exact hwf.inRange p hp
  · intro hc
    refine ⟨fun i v hv hd hs hi => ?_, fun h => ?_⟩
    · rw [byteAt_insert rfl] at hv
      rw [dirtyAt, dirtyPage_insert rfl] at hd
      rw [isStale, dirtyPage_insert rfl] at hs
      rw [(b.readPageInto_asked page io).file]
      split at hv
      · rename_i heq
        rw [if_pos heq] at hd
        change dirty.contains (i % filePageSize) = false at hd
        cases hv
        rw [hd]
        exact hfile i heq hi
      · rename_i hne
        rw [if_neg hne] at hd hs
        exact hc.clean i v hv hd hs hi
    · rw [hvalid] at h
      cases h
  · rw [contains_insert]
    simp
  · rw [isStale, dirtyPage_insert rfl, if_pos rfl]

theorem revalidate_asked (b : FileBacking) (io : Io) : io.Asked (b.revalidate io).2.2 := by
  have hstat : Io.Asked io (io.fstatHandle b.handle).2 := ⟨_, rfl⟩
  simp only [revalidate]
  split
  · exact hstat
  split
  · exact hstat
  rename_i stat _ _
  have hident : Io.Asked io ((io.fstatHandle b.handle).2.handleIdentity b.handle stat.dev stat.ino).2 := hstat.trans ⟨_, rfl⟩
  split
  · exact hident
  split
  · exact hident
  · exact hident

/-- Asking for the size moves nothing but the size. -/
theorem revalidate_eq (b : FileBacking) (io : Io) : ∃ size valid, (b.revalidate io).2.1 = { b with size := size, sizeValid := valid } ∧
      (valid ↔ (b.revalidate io).1 = .ok ()) ∧ (valid = false → size = b.size) := by
  simp only [revalidate]
  iterate 3 (split; · exact ⟨b.size, false, rfl, by simp, fun _ => rfl⟩)
  split
  · exact ⟨_, true, rfl, by simp, by simp⟩
  · exact ⟨b.size, false, rfl, by simp, fun _ => rfl⟩

theorem revalidate_loads (io : Io) (hwf : b.WellFormed) (hdoubt : b.sizeValid = false) :
    b.Loads io (b.revalidate io).2.1 (b.revalidate io).2.2 := by
  obtain ⟨size, valid, heq, _, hsize⟩ := b.revalidate_eq io
  rw [heq]
  refine ⟨b.revalidate_asked io, rfl, fun h => ?_, fun _ => rfl, fun _ _ => rfl, fun _ h => h, ⟨hwf.resident, hwf.inRange⟩,
    fun hc => ⟨fun i v hv _ hs _ => ?_, fun _ => hc.doubtful hdoubt⟩⟩
  · rw [hdoubt] at h
    cases h
  -- every resident page is stale, so there is nothing to compare
  have hresident : b.pages.contains (i / filePageSize) := by
    rw [← isSome_byteAt]
    exact isSome_iff_exists.mpr ⟨v, hv⟩
  have := hc.doubtful hdoubt _ hresident
  rw [show b.isStale (i / filePageSize) = false from hs] at this
  cases this

theorem ensurePageLoaded_loads (io : Io) (hwf : b.WellFormed) (hpage : page < 2 ^ 52) :
    let r := b.ensurePageLoaded page io
    b.Loads io r.2.1 r.2.2 ∧ (r.1 = .ok () → Loaded b io page r.2.1) := by
  simp only [ensurePageLoaded]
  split
  · rename_i cached hcached
    exact refreshPage_loads io hwf hcached
  rename_i hnone
  have habsent : b.pages.contains page = false := by simp [OrdMap.contains, hnone]
  split_ifs with hdoubt
  · exact loadPage_loads io hwf hpage habsent
  have hsize := revalidate_loads io hwf (by simpa using hdoubt)
  split
  · exact ⟨hsize, fun h => by cases h⟩
  obtain ⟨size, valid, heq, _, _⟩ := b.revalidate_eq io
  obtain ⟨hload, hok⟩ := loadPage_loads (b.revalidate io).2.2 hsize.wellFormed hpage (by rw [heq]; exact habsent)
  exact ⟨hsize.trans hload, fun h => (hok h).of_loads hsize⟩

/-! ## Reading -/

end FileBacking

end Kandelo.Shared

/-
Writes into the cache of a shared file, and the publication of a mapping's
stores as runs of changed bytes.

A piece of one page is written as a whole or not at all (`writeRange_piece`), so
a publication that fails in the middle has published some pieces, and the
snapshot says which: `Merged` holds of a failed publication as of one that
succeeded, where it covers every byte that differed.
-/
import Kandelo.Shared.Cache

namespace Kandelo.Shared

namespace FileBacking

/-- The backing as its observers know it. -/
def label (b : FileBacking) : String × Int × Bool × Nat × Option Nat :=
  (b.key, b.handle, b.writable, b.refCount, b.sourceGeneration)

variable {b b' : FileBacking}

theorem handle_of_label (h : b'.label = b.label) : b'.handle = b.handle := congrArg (fun x => x.2.1) h

theorem label_of_header (h : b'.header = b.header) : b'.label = b.label := by
  simp only [header, Prod.mk.injEq] at h
  simp [label, h]

/-- What every write into the cache keeps. -/
structure Keeps (b : FileBacking) (io : Io) (b' : FileBacking) (io' : Io) : Prop where
  asked : io.Asked io'
  label : b'.label = b.label
  size : b.sizeValid → b'.sizeValid ∧ b'.size = b.size
  fresh : ∀ page, b.isStale page = false → b'.isStale page = false
  wellFormed : b'.WellFormed
  coherent : b.Coherent io → b'.Coherent io'

variable {io : Io}

theorem Loads.keeps {io' : Io} (h : b.Loads io b' io') : b.Keeps io b' io' :=
  ⟨h.asked, label_of_header h.header, h.size, h.fresh, h.wellFormed, h.coherent⟩

theorem Keeps.trans {b₁ b₂ : FileBacking} {io₁ io₂ : Io} (h1 : b.Keeps io b₁ io₁) (h2 : b₁.Keeps io₁ b₂ io₂) : b.Keeps io b₂ io₂ where
  asked := h1.asked.trans h2.asked
  label := h2.label.trans h1.label
  size := by
    intro h
    obtain ⟨hv, hs⟩ := h1.size h
    obtain ⟨hv', hs'⟩ := h2.size hv
    exact ⟨hv', hs'.trans hs⟩
  fresh := fun page h => h2.fresh page (h1.fresh page h)
  wellFormed := h2.wellFormed
  coherent := fun h => h2.coherent (h1.coherent h)

theorem Keeps.bumpVersion {io' : Io} (h : b.Keeps io b' io') : b.Keeps io { b' with version := b'.version + 1 } io' :=
  ⟨h.asked, h.label, h.size, h.fresh, ⟨h.wellFormed.resident, h.wellFormed.inRange⟩,
    fun hc => ⟨(h.coherent hc).clean, (h.coherent hc).doubtful⟩⟩

/-! ## Writing a range -/

/-- The bytes `[absolute, absolute + count)` of one page were written, and nothing
else. -/
structure Stored (b b' : FileBacking) (absolute count : Nat) (bytes : Nat → UInt8) (markDirty : Bool) : Prop where
  header : b'.header = b.header
  size : b'.size = b.size
  sizeValid : b'.sizeValid = b.sizeValid
  dirty : ∀ i, b'.dirtyAt i = if absolute ≤ i ∧ i < absolute + count then markDirty else b.dirtyAt i
  byte : ∀ i, b'.byteAt i = if absolute ≤ i ∧ i < absolute + count then some (bytes (i - absolute)) else b.byteAt i
  stale : ∀ page, page ≠ absolute / filePageSize → b'.isStale page = b.isStale page
  fresh : b.isStale (absolute / filePageSize) = false → b'.isStale (absolute / filePageSize) = false
  wellFormed : b'.WellFormed

/-- The dirty entry found for a page is the page's, or a new one for dirty bytes. -/
theorem dirtyEntry_spec (b : FileBacking) (page : Nat) (markDirty : Bool) (io : Io) :
    io.Asked (b.dirtyEntry page markDirty io).2 ∧ ∀ d, (b.dirtyEntry page markDirty io).1 = .ok d →
      d.getD .new = b.dirtyPage page ∧ (d = none → markDirty = false ∧ b.dirtyPages.contains page = false) := by
  simp only [dirtyEntry]
  split
  · rename_i dirty hdirty
    refine ⟨.refl _, fun d h => ?_⟩
    cases h
    exact ⟨by simp [dirtyPage, hdirty], fun h => by cases h⟩
  rename_i hnone
  split
  · rename_i hmark
    refine ⟨.refl _, fun d h => ?_⟩
    cases h
    exact ⟨by simp [dirtyPage, hnone], fun _ => ⟨by simpa using hmark, by simp [OrdMap.contains, hnone]⟩⟩
  split
  · refine ⟨io.asked_alloc, fun d h => ?_⟩
    cases h
    exact ⟨by simp only [dirtyPage, hnone]; rfl, fun h => by cases h⟩
  · refine ⟨io.asked_alloc, fun d h => ?_⟩
    cases h

/-- A page's dirty entry is replaced, or dropped if it says nothing. -/
theorem putDirty_spec (b' : FileBacking) (page : Nat) (d : DirtyFilePage)
    (h : b'.dirtyPages = if d.isEmpty then b.dirtyPages.erase page else b.dirtyPages.insert page d) :
    (∀ i, b'.dirtyAt i = if i / filePageSize = page then d.contains (i % filePageSize) else b.dirtyAt i) ∧
    (∀ p, p ≠ page → b'.isStale p = b.isStale p) ∧ (d.stale = false → b'.isStale page = false) ∧
    (∀ p, b'.dirtyPages.contains p → p = page ∧ d.isEmpty = false ∨ b.dirtyPages.contains p) := by
  split at h
  · rename_i hempty
    refine ⟨fun i => ?_, fun p hp => ?_, fun _ => ?_, fun p hp => ?_⟩
    · rw [dirtyAt, dirtyPage_erase h]
      split
      · rw [DirtyFilePage.contains_of_isEmpty hempty (offset_lt_page i), DirtyFilePage.contains_new]
      · rfl
    · rw [isStale, dirtyPage_erase h, if_neg hp, isStale]
    · rw [isStale, dirtyPage_erase h, if_pos rfl]
      rfl
    · rw [h, OrdMap.contains, OrdMap.get?_erase] at hp
      split at hp
      · cases hp
      · exact .inr hp
  · refine ⟨fun i => ?_, fun p hp => ?_, fun hfresh => ?_, fun p hp => ?_⟩
    · rw [dirtyAt, dirtyPage_insert h]
      split <;> rfl
    · rw [isStale, dirtyPage_insert h, if_neg hp, isStale]
    · rw [isStale, dirtyPage_insert h, if_pos rfl]
      exact hfresh
    · rename_i hempty
      rw [h, contains_insert, Bool.or_eq_true, decide_eq_true_iff] at hp
      exact hp.imp_left fun heq => ⟨heq, by simpa using hempty⟩

variable {absolute count : Nat}

/-- Positions of one page, as offsets in it. -/
theorem mem_piece_iff {i : Nat} (h : absolute % filePageSize + count ≤ filePageSize) (hc : 0 < count) :
    absolute ≤ i ∧ i < absolute + count ↔ i / filePageSize = absolute / filePageSize ∧
      absolute % filePageSize ≤ i % filePageSize ∧ i % filePageSize < absolute % filePageSize + count := by
  simp only [filePageSize] at h ⊢
  omega

variable {markDirty : Bool}

theorem writePage_stored (bytes : Nat → UInt8)
    {dirty : Option DirtyFilePage} (hwf : b.WellFormed) (hresident : b.pages.contains (absolute / filePageSize))
    (hin : absolute % filePageSize + count ≤ filePageSize) (hpos : 0 < count)
    (hdirty : dirty.getD .new = b.dirtyPage (absolute / filePageSize))
    (hnone : dirty = none → markDirty = false ∧ b.dirtyPages.contains (absolute / filePageSize) = false) :
    Stored b (b.writePage (absolute / filePageSize) (absolute % filePageSize) count bytes markDirty dirty) absolute count
      bytes markDirty := by
  obtain ⟨cached, hcached⟩ := Option.isSome_iff_exists.mp hresident
  let b' := b.writePage (absolute / filePageSize) (absolute % filePageSize) count bytes markDirty dirty
  have hbyte : ∀ i, b'.byteAt i = if absolute ≤ i ∧ i < absolute + count then some (bytes (i - absolute)) else b.byteAt i := by
    intro i
    rw [byteAt_insert rfl]
    simp only [page, hcached, Option.getD_some, Io.splice, mem_piece_iff hin hpos]
    by_cases hp : i / filePageSize = absolute / filePageSize
    · have hsub : i % filePageSize - absolute % filePageSize = i - absolute := by
        have := page_split i
        have := page_split absolute
        rw [hp] at *
        omega
      simp only [hp, true_and, if_true, hsub, byteAt, hcached, Option.map_some]
      split <;> rfl
    · simp [hp]
  have hpages : ∀ p, b'.pages.contains p = (decide (p = absolute / filePageSize) || b.pages.contains p) :=
    fun p => contains_insert _ _ _ _
  have hrange : ∀ p, b'.pages.contains p → p < 2 ^ 52 := by
    intro p hp
    rw [hpages, Bool.or_eq_true, decide_eq_true_iff] at hp
    rcases hp with rfl | hp
    · exact hwf.inRange _ hresident
    · exact hwf.inRange p hp
  cases dirty with
  | none =>
    obtain ⟨hmark, hclean⟩ := hnone rfl
    refine ⟨rfl, rfl, rfl, fun i => ?_, hbyte, fun _ _ => rfl, fun h => h, fun p hp => ?_, hrange⟩
    · change b.dirtyAt i = _
      split_ifs with hi
      · cases hd : b.dirtyAt i with
        | false => exact hmark.symm
        | true =>
          have := contains_of_dirtyAt hd
          rw [((mem_piece_iff hin hpos).mp hi).1, hclean] at this
          cases this
      · rfl
    · rw [hpages, hwf.resident p hp, Bool.or_true]
  | some d =>
    rw [Option.getD_some] at hdirty
    obtain ⟨hat, hstale, hfresh, hcontains⟩ := putDirty_spec (b := b) b' (absolute / filePageSize)
      (d.set (absolute % filePageSize) (absolute % filePageSize + count) markDirty) (by simp [b', writePage])
    refine ⟨rfl, rfl, rfl, fun i => ?_, hbyte, hstale, fun h => hfresh ?_, fun p hp => ?_, hrange⟩
    · rw [hat i]
      simp only [mem_piece_iff hin hpos, DirtyFilePage.contains_set]
      by_cases hp : i / filePageSize = absolute / filePageSize
      · simp only [hp, true_and, if_true]
        split
        · rfl
        · rw [dirtyAt, hp, hdirty]
      · simp [hp]
    · rw [DirtyFilePage.stale_set, hdirty]
      exact h
    · rw [hpages, Bool.or_eq_true, decide_eq_true_iff]
      exact (hcontains p hp).imp And.left (hwf.resident p)

variable {bytes : Nat → UInt8}

/-- What the file already has may be cached as clean. -/
theorem Stored.coherent (h : Stored b b' absolute count bytes markDirty) (hc : b.Coherent io) (hvalid : b.sizeValid)
    (hfresh : b.isStale (absolute / filePageSize) = false)
    (hbytes : markDirty ∨ ∀ k < count, io.file b.handle (absolute + k) = bytes k) : b'.Coherent io := by
  refine ⟨fun i v hv hd hs hi => ?_, fun hinvalid => ?_⟩
  · rw [h.byte i] at hv
    rw [h.dirty i] at hd
    rw [handle_of_header h.header]
    split_ifs at hv with hin
    · rw [if_pos hin] at hd
      cases hv
      rcases hbytes with hmark | hfile
      · rw [hmark] at hd
        cases hd
      · rw [← hfile (i - absolute) (by omega), show absolute + (i - absolute) = i by omega]
    rw [if_neg hin] at hd
    rw [h.size] at hi
    refine hc.clean i v hv hd ?_ hi
    by_cases hp : i / filePageSize = absolute / filePageSize
    · rw [hp]
      exact hfresh
    · rw [← h.stale _ hp]
      exact hs
  · rw [h.sizeValid, hvalid] at hinvalid
    cases hinvalid

theorem pageCount_in (absolute left : Nat) : absolute % filePageSize + pageCount absolute left ≤ filePageSize := by
  have := offset_lt_page absolute
  simp only [pageCount]
  omega

theorem wrapAdd_page_lt (a b : Nat) : wrapAdd a b / filePageSize < 2 ^ 52 := by
  simp only [wrapAdd, filePageSize]
  omega

variable {offset len : Nat}

/-- The loop rule of a write: what loading pages keeps and each piece carries on
holds of what was written, all of it if the write succeeded. -/
theorem writeRangeLoop_rule {P : Nat → FileBacking → Io → Prop}
    (hload : ∀ n b io b' io', n < len → P n b io → b.Loads io b' io' → P n b' io')
    (hstore : ∀ n b io b₁ io₁ b', n < len → P n b io → b.Loads io b₁ io₁ → Loaded b io (wrapAdd offset n / filePageSize) b₁ →
      Stored b₁ b' (wrapAdd offset n) (pageCount (wrapAdd offset n) (len - n)) (fun k => bytes (n + k)) markDirty →
      P (n + pageCount (wrapAdd offset n) (len - n)) b' io₁)
    (copied : Nat) (b : FileBacking) (io : Io) (hwf : b.WellFormed) (h : P copied b io) :
    let r := writeRangeLoop offset len bytes markDirty copied b io
    r.2.1.WellFormed ∧ ∃ n, P n r.2.1 r.2.2 ∧ (r.1 = .ok () → len ≤ n) ∧ (r.1 ≠ .ok () → n < len) := by
  fun_induction writeRangeLoop offset len bytes markDirty copied b io with
  | case1 copied b io hlt page r e he =>
    obtain ⟨hloads, _⟩ := ensurePageLoaded_loads io hwf (wrapAdd_page_lt offset copied)
    exact ⟨hloads.wellFormed, copied, hload _ _ _ _ _ hlt h hloads, nofun, fun _ => hlt⟩
  | case2 copied b io hlt page r hok d e he =>
    obtain ⟨hloads, _⟩ := ensurePageLoaded_loads io hwf (wrapAdd_page_lt offset copied)
    have hentry := hloads.trans (.of_asked hloads.wellFormed (dirtyEntry_spec r.2.1 page markDirty r.2.2).1)
    exact ⟨hentry.wellFormed, copied, hload _ _ _ _ _ hlt h hentry, nofun, fun _ => hlt⟩
  | case3 copied b io hlt page r hok d dirty hdirty ih =>
    obtain ⟨hloads, hloaded⟩ := ensurePageLoaded_loads io hwf (wrapAdd_page_lt offset copied)
    obtain ⟨hasked, hentry⟩ := dirtyEntry_spec r.2.1 page markDirty r.2.2
    obtain ⟨hget, hnone⟩ := hentry dirty hdirty
    have hstored := writePage_stored (fun k => bytes (copied + k)) hloads.wellFormed (hloaded hok).resident
      (pageCount_in _ _) (pageCount_pos _ (Nat.sub_pos_of_lt hlt)) hget hnone
    exact ih hstored.wellFormed (hstore _ _ _ _ _ _ hlt h (hloads.trans (.of_asked hloads.wellFormed hasked)) (hloaded hok) hstored)
  | case4 copied b io hge => exact ⟨hwf, copied, h, fun _ => Nat.le_of_not_lt hge, fun h => absurd rfl h⟩

/-- A loaded page was written: what `Keeps` asks. -/
theorem Stored.keeps {b₁ : FileBacking} {io₁ : Io} (h : Stored b₁ b' absolute count bytes markDirty) (hload : b.Loads io b₁ io₁)
    (hloaded : Loaded b io (absolute / filePageSize) b₁)
    (hbytes : markDirty ∨ ∀ k < count, io₁.file b₁.handle (absolute + k) = bytes k) : b.Keeps io b' io₁ where
  asked := hload.asked
  label := (label_of_header h.header).trans (label_of_header hload.header)
  size := by
    intro hv
    obtain ⟨hv', hs⟩ := hload.size hv
    exact ⟨h.sizeValid.trans hv', h.size.trans hs⟩
  fresh := by
    intro page hp
    by_cases heq : page = absolute / filePageSize
    · rw [heq]
      exact h.fresh hloaded.fresh
    · rw [h.stale page heq]
      exact hload.fresh page hp
  wellFormed := h.wellFormed
  coherent := fun hc => h.coherent (hload.coherent hc) (hloaded.sizeValid hc) hloaded.fresh hbytes

/-- A piece does not cross the end of the 64-bit range. -/
theorem wrapAdd_add {n k left : Nat} (h : k < pageCount (wrapAdd offset n) left) : wrapAdd offset (n + k) = wrapAdd offset n + k := by
  simp only [pageCount, wrapAdd, filePageSize] at h ⊢
  omega

theorem writeRange_keeps (io : Io)
    (hwf : b.WellFormed) (hbytes : markDirty ∨ ∀ k < len, io.file b.handle (wrapAdd offset k) = bytes k) :
    let r := b.writeRange offset len bytes markDirty io
    b.Keeps io r.2.1 r.2.2 := by
  have hstore : ∀ n b₀ io₀ b₁ io₁ b', n < len → b.Keeps io b₀ io₀ → b₀.Loads io₀ b₁ io₁ →
      Loaded b₀ io₀ (wrapAdd offset n / filePageSize) b₁ →
      Stored b₁ b' (wrapAdd offset n) (pageCount (wrapAdd offset n) (len - n)) (fun k => bytes (n + k)) markDirty →
      b.Keeps io b' io₁ := by
    intro n b₀ io₀ b₁ io₁ b' hlt h hl hloaded hst
    refine h.trans (hst.keeps hl hloaded (hbytes.imp_right fun hfile k hk => ?_))
    have hle : pageCount (wrapAdd offset n) (len - n) ≤ len - n := Nat.min_le_right ..
    rw [hl.asked.file, handle_of_header hl.header, h.asked.file, handle_of_label h.label, ← wrapAdd_add hk]
    exact hfile (n + k) (by omega)
  obtain ⟨_, n, hkeeps, _⟩ := writeRangeLoop_rule (P := fun _ b' io' => b.Keeps io b' io')
    (fun _ _ _ _ _ _ h hl => h.trans hl.keeps) hstore 0 b io hwf (Loads.refl hwf).keeps
  exact hkeeps

/-! ## Publishing changed runs -/

theorem mergePieces_keeps (source : Nat → UInt8) (snapLen base stop cursor : Nat) (changed : Bool)
    (snapshot : Nat → UInt8) (b : FileBacking) (io : Io) (hwf : b.WellFormed) :
    let r := mergePieces source snapLen base stop cursor changed snapshot b io
    b.Keeps io r.2.2.1 r.2.2.2 := by
  fun_induction mergePieces source snapLen base stop cursor changed snapshot b io with
  | case1 cursor changed snapshot b io h next piece w e he => exact writeRange_keeps io hwf (.inl rfl)
  | case2 cursor changed snapshot b io h next piece w hok ih =>
    have hpiece : b.Keeps io w.2.1 w.2.2 := writeRange_keeps io hwf (.inl rfl)
    have hbump : b.Keeps io (if changed then w.2.1 else { w.2.1 with version := w.2.1.version + 1 }) w.2.2 := by
      split
      · exact hpiece
      · exact hpiece.bumpVersion
    exact hbump.trans (ih hbump.wellFormed)
  | case3 cursor changed snapshot b io h => exact (Loads.refl hwf).keeps

theorem mergeRuns_keeps (len : Nat) (source : Nat → UInt8) (snapLen base cursor : Nat) (changed : Bool)
    (snapshot : Nat → UInt8) (b : FileBacking) (io : Io) (hwf : b.WellFormed) :
    let r := mergeRuns len source snapLen base cursor changed snapshot b io
    b.Keeps io r.2.2.1 r.2.2.2 := by
  fun_induction mergeRuns len source snapLen base cursor changed snapshot b io with
  | case1 cursor changed snapshot b io h => exact (Loads.refl hwf).keeps
  | case2 cursor changed snapshot b io start stop h r e he => exact mergePieces_keeps _ _ _ _ _ _ _ _ _ hwf
  | case3 cursor changed snapshot b io start stop h r changed' hok ih =>
    have hrun : b.Keeps io r.2.2.1 r.2.2.2 := mergePieces_keeps source snapLen base stop start changed snapshot b io hwf
    exact hrun.trans (ih hrun.wellFormed)

end FileBacking

end Kandelo.Shared

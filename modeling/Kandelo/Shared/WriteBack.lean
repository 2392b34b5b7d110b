/-
Writing dirty bytes back. `Flushes` says what any part of a flush may have done:
which positional writes went out, that the dirty bytes below the file size are
those that were dirty and not acknowledged, and that an acknowledged byte is in
the file. It holds of one host call and composes, so it holds of a run, a page
and a whole flush, wherever the host refuses or comes up short.
-/
import Kandelo.Shared.Publish

namespace Kandelo.Shared

open DirtyFilePage

/-- The host has acknowledged the byte in one of the writes. -/
def Acknowledged (ws : List Written) (i : Nat) : Prop := ∃ w ∈ ws, w.offset ≤ i ∧ i < w.offset + w.acked

theorem not_acknowledged_nil (i : Nat) : ¬Acknowledged [] i := by
  rintro ⟨w, hw, _⟩
  cases hw

variable {ws : List Written} {i : Nat}

theorem acknowledged_append {ws' : List Written} : Acknowledged (ws ++ ws') i ↔ Acknowledged ws i ∨ Acknowledged ws' i := by
  simp [Acknowledged, or_and_right, exists_or]

namespace FileBacking

structure Flushes (b : FileBacking) (io : Io) (ws : List Written) (b' : FileBacking) (io' : Io) : Prop where
  wrote : io.Wrote b.handle io' ws
  header : b'.header = b.header
  size : b'.size = b.size
  sizeValid : b'.sizeValid
  /-- No write reaches past the end of the file. -/
  within : ∀ w ∈ ws, w.offset + w.len ≤ b.size.toNat
  dirty : ∀ i, i < b.size.toNat → (b'.dirtyAt i ↔ b.dirtyAt i ∧ ¬Acknowledged ws i)
  less : ∀ i, b'.dirtyAt i → b.dirtyAt i
  bytes : ∀ i, b'.dirtyAt i → b'.byteAt i = b.byteAt i
  /-- Only dirty bytes are acknowledged, and the file has them. -/
  acked : ∀ i, Acknowledged ws i → b.dirtyAt i ∧ b.byteAt i = some (io'.file b.handle i)
  /-- Only where a byte is dirty may the file change. -/
  file : ∀ i, b.dirtyAt i = false → io'.file b.handle i = io.file b.handle i
  fresh : ∀ page, b.isStale page = false → b'.isStale page = false
  wellFormed : b'.WellFormed
  coherent : b.Coherent io → b'.Coherent io'

variable {b b' : FileBacking} {io io' : Io}

theorem Loads.flushes (h : b.Loads io b' io') (hvalid : b.sizeValid) : b.Flushes io [] b' io' where
  wrote := h.asked.wrote b.handle
  header := h.header
  size := (h.size hvalid).2
  sizeValid := (h.size hvalid).1
  within := nofun
  dirty := fun i _ => by rw [h.dirty i]; exact ⟨fun hd => ⟨hd, not_acknowledged_nil i⟩, And.left⟩
  less := fun i hd => by rwa [h.dirty i] at hd
  bytes := fun i hd => h.bytes i (by rwa [h.dirty i] at hd)
  acked := fun i ha => absurd ha (not_acknowledged_nil i)
  file := fun i _ => by rw [h.asked.file]
  fresh := h.fresh
  wellFormed := h.wellFormed
  coherent := h.coherent

theorem Flushes.refl (hwf : b.WellFormed) (hvalid : b.sizeValid) : b.Flushes io [] b io := (Loads.refl hwf).flushes hvalid

theorem Flushes.clean_of_acknowledged (h : b.Flushes io ws b' io') (ha : Acknowledged ws i) : b'.dirtyAt i = false := by
  obtain ⟨w, hw, _, hlt⟩ := id ha
  have hwithin := h.within w hw
  have hacked := w.acked_le
  exact Bool.eq_false_iff.mpr fun hd => ((h.dirty i (by omega)).mp hd).2 ha

/-- A byte once clean stays clean through a flush. -/
theorem Flushes.stays_clean (h : b.Flushes io ws b' io') (hd : b.dirtyAt i = false) : b'.dirtyAt i = false :=
  Bool.eq_false_iff.mpr fun hd' => Bool.eq_false_iff.mp hd (h.less i hd')

theorem Flushes.trans {b₁ b₂ : FileBacking} {io₁ io₂ : Io} {ws' : List Written} (h1 : b.Flushes io ws b₁ io₁)
    (h2 : b₁.Flushes io₁ ws' b₂ io₂) : b.Flushes io (ws ++ ws') b₂ io₂ := by
  have hhandle := handle_of_header h1.header
  have hsize := h1.size
  refine ⟨h1.wrote.trans (hhandle ▸ h2.wrote), h2.header.trans h1.header, h2.size.trans hsize, h2.sizeValid, ?_, ?_,
    fun i hd => h1.less i (h2.less i hd), fun i hd => (h2.bytes i hd).trans (h1.bytes i (h2.less i hd)), ?_, ?_,
    fun page hp => h2.fresh page (h1.fresh page hp), h2.wellFormed, fun hc => h2.coherent (h1.coherent hc)⟩
  · intro w hw
    rcases List.mem_append.mp hw with hw | hw
    · exact h1.within w hw
    · exact hsize ▸ h2.within w hw
  · intro i hi
    rw [h2.dirty i (hsize ▸ hi), h1.dirty i hi, acknowledged_append, not_or, and_assoc]
  · intro i ha
    rcases acknowledged_append.mp ha with ha | ha
    · obtain ⟨hd, hbyte⟩ := h1.acked i ha
      refine ⟨hd, ?_⟩
      -- the byte is no longer dirty, so what follows leaves the file alone there
      rw [← hhandle, h2.file i (h1.clean_of_acknowledged ha), hhandle]
      exact hbyte
    · obtain ⟨hd, hbyte⟩ := h2.acked i ha
      rw [← h1.bytes i hd, ← hhandle]
      exact ⟨h1.less i hd, hbyte⟩
  · intro i hd
    rw [← hhandle, h2.file i (h1.stays_clean hd), hhandle, h1.file i hd]

/-! ## One run of dirty bytes -/

/-- The bytes `[lo, hi)` are no longer dirty, and nothing else has changed. -/
structure Cleared (b b' : FileBacking) (lo hi : Nat) : Prop where
  dirty : ∀ i, b'.dirtyAt i = if lo ≤ i ∧ i < hi then false else b.dirtyAt i
  stale : ∀ page, b'.isStale page = b.isStale page
  contains : ∀ page, b'.dirtyPages.contains page = b.dirtyPages.contains page
  rest : ∃ dirtyPages, b' = { b with dirtyPages := dirtyPages }

theorem Cleared.nothing (b : FileBacking) (lo : Nat) : Cleared b b lo lo :=
  ⟨fun i => by rw [if_neg (by omega)], fun _ => rfl, fun _ => rfl, b.dirtyPages, rfl⟩

variable {stop : Nat}

theorem setDirty_cleared (b : FileBacking) (page start : Nat) (hstop : stop ≤ filePageSize) :
    Cleared b (b.setDirty page start stop false) (page * filePageSize + start) (page * filePageSize + stop) := by
  have hmem : ∀ i, page * filePageSize + start ≤ i ∧ i < page * filePageSize + stop ↔
      i / filePageSize = page ∧ start ≤ i % filePageSize ∧ i % filePageSize < stop := by
    simp only [filePageSize] at hstop ⊢
    omega
  cases hd : b.dirtyPages.get? page with
  | none =>
    have heq : b.setDirty page start stop false = b := by simp [setDirty, hd]
    rw [heq]
    refine ⟨fun i => ?_, fun _ => rfl, fun _ => rfl, b.dirtyPages, rfl⟩
    split_ifs with h
    · simp [dirtyAt, dirtyPage, ((hmem i).mp h).1, hd]
    · rfl
  | some d =>
    have heq : b.setDirty page start stop false =
        { b with dirtyPages := b.dirtyPages.insert page (d.set start stop false) } := by simp [setDirty, hd]
    have hpage : b.dirtyPage page = d := by simp [dirtyPage, hd]
    rw [heq]
    refine ⟨fun i => ?_, fun p => ?_, fun p => ?_, _, rfl⟩
    · simp only [dirtyAt, hmem]
      rw [dirtyPage_insert rfl]
      by_cases hp : i / filePageSize = page
      · simp [hp, contains_set, hpage]
      · simp [hp]
    · rw [isStale, dirtyPage_insert rfl]
      split_ifs with hp
      · rw [hp, stale_set, isStale, hpage]
      · rfl
    · rw [contains_insert]
      by_cases hp : p = page
      · simp [hp, OrdMap.contains, hd]
      · simp [hp]

variable {offset : Nat}

/-- One host call for a run of dirty bytes: whatever it answers, the bytes it
acknowledged are the ones to clear. -/
theorem pwrite_flushes {len : Nat} (bytes : Nat → UInt8) (hwf : b.WellFormed)
    (hvalid : b.sizeValid) (hsize : offset + len ≤ b.size.toNat)
    (hrun : ∀ k < len, b.dirtyAt (offset + k) ∧ b.byteAt (offset + k) = some (bytes k))
    (hclear : Cleared b b' offset (offset + io.acked len)) :
    b.Flushes io [⟨b.handle, offset, len, io.acked len, io.acked_le len⟩] b' (io.pwrite b.handle offset len bytes).2 := by
  obtain ⟨hdirty, hstale, hcontains, dirtyPages, hrest⟩ := hclear
  have hbyte : ∀ i, b'.byteAt i = b.byteAt i := fun i => by rw [hrest]; rfl
  have hpages : b'.pages = b.pages := by rw [hrest]
  have hacked := io.acked_le len
  have hrun' : ∀ i, offset ≤ i → i < offset + len → b.dirtyAt i ∧ b.byteAt i = some (bytes (i - offset)) := by
    intro i hle hlt
    have := hrun (i - offset) (by omega)
    rwa [show offset + (i - offset) = i by omega] at this
  have hack : ∀ i, Acknowledged [⟨b.handle, offset, len, io.acked len, io.acked_le len⟩] i ↔
      offset ≤ i ∧ i < offset + io.acked len := fun i => by simp [Acknowledged]
  have hfile : ∀ i, b.dirtyAt i = false → (io.pwrite b.handle offset len bytes).2.file b.handle i = io.file b.handle i := by
    intro i hd
    refine io.pwrite_file_outside b.handle offset len bytes ?_
    by_contra hin
    rw [(hrun' i (by omega) (by omega)).1] at hd
    cases hd
  refine ⟨io.pwrite_wrote .., by rw [hrest]; rfl, by rw [hrest], by rw [hrest]; exact hvalid, ?_, ?_, ?_, fun i _ => hbyte i, ?_,
    hfile, fun page hp => (hstale page).trans hp, ⟨fun page hp => ?_, fun page hp => ?_⟩, fun hc => ⟨?_, fun h => ?_⟩⟩
  · intro w hw
    rw [List.mem_singleton.mp hw]
    exact hsize
  · intro i _
    rw [hdirty i, hack]
    by_cases hi : offset ≤ i ∧ i < offset + io.acked len
    · simp [hi]
    · simp [hi]
  · intro i hd
    rw [hdirty i] at hd
    split at hd
    · cases hd
    · exact hd
  · intro i hi
    rw [hack] at hi
    obtain ⟨hd, hb⟩ := hrun' i hi.1 (by omega)
    exact ⟨hd, by rw [hb, io.pwrite_file_acked _ _ _ _ hi]⟩
  · rw [hpages]
    exact hwf.resident page (hcontains page ▸ hp)
  · exact hwf.inRange page (hpages ▸ hp)
  · intro i v hv hd hs hi
    rw [hbyte i] at hv
    rw [hstale] at hs
    rw [hdirty i] at hd
    rw [show b'.handle = b.handle by rw [hrest]]
    rw [show b'.size = b.size by rw [hrest]] at hi
    split_ifs at hd with hin
    · rw [io.pwrite_file_acked _ _ _ _ hin, ← Option.some.injEq, ← hv]
      exact (hrun' i hin.1 (by omega)).2
    · rw [hfile i hd]
      exact hc.clean i v hv hd hs hi
  · rw [hrest] at h
    rw [hvalid] at h
    cases h

theorem refused_flushes {len : Nat} (bytes : Nat → UInt8) (hwf : b.WellFormed)
    (hvalid : b.sizeValid) (hsize : offset + len ≤ b.size.toNat)
    (hrun : ∀ k < len, b.dirtyAt (offset + k) ∧ b.byteAt (offset + k) = some (bytes k))
    (hrefused : ∀ n, (io.pwrite b.handle offset len bytes).1 = .ok n → ¬(0 < n ∧ n ≤ len)) :
    ∃ ws, b.Flushes io ws b (io.pwrite b.handle offset len bytes).2 := by
  have hzero := io.acked_of_refused b.handle offset len bytes hrefused
  exact ⟨_, pwrite_flushes bytes hwf hvalid hsize hrun (hzero ▸ .nothing b offset)⟩

theorem writeRun_flushes (page pageStart stop : Nat) (source : Page) (written : Nat) (b : FileBacking) (io : Io)
    (hstart : pageStart = page * filePageSize) (hwf : b.WellFormed) (hvalid : b.sizeValid)
    (hstop : stop ≤ filePageSize) (hsize : pageStart + stop ≤ b.size.toNat)
    (hrun : ∀ o, written ≤ o → o < stop → b.dirtyAt (pageStart + o) ∧ b.byteAt (pageStart + o) = some (source o)) :
    let r := writeRun page pageStart stop source written b io
    (∃ ws, b.Flushes io ws r.2.1 r.2.2) ∧ r.2.1.pages = b.pages ∧
      (r.1 = none → ∀ o, written ≤ o → o < stop → r.2.1.dirtyAt (pageStart + o) = false) := by
  fun_induction writeRun page pageStart stop source written b io with
  | case1 written b io hlt w e he =>
    refine ⟨refused_flushes _ hwf hvalid (by omega) (fun k hk => ?_) (fun n hn => ?_), rfl, nofun⟩
    · rw [Nat.add_assoc]
      exact hrun (written + k) (by omega) (by omega)
    · rw [show _ = Except.error e from he] at hn
      cases hn
  | case2 written b io hlt w count he hc ih =>
    have hacked : io.acked (stop - written) = count :=
      io.acked_of_pwrite_ok b.handle (pageStart + written) _ (fun k => source (written + k)) he hc.2
    have hclear : Cleared b (b.setDirty page written (written + count) false) (pageStart + written)
        (pageStart + written + io.acked (stop - written)) := by
      rw [hacked, Nat.add_assoc, hstart]
      exact setDirty_cleared b page written (by omega)
    have hstep := pwrite_flushes (fun k => source (written + k)) hwf hvalid (by omega) (fun k hk => by
      rw [Nat.add_assoc]
      exact hrun (written + k) (by omega) (by omega)) hclear
    obtain ⟨dirtyPages, hrest⟩ := hclear.rest
    obtain ⟨⟨ws, hflush⟩, hpages, hclean⟩ := ih hstep.wellFormed hstep.sizeValid (by rw [hstep.size]; exact hsize)
      (fun o hle hlt => by
        rw [hclear.dirty, if_neg (by omega), show byteAt _ _ = b.byteAt _ by rw [hrest]; rfl]
        exact hrun o (by omega) hlt)
    refine ⟨⟨_, hstep.trans hflush⟩, hpages.trans (by rw [hrest]), fun hnone o hle hlt => ?_⟩
    by_cases ho : written + count ≤ o
    · exact hclean hnone o ho hlt
    · refine hflush.stays_clean ?_
      rw [hclear.dirty, if_pos (by omega)]
  | case3 written b io hlt w count he hc =>
    refine ⟨refused_flushes _ hwf hvalid (by omega) (fun k hk => ?_) (fun n hn => ?_), rfl, nofun⟩
    · rw [Nat.add_assoc]
      exact hrun (written + k) (by omega) (by omega)
    rw [show _ = Except.ok count from he] at hn
    cases hn
    exact hc
  | case4 written b io hge =>
    exact ⟨⟨[], .refl hwf hvalid⟩, rfl, fun _ o hle hlt => by omega⟩

variable {page o : Nat}

theorem page_add (ho : o < filePageSize) :
    (page * filePageSize + o) / filePageSize = page ∧ (page * filePageSize + o) % filePageSize = o := by
  simp only [filePageSize] at ho ⊢
  omega

theorem dirtyAt_page (ho : o < filePageSize) : b.dirtyAt (page * filePageSize + o) = (b.dirtyPage page).contains o := by
  rw [dirtyAt, (page_add ho).1, (page_add ho).2]

theorem byteAt_page (ho : o < filePageSize) (hresident : b.pages.contains page) :
    b.byteAt (page * filePageSize + o) = some (b.page page o) := by
  obtain ⟨bytes, hbytes⟩ := Option.isSome_iff_exists.mp hresident
  rw [byteAt, (page_add ho).1, (page_add ho).2, FileBacking.page, hbytes]
  rfl

theorem writeRuns_flushes (page pageStart hi cursor : Nat) (b : FileBacking) (io : Io)
    (hstart : pageStart = page * filePageSize) (hwf : b.WellFormed) (hvalid : b.sizeValid) (hhi : hi ≤ filePageSize)
    (hsize : pageStart + hi ≤ b.size.toNat) (hresident : b.pages.contains page) :
    let r := writeRuns page pageStart hi cursor b io
    (∃ ws, b.Flushes io ws r.2.1 r.2.2) ∧ r.2.1.pages = b.pages ∧
      (r.1 = none → ∀ o, cursor ≤ o → o < hi → r.2.1.dirtyAt (pageStart + o) = false) := by
  -- the run found at a cursor is dirty and resident throughout
  have hfound : ∀ (b : FileBacking) (cursor : Nat), b.pages.contains page → ∀ o, cursor ≤ o →
      o < runEnd (b.dirtyPage page).contains hi cursor →
      b.dirtyAt (pageStart + o) ∧ b.byteAt (pageStart + o) = some (b.page page o) := by
    intro b cursor hresident o hle ho
    obtain ⟨hd, hlt⟩ := of_mem_runEnd o hle ho
    rw [hstart, dirtyAt_page (by omega), byteAt_page (by omega) hresident]
    exact ⟨hd, rfl⟩
  fun_induction writeRuns page pageStart hi cursor b io with
  | case1 cursor b io hlt hd stop r e he =>
    have hstop : stop ≤ hi := runEnd_le (by omega)
    obtain ⟨hflush, hpages, _⟩ := writeRun_flushes page pageStart stop (b.page page) cursor b io hstart hwf hvalid
      (by omega) (by omega) (hfound b cursor hresident)
    exact ⟨hflush, hpages, nofun⟩
  | case2 cursor b io hlt hd stop r hnone ih =>
    have hstop : stop ≤ hi := runEnd_le (by omega)
    obtain ⟨⟨ws, hflush⟩, hpages, hclean⟩ := writeRun_flushes page pageStart stop (b.page page) cursor b io hstart hwf
      hvalid (by omega) (by omega) (hfound b cursor hresident)
    obtain ⟨⟨ws', hflush'⟩, hpages', hclean'⟩ := ih hflush.wellFormed hflush.sizeValid (by rw [hflush.size]; exact hsize)
      (by rw [hpages]; exact hresident)
    refine ⟨⟨_, hflush.trans hflush'⟩, hpages'.trans hpages, fun hr o hle ho => ?_⟩
    by_cases hin : o < stop
    · exact hflush'.stays_clean (hclean hnone o hle hin)
    · exact hclean' hr o (by omega) ho
  | case3 cursor b io hlt hd ih =>
    obtain ⟨hflush, hpages, hclean⟩ := ih hwf hvalid hsize hresident
    refine ⟨hflush, hpages, fun hnone o hle ho => ?_⟩
    by_cases heq : o = cursor
    · obtain ⟨ws, hflush⟩ := hflush
      refine hflush.stays_clean ?_
      rw [heq, hstart, dirtyAt_page (by omega)]
      simpa using hd
    · exact hclean hnone o (by omega) ho
  | case4 cursor b io hge => exact ⟨⟨[], .refl hwf hvalid⟩, rfl, fun _ o hle hlt => by omega⟩

/-! ## A page -/

theorem satAdd_page (hi : i < u64Max) (hp : i / filePageSize = page) : i < satAdd (page * filePageSize) filePageSize := by
  simp only [satAdd, filePageSize] at hp ⊢
  omega

theorem size_le_u64Max (b : FileBacking) : b.size.toNat ≤ u64Max := by
  have := b.size.toNat_lt
  simp only [u64Max]
  omega

/-- Taking dirty marks away where the file cannot hold them. -/
theorem putDirty_flushes (io : Io) {d : DirtyFilePage} {dirtyPages : OrdMap Nat DirtyFilePage}
    (hput : dirtyPages = if d.isEmpty then b.dirtyPages.erase page else b.dirtyPages.insert page d)
    (hwf : b.WellFormed) (hvalid : b.sizeValid) (hpage : d.isEmpty = false → b.pages.contains page)
    (hless : ∀ i, i / filePageSize = page → d.contains (i % filePageSize) → b.dirtyAt i)
    (hsame : ∀ i, i / filePageSize = page → i < b.size.toNat → d.contains (i % filePageSize) = b.dirtyAt i)
    (hfresh : (∀ i, i / filePageSize = page → b.size.toNat ≤ i) ∨ b.isStale page = false)
    (hstale : b.isStale page = false → d.stale = false) : b.Flushes io [] { b with dirtyPages := dirtyPages } io := by
  obtain ⟨hat, hstale', hfresh', hcontains⟩ := putDirty_spec (b := b) { b with dirtyPages := dirtyPages } page d hput
  refine ⟨(Io.Asked.refl io).wrote b.handle, rfl, rfl, hvalid, nofun, fun i hi => ?_, fun i hd => ?_, fun _ _ => rfl,
    fun i ha => absurd ha (not_acknowledged_nil i), fun _ _ => rfl, fun p hp => ?_, ⟨fun p hp => ?_, hwf.inRange⟩,
    fun hc => ⟨fun i v hv hd hs hi => ?_, fun h => ?_⟩⟩
  · rw [hat i, iff_true_intro (not_acknowledged_nil i), and_true]
    split_ifs with hp
    · rw [hsame i hp hi]
    · rfl
  · rw [hat i] at hd
    split_ifs at hd with hp
    · exact hless i hp hd
    · exact hd
  · by_cases heq : p = page
    · rw [heq] at hp ⊢
      exact hfresh' (hstale hp)
    · rw [hstale' p heq]
      exact hp
  · rcases hcontains p hp with ⟨rfl, hd⟩ | hp
    · exact hpage hd
    · exact hwf.resident p hp
  · rw [hat i] at hd
    by_cases hp : i / filePageSize = page
    · rw [if_pos hp, hsame i hp hi] at hd
      rcases hfresh with hpast | hfresh
      · exact absurd hi (Nat.not_lt.mpr (hpast i hp))
      · exact hc.clean i v hv hd (by rw [hp]; exact hfresh) hi
    · rw [if_neg hp] at hd
      rw [hstale' _ hp] at hs
      exact hc.clean i v hv hd hs hi
  · rw [hvalid] at h
    cases h

/-- A page wholly past the end of the file is forgotten. -/
theorem erase_flushes (io : Io) (hwf : b.WellFormed) (hvalid : b.sizeValid) (hpast : b.size.toNat ≤ page * filePageSize) :
    b.Flushes io [] { b with dirtyPages := b.dirtyPages.erase page } io := by
  have hle : ∀ i, i / filePageSize = page → b.size.toNat ≤ i := by
    intro i hi
    have := page_split i
    rw [hi] at this
    omega
  refine putDirty_flushes (d := .new) io ?_ hwf hvalid (fun h => ?_) (fun i _ h => ?_) (fun i hi hlt => ?_) (.inl hle)
    (fun _ => rfl)
  · rw [if_pos isEmpty_new]
  · rw [isEmpty_new] at h
    cases h
  · cases h
  · exact absurd hlt (Nat.not_lt.mpr (hle i hi))

theorem trimPage_flushes (io : Io) (valid : Nat) (hwf : b.WellFormed) (hvalid : b.sizeValid) (hfresh : b.isStale page = false)
    (htrim : ∀ i, i / filePageSize = page → valid ≤ i % filePageSize → b.size.toNat ≤ i) :
    b.Flushes io [] (b.trimPage page valid) io := by
  simp only [trimPage]
  split
  · exact .refl hwf hvalid
  rename_i d hd
  have hat : ∀ i, i / filePageSize = page → b.dirtyAt i = d.contains (i % filePageSize) := by
    intro i hi
    simp [dirtyAt, dirtyPage, hi, hd]
  have hpage : b.dirtyPages.contains page := by simp [OrdMap.contains, hd]
  refine putDirty_flushes io rfl hwf hvalid (fun _ => hwf.resident page hpage) (fun i hi h => ?_) (fun i hi hlt => ?_) (.inr hfresh)
    (fun h => ?_)
  · rw [contains_set] at h
    split at h
    · cases h
    · rw [hat i hi]
      exact h
  · rw [contains_set, hat i hi, if_neg]
    intro hin
    have := htrim i hi hin.1
    omega
  · rw [stale_set]
    simpa only [isStale, dirtyPage, hd, Option.getD_some] using h

/-- The part of a page in `[offset, stop)` is clean and the page not stale. -/
def PageClean (b : FileBacking) (offset stop page : Nat) : Prop :=
  ∀ i, i / filePageSize = page → offset ≤ i → i < stop → b.dirtyAt i = false ∧ b.isStale page = false

theorem Flushes.pageClean (h : b.Flushes io ws b' io') (hc : b.PageClean offset stop page) : b'.PageClean offset stop page :=
  fun i hi hle hlt => ⟨h.stays_clean (hc i hi hle hlt).1, h.fresh page (hc i hi hle hlt).2⟩

theorem flushPage_flushes (io : Io) (offset requestedEnd : Nat) (hwf : b.WellFormed)
    (hvalid : b.sizeValid) (hpage : page < 2 ^ 52) (hstop : stop ≤ b.size.toNat) :
    let r := flushPage offset requestedEnd stop page b io
    (∃ ws, b.Flushes io ws r.2.1 r.2.2) ∧ (r.1 = none → r.2.1.PageClean offset stop page) := by
  have hsize := b.size_le_u64Max
  -- where the bytes of this page lie
  have hat : ∀ i, i / filePageSize = page → i < b.size.toNat →
      page * filePageSize ≤ i ∧ i < satAdd (page * filePageSize) filePageSize := by
    intro i hi hlt
    refine ⟨?_, satAdd_page (by omega) hi⟩
    have := page_split i
    rw [hi] at this
    omega
  have hend : satAdd (page * filePageSize) filePageSize ≤ page * filePageSize + filePageSize := Nat.min_le_left ..
  simp only [flushPage, satMul_page hpage]
  split
  · have hnone : ∀ b' : FileBacking, b'.PageClean offset stop page := fun b' i hi _ hlt => by
      have := hat i hi (by omega)
      omega
    split
    · exact ⟨⟨[], erase_flushes io hwf hvalid (by assumption)⟩, fun _ => hnone _⟩
    · exact ⟨⟨[], .refl hwf hvalid⟩, fun _ => hnone _⟩
  split
  · refine ⟨⟨[], .refl hwf hvalid⟩, fun _ i hi hle hlt => ?_⟩
    have := hat i hi (by omega)
    omega
  split
  · refine ⟨⟨[], .refl hwf hvalid⟩, fun _ i hi hle hlt => ?_⟩
    have := hat i hi (by omega)
    omega
  obtain ⟨hload, hok⟩ := ensurePageLoaded_loads io hwf hpage
  have hfirst := hload.flushes hvalid
  split
  · exact ⟨⟨[], hfirst⟩, fun h => by cases h⟩
  rename_i hstart hrange hne heq
  obtain ⟨hresident, hfresh, _⟩ := hok heq
  obtain ⟨⟨ws, hruns⟩, _, hclean⟩ := writeRuns_flushes page (page * filePageSize)
    (min stop (min (satAdd (page * filePageSize) filePageSize) b.size.toNat) - page * filePageSize)
    (max offset (page * filePageSize) - page * filePageSize) _ (b.ensurePageLoaded page io).2.2 rfl hload.wellFormed
    hfirst.sizeValid (by omega) (by rw [hfirst.size]; omega) hresident
  have htrim := fun io' => trimPage_flushes io'
    (min (satAdd (page * filePageSize) filePageSize) b.size.toNat - page * filePageSize) hruns.wellFormed hruns.sizeValid
    (hruns.fresh page hfresh) (fun i hi hle => by
      rw [hruns.size, hfirst.size]
      have hsplit := page_split i
      rw [hi] at hsplit
      by_contra hlt
      have := hat i hi (by omega)
      omega)
  refine ⟨⟨_, (hfirst.trans hruns).trans (htrim _)⟩, fun hnone i hi hle hlt => ?_⟩
  have hin := hat i hi (by omega)
  refine ⟨(htrim io).stays_clean ?_, (htrim io).fresh page (hruns.fresh page hfresh)⟩
  have := hclean hnone (i - page * filePageSize) (by omega) (by omega)
  rwa [show page * filePageSize + (i - page * filePageSize) = i by omega] at this

/-! ## A whole flush -/

theorem flushPages_flushes (offset requestedEnd stop : Nat) : ∀ (pages : List Nat) (failure : Option Errno) (b : FileBacking)
    (io : Io), b.WellFormed → b.sizeValid → stop ≤ b.size.toNat → (∀ page ∈ pages, page < 2 ^ 52) →
    let r := flushPages offset requestedEnd stop pages failure b io
    (∃ ws, b.Flushes io ws r.2.1 r.2.2) ∧ (r.1 = none → failure = none ∧ ∀ page ∈ pages, r.2.1.PageClean offset stop page)
  | [], failure, b, io, hwf, hvalid, _, _ => ⟨⟨[], .refl hwf hvalid⟩, fun h => ⟨h, nofun⟩⟩
  | page :: pages, failure, b, io, hwf, hvalid, hstop, hpages => by
    obtain ⟨⟨ws, hpage⟩, hclean⟩ := flushPage_flushes io offset requestedEnd hwf hvalid (hpages page List.mem_cons_self) hstop
    obtain ⟨⟨ws', hrest⟩, hclean'⟩ := flushPages_flushes offset requestedEnd stop pages
      (failure.or (flushPage offset requestedEnd stop page b io).1) _ _ hpage.wellFormed hpage.sizeValid
      (by rw [hpage.size]; exact hstop) fun p hp => hpages p (List.mem_cons_of_mem _ hp)
    refine ⟨⟨_, hpage.trans hrest⟩, fun hnone => ?_⟩
    obtain ⟨hor, hall⟩ := hclean' hnone
    rw [Option.or_eq_none_iff] at hor
    refine ⟨hor.1, fun p hp => ?_⟩
    rcases List.mem_cons.mp hp with rfl | hp
    · exact hrest.pageClean (hclean hor.2)
    · exact hall p hp

/-- Whatever the host does, a flush writes back what it acknowledges and keeps
the rest; one that succeeds has left nothing in its range. -/
theorem flushDirtyRange_flushes (offset len : Nat) (io : Io) (hwf : b.WellFormed) (hvalid : b.sizeValid) :
    let r := b.flushDirtyRange offset len io
    (∃ ws, b.Flushes io ws r.2.1 r.2.2) ∧ (r.1 = .ok () → ∀ i, offset ≤ i → i < offset + len → i < b.size.toNat →
      r.2.1.dirtyAt i = false ∧ r.2.1.isStale (i / filePageSize) = false) := by
  have hpages : ∀ page ∈ b.dirtyPages.entries.map (·.1), page < 2 ^ 52 := by
    intro page hp
    exact hwf.inRange page (hwf.resident page (OrdMap.isSome_get?_iff.mpr hp))
  obtain ⟨⟨ws, hflush⟩, hclean⟩ := flushPages_flushes offset (satAdd offset len)
    (min (satAdd offset len) b.size.toNat) (b.dirtyPages.entries.map (·.1)) none b io hwf hvalid
    (Nat.min_le_right ..) hpages
  simp only [flushDirtyRange]
  refine ⟨⟨ws, hflush⟩, fun hok i hle hlt hi => ?_⟩
  split at hok
  · rename_i hnone
    have hsize := b.size_le_u64Max
    cases hd : b.dirtyPages.contains (i / filePageSize) with
    | true =>
      refine (hclean hnone).2 _ (OrdMap.isSome_get?_iff.mp hd) i rfl hle ?_
      simp only [satAdd]
      omega
    | false =>
      -- the page was clean to begin with
      have hat : b.dirtyAt i = false := Bool.eq_false_iff.mpr fun hat => Bool.eq_false_iff.mp hd (contains_of_dirtyAt hat)
      exact ⟨hflush.stays_clean hat, hflush.fresh _ (isStale_of_not_contains hd)⟩
  · cases hok

end FileBacking

end Kandelo.Shared

/-
The page cache of a shared file over whole runs: any sequence of writes,
publications, flushes, reloads and invalidations, with a host that may refuse a
write, answer short, or answer nonsense at any point.

A caller of `write_range` that says the bytes are clean promises that the file
has them already, and `flush_dirty_range` is only entered with a size that is
known; `Promised` says so.
-/
import Kandelo.Lib.Machine
import Kandelo.Shared.Reload

namespace Kandelo.Shared

namespace FileBacking

/-- What a flush of `[offset, offset + len)` owes, whatever the host answered:
its writes stay below the file size, the bytes that stay dirty below it are those
the host did not acknowledge, no byte becomes dirty, and a flush that succeeds has
left none in its range and the file with the cache's bytes there. -/
structure WritesBack (b : FileBacking) (io : Io) (offset len : Nat) (r : Except Errno Unit × FileBacking × Io) : Prop where
  writes : ∃ ws, r.2.2.log = io.log ++ ws ∧ (∀ w ∈ ws, w.offset + w.len ≤ r.2.1.size.toNat) ∧
    ∀ i, i < r.2.1.size.toNat → (r.2.1.dirtyAt i ↔ b.dirtyAt i ∧ ¬Acknowledged ws i)
  bytes : ∀ i, r.2.1.dirtyAt i → b.dirtyAt i ∧ r.2.1.byteAt i = b.byteAt i
  ok : r.1 = .ok () → ∀ i, offset ≤ i → i < offset + len → i < r.2.1.size.toNat →
    r.2.1.dirtyAt i = false ∧ (∀ v, r.2.1.byteAt i = some v → v = r.2.2.file b.handle i) ∧
      (b.dirtyAt i → b.byteAt i = some (r.2.2.file b.handle i))

variable {b : FileBacking}

theorem flushDirtyRange_writesBack (offset len : Nat) (io : Io) (hwf : b.WellFormed) (hc : b.Coherent io)
    (hvalid : b.sizeValid) : WritesBack b io offset len (b.flushDirtyRange offset len io) := by
  obtain ⟨⟨ws, hflush⟩, hclean⟩ := flushDirtyRange_flushes offset len io hwf hvalid
  refine ⟨⟨ws, hflush.wrote.log, fun w hw => ?_, fun i hi => ?_⟩,
    fun i hd => ⟨hflush.less i hd, hflush.bytes i hd⟩, fun hok i hle hlt hi => ?_⟩
  · rw [hflush.size]
    exact hflush.within w hw
  · exact hflush.dirty i (hflush.size ▸ hi)
  have hi' : i < b.size.toNat := hflush.size ▸ hi
  obtain ⟨hd, hfresh⟩ := hclean hok i hle hlt hi'
  refine ⟨hd, fun v hv => ?_, fun hdirty => ?_⟩
  · have := (hflush.coherent hc).clean i v hv hd hfresh hi
    rwa [handle_of_header hflush.header] at this
  have hacked : Acknowledged ws i := by
    by_contra hnot
    rw [(hflush.dirty i hi').mpr ⟨hdirty, hnot⟩] at hd
    cases hd
  exact (hflush.acked i hacked).2

theorem flushRange_writesBack (offset len : Nat) (io : Io) (hwf : b.WellFormed) (hc : b.Coherent io) :
    WritesBack b io offset len (b.flushRange offset len io) := by
  simp only [flushRange]
  split
  · rename_i hnothing
    -- an empty range, or nothing dirty
    have hclean : ∀ i, offset ≤ i → i < offset + len → b.dirtyPages.contains (i / filePageSize) = false := by
      intro i hle hlt
      rcases hnothing with hzero | hempty
      · omega
      · rw [OrdMap.contains, Option.isSome_eq_false_iff, Option.isNone_iff_eq_none, OrdMap.get?, List.isEmpty_iff.mp hempty]
        rfl
    refine ⟨⟨[], by rw [List.append_nil], List.forall_mem_nil _, fun i _ => ?_⟩, fun _ h => ⟨h, rfl⟩, fun _ i hle hlt hi => ?_⟩
    · exact ⟨fun h => ⟨h, not_acknowledged_nil i⟩, And.left⟩
    have hd : b.dirtyAt i = false := by
      cases hd : b.dirtyAt i with
      | false => rfl
      | true =>
        have := hclean i hle hlt
        rw [contains_of_dirtyAt hd] at this
        cases this
    refine ⟨hd, fun v hv => hc.clean i v hv hd (isStale_of_not_contains (hclean i hle hlt)) hi, fun h => ?_⟩
    rw [hd] at h
    cases h
  have hrec := reconcileSource_reconciles io hwf
  generalize b.reconcileSource io = r at hrec ⊢
  split_ifs with hvalid
  · refine ⟨⟨[], by rw [hrec.asked.log, List.append_nil], List.forall_mem_nil _, fun i hi => ?_⟩,
      fun i hd => ⟨hrec.less i hd, hrec.bytes i hd⟩, fun h => by cases h⟩
    rw [hrec.dirty i fun _ => hi]
    exact ⟨fun h => ⟨h, not_acknowledged_nil i⟩, And.left⟩
  obtain ⟨⟨ws, hlog, hwithin, hdirty⟩, hbytes, hok⟩ := flushDirtyRange_writesBack offset len r.2 hrec.wellFormed
    (hrec.coherent hc) (by simpa using hvalid)
  obtain ⟨⟨_, hflush⟩, _⟩ := flushDirtyRange_flushes offset len r.2 hrec.wellFormed (by simpa using hvalid)
  obtain ⟨generation, heq⟩ := adoptSourceGeneration_eq (r.1.flushDirtyRange offset len r.2).2.1
    (r.1.flushDirtyRange offset len r.2).2.2
  have hsame : ∀ i, i < (r.1.flushDirtyRange offset len r.2).2.1.size.toNat → r.1.dirtyAt i = b.dirtyAt i := by
    intro i hi
    exact hrec.dirty i fun _ => hflush.size ▸ hi
  rw [heq]
  refine ⟨⟨ws, by rw [hlog, hrec.asked.log], hwithin, fun i hi => ?_⟩, fun i hd => ?_, fun hfine i hle hlt hi => ?_⟩
  · rw [← hsame i hi]
    exact hdirty i hi
  · obtain ⟨hless, hsame⟩ := hbytes i hd
    exact ⟨hrec.less i hless, hsame.trans (hrec.bytes i hless)⟩
  obtain ⟨hd, hres, hfile⟩ := hok hfine i hle hlt hi
  rw [hrec.handle] at hres hfile
  refine ⟨hd, hres, fun hdirty => ?_⟩
  have hdirty' := (hsame i hi).trans hdirty
  rw [← hrec.bytes i hdirty']
  exact hfile hdirty'

/-! ## Runs -/

inductive Call
  | writeRange (offset len : Nat) (bytes : Nat → UInt8) (markDirty : Bool)
  | mergeChangedRuns (len : Nat) (source snapshot : Nat → UInt8) (snapLen base : Nat)
  | flushRange (offset len : Nat)
  | flushDirtyRange (offset len : Nat)
  /-- A descriptor has written the file, and the cache is reloaded. -/
  | reload (contents : Nat → UInt8) (ticks : Nat) (exactSize : Option UInt64)
  /-- A descriptor has written a range of the file, and the cache is reloaded there. -/
  | reloadRange (contents : Nat → UInt8) (ticks offset len : Nat)
  | invalidateRange (offset len : Nat)
  | invalidateCleanPages
  | invalidateRangeStale (first last : Nat)
  | invalidateAllStale

def call (s : FileBacking × Io) : Call → Unit × FileBacking × Io
  | .writeRange offset len bytes markDirty => ((), (s.1.writeRange offset len bytes markDirty s.2).2)
  | .mergeChangedRuns len source snapshot snapLen base =>
    ((), (s.1.mergeChangedRuns len source snapshot snapLen base s.2).2.2)
  | .flushRange offset len => ((), (s.1.flushRange offset len s.2).2)
  | .flushDirtyRange offset len => ((), (s.1.flushDirtyRange offset len s.2).2)
  | .reload contents ticks exactSize => ((), (s.1.reload exactSize (s.2.descriptorWrite s.1.handle contents ticks)).2)
  | .reloadRange contents ticks offset len =>
    ((), (s.1.reloadRange offset len (s.2.descriptorWrite s.1.handle contents ticks)).2)
  | .invalidateRange offset len => ((), s.1.invalidateRange offset len, s.2)
  | .invalidateCleanPages => ((), s.1.invalidateCleanPages, s.2)
  | .invalidateRangeStale first last => ((), s.1.invalidateRangeStale first last, s.2)
  | .invalidateAllStale => ((), s.1.invalidateAllStale, s.2)

/-- What callers promise: bytes written as clean are in the file, the private
half of a flush is entered with a known size, and a ranged reload names the range
that was written. -/
def Promised (s : FileBacking × Io) : Call → Prop
  | .writeRange offset len bytes markDirty =>
    markDirty ∨ ∀ k < len, s.2.file s.1.handle (wrapAdd offset k) = bytes k
  | .flushDirtyRange _ _ => s.1.sizeValid
  | .reloadRange contents _ offset len => ∀ i, len = 0 ∨ ¬(offset / filePageSize ≤ i / filePageSize ∧
      i / filePageSize ≤ satAdd offset (len - 1) / filePageSize) → contents i = s.2.file s.1.handle i
  | _ => True

/-- A backing as it is created, for an object with or without a generation. -/
def Opened (s : FileBacking × Io) : Prop :=
  ∃ key handle writable size generation, s.1 = { new key handle writable size with sourceGeneration := generation }

def Call.isInvalidation : Call → Prop
  | .invalidateRange _ _ | .invalidateCleanPages | .invalidateRangeStale _ _ | .invalidateAllStale => True
  | _ => False

theorem opened_keeps {s : FileBacking × Io} (h : Opened s) : s.1.WellFormed ∧ s.1.Coherent s.2 := by
  obtain ⟨key, handle, writable, size, generation, heq⟩ := h
  rw [heq]
  exact ⟨⟨nofun, nofun⟩, nofun, nofun⟩

theorem flushDirtyRange_keeps (offset len : Nat) (io : Io) (hwf : b.WellFormed) (hc : b.Coherent io)
    (hvalid : b.sizeValid) :
    let r := b.flushDirtyRange offset len io
    r.2.1.WellFormed ∧ r.2.1.Coherent r.2.2 := by
  obtain ⟨⟨ws, hflush⟩, _⟩ := flushDirtyRange_flushes offset len io hwf hvalid
  exact ⟨hflush.wellFormed, hflush.coherent hc⟩

theorem flushRange_keeps (offset len : Nat) (io : Io) (hwf : b.WellFormed) (hc : b.Coherent io) :
    let r := b.flushRange offset len io
    r.2.1.WellFormed ∧ r.2.1.Coherent r.2.2 := by
  have hrec := reconcileSource_reconciles io hwf
  simp only [flushRange]
  split
  · exact ⟨hwf, hc⟩
  generalize b.reconcileSource io = r at hrec ⊢
  split_ifs with hvalid
  · exact ⟨hrec.wellFormed, hrec.coherent hc⟩
  obtain ⟨hwf', hc'⟩ := flushDirtyRange_keeps offset len r.2 hrec.wellFormed (hrec.coherent hc) (by simpa using hvalid)
  obtain ⟨generation, heq⟩ := adoptSourceGeneration_eq (r.1.flushDirtyRange offset len r.2).2.1
    (r.1.flushDirtyRange offset len r.2).2.2
  rw [heq]
  exact ⟨⟨hwf'.resident, hwf'.inRange⟩, hc'.clean, hc'.doubtful⟩

/-- Every call keeps the cache well formed and coherent with the file. -/
theorem call_keeps (s : FileBacking × Io) (c : Call) (hok : Promised s c) (h : s.1.WellFormed ∧ s.1.Coherent s.2) :
    (call s c).2.1.WellFormed ∧ (call s c).2.1.Coherent (call s c).2.2 := by
  obtain ⟨hwf, hc⟩ := h
  cases c with
  | writeRange offset len bytes markDirty =>
    have hkeeps := writeRange_keeps s.2 hwf hok
    exact ⟨hkeeps.wellFormed, hkeeps.coherent hc⟩
  | mergeChangedRuns len source snapshot snapLen base =>
    have hkeeps := mergeRuns_keeps len source snapLen base 0 false snapshot s.1 s.2 hwf
    exact ⟨hkeeps.wellFormed, hkeeps.coherent hc⟩
  | flushRange offset len => exact flushRange_keeps offset len s.2 hwf hc
  | flushDirtyRange offset len => exact flushDirtyRange_keeps offset len s.2 hwf hc hok
  | reload contents ticks exactSize => exact (reload_keeps exactSize _ hwf).1
  | reloadRange contents ticks offset len =>
    refine (reloadRange_keeps offset len _ hwf hc fun i hi => ?_).1
    simp only [Io.descriptorWrite, if_true]
    exact hok i hi
  | invalidateRange offset len =>
    have hload := invalidateRange_loads s.2 hwf offset len
    exact ⟨hload.wellFormed, hload.coherent hc⟩
  | invalidateCleanPages =>
    have hload := invalidateCleanPages_loads s.2 hwf
    exact ⟨hload.wellFormed, hload.coherent hc⟩
  | invalidateRangeStale first last =>
    exact ⟨(invalidateRangeStale_retains hwf first last).wellFormed, invalidateRangeStale_coherent hc fun _ _ => rfl⟩
  | invalidateAllStale => exact ⟨(invalidateAllStale_retains hwf).wellFormed, invalidateAllStale_coherent _ _⟩

theorem invalidation_retains {s : FileBacking × Io} {c : Call} (hc : c.isInvalidation) (hwf : s.1.WellFormed) :
    Retains s.1 (call s c).2.1 := by
  cases c with
  | invalidateRange offset len => exact (invalidateRange_loads s.2 hwf offset len).retains
  | invalidateCleanPages => exact (invalidateCleanPages_loads s.2 hwf).retains
  | invalidateRangeStale first last => exact invalidateRangeStale_retains hwf first last
  | invalidateAllStale => exact invalidateAllStale_retains hwf
  | _ => exact hc.elim

/-- In every state a run can reach: a dirty byte is in a resident page; a flush
writes below the file size only, keeps dirty exactly what the host did not
acknowledge there, and on success leaves its range clean and in the file; and no
invalidation takes away a dirty byte the file can hold. -/
theorem dirty_bytes_written_back {s : FileBacking × Io} (h : Machine.ReachableWhen Opened Promised call s) :
    (∀ i, s.1.dirtyAt i = true → ∃ v, s.1.byteAt i = some v) ∧
    (∀ offset len, WritesBack s.1 s.2 offset len (s.1.flushRange offset len s.2)) ∧
    (s.1.sizeValid = true → ∀ offset len, WritesBack s.1 s.2 offset len (s.1.flushDirtyRange offset len s.2)) ∧
    ∀ c : Call, c.isInvalidation → ∀ i, i < s.1.size.toNat → s.1.dirtyAt i = true →
      (call s c).2.1.dirtyAt i = true ∧ (call s c).2.1.byteAt i = s.1.byteAt i := by
  obtain ⟨hwf, hc⟩ := h.invariant (I := fun s => s.1.WellFormed ∧ s.1.Coherent s.2) (fun _ => opened_keeps) call_keeps
  refine ⟨fun i hd => hwf.byteAt_of_dirtyAt hd, fun offset len => flushRange_writesBack offset len s.2 hwf hc,
    fun hvalid offset len => flushDirtyRange_writesBack offset len s.2 hwf hc hvalid, fun c hinv i hi hd => ?_⟩
  have hret := invalidation_retains hinv hwf
  have hd' := (hret.dirty i fun _ => hi).trans hd
  exact ⟨hd', hret.bytes i hd'⟩

/-- A file of zeros on a host that answers every read in full and refuses every
write. -/
def refusingHost : Io where
  file := fun _ _ => 0
  generation := fun _ => none
  memory := fun _ _ => 0
  memoryLen := fun _ => none
  shm := fun _ => none
  answers := fun n => ⟨true, if n = 4 then .error Errno.EIO else .ok 1, .error Errno.EIO, none, .ok (), fun _ => 0, 0⟩
  used := 0
  log := []

/-- A file of one byte with two bytes stored over it. -/
def storedPastEnd : FileBacking × Io := (call (new "f" 3 true 1, refusingHost) (.writeRange 0 2 (fun _ => 7) true)).2

theorem dirty_bytes_written_back_storedPastEnd : Machine.ReachableWhen Opened Promised call storedPastEnd ∧
      WritesBack storedPastEnd.1 storedPastEnd.2 0 2 (storedPastEnd.1.flushRange 0 2 storedPastEnd.2) := by
  have hopen : Machine.ReachableWhen Opened Promised call (new "f" 3 true 1, refusingHost) :=
    .start ⟨"f", 3, true, 1, none, rfl⟩
  have h := hopen.next (Call.writeRange 0 2 (fun _ => 7) true) (.inl rfl)
  exact ⟨h, (dirty_bytes_written_back h).2.1 0 2⟩

/-- The byte past the end of the file was not acknowledged and is no longer
dirty; and bytes written as clean are not in the file after a flush that
succeeded. -/
theorem flush_drops_past_end_and_trusts_clean : (storedPastEnd.1.dirtyAt 1 = true ∧
      (storedPastEnd.1.flushRange 0 2 storedPastEnd.2).1 = .error Errno.EIO ∧
      (storedPastEnd.1.flushRange 0 2 storedPastEnd.2).2.2.log.map (·.acked) = [0] ∧
      (storedPastEnd.1.flushRange 0 2 storedPastEnd.2).2.1.dirtyAt 1 = false) ∧
    ∃ s : FileBacking × Io, s = (call (new "f" 3 true 1, refusingHost) (.writeRange 0 1 (fun _ => 7) false)).2 ∧
      (s.1.flushRange 0 1 s.2).1 = .ok () ∧ (s.1.flushRange 0 1 s.2).2.1.byteAt 0 = some 7 ∧
      (s.1.flushRange 0 1 s.2).2.2.file 3 0 = 0 := by
  refine ⟨by decide +kernel, _, rfl, by decide +kernel⟩

end FileBacking

end Kandelo.Shared

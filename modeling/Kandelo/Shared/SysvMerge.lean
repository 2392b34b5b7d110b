/-
One attachment of a SysV segment brought in step: its changed bytes go into the
segment, and the segment's bytes into its memory and its snapshot.

A segment is shorter than 4 GiB (`shmget` takes a 32-bit size), so once reading
an attachment's range of the segment has worked, no write into the range fails.
`MergeOutcome` is the three ways a merge can end.
-/
import Kandelo.Shared.Table

namespace Kandelo.Shared

namespace Io

def segByte (io : Io) (segId : Int) (k : Nat) : UInt8 := ((io.shm segId).getD []).getD k 0

def segLen (io : Io) (segId : Int) : Option Nat := (io.shm segId).map (·.length)

/-- The bytes of one segment were written, and nothing else. -/
structure Poured (segId : Int) (io io' : Io) : Prop where
  rest : io' = { io with shm := io'.shm }
  other : ∀ s, s ≠ segId → io'.shm s = io.shm s
  len : ∀ s, io'.segLen s = io.segLen s

theorem Poured.refl (segId : Int) (io : Io) : Poured segId io io := ⟨rfl, fun _ _ => rfl, fun _ => rfl⟩

variable {segId : Int} {io : Io}

theorem Poured.trans {io₁ io₂ : Io} (h1 : Poured segId io io₁) (h2 : Poured segId io₁ io₂) : Poured segId io io₂ := by
  refine ⟨?_, fun s hs => (h2.other s hs).trans (h1.other s hs), fun s => (h2.len s).trans (h1.len s)⟩
  rw [h2.rest, h1.rest]

theorem Poured.answers {io' : Io} (h : Poured segId io io') : io'.answers = io.answers := by rw [h.rest]

theorem shmWrite_ok (offset len : Nat) {n : Nat} (bytes : Nat → UInt8) (hlen : io.segLen segId = some n)
    (hin : offset + len ≤ n) (hfit : n < 2 ^ 32) :
    (io.shmWrite segId offset len bytes).1 = .ok () ∧ Poured segId io (io.shmWrite segId offset len bytes).2 ∧
      ∀ i, (io.shmWrite segId offset len bytes).2.segByte segId i =
        if offset ≤ i ∧ i < offset + len then bytes (i - offset) else io.segByte segId i := by
  obtain ⟨data, hdata, rfl⟩ := Option.map_eq_some_iff.mp hlen
  simp only [shmWrite]
  split
  · refine ⟨rfl, .refl segId io, fun i => ?_⟩
    rw [if_neg (by omega)]
  rw [if_neg (by omega), hdata]
  simp only [hin, if_true]
  refine ⟨trivial, ⟨rfl, fun s hs => if_neg hs, fun s => ?_⟩, fun i => ?_⟩
  · simp only [segLen]
    split_ifs with hs
    · rw [hs, hdata]
      simp
    · rfl
  simp only [segByte, if_true, hdata, Option.getD_some, List.getD_eq_getElem?_getD, List.getElem?_mapIdx]
  by_cases hi : i < data.length
  · simp [List.getElem?_eq_getElem hi]
  · rw [if_neg (by omega), List.getElem?_eq_none (by omega)]
    rfl

/-- What was read of a segment, from its start. -/
theorem shmRead_ok {len : Nat} {bytes : Nat → UInt8} (h : io.shmRead segId 0 len = .ok bytes)
    (hpos : 0 < len) : (∃ n, io.segLen segId = some n ∧ len ≤ n) ∧ ∀ k, bytes k = io.segByte segId k := by
  simp only [shmRead] at h
  rw [if_neg (by omega), if_neg (by decide)] at h
  cases hdata : io.shm segId with
  | none => rw [hdata] at h; cases h
  | some data =>
    rw [hdata] at h
    simp only [Nat.zero_add] at h
    split at h
    · rename_i hle
      cases h
      exact ⟨⟨data.length, by simp [segLen, hdata], hle⟩, fun k => by simp [segByte, hdata]⟩
    · cases h

/-- Reading what a segment covers does not fail. -/
theorem shmRead_covered {len : Nat} (h : 0 < len → ∃ n, io.segLen segId = some n ∧ len ≤ n)
    (e : Errno) : io.shmRead segId 0 len ≠ .error e := by
  simp only [shmRead]
  split
  · exact nofun
  obtain ⟨n, hlen, hle⟩ := h (by omega)
  obtain ⟨data, hdata, rfl⟩ := Option.map_eq_some_iff.mp hlen
  rw [hdata]
  simp only [Nat.zero_add, hle]
  exact nofun

end Io

/-- `base` with the bytes of `current` in `[lo, hi)` that differ from `snapshot`. -/
def overlay (lo hi : Nat) (current snapshot base : Nat → UInt8) (i : Nat) : UInt8 :=
  if lo ≤ i ∧ i < hi ∧ current i ≠ snapshot i then current i else base i

variable {lo hi : Nat}

theorem overlay_overlay {mid : Nat} (hle : lo ≤ mid) (hle' : mid ≤ hi) (current snapshot base : Nat → UInt8) :
    overlay mid hi current snapshot (overlay lo mid current snapshot base) = overlay lo hi current snapshot base := by
  funext i
  simp only [overlay]
  by_cases hne : current i ≠ snapshot i
  · by_cases h1 : mid ≤ i ∧ i < hi
    · rw [if_pos ⟨h1.1, h1.2, hne⟩, if_pos ⟨by omega, h1.2, hne⟩]
    rw [if_neg (by omega)]
    by_cases h2 : lo ≤ i ∧ i < mid
    · rw [if_pos ⟨h2.1, h2.2, hne⟩, if_pos ⟨h2.1, by omega, hne⟩]
    · rw [if_neg (by omega), if_neg (by omega)]
  · rw [if_neg fun h => hne h.2.2, if_neg fun h => hne h.2.2, if_neg fun h => hne h.2.2]

variable {snapshot current : Nat → UInt8}

/-- A range with no difference in it lays nothing over. -/
theorem overlay_of_same (h : ∀ i, lo ≤ i → i < hi → current i = snapshot i)
    (base : Nat → UInt8) : overlay lo hi current snapshot base = base := by
  funext i
  simp only [overlay]
  rw [if_neg fun hi => hi.2.2 (h i hi.1 hi.2.1)]

theorem rangeDiffers_iff {len : Nat} {source : Nat → UInt8} :
    rangeDiffersFromSnapshot len source snapshot ↔ ∃ i, i < len ∧ source i ≠ snapshot i := by
  simp [rangeDiffersFromSnapshot]

theorem seen_iff {source : Nat → UInt8} {len i : Nat} (hi : i < len) : seen source snapshot len i ↔ source i = snapshot i := by
  rw [seen, decide_eq_true hi, Bool.true_and, beq_iff_eq, eq_comm]

namespace SharedMappingTable

/-- A publication of `[lo, hi)` of `current` has worked: the segment and the bytes
kept beside it both took the changes. -/
structure Published (segId : Int) (current snapshot : Nat → UInt8) (lo hi : Nat) (p q : SysvPublication) : Prop where
  poured : p.io.Poured segId q.io
  success : q.success = p.success
  segment : q.io.segByte segId = overlay lo hi current snapshot (p.io.segByte segId)
  authoritative : q.authoritative = overlay lo hi current snapshot p.authoritative
  published : q.published ↔ p.published ∨ ∃ i, lo ≤ i ∧ i < hi ∧ current i ≠ snapshot i

variable {segId : Int}

theorem Published.of_same (p : SysvPublication)
    (h : ∀ i, lo ≤ i → i < hi → current i = snapshot i) : Published segId current snapshot lo hi p p where
  poured := .refl segId p.io
  success := rfl
  segment := (overlay_of_same h _).symm
  authoritative := (overlay_of_same h _).symm
  published := ⟨.inl, fun hp => hp.elim id fun ⟨i, hle, hlt, hne⟩ => absurd (h i hle hlt) hne⟩

variable {p : SysvPublication}

theorem Published.trans {mid : Nat} {q r : SysvPublication}
    (h1 : Published segId current snapshot lo mid p q) (h2 : Published segId current snapshot mid hi q r) (hle : lo ≤ mid)
    (hle' : mid ≤ hi) : Published segId current snapshot lo hi p r where
  poured := h1.poured.trans h2.poured
  success := h2.success.trans h1.success
  segment := by rw [h2.segment, h1.segment, overlay_overlay hle hle']
  authoritative := by rw [h2.authoritative, h1.authoritative, overlay_overlay hle hle']
  published := by
    rw [h2.published, h1.published, or_assoc]
    refine or_congr_right ⟨fun h => ?_, fun ⟨i, h1, h2, hne⟩ => ?_⟩
    · rcases h with ⟨i, h1, h2, hne⟩ | ⟨i, h1, h2, hne⟩
      · exact ⟨i, h1, by omega, hne⟩
      · exact ⟨i, by omega, h2, hne⟩
    by_cases hi : i < mid
    · exact .inl ⟨i, h1, hi, hne⟩
    · exact .inr ⟨i, by omega, h2, hne⟩

/-- An empty range is empty wherever it starts. -/
theorem Published.of_empty {q : SysvPublication}
    (h : Published segId current snapshot lo hi p q) (hle : hi ≤ lo) : Published segId current snapshot hi hi p q where
  poured := h.poured
  success := h.success
  segment := by
    rw [h.segment, overlay_of_same (fun i _ _ => by omega), overlay_of_same (fun i _ _ => by omega)]
  authoritative := by
    rw [h.authoritative, overlay_of_same (fun i _ _ => by omega), overlay_of_same (fun i _ _ => by omega)]
  published := by
    rw [h.published]
    exact or_congr_right ⟨fun ⟨i, h1, h2, _⟩ => by omega, fun ⟨i, h1, h2, _⟩ => by omega⟩

variable {n : Nat}

/-- One run that differs throughout. -/
theorem Published.of_run (current snapshot : Nat → UInt8) {src : Nat → UInt8} {offset start stop : Nat}
    (hsrc : ∀ k, src k = current (offset + k)) (hlen : p.io.segLen segId = some n)
    (hin : offset + stop ≤ n) (hfit : n < 2 ^ 32) (hlt : start < stop)
    (hne : ∀ i, offset + start ≤ i → i < offset + stop → current i ≠ snapshot i) :
    let w := p.io.shmWrite segId (offset + start) (stop - start) fun k => src (start + k)
    w.1 = .ok () ∧ Published segId current snapshot (offset + start) (offset + stop) p
      ⟨p.success, true, Io.splice p.authoritative (offset + start) (stop - start) fun k => src (start + k), w.2⟩ := by
  obtain ⟨hok, hpoured, hbyte⟩ := Io.shmWrite_ok (offset + start) (stop - start)
    (fun k => src (start + k)) hlen (by omega) hfit
  refine ⟨hok, hpoured, rfl, funext fun i => ?_, funext fun i => ?_,
    ⟨fun _ => .inr ⟨offset + start, by omega, by omega, hne _ (by omega) (by omega)⟩, fun _ => rfl⟩⟩
  -- the segment and the copy of it change alike
  all_goals
    simp only [hbyte, Io.splice, overlay]
    by_cases hi : offset + start ≤ i ∧ i < offset + stop
    · rw [if_pos (by omega), if_pos ⟨hi.1, hi.2, hne i hi.1 hi.2⟩, hsrc]
      congr 1
      omega
    · rw [if_neg (by omega), if_neg fun h => hi ⟨h.1, h.2.1⟩]

theorem publishSysvChunk_published (segId : Int) (offset chunk : Nat) (src snap : Nat → UInt8) (cursor : Nat)
    (p : SysvPublication) (hsrc : ∀ k, src k = current (offset + k))
    (hsnap : ∀ k, snap k = snapshot (offset + k)) (hlen : p.io.segLen segId = some n) (hin : offset + chunk ≤ n)
    (hfit : n < 2 ^ 32) (hcursor : cursor ≤ chunk) : Published segId current snapshot (offset + cursor) (offset + chunk) p
      (publishSysvChunk segId offset chunk src snap cursor p) := by
  -- positions of the chunk, as positions of the segment
  have hat : ∀ i, offset ≤ i → i < offset + chunk → (seen src snap chunk (i - offset) ↔ current i = snapshot i) := by
    intro i hle hlt
    rw [seen_iff (by omega), hsrc, hsnap, show offset + (i - offset) = i by omega]
  have hfound : ∀ (p : SysvPublication) (cursor start stop : Nat), nextChangedRun chunk src snap chunk cursor = some (start, stop) →
      p.io.segLen segId = some n →
      let w := p.io.shmWrite segId (offset + start) (stop - start) fun k => src (start + k)
      w.1 = .ok () ∧ Published segId current snapshot (offset + start) (offset + stop) p
        ⟨p.success, true, Io.splice p.authoritative (offset + start) (stop - start) fun k => src (start + k), w.2⟩ := by
    intro p cursor start stop h hlen
    obtain ⟨_, hlt, hstop, _, hne⟩ := nextChangedRun_some h
    refine Published.of_run current snapshot hsrc hlen (by omega) hfit hlt fun i hi hi' hsame => ?_
    have := (hat i (by omega) (by omega)).mpr hsame
    rw [hne (i - offset) (by omega) (by omega)] at this
    cases this
  fun_induction publishSysvChunk segId offset chunk src snap cursor p with
  | case1 cursor p h =>
    refine .of_same p fun i hle hlt => (hat i (by omega) hlt).mp ?_
    exact nextChangedRun_none h (i - offset) (by omega) (by omega)
  | case2 cursor p start stop h w e he =>
    have := (hfound p cursor start stop h hlen).1
    rw [he] at this
    cases this
  | case3 cursor p start stop h w hok ih =>
    obtain ⟨hle, hlt, hstop, hsame, _⟩ := nextChangedRun_some h
    have hrun := (hfound p cursor start stop h hlen).2
    have hskip : Published segId current snapshot (offset + cursor) (offset + start) p p :=
      .of_same p fun i hi hi' => (hat i (by omega) (by omega)).mp (hsame _ (by omega) (by omega))
    exact (hskip.trans hrun (by omega) (by omega)).trans (ih ((hrun.poured.len segId).trans hlen) hstop) (by omega)
      (by omega)

theorem publishSysvRuns_published (segId : Int) (size : Nat) (current snapshot : Nat → UInt8) (offset : Nat)
    (p : SysvPublication) (hlen : p.io.segLen segId = some n) (hin : size ≤ n) (hfit : n < 2 ^ 32) (hok : p.success) :
    Published segId current snapshot offset size p (publishSysvRuns segId size current snapshot offset p) := by
  -- one chunk, whether it is looked into or skipped
  have hchunk : ∀ (p : SysvPublication) (offset chunk : Nat), p.io.segLen segId = some n → offset + chunk ≤ size →
      Published segId current snapshot offset (offset + chunk) p
        (if rangeDiffersFromSnapshot chunk (fun k => current (offset + k)) (fun k => snapshot (offset + k)) then
          publishSysvChunk segId offset chunk (fun k => current (offset + k)) (fun k => snapshot (offset + k)) 0 p
        else p) := by
    intro p offset chunk hlen hle
    split_ifs with hsame
    · exact publishSysvChunk_published segId offset chunk _ _ 0 p (fun _ => rfl) (fun _ => rfl) hlen (by omega) hfit
        (Nat.zero_le _)
    refine .of_same p fun i hi hi' => ?_
    by_contra hne
    refine hsame (rangeDiffers_iff.mpr ⟨i - offset, by omega, ?_⟩)
    rwa [show offset + (i - offset) = i by omega]
  fun_induction publishSysvRuns segId size current snapshot offset p with
  | case1 offset p h chunk src snap p' hp' ih =>
    have hfirst : Published segId current snapshot offset (offset + chunk) p p' := hchunk p offset chunk hlen (by omega)
    have hrest := ih ((hfirst.poured.len segId).trans hlen) (hfirst.success.trans hok)
    by_cases hle : filePageSize ≤ size - offset
    · have hc : offset + chunk = offset + filePageSize := by omega
      rw [hc] at hfirst
      exact hfirst.trans hrest (by omega) (by omega)
    -- the last chunk is shorter than a page
    have hc : offset + chunk = size := by omega
    rw [hc] at hfirst
    exact hfirst.trans (hrest.of_empty (by omega)) (by omega) (Nat.le_refl _)
  | case2 offset p h chunk src snap p' hp' =>
    have hfirst : Published segId current snapshot offset (offset + chunk) p p' := hchunk p offset chunk hlen (by omega)
    exact absurd (hfirst.success.trans hok) hp'
  | case3 offset p h => exact .of_same p fun i hle hlt => by omega

/-! ## One merge -/

/-- The segment with an attachment's changes. -/
def mergedByte (m : SysvShmMapping) (pid : UInt32) (addr : Nat) (io : Io) : Nat → UInt8 :=
  if m.readOnly then io.segByte m.segId
  else overlay 0 m.size (fun k => io.memory pid (addr + k)) m.snapshot (io.segByte m.segId)

/-- The attachment has something to publish. -/
def Differs (m : SysvShmMapping) (pid : UInt32) (addr : Nat) (io : Io) : Prop :=
  m.readOnly = false ∧ ∃ k, k < m.size ∧ io.memory pid (addr + k) ≠ m.snapshot k

variable {m : SysvShmMapping} {io : Io}

theorem mergedByte_of_same {pid : UInt32} {addr : Nat} (h : ¬Differs m pid addr io) :
    mergedByte m pid addr io = io.segByte m.segId := by
  simp only [mergedByte]
  split_ifs with hwritable
  · rfl
  refine overlay_of_same (fun k _ hk => ?_) _
  by_contra hne
  exact h ⟨by simpa using hwritable, k, hk, hne⟩

/-- The table once a segment has been published to, if it has. -/
structure Bumped (t t' : SharedMappingTable) (segId : Int) (changed : Prop) : Prop where
  rest : t' = { t with sysvVersions := t'.sysvVersions }
  other : ∀ s, s ≠ segId → t'.sysvSegmentVersion s = t.sysvSegmentVersion s
  moved : changed → t'.sysvSegmentVersion segId = t.sysvSegmentVersion segId + 1
  still : ¬changed → t'.sysvVersions = t.sysvVersions

/-- The environment once an attachment has been published: the segment has its
changes, and the process's memory has changed in the attached range at most. -/
structure Exchanged (m : SysvShmMapping) (pid : UInt32) (addr : Nat) (io io' : Io) : Prop where
  rest : ∃ n, io' = { io with used := n, shm := io'.shm, memory := io'.memory }
  other : ∀ s, s ≠ m.segId → io'.shm s = io.shm s
  len : ∀ s, io'.segLen s = io.segLen s
  segment : io'.segByte m.segId = mergedByte m pid addr io
  memory : ∀ p i, ¬(p = pid ∧ addr ≤ i ∧ i < addr + m.size) → io'.memory p i = io.memory p i

/-- The segment covers what is attached. -/
def Covered (m : SysvShmMapping) (io : Io) : Prop := 0 < m.size → ∃ n, io.segLen m.segId = some n ∧ m.size ≤ n

/-- How a merge ends. -/
inductive MergeOutcome (t : SharedMappingTable) (pid : UInt32) (addr : Nat) (io : Io) (m : SysvShmMapping) :
    Bool × SharedMappingTable × Io → Prop
  /-- It could not start, or there is nothing to do. -/
  | idle (ok : Bool) (io' : Io) (asked : io.Asked io')
      (why : ok → ¬Differs m pid addr io ∧ m.seenVersion = t.sysvSegmentVersion m.segId)
      (blame : ok = false → Covered m io → ¬io.Reliable) :
      MergeOutcome t pid addr io m (ok, t, io')
  /-- The segment took the changes, and the process's memory could not be written. -/
  | refused (t' : SharedMappingTable) (io' : Io) (bumped : Bumped t t' m.segId (Differs m pid addr io))
      (exchanged : Exchanged m pid addr io io') (blame : ¬io.Reaches) : MergeOutcome t pid addr io m (false, t', io')
  | merged (t' : SharedMappingTable) (io' : Io) (snapshot : Nat → UInt8)
      (bumped : Bumped t t' m.segId (Differs m pid addr io)) (exchanged : Exchanged m pid addr io io')
      (copied : ∀ k, k < m.size → io'.memory pid (addr + k) = mergedByte m pid addr io k ∧ snapshot k = mergedByte m pid addr io k) :
      MergeOutcome t pid addr io m (true, t'.setSysvMapping pid addr { m with
        snapshot := snapshot, seenVersion := t'.sysvSegmentVersion m.segId }, io')

/-- The publication a merge makes, from the bytes it has read. -/
theorem publication_spec (m : SysvShmMapping) (pid : UInt32) (addr : Nat) {authoritative : Nat → UInt8}
    {locallyChanged : Bool} (hfits : ∀ s n, io.segLen s = some n → n < 2 ^ 32)
    (hlocal : locallyChanged ↔ Differs m pid addr io) (hread : io.shmRead m.segId 0 m.size = .ok authoritative) :
    let start : SysvPublication := ⟨true, false, authoritative, io⟩
    let p := if locallyChanged then
        publishSysvRuns m.segId m.size (fun k => io.memory pid (addr + k)) m.snapshot 0 start
      else start
    p.success ∧ io.Poured m.segId p.io ∧ p.io.segByte m.segId = mergedByte m pid addr io ∧
      (∀ k, k < m.size → p.authoritative k = mergedByte m pid addr io k) ∧
      (p.published ↔ Differs m pid addr io) := by
  have hauth : ∀ k, k < m.size → authoritative k = io.segByte m.segId k := fun k hk =>
    (Io.shmRead_ok hread (by omega)).2 k
  split_ifs with hchanged
  · have hdiff := hlocal.mp hchanged
    obtain ⟨hwritable, k, hk, _⟩ := id hdiff
    obtain ⟨⟨n, hlen, hle⟩, _⟩ := Io.shmRead_ok hread (by omega)
    have hpub := publishSysvRuns_published m.segId m.size (fun k => io.memory pid (addr + k)) m.snapshot 0
      ⟨true, false, authoritative, io⟩ hlen hle (hfits _ _ hlen) rfl
    have hmerged : mergedByte m pid addr io = overlay 0 m.size (fun k => io.memory pid (addr + k)) m.snapshot (io.segByte m.segId) := by
      simp [mergedByte, hwritable]
    refine ⟨hpub.success, hpub.poured, hpub.segment.trans hmerged.symm, fun k hk => ?_, fun _ => hdiff, fun _ => ?_⟩
    · rw [hpub.authoritative, hmerged]
      simp [overlay, hauth k hk]
    · obtain ⟨_, k, hk, hne⟩ := hdiff
      exact hpub.published.mpr (.inr ⟨k, Nat.zero_le k, hk, hne⟩)
  · have hsame := mergedByte_of_same fun hdiff => hchanged (hlocal.mpr hdiff)
    refine ⟨rfl, .refl _ _, hsame.symm, fun k hk => ?_, nofun, fun hdiff => absurd (hlocal.mpr hdiff) hchanged⟩
    rw [hsame]
    exact hauth k hk

/-- The same bytes and memory merge to the same. -/
theorem mergedByte_congr {io' : Io} (h : io.Asked io') (pid : UInt32) (addr : Nat) :
    mergedByte m pid addr io' = mergedByte m pid addr io ∧ (Differs m pid addr io' ↔ Differs m pid addr io) := by
  obtain ⟨_, rfl⟩ := h
  exact ⟨rfl, Iff.rfl⟩

theorem bumped_of_published (t : SharedMappingTable) (segId : Int) {published : Bool} {changed : Prop} (h : published ↔ changed) :
    Bumped t (if published then { t with sysvVersions := t.sysvVersions.insert segId (t.sysvSegmentVersion segId + 1) }
      else t) segId changed := by
  split_ifs with hp
  · refine ⟨rfl, fun s hs => ?_, fun _ => ?_, fun hn => absurd (h.mp hp) hn⟩
    · simp [sysvSegmentVersion, OrdMap.get?_insert, if_neg hs]
    · simp [sysvSegmentVersion]
  · exact ⟨rfl, fun _ _ => rfl, fun hc => absurd (h.mpr hc) hp, fun _ => rfl⟩

theorem mergeAndRefresh_outcome {t : SharedMappingTable} {pid : UInt32} {addr : Nat}
    (hm : t.sysvMapping pid addr = some m) (hfits : ∀ s n, io.segLen s = some n → n < 2 ^ 32) :
    MergeOutcome t pid addr io m (t.mergeAndRefreshSysvMapping pid addr io) := by
  have ha := io.asked_alloc
  have hr : Io.Asked io (io.alloc.2.readProcess pid addr).2 := ha.trans ⟨_, rfl⟩
  have hb := hr.trans (Io.asked_alloc _)
  simp only [mergeAndRefreshSysvMapping, hm]
  split
  · rename_i hroom
    exact .idle false _ ha (absurd · Bool.false_ne_true) fun _ _ hrel => by
      rw [show io.alloc.1 = true from (hrel _).1] at hroom
      cases hroom
  split
  · rename_i e he
    refine .idle false _ hr (absurd · Bool.false_ne_true) fun _ _ hrel => ?_
    simp only [Io.readProcess, Io.next, Io.alloc, (hrel _).2] at he
    cases he
  rename_i current hcurrent
  have hcur : current = fun k => io.memory pid (addr + k) := by
    rw [Io.readProcess_ok hcurrent, ha.memory]
  have hlocal : (!m.readOnly && rangeDiffersFromSnapshot m.size current m.snapshot) ↔ Differs m pid addr io := by
    rw [Bool.and_eq_true, Bool.not_eq_true', rangeDiffers_iff, hcur, Differs]
  split
  · rename_i hidle
    refine .idle true _ hr (fun _ => ?_) fun h => absurd h.symm Bool.false_ne_true
    rw [Bool.and_eq_true, beq_iff_eq] at hidle
    refine ⟨fun hdiff => ?_, hidle.2⟩
    rw [hlocal.mpr hdiff] at hidle
    cases hidle.1
  split
  · rename_i hroom
    exact .idle false _ hb (absurd · Bool.false_ne_true) fun _ _ hrel => by
      rw [show (io.alloc.2.readProcess pid addr).2.alloc.1 = true from (hrel _).1] at hroom
      cases hroom
  split
  · rename_i e he
    exact .idle false _ hb (absurd · Bool.false_ne_true) fun _ hcov _ => absurd he (Io.shmRead_covered (fun hpos => by
      exact hcov hpos) e)
  rename_i authoritative hread
  obtain ⟨hmerged, hdiffers⟩ := mergedByte_congr (m := m) hb pid addr
  have hspec := publication_spec m pid addr (fun s n h => hfits s n (by rwa [Io.segLen, hb.shm] at h))
    (hlocal.trans hdiffers.symm) hread
  dsimp only at hspec
  rw [hb.memory, ← hcur] at hspec
  generalize (if (!m.readOnly && rangeDiffersFromSnapshot m.size current m.snapshot) then
    publishSysvRuns m.segId m.size current m.snapshot 0 ⟨true, false, authoritative, _⟩ else _) = p at hspec ⊢
  obtain ⟨hsuccess, hpoured, hsegment, hauth, hpublished⟩ := hspec
  have hbump := bumped_of_published t m.segId (hpublished.trans hdiffers)
  have hexchanged : Exchanged m pid addr io (p.io.writeProcess pid addr m.size p.authoritative).2 := by
    have hshm : (p.io.writeProcess pid addr m.size p.authoritative).2.shm = p.io.shm := rfl
    obtain ⟨n, hn⟩ := hb
    refine ⟨⟨p.io.used + 1, ?_⟩, fun s hs => ?_, fun s => ?_, ?_, fun q i hi => ?_⟩
    · rw [Io.writeProcess_rest, hpoured.rest, hn]
    · rw [hshm, hpoured.other s hs, hn]
    · exact (hpoured.len s).trans (by rw [hn]; rfl)
    · funext k
      rw [Io.segByte, hshm, ← Io.segByte, hsegment, hmerged]
    · rw [Io.writeProcess_outside _ _ _ _ _ hi, hpoured.rest, hn]
  split
  · rename_i e he
    refine .refused _ _ hbump hexchanged fun hrel => ?_
    have : (p.io.writeProcess pid addr m.size p.authoritative).1 = .ok () := by
      change (p.io.answers p.io.used).access = .ok ()
      rw [hpoured.answers]
      exact hrel _
    rw [this] at he
    cases he
  · rename_i hok
    rw [hsuccess]
    refine .merged _ _ p.authoritative hbump hexchanged fun k hk => ?_
    rw [Io.writeProcess_ok _ _ _ _ _ hok hk, hauth k hk]
    exact ⟨rfl, rfl⟩

end SharedMappingTable

end Kandelo.Shared

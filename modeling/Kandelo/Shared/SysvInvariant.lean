/-
What holds of the attachments of SysV segments after any calls and whatever the
host refuses: an attachment has seen no version later than the segment's, and one
that has seen the segment's version has a snapshot that is the segment.

The second half is what the shortcuts rest on: an attachment that is current and
unchanged is left alone.
-/
import Kandelo.Lib.Machine
import Kandelo.Shared.SysvMerge

namespace Kandelo.Shared

open OrdMap Option

namespace SharedMappingTable

/-! ## Looking attachments up -/

theorem sysvMapping_set (t : SharedMappingTable) (pid : UInt32) (addr : Nat) (m : SysvShmMapping) (p : UInt32) (a : Nat) :
    (t.setSysvMapping pid addr m).sysvMapping p a = if p = pid ∧ a = addr then some m else t.sysvMapping p a := by
  simp only [sysvMapping, setSysvMapping, get?_insert]
  by_cases hp : p = pid
  · subst hp
    simp only [if_true, bind_some, get?_insert, true_and]
    split
    · rfl
    · cases t.sysv.get? p <;> rfl
  · simp [hp]

variable {t : SharedMappingTable} {pid : UInt32} {addr : Nat}

theorem mem_sysvAddrs : addr ∈ t.sysvAddrs pid ↔ ∃ m, t.sysvMapping pid addr = some m := by
  simp only [sysvAddrs, sysvMapping]
  cases t.sysv.get? pid with
  | none => simp
  | some entries =>
    simp only [map_some, getD_some, bind_some]
    rw [← isSome_get?_iff, isSome_iff_exists]

/-- A search through every attachment. -/
theorem any_sysv {f : UInt32 → Nat → SysvShmMapping → Bool} : (t.sysv.entries.any fun p => p.2.entries.any fun e => f p.1 e.1 e.2) ↔
      ∃ pid addr m, t.sysvMapping pid addr = some m ∧ f pid addr m := by
  simp only [List.any_eq_true, Prod.exists, mem_entries_iff, sysvMapping, bind_eq_some_iff]
  constructor
  · rintro ⟨pid, entries, hp, addr, m, hm, hf⟩
    exact ⟨pid, addr, m, ⟨entries, hp, hm⟩, hf⟩
  · rintro ⟨pid, addr, m, ⟨entries, hp, hm⟩, hf⟩
    exact ⟨pid, entries, hp, addr, m, hm, hf⟩

theorem hasPeer_iff {segId : Int} : t.hasPeerSysvMapping pid addr segId ↔
      ∃ p a m, t.sysvMapping p a = some m ∧ m.segId = segId ∧ ¬(p = pid ∧ a = addr) := by
  rw [hasPeerSysvMapping, any_sysv (f := fun p a m => m.segId == segId && !(p == pid && a == addr))]
  simp only [Bool.and_eq_true, beq_iff_eq, Bool.not_eq_true', Bool.and_eq_false_iff, beq_eq_false_iff_ne, Decidable.not_and_iff_or_not]

/-- Forgetting the version of a segment nobody is attached to changes none that
counts. -/
theorem reclaim_spec (t : SharedMappingTable) (segId : Int) :
    (t.reclaimSysvVersion segId).sysv = t.sysv ∧ ∀ p a m, t.sysvMapping p a = some m →
      (t.reclaimSysvVersion segId).sysvSegmentVersion m.segId = t.sysvSegmentVersion m.segId := by
  simp only [reclaimSysvVersion]
  split_ifs with hnone
  · exact ⟨rfl, fun _ _ _ _ => rfl⟩
  refine ⟨rfl, fun p a m hm => ?_⟩
  have hne : m.segId ≠ segId := by
    intro heq
    exact hnone ((any_sysv (f := fun _ _ m => m.segId == segId)).mpr ⟨p, a, m, hm, by simp [heq]⟩)
  simp [sysvSegmentVersion, get?_erase, if_neg hne]

theorem sysvMapping_of_sysv {t' : SharedMappingTable} (h : t'.sysv = t.sysv) (p : UInt32) (a : Nat) :
    t'.sysvMapping p a = t.sysvMapping p a := by
  simp [sysvMapping, h]

section

variable (t : SharedMappingTable)

theorem drop_spec (pid : UInt32) (addr : Nat) : (∀ p a, (t.dropSysvMapping pid addr).2.sysvMapping p a =
      if p = pid ∧ a = addr then none else t.sysvMapping p a) ∧ ∀ p a m, (t.dropSysvMapping pid addr).2.sysvMapping p a = some m →
      (t.dropSysvMapping pid addr).2.sysvSegmentVersion m.segId = t.sysvSegmentVersion m.segId := by
  cases hpid : t.sysv.get? pid with
  | none =>
    simp only [dropSysvMapping, hpid]
    refine ⟨fun p a => ?_, fun _ _ _ _ => trivial⟩
    split_ifs with h
    · simp [sysvMapping, h.1, hpid]
    · rfl
  | some entries =>
    -- the entry is gone, and with the last one the process
    have hget : ∀ (v : OrdMap Int Nat) p a, sysvMapping { t with
        sysv := if (entries.erase addr).entries.isEmpty then t.sysv.erase pid else t.sysv.insert pid (entries.erase addr)
        sysvVersions := v } p a = if p = pid ∧ a = addr then none else t.sysvMapping p a := by
      intro v p a
      simp only [sysvMapping]
      by_cases hp : p = pid
      · subst hp
        simp only [true_and, hpid, bind_some]
        split
        · rename_i hempty
          have hnone : (entries.erase addr).get? a = none := by
            rw [OrdMap.get?, List.isEmpty_iff.mp hempty]
            rfl
          rw [get?_erase] at hnone
          rw [get?_erase, if_pos rfl]
          exact hnone.symm
        · rw [get?_insert_self, bind_some, get?_erase]
      · simp only [hp, false_and, if_false]
        split
        · rw [get?_erase, if_neg hp]
        · rw [get?_insert, if_neg hp]
    cases hm : entries.get? addr with
    | none =>
      simp only [dropSysvMapping, hpid, hm]
      exact ⟨hget _, fun _ _ _ _ => rfl⟩
    | some m =>
      simp only [dropSysvMapping, hpid, hm]
      obtain ⟨hsysv, hversion⟩ := reclaim_spec { t with
        sysv := if (entries.erase addr).entries.isEmpty then t.sysv.erase pid
          else t.sysv.insert pid (entries.erase addr) } m.segId
      refine ⟨fun p a => ?_, fun p a m' hm' => ?_⟩
      · rw [sysvMapping_of_sysv hsysv]
        exact hget _ p a
      · rw [sysvMapping_of_sysv hsysv] at hm'
        exact hversion p a m' hm'

theorem reclaimAll_spec (l : List SysvShmMapping) (t : SharedMappingTable) :
    (l.foldl (fun t m => t.reclaimSysvVersion m.segId) t).sysv = t.sysv ∧ ∀ p a m, t.sysvMapping p a = some m →
      (l.foldl (fun t m => t.reclaimSysvVersion m.segId) t).sysvSegmentVersion m.segId = t.sysvSegmentVersion m.segId := by
  induction l generalizing t with
  | nil => exact ⟨rfl, fun _ _ _ _ => rfl⟩
  | cons x l ih =>
    obtain ⟨hsysv, hversion⟩ := reclaim_spec t x.segId
    obtain ⟨hsysv', hversion'⟩ := ih (t.reclaimSysvVersion x.segId)
    refine ⟨hsysv'.trans hsysv, fun p a m hm => ?_⟩
    exact (hversion' p a m (by rw [sysvMapping_of_sysv hsysv]; exact hm)).trans (hversion p a m hm)

/-- A process's attachments, published or not, are dropped. -/
theorem release_spec (pid : UInt32) (publish : Bool) (io : Io) :
    let r := if publish then (t.syncSysvFromProcess pid true io).2 else (t, io)
    let r' := t.releaseAllSysvForProcess pid publish io
    r'.2 = r.2 ∧ (∀ p a, r'.1.sysvMapping p a = if p = pid then none else r.1.sysvMapping p a) ∧
      ∀ p a m, r'.1.sysvMapping p a = some m → r'.1.sysvSegmentVersion m.segId = r.1.sysvSegmentVersion m.segId := by
  simp only [releaseAllSysvForProcess]
  generalize (if publish then (t.syncSysvFromProcess pid true io).2 else (t, io)) = r
  split
  · rename_i hpid
    refine ⟨rfl, fun p a => ?_, fun _ _ _ _ => rfl⟩
    split_ifs with h
    · simp [sysvMapping, h, hpid]
    · rfl
  rename_i removed hpid
  obtain ⟨hsysv, hversion⟩ := reclaimAll_spec removed.values { r.1 with sysv := r.1.sysv.erase pid }
  refine ⟨rfl, fun p a => ?_, fun p a m hm => ?_⟩
  · rw [sysvMapping_of_sysv hsysv]
    simp only [sysvMapping, get?_erase]
    split <;> rfl
  · rw [sysvMapping_of_sysv hsysv] at hm
    exact hversion p a m hm

/-- The environment after a write to a process: some of its memory in the range
may have changed, and nothing else. -/
structure Rewritten (pid : UInt32) (addr size : Nat) (io io' : Io) : Prop where
  rest : ∃ n, io' = { io with used := n, memory := io'.memory }
  outside : ∀ p i, ¬(p = pid ∧ addr ≤ i ∧ i < addr + size) → io'.memory p i = io.memory p i

/-- How attaching ends. -/
inductive TrackOutcome (t : SharedMappingTable) (pid : UInt32) (addr : Nat) (segId : Int) (size : Nat) (readOnly : Bool)
    (io : Io) : Except Errno Unit × SharedMappingTable × Io → Prop
  | stopped (e : Errno) (io' : Io) (asked : io.Asked io') : TrackOutcome t pid addr segId size readOnly io (.error e, t, io')
  /-- The process's memory could not be written. -/
  | refused (e : Errno) (io' : Io) (rewritten : Rewritten pid addr size io io') (blame : ¬io.Reaches) :
      TrackOutcome t pid addr segId size readOnly io (.error e, t, io')
  /-- A new attachment starts from the segment. -/
  | attached (t' : SharedMappingTable) (io' : Io) (snapshot : Nat → UInt8) (free : t.sysvMapping pid addr = none)
      (sysv : t'.sysv = t.sysv) (version : ∀ s, t'.sysvSegmentVersion s = t.sysvSegmentVersion s)
      (rewritten : Rewritten pid addr size io io') (covered : 0 < size → ∃ n, io.segLen segId = some n ∧ size ≤ n)
      (copied : ∀ k, k < size → io'.memory pid (addr + k) = io.segByte segId k ∧ snapshot k = io.segByte segId k) :
      TrackOutcome t pid addr segId size readOnly io
        (.ok (), t'.setSysvMapping pid addr ⟨segId, size, readOnly, snapshot, t.sysvSegmentVersion segId⟩, io')

/-- An entry that may already be there is asked for at most once. -/
theorem asked_unless (b : Bool) (io : Io) : io.Asked (if b then (true, io) else io.alloc).2 := by
  cases b with
  | true => exact .refl io
  | false => exact io.asked_alloc

theorem track_outcome (pid : UInt32) (addr : Nat) (segId : Int) (size : Nat) (readOnly : Bool)
    (io : Io) : TrackOutcome t pid addr segId size readOnly io (t.trackSysvMapping pid addr segId size readOnly io) := by
  have hv := asked_unless (t.sysvVersions.contains segId) io
  simp only [trackSysvMapping]
  split
  · exact .stopped _ _ (.refl io)
  rename_i hfree
  generalize (if t.sysvVersions.contains segId then (true, io) else io.alloc) = v at hv ⊢
  have ha := hv.trans (Io.asked_alloc _)
  have hp := ha.trans (asked_unless (t.sysv.contains pid) _)
  split
  · exact .stopped _ _ hv
  split
  · exact .stopped _ _ ha
  split
  · exact .stopped _ _ ha
  rename_i snapshot hread
  generalize (if t.sysv.contains pid then (true, v.2.alloc.2) else v.2.alloc.2.alloc) = p at hp ⊢
  have he := hp.trans (Io.asked_alloc _)
  split
  · exact .stopped _ _ hp
  split
  · exact .stopped _ _ he
  have hrewritten : Rewritten pid addr size io (p.2.alloc.2.writeProcess pid addr size snapshot).2 := by
    refine ⟨?_, fun q i hi => ?_⟩
    · rw [Io.writeProcess_rest]
      obtain ⟨n, hn⟩ := he
      exact ⟨p.2.alloc.2.used + 1, by rw [hn]⟩
    · rw [Io.writeProcess_outside _ _ _ _ _ hi, he.memory]
  split
  · rename_i e hrefused
    refine .refused _ _ hrewritten fun hrel => ?_
    have hok : (p.2.alloc.2.writeProcess pid addr size snapshot).1 = .ok () := by
      change (p.2.alloc.2.answers p.2.alloc.2.used).access = .ok ()
      rw [he.answers]
      exact hrel _
    rw [hok] at hrefused
    cases hrefused
  rename_i hok
  have hseg : ∀ {io' : Io}, io.Asked io' → io'.segByte = io.segByte ∧ io'.segLen = io.segLen := by
    intro io' h
    obtain ⟨_, rfl⟩ := h
    exact ⟨rfl, rfl⟩
  obtain ⟨hbyte, hlen⟩ := hseg ha
  refine .attached _ _ snapshot ?_ ?_ (fun s => ?_) hrewritten (fun hpos => ?_) fun k hk => ?_
  · simpa using hfree
  · split <;> rfl
  · split_ifs with hnew
    · rfl
    simp only [sysvSegmentVersion, get?_insert]
    split_ifs with hs
    · rw [hs, getD_some, show t.sysvVersions.get? segId = none by
        simpa only [OrdMap.contains, not_isSome_iff_eq_none] using hnew, getD_none]
    · rfl
  · have := (Io.shmRead_ok hread hpos).1
    rwa [hlen] at this
  · rw [Io.writeProcess_ok _ _ _ _ _ hok hk, (Io.shmRead_ok hread (by omega)).2 k, hbyte]
    exact ⟨rfl, rfl⟩

end

/-! ## The invariant -/

structure SysvInv (s : SharedMappingTable × Io) : Prop where
  fits : ∀ seg n, s.2.segLen seg = some n → n < 2 ^ 32
  covered : ∀ pid addr m, s.1.sysvMapping pid addr = some m → Covered m s.2
  seen : ∀ pid addr m, s.1.sysvMapping pid addr = some m → m.seenVersion ≤ s.1.sysvSegmentVersion m.segId
  current : ∀ pid addr m, s.1.sysvMapping pid addr = some m → m.seenVersion = s.1.sysvSegmentVersion m.segId →
    ∀ k, k < m.size → m.snapshot k = s.2.segByte m.segId k

variable {s : SharedMappingTable × Io}

/-- Attachments may go, and memories change, as long as the segments stay. -/
theorem SysvInv.mono {s' : SharedMappingTable × Io} (h : SysvInv s) (hshm : s'.2.shm = s.2.shm)
    (hsub : ∀ p a m, s'.1.sysvMapping p a = some m →
      s.1.sysvMapping p a = some m ∧ s'.1.sysvSegmentVersion m.segId = s.1.sysvSegmentVersion m.segId) : SysvInv s' where
  fits := fun seg n hn => h.fits seg n (by rwa [Io.segLen, hshm] at hn)
  covered := fun p a m hm hpos => by
    rw [Io.segLen, hshm]
    exact h.covered p a m (hsub p a m hm).1 hpos
  seen := fun p a m hm => by
    rw [(hsub p a m hm).2]
    exact h.seen p a m (hsub p a m hm).1
  current := fun p a m hm hseen k hk => by
    rw [(hsub p a m hm).2] at hseen
    rw [h.current p a m (hsub p a m hm).1 hseen k hk, Io.segByte, Io.segByte, hshm]

variable {io : Io}

theorem SysvInv.set (h : SysvInv (t, io)) (pid : UInt32) (addr : Nat)
    {m : SysvShmMapping} (hcov : Covered m io) (hseen : m.seenVersion ≤ t.sysvSegmentVersion m.segId)
    (hsnap : ∀ k, k < m.size → m.snapshot k = io.segByte m.segId k) : SysvInv (t.setSysvMapping pid addr m, io) := by
  refine ⟨h.fits, fun p a m' hm' => ?_, fun p a m' hm' => ?_, fun p a m' hm' hseen' => ?_⟩
  all_goals
    rw [sysvMapping_set] at hm'
    split at hm'
  · cases hm'
    exact hcov
  · exact h.covered p a m' hm'
  · cases hm'
    exact hseen
  · exact h.seen p a m' hm'
  · cases hm'
    exact hsnap
  · exact h.current p a m' hm' hseen'

/-- Once a segment has been published to, nobody that has seen the old version
counts as current. -/
theorem SysvInv.exchanged {t' : SharedMappingTable} {io' : Io} (h : SysvInv (t, io))
    {m : SysvShmMapping} (hbump : Bumped t t' m.segId (Differs m pid addr io)) (hex : Exchanged m pid addr io io') :
    SysvInv (t', io') := by
  have hget : ∀ p a, t'.sysvMapping p a = t.sysvMapping p a := sysvMapping_of_sysv (by rw [hbump.rest])
  have hversion : ∀ seg, t'.sysvSegmentVersion seg = t.sysvSegmentVersion seg ∧ io'.segByte seg = io.segByte seg ∨
      t'.sysvSegmentVersion seg = t.sysvSegmentVersion seg + 1 := by
    intro seg
    by_cases hseg : seg = m.segId
    · subst hseg
      by_cases hdiff : Differs m pid addr io
      · exact .inr (hbump.moved hdiff)
      · refine .inl ⟨?_, hex.segment.trans (mergedByte_of_same hdiff)⟩
        rw [sysvSegmentVersion, hbump.still hdiff, ← sysvSegmentVersion]
    · refine .inl ⟨hbump.other seg hseg, ?_⟩
      funext k
      rw [Io.segByte, hex.other seg hseg, ← Io.segByte]
  refine ⟨fun seg n hn => h.fits seg n ((hex.len seg).symm.trans hn), fun p a m' hm' hpos => ?_, fun p a m' hm' => ?_,
    fun p a m' hm' hseen k hk => ?_⟩
  all_goals rw [hget] at hm'
  · rw [hex.len]
    exact h.covered p a m' hm' hpos
  · have hle : m'.seenVersion ≤ t.sysvSegmentVersion m'.segId := h.seen p a m' hm'
    change m'.seenVersion ≤ t'.sysvSegmentVersion m'.segId
    rcases hversion m'.segId with ⟨hv, _⟩ | hv <;> omega
  have hle : m'.seenVersion ≤ t.sysvSegmentVersion m'.segId := h.seen p a m' hm'
  change m'.seenVersion = t'.sysvSegmentVersion m'.segId at hseen
  rcases hversion m'.segId with ⟨hv, hbyte⟩ | hv
  · rw [hbyte]
    exact h.current p a m' hm' (hseen.trans hv) k hk
  · omega

theorem SysvInv.merge (h : SysvInv (t, io)) (pid : UInt32) (addr : Nat) : SysvInv (t.mergeAndRefreshSysvMapping pid addr io).2 := by
  cases hm : t.sysvMapping pid addr with
  | none =>
    simp only [mergeAndRefreshSysvMapping, hm]
    exact h
  | some m =>
    have hout := mergeAndRefresh_outcome hm h.fits
    generalize t.mergeAndRefreshSysvMapping pid addr io = r at hout ⊢
    cases hout with
    | idle ok io' asked => exact h.mono asked.shm fun _ _ _ hm => ⟨hm, rfl⟩
    | refused t' io' bumped exchanged => exact h.exchanged bumped exchanged
    | merged t' io' snapshot bumped exchanged copied =>
      refine (h.exchanged bumped exchanged).set pid addr (fun hpos => ?_) (Nat.le_refl _) fun k hk => ?_
      · rw [exchanged.len]
        exact h.covered pid addr m hm hpos
      · exact (copied k hk).2.trans (congrFun exchanged.segment k).symm

theorem SysvInv.track (h : SysvInv (t, io)) (pid : UInt32) (addr : Nat) (segId : Int)
    (size : Nat) (readOnly : Bool) : SysvInv (t.trackSysvMapping pid addr segId size readOnly io).2 := by
  have hout := track_outcome t pid addr segId size readOnly io
  generalize t.trackSysvMapping pid addr segId size readOnly io = r at hout ⊢
  have hshm : ∀ {io'}, Rewritten pid addr size io io' → io'.shm = io.shm := by
    intro io' hre
    obtain ⟨_, hn⟩ := hre.rest
    rw [hn]
  cases hout with
  | stopped e io' asked => exact h.mono asked.shm fun _ _ _ hm => ⟨hm, rfl⟩
  | refused e io' rewritten => exact h.mono (hshm rewritten) fun _ _ _ hm => ⟨hm, rfl⟩
  | attached t' io' snapshot free sysv version rewritten covered copied =>
    have hbase : SysvInv (t', io') := h.mono (hshm rewritten) fun p a m hm =>
      ⟨(sysvMapping_of_sysv sysv p a).symm.trans hm, version m.segId⟩
    refine hbase.set pid addr (fun hpos => ?_) (Nat.le_of_eq (version segId).symm) fun k hk => ?_
    · rw [Io.segLen, hshm rewritten]
      exact covered hpos
    · rw [Io.segByte, hshm rewritten]
      exact (copied k hk).2

/-! ## Synchronising several attachments

What every merge keeps, a synchronisation keeps. -/

section Rules

variable {P : SharedMappingTable × Io → Prop}
  (hstep : ∀ t io pid addr, P (t, io) → P (mergeAndRefreshSysvMapping t pid addr io).2)
include hstep

theorem syncSysvAddrs_rule (pid : UInt32) (force : Bool) (addrs : List Nat) (success : Bool) (t : SharedMappingTable) (io : Io)
    (h : P (t, io)) : P (syncSysvAddrs pid force addrs success t io).2 := by
  induction addrs generalizing success t io with
  | nil => exact h
  | cons addr addrs ih =>
    simp only [syncSysvAddrs]
    iterate 2 (split; · exact ih success t io h)
    · exact ih _ _ _ (hstep t io pid addr h)

theorem syncSegmentAddrs_rule (segId : Int) (pid : UInt32) (addrs : List Nat) (t : SharedMappingTable) (io : Io)
    (h : P (t, io)) : P (syncSegmentAddrs segId pid addrs t io) := by
  induction addrs generalizing t io with
  | nil => exact h
  | cons addr addrs ih =>
    simp only [syncSegmentAddrs]
    split
    · exact ih t io h
    split
    · exact ih _ _ (hstep t io pid addr h)
    · exact ih t io h

theorem syncSegmentPids_rule (segId : Int) (pids : List UInt32) (t : SharedMappingTable) (io : Io) (h : P (t, io)) :
    P (syncSegmentPids segId pids t io) := by
  induction pids generalizing t io with
  | nil => exact h
  | cons pid pids ih => exact ih _ _ (syncSegmentAddrs_rule hstep segId pid _ t io h)

end Rules

/-! ## Runs -/

/-- What happens to attachments: a process stores into its memory, attaches,
detaches or goes, and attachments are synchronised. -/
inductive SysvCall
  | store (pid : UInt32) (addr len : Nat) (bytes : Nat → UInt8)
  | attach (pid : UInt32) (addr : Nat) (segId : Int) (size : Nat) (readOnly : Bool)
  | syncProcess (pid : UInt32) (force : Bool)
  | syncSegment (segId : Int)
  | syncMapping (pid : UInt32) (addr : Nat)
  | drop (pid : UInt32) (addr : Nat)
  | release (pid : UInt32) (publish : Bool)

def sysvCall (s : SharedMappingTable × Io) : SysvCall → Bool × (SharedMappingTable × Io)
  | .store pid addr len bytes => (true, s.1, s.2.store pid addr len bytes)
  | .attach pid addr segId size readOnly =>
    let r := s.1.trackSysvMapping pid addr segId size readOnly s.2
    (r.1.toBool, r.2)
  | .syncProcess pid force => s.1.syncSysvFromProcess pid force s.2
  | .syncSegment segId => (true, s.1.syncSysvSegmentFromAttached segId s.2)
  | .syncMapping pid addr => s.1.syncSysvMapping pid addr s.2
  | .drop pid addr =>
    let r := s.1.dropSysvMapping pid addr
    (r.1, r.2, s.2)
  | .release pid publish => (true, s.1.releaseAllSysvForProcess pid publish s.2)

/-- Nothing is attached yet, and the segments are what `shmget` makes. -/
def Unattached (s : SharedMappingTable × Io) : Prop :=
  (∀ pid addr, s.1.sysvMapping pid addr = none) ∧ ∀ seg n, s.2.segLen seg = some n → n < 2 ^ 32

theorem SysvInv.call (h : SysvInv s) (c : SysvCall) : SysvInv (sysvCall s c).2 := by
  have hmerge : ∀ t io pid addr, SysvInv (t, io) → SysvInv (mergeAndRefreshSysvMapping t pid addr io).2 :=
    fun _ _ pid addr h => h.merge pid addr
  cases c with
  | store pid addr len bytes => exact h.mono rfl fun _ _ _ hm => ⟨hm, rfl⟩
  | attach pid addr segId size readOnly => exact h.track pid addr segId size readOnly
  | syncProcess pid force => exact syncSysvAddrs_rule hmerge pid force _ true s.1 s.2 h
  | syncSegment segId => exact syncSegmentPids_rule hmerge segId _ s.1 s.2 h
  | syncMapping pid addr => exact h.merge pid addr
  | drop pid addr =>
    obtain ⟨hget, hversion⟩ := drop_spec s.1 pid addr
    refine h.mono rfl fun p a m hm => ⟨?_, hversion p a m hm⟩
    change (s.1.dropSysvMapping pid addr).2.sysvMapping p a = some m at hm
    rw [hget] at hm
    split at hm
    · cases hm
    · exact hm
  | release pid publish =>
    obtain ⟨hio, hget, hversion⟩ := release_spec s.1 pid publish s.2
    have hsync : SysvInv (if publish then (s.1.syncSysvFromProcess pid true s.2).2 else (s.1, s.2)) := by
      split
      · exact syncSysvAddrs_rule hmerge pid true _ true s.1 s.2 h
      · exact h
    refine hsync.mono (congrArg Io.shm hio) fun p a m hm => ⟨?_, hversion p a m hm⟩
    change (s.1.releaseAllSysvForProcess pid publish s.2).1.sysvMapping p a = some m at hm
    rw [hget] at hm
    split at hm
    · cases hm
    · exact hm

theorem SysvInv.of_reachable (h : Machine.Reachable Unattached sysvCall s) : SysvInv s :=
  h.invariant (I := SysvInv)
    (fun s hs => ⟨hs.2, fun p a m hm => by simp [hs.1] at hm, fun p a m hm => by simp [hs.1] at hm,
      fun p a m hm => by simp [hs.1] at hm⟩)
    fun _ c h => h.call c

end SharedMappingTable

end Kandelo.Shared

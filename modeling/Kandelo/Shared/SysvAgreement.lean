/-
The attachments of a SysV segment as copies kept in step by snapshots: a merge is
a synchronisation of `SnapshotMerge`, so that no update to a byte only one
attachment has changed is lost, and attachments that have all published and then
all refreshed hold the segment.

A merge writes the attached range of a process's memory, so this takes attachments
of one process that lie apart, as the address spaces they are placed in make them;
and a read-only attachment publishes nothing, so it is one nobody stores into.
-/
import Kandelo.Lib.SnapshotMerge
import Kandelo.Shared.SysvInvariant

namespace Kandelo.Shared.SharedMappingTable

open Machine Option

open SnapshotMerge (Held Quiet Agrees Follows pending sync syncAll)

/-- The segment and, for each attachment to it, its memory and its snapshot. -/
def observed (seg : Int) (s : SharedMappingTable × Io) : SnapshotMerge.Shared (UInt32 × Nat) Nat UInt8 where
  auth := s.2.segByte seg
  copy := fun i k =>
    match s.1.sysvMapping i.1 i.2 with
    | some m => if m.segId = seg ∧ k < m.size then some (s.2.memory i.1 (i.2 + k), m.snapshot k) else none
    | none => none

variable {s : SharedMappingTable × Io} {pid : UInt32} {seg : Int} {addr : Nat} {m : SysvShmMapping}

theorem observed_copy (hm : s.1.sysvMapping pid addr = some m) (k : Nat) : (observed seg s).copy (pid, addr) k =
      if m.segId = seg ∧ k < m.size then some (s.2.memory pid (addr + k), m.snapshot k) else none := by
  simp [observed, hm]

variable {i : UInt32 × Nat}

theorem observed_copy_none (h : s.1.sysvMapping i.1 i.2 = none) (k : Nat) : (observed seg s).copy i k = none := by
  simp [observed, h]

/-- An attachment that stays, with its memory, is observed as before. -/
theorem observed_copy_congr {t t' : SharedMappingTable} {io io' : Io} {k : Nat} (hget : t'.sysvMapping i.1 i.2 = t.sysvMapping i.1 i.2)
    (hmemory : ∀ m, t.sysvMapping i.1 i.2 = some m → m.segId = seg → k < m.size →
      io'.memory i.1 (i.2 + k) = io.memory i.1 (i.2 + k)) : (observed seg (t', io')).copy i k = (observed seg (t, io)).copy i k := by
  simp only [observed]
  rw [hget]
  cases hm : t.sysvMapping i.1 i.2 with
  | none => rfl
  | some m =>
    dsimp only
    split_ifs with hk
    · rw [hmemory m hm hk.1 hk.2]
    · rfl

/-- What of an attachment no synchronisation changes. -/
def shape (t : SharedMappingTable) (pid : UInt32) (addr : Nat) : Option (Int × Nat × Bool) :=
  (t.sysvMapping pid addr).map fun m => (m.segId, m.size, m.readOnly)

variable {t t' : SharedMappingTable}

theorem sysvMapping_of_shape {m' : SysvShmMapping}
    (h : shape t' pid addr = shape t pid addr) (hm' : t'.sysvMapping pid addr = some m') :
    ∃ m, t.sysvMapping pid addr = some m ∧ m.segId = m'.segId ∧ m.size = m'.size ∧ m.readOnly = m'.readOnly := by
  rw [shape, hm', map_some, shape, eq_comm, map_eq_some_iff] at h
  obtain ⟨m, hm, heq⟩ := h
  rw [Prod.mk.injEq, Prod.mk.injEq] at heq
  exact ⟨m, hm, heq⟩

theorem hasPeer_of_shape (h : ∀ p a, shape t' p a = shape t p a) (pid : UInt32) (addr : Nat)
    (seg : Int) : t'.hasPeerSysvMapping pid addr seg = t.hasPeerSysvMapping pid addr seg := by
  rw [Bool.eq_iff_iff, hasPeer_iff, hasPeer_iff]
  constructor
  · intro ⟨p, a, m, hm, hseg, hne⟩
    obtain ⟨m', hm', hseg', _⟩ := sysvMapping_of_shape (h p a) hm
    exact ⟨p, a, m', hm', hseg'.trans hseg, hne⟩
  intro ⟨p, a, m, hm, hseg, hne⟩
  obtain ⟨m', hm', hseg', _⟩ := sysvMapping_of_shape (h p a).symm hm
  exact ⟨p, a, m', hm', hseg'.trans hseg, hne⟩

/-- What the refinement rests on, beside the invariant. -/
structure Tidy (s : SharedMappingTable × Io) : Prop where
  inv : SysvInv s
  apart : ∀ pid a m a' m', s.1.sysvMapping pid a = some m → s.1.sysvMapping pid a' = some m' → a ≠ a' →
    ∀ k, k < m.size → ∀ k', k' < m'.size → a + k ≠ a' + k'
  still : ∀ pid a m, s.1.sysvMapping pid a = some m → m.readOnly → ∀ k, k < m.size → s.2.memory pid (a + k) = m.snapshot k
  reaches : s.2.Reaches

variable {io : Io}

theorem Tidy.asked {io' : Io} (h : Tidy (t, io)) (hasked : io.Asked io') : Tidy (t, io') := by
  obtain ⟨_, rfl⟩ := hasked
  exact ⟨h.inv.mono rfl fun _ _ _ hm => ⟨hm, rfl⟩, h.apart, h.still, h.reaches⟩

variable {k : Nat}

/-- Writing one attachment's range leaves the other attachments alone. -/
theorem Tidy.memory_other {io' : Io} (h : Tidy (t, io)) (hm : t.sysvMapping pid addr = some m)
    (hout : ∀ p i, ¬(p = pid ∧ addr ≤ i ∧ i < addr + m.size) → io'.memory p i = io.memory p i) {p : UInt32} {a : Nat}
    {m' : SysvShmMapping} (hm' : t.sysvMapping p a = some m') (hne : ¬(p = pid ∧ a = addr)) (hk : k < m'.size) :
    io'.memory p (a + k) = io.memory p (a + k) := by
  refine hout p (a + k) fun ⟨hp, hle, hlt⟩ => ?_
  subst hp
  exact h.apart p a m' addr m hm' hm (fun ha => hne ⟨rfl, ha⟩) k hk (a + k - addr) (by omega) (by omega)

/-- The segment after a merge is what the attachment publishes over it. -/
theorem Tidy.mergedByte_eq (h : Tidy (t, io)) (hm : t.sysvMapping pid addr = some m) (k : Nat) : mergedByte m pid addr io k =
      (pending ((observed m.segId (t, io)).copy (pid, addr) k)).getD (io.segByte m.segId k) := by
  rw [observed_copy hm]
  simp only [mergedByte, true_and]
  by_cases hk : k < m.size
  · rw [if_pos hk, pending]
    split
    · rename_i hro
      rw [if_pos (h.still pid addr m hm hro k hk), getD_none]
    simp only [overlay, hk, true_and, Nat.zero_le]
    by_cases heq : io.memory pid (addr + k) = m.snapshot k
    · rw [if_pos heq, if_neg fun hne => hne heq, getD_none]
    · rw [if_neg heq, if_pos heq, getD_some]
  · rw [if_neg hk, pending]
    split
    · rfl
    · simp [overlay, hk]

/-! ## Merges are synchronisations -/

/-- The attachments `is` synchronised in turn, whatever segment is looked at. -/
structure Synced (s s' : SharedMappingTable × Io) (is : List (UInt32 × Nat)) : Prop where
  tidy : Tidy s'
  sameShape : ∀ p a, shape s'.1 p a = shape s.1 p a
  answers : s'.2.answers = s.2.answers
  refines : ∀ seg, observed seg s' = syncAll (observed seg s) is

theorem Synced.refl (h : Tidy s) : Synced s s [] := ⟨h, fun _ _ => rfl, rfl, fun _ => rfl⟩

variable {is : List (UInt32 × Nat)}

theorem Synced.trans {s₁ s₂ : SharedMappingTable × Io} {js : List (UInt32 × Nat)} (h1 : Synced s s₁ is)
    (h2 : Synced s₁ s₂ js) : Synced s s₂ (is ++ js) where
  tidy := h2.tidy
  sameShape := fun p a => (h2.sameShape p a).trans (h1.sameShape p a)
  answers := h2.answers.trans h1.answers
  refines := fun seg => by rw [h2.refines, h1.refines, SnapshotMerge.syncAll_append]

/-- An attachment that is current and has nothing to publish agrees with its
segment already. -/
theorem Tidy.agrees (h : Tidy (t, io)) (hm : t.sysvMapping pid addr = some m) (hsame : ¬Differs m pid addr io)
    (hseen : m.seenVersion = t.sysvSegmentVersion m.segId) (seg : Int) : Agrees (observed seg (t, io)) (pid, addr) := by
  intro k c hc
  rw [observed_copy hm] at hc
  split at hc
  · rename_i hk
    cases hc
    have hsnap := h.inv.current pid addr m hm hseen k hk.2
    have hmem : io.memory pid (addr + k) = m.snapshot k := by
      cases hro : m.readOnly with
      | true => exact h.still pid addr m hm hro k hk.2
      | false =>
        by_contra hne
        exact hsame ⟨hro, k, hk.2, hne⟩
    change (io.memory pid (addr + k), m.snapshot k) = (io.segByte seg k, io.segByte seg k)
    rw [hmem, hsnap, hk.1]
  · cases hc

section Merged

variable {t t' : SharedMappingTable} {io io' : Io} {pid : UInt32} {addr : Nat} {m : SysvShmMapping} (m' : SysvShmMapping)
  (h : Tidy (t, io)) (hm : t.sysvMapping pid addr = some m) (hex : Exchanged m pid addr io io')
  (hget : ∀ p a, t'.sysvMapping p a = if p = pid ∧ a = addr then some m' else t.sysvMapping p a)
  (hseg : m'.segId = m.segId) (hsize : m'.size = m.size)
  (hcopied : ∀ k, k < m.size → io'.memory pid (addr + k) = mergedByte m pid addr io k ∧ m'.snapshot k = mergedByte m pid addr io k)
include h hm hex hget hseg hsize hcopied

/-- A merge that works is a synchronisation. -/
theorem observed_merged (seg : Int) : observed seg (t', io') = sync (observed seg (t, io)) (pid, addr) := by
  have hcopy_self : ∀ k, (observed seg (t', io')).copy (pid, addr) k =
      if m.segId = seg ∧ k < m.size then some (mergedByte m pid addr io k, mergedByte m pid addr io k) else none := by
    intro k
    rw [observed_copy (m := m') (by rw [hget, if_pos ⟨rfl, rfl⟩]), hseg, hsize]
    split_ifs with hk
    · rw [(hcopied k hk.2).1, (hcopied k hk.2).2]
    · rfl
  have hauth : (observed seg (t', io')).auth = (sync (observed seg (t, io)) (pid, addr)).auth := by
    funext k
    change io'.segByte seg k = (pending ((observed seg (t, io)).copy (pid, addr) k)).getD (io.segByte seg k)
    by_cases hs : seg = m.segId
    · subst hs
      rw [hex.segment, h.mergedByte_eq hm]
    · rw [observed_copy hm, if_neg fun hk => hs hk.1.symm, pending, getD_none, Io.segByte, hex.other seg hs, ← Io.segByte]
  have hcopy : (observed seg (t', io')).copy = (sync (observed seg (t, io)) (pid, addr)).copy := by
    funext i k
    by_cases hi : i = (pid, addr)
    · subst hi
      rw [hcopy_self, SnapshotMerge.sync_copy_self, observed_copy hm, ← hauth]
      split_ifs with hk
      · rw [← hex.segment, hk.1]
        rfl
      · rfl
    · have hne : ¬(i.1 = pid ∧ i.2 = addr) := fun heq => hi (Prod.ext heq.1 heq.2)
      rw [SnapshotMerge.sync_copy_other _ hi]
      exact observed_copy_congr (by rw [hget, if_neg hne]) fun n hn _ hk => h.memory_other hm hex.memory hn hne hk
  calc observed seg (t', io') = ⟨(observed seg (t', io')).auth, (observed seg (t', io')).copy⟩ := rfl
    _ = sync (observed seg (t, io)) (pid, addr) := by rw [hauth, hcopy]

theorem synced_merged (hinv : SysvInv (t', io')) (hro : m'.readOnly = m.readOnly) : Synced (t, io) (t', io') [(pid, addr)] := by
  have hshape : ∀ p a, shape t' p a = shape t p a := by
    intro p a
    simp only [shape]
    rw [hget]
    split_ifs with heq
    · rw [heq.1, heq.2, hm, map_some, map_some, hseg, hsize, hro]
    · rfl
  have hanswers : io'.answers = io.answers := by
    obtain ⟨_, hrest⟩ := hex.rest
    rw [hrest]
  refine ⟨⟨hinv, ?_, ?_, fun n => ?_⟩, hshape, hanswers, observed_merged m' h hm hex hget hseg hsize hcopied⟩
  · intro p a n a' n' hn hn' hne k hk k' hk'
    obtain ⟨n₀, hn0, _, hsize0, _⟩ := sysvMapping_of_shape (hshape p a) hn
    obtain ⟨n₁, hn1, _, hsize1, _⟩ := sysvMapping_of_shape (hshape p a') hn'
    exact h.apart p a n₀ a' n₁ hn0 hn1 hne k (by omega) k' (by omega)
  · intro p a n hn hro' k hk
    rw [hget] at hn
    split_ifs at hn with heq
    · cases hn
      rw [heq.1, heq.2, (hcopied k (by omega)).1, (hcopied k (by omega)).2]
    · rw [h.memory_other hm hex.memory hn heq hk]
      exact h.still p a n hn hro' k hk
  · rw [hanswers]
    exact h.reaches n

end Merged

/-- A merge synchronises the attachment, unless the allocator refuses. -/
theorem merge_synced (h : Tidy (t, io)) (pid : UInt32) (addr : Nat) :
    ∃ is, Synced (t, io) (t.mergeAndRefreshSysvMapping pid addr io).2 is ∧ (io.Reliable → (pid, addr) ∈ is) := by
  cases hm : t.sysvMapping pid addr with
  | none =>
    simp only [mergeAndRefreshSysvMapping, hm]
    refine ⟨[(pid, addr)], ⟨h, fun _ _ => rfl, rfl, fun seg => ?_⟩, fun _ => List.mem_cons_self⟩
    refine (SnapshotMerge.sync_of_agrees fun k c hc => ?_).symm
    rw [observed_copy_none hm] at hc
    cases hc
  | some m =>
    have hinv := h.inv.merge pid addr
    have hout := mergeAndRefresh_outcome hm h.inv.fits
    generalize t.mergeAndRefreshSysvMapping pid addr io = r at hinv hout ⊢
    cases hout with
    | idle ok io' asked why blame =>
      have hobserved : ∀ seg, observed seg (t, io') = observed seg (t, io) := fun seg => by
        obtain ⟨_, rfl⟩ := asked
        rfl
      cases ok with
      | true =>
        obtain ⟨hsame, hseen⟩ := why rfl
        refine ⟨[(pid, addr)], ⟨h.asked asked, fun _ _ => rfl, asked.answers, fun seg => ?_⟩, fun _ => List.mem_cons_self⟩
        exact (hobserved seg).trans (SnapshotMerge.sync_of_agrees (h.agrees hm hsame hseen seg)).symm
      | false =>
        refine ⟨[], ⟨h.asked asked, fun _ _ => rfl, asked.answers, hobserved⟩, fun hrel => ?_⟩
        exact absurd hrel (blame rfl (h.inv.covered pid addr m hm))
    | refused t' io' bumped exchanged blame => exact absurd h.reaches blame
    | merged t' io' snapshot bumped exchanged copied =>
      refine ⟨[(pid, addr)], synced_merged { m with snapshot := snapshot, seenVersion := t'.sysvSegmentVersion m.segId } h hm
        exchanged (fun p a => ?_) rfl rfl copied hinv rfl, fun _ => List.mem_cons_self⟩
      rw [sysvMapping_set, sysvMapping_of_sysv (show t'.sysv = t.sysv by rw [bumped.rest])]

/-- The attachment is there and a synchronisation of its process does not put it
off: it is forced, or somebody else is attached too. -/
def Due (t : SharedMappingTable) (pid : UInt32) (addr : Nat) (force : Bool) : Prop :=
  ∃ m, t.sysvMapping pid addr = some m ∧ (force ∨ t.hasPeerSysvMapping pid addr m.segId)

theorem Due.of_shape (hshape : ∀ p a, shape t' p a = shape t p a)
    {force : Bool} (h : Due t pid addr force) : Due t' pid addr force := by
  obtain ⟨m, hm, hdue⟩ := h
  obtain ⟨m', hm', hseg, _⟩ := sysvMapping_of_shape (hshape pid addr).symm hm
  exact ⟨m', hm', by rwa [hseg, hasPeer_of_shape hshape]⟩

instance (t : SharedMappingTable) (pid : UInt32) (addr : Nat) (force : Bool) : Decidable (Due t pid addr force) :=
  decidable_of_iff ((t.sysvMapping pid addr).any (fun m => force || t.hasPeerSysvMapping pid addr m.segId)) (by
    simp only [Due, any_eq_true, Bool.or_eq_true])

/-- A round over attachments of one process synchronises those it `wants`, unless the
allocator refuses. -/
def SyncsAll (pid : UInt32) (wants : SharedMappingTable → Nat → Prop) (addrs : List Nat) (s s' : SharedMappingTable × Io) : Prop :=
  ∃ is, Synced s s' is ∧ (s.2.Reliable → ∀ addr ∈ addrs, wants s.1 addr → (pid, addr) ∈ is)

section SyncsAll

variable {wants : SharedMappingTable → Nat → Prop} {addrs : List Nat} {s s' : SharedMappingTable × Io}

theorem SyncsAll.skip (hnot : ¬wants s.1 addr) (h : SyncsAll pid wants addrs s s') : SyncsAll pid wants (addr :: addrs) s s' := by
  obtain ⟨is, hsync, hmem⟩ := h
  refine ⟨is, hsync, fun hrel a ha hwants => ?_⟩
  rcases List.mem_cons.mp ha with rfl | ha
  · exact absurd hwants hnot
  · exact hmem hrel a ha hwants

theorem SyncsAll.merge (hwants : ∀ t t' a, (∀ p a, shape t' p a = shape t p a) → wants t a → wants t' a)
    (h : Tidy (t, io)) (hrest : Tidy (t.mergeAndRefreshSysvMapping pid addr io).2 →
      SyncsAll pid wants addrs (t.mergeAndRefreshSysvMapping pid addr io).2 s') : SyncsAll pid wants (addr :: addrs) (t, io) s' := by
  obtain ⟨is, hfirst, hmem⟩ := merge_synced h pid addr
  obtain ⟨js, hlast, hmem'⟩ := hrest hfirst.tidy
  refine ⟨is ++ js, hfirst.trans hlast, fun hrel a ha hdue => List.mem_append.mpr ?_⟩
  rcases List.mem_cons.mp ha with rfl | ha
  · exact .inl (hmem hrel)
  · exact .inr (hmem' (fun n => by rw [hfirst.answers]; exact hrel n) a ha (hwants _ _ a hfirst.sameShape hdue))

end SyncsAll

theorem syncSysvAddrs_synced (pid : UInt32) (force : Bool) (addrs : List Nat) (success : Bool) (h : Tidy (t, io)) :
    SyncsAll pid (Due · pid · force) addrs (t, io) (syncSysvAddrs pid force addrs success t io).2 := by
  induction addrs generalizing success t io with
  | nil => exact ⟨[], .refl h, fun _ _ hmem => by cases hmem⟩
  | cons addr addrs ih =>
    simp only [syncSysvAddrs]
    split
    · rename_i hm
      refine (ih success h).skip ?_
      rintro ⟨m, hm', _⟩
      cases hm.symm.trans hm'
    rename_i m hm
    split_ifs with hcond
    · simp only [Bool.and_eq_true, Bool.not_eq_true'] at hcond
      refine (ih success h).skip ?_
      rintro ⟨m', hm', hdue⟩
      cases hm.symm.trans hm'
      rw [hcond.1.1, hcond.1.2] at hdue
      simp at hdue
    · exact .merge (fun _ _ _ hshape => .of_shape hshape) h (ih _)

theorem syncSegmentAddrs_synced (segId : Int) (pid : UInt32) (addrs : List Nat) (h : Tidy (t, io)) :
    SyncsAll pid (fun t addr => ∃ m, t.sysvMapping pid addr = some m ∧ m.segId = segId) addrs (t, io)
      (syncSegmentAddrs segId pid addrs t io) := by
  induction addrs generalizing t io with
  | nil => exact ⟨[], .refl h, fun _ _ hmem => by cases hmem⟩
  | cons addr addrs ih =>
    simp only [syncSegmentAddrs]
    split
    · rename_i hm
      refine (ih h).skip ?_
      rintro ⟨m, hm', _⟩
      cases hm.symm.trans hm'
    rename_i m hm
    split_ifs with hseg
    · refine .merge (fun _ _ a hshape hheld => ?_) h ih
      obtain ⟨n, hn, hto⟩ := hheld
      obtain ⟨n', hn', hseg, _⟩ := sysvMapping_of_shape (hshape pid a).symm hn
      exact ⟨n', hn', hseg.trans hto⟩
    refine (ih h).skip ?_
    rintro ⟨m', hm', hto⟩
    refine hseg ?_
    cases hm.symm.trans hm'
    exact hto

theorem syncSegmentPids_synced (segId : Int) (pids : List UInt32) (h : Tidy (t, io)) :
    ∃ is, Synced (t, io) (syncSegmentPids segId pids t io) is ∧ (io.Reliable → ∀ pid ∈ pids, ∀ addr m,
      t.sysvMapping pid addr = some m → m.segId = segId → (pid, addr) ∈ is) := by
  induction pids generalizing t io with
  | nil => exact ⟨[], .refl h, fun _ _ hmem => by cases hmem⟩
  | cons pid pids ih =>
    obtain ⟨is, hfirst, hmem⟩ := syncSegmentAddrs_synced segId pid (t.sysvAddrs pid) h
    obtain ⟨js, hrest, hmem'⟩ := ih hfirst.tidy
    refine ⟨is ++ js, hfirst.trans hrest, fun hrel p hp addr m hm hto => List.mem_append.mpr ?_⟩
    rcases List.mem_cons.mp hp with rfl | hp
    · exact .inl (hmem hrel addr (mem_sysvAddrs.mpr ⟨m, hm⟩) ⟨m, hm, hto⟩)
    · obtain ⟨m', hm', hseg, _⟩ := sysvMapping_of_shape (hfirst.sameShape p addr).symm hm
      exact .inr (hmem' (fun n => by rw [hfirst.answers]; exact hrel n) p hp addr m' hm' (hseg.trans hto))

/-! ## Calls -/

/-- What the address spaces promise: a new attachment lies apart from the others of
its process, and a read-only attachment is not stored into. -/
def Promised (s : SharedMappingTable × Io) : SysvCall → Prop
  | .store pid addr len _ => ∀ a m, s.1.sysvMapping pid a = some m → m.readOnly →
      ∀ k, k < m.size → ¬(addr ≤ a + k ∧ a + k < addr + len)
  | .attach pid addr _ size _ => ∀ a m, s.1.sysvMapping pid a = some m →
      ∀ k, k < m.size → ∀ k', k' < size → a + k ≠ addr + k'
  | _ => True

def Stores : SysvCall → Prop
  | .store .. => True
  | _ => False

/-- The call synchronises the attachment, or ends it. -/
def Settles (i : UInt32 × Nat) (s : SharedMappingTable × Io) : SysvCall → Prop
  | .syncProcess pid force => pid = i.1 ∧ Due s.1 i.1 i.2 force
  | .syncSegment segId => ∃ m, s.1.sysvMapping i.1 i.2 = some m ∧ m.segId = segId
  | .syncMapping pid addr => (pid, addr) = i
  | .drop pid addr => (pid, addr) = i
  | .release pid _ => pid = i.1
  | _ => False

/-- The call ends the attachment and what it has not published. -/
def Loses (i : UInt32 × Nat) (s : SharedMappingTable × Io) : SysvCall → Prop
  | .drop pid addr => (pid, addr) = i
  | .release pid publish => pid = i.1 ∧ (publish → ¬s.2.Reliable)
  | _ => False

/-- What a call that stores nothing does to the attachments of `seg`. -/
structure Stepped (seg : Int) (s s' : SharedMappingTable × Io) (c : SysvCall) (is : List (UInt32 × Nat)) : Prop where
  tidy : Tidy s'
  answers : s'.2.answers = s.2.answers
  follows : Follows (observed seg s) (observed seg s') is
  settles : s.2.Reliable → ∀ i, Settles i s c → i ∈ is ∨ ∀ k, (observed seg s').copy i k = none
  keeps : ∀ i k, (observed seg s').copy i k = (syncAll (observed seg s) is).copy i k ∨
    pending ((syncAll (observed seg s) is).copy i k) = none ∨ Loses i s c

variable {c : SysvCall} {s' : SharedMappingTable × Io}

theorem Synced.stepped (h : Synced s s' is)
    (hsettles : s.2.Reliable → ∀ i, Settles i s c → i ∈ is) (seg : Int) : Stepped seg s s' c is where
  tidy := h.tidy
  answers := h.answers
  follows := ⟨by rw [h.refines], fun i k => .inl (by rw [h.refines])⟩
  settles := fun hrel i hi => .inl (hsettles hrel i hi)
  keeps := fun i k => .inl (by rw [h.refines])

/-- Attachments that have been synchronised, and then some that go. -/
theorem Synced.shed {s₁ : SharedMappingTable × Io} {g : UInt32 × Nat → Prop} [DecidablePred g] (h : Synced s s₁ is)
    (hinv : SysvInv s') (hio : s'.2 = s₁.2)
    (hget : ∀ p a, s'.1.sysvMapping p a = if g (p, a) then none else s₁.1.sysvMapping p a) (hsettles : ∀ i, Settles i s c → g i)
    (hloses : ∀ i m, g i → s.1.sysvMapping i.1 i.2 = some m → i ∈ is ∨ Loses i s c) (seg : Int) : Stepped seg s s' c is := by
  have hkept : ∀ {p a m}, s'.1.sysvMapping p a = some m → s₁.1.sysvMapping p a = some m := by
    intro p a m hm
    rw [hget] at hm
    split_ifs at hm
    exact hm
  have hgone : ∀ i, g i → ∀ k, (observed seg s').copy i k = none := fun i hi k =>
    observed_copy_none ((hget i.1 i.2).trans (if_pos hi)) k
  have hstay : ∀ i, ¬g i → ∀ k, (observed seg s').copy i k = (syncAll (observed seg s) is).copy i k := by
    intro i hi k
    rw [← h.refines]
    simp only [observed]
    rw [hget, if_neg hi, hio]
  refine ⟨⟨hinv, fun p a m a' m' hm hm' => h.tidy.apart p a m a' m' (hkept hm) (hkept hm'), fun p a m hm => ?_, ?_⟩,
    (congrArg Io.answers hio).trans h.answers, ⟨?_, fun i k => ?_⟩, fun _ i hi => .inr (hgone i (hsettles i hi)), fun i k => ?_⟩
  · rw [hio]
    exact h.tidy.still p a m (hkept hm)
  · rw [hio]
    exact h.tidy.reaches
  · rw [← h.refines]
    simp [observed, hio]
  · by_cases hi : g i
    · exact .inr (.inl (hgone i hi k))
    · exact .inl (hstay i hi k)
  by_cases hi : g i
  · refine .inr ?_
    cases hold : s.1.sysvMapping i.1 i.2 with
    | none =>
      refine .inl (SnapshotMerge.pending_syncAll ?_ is)
      rw [observed_copy_none hold]
      rfl
    | some m => exact (hloses i m hi hold).imp_left (SnapshotMerge.pending_syncAll_of_mem · k)
  · exact .inl (hstay i hi k)

theorem drop_stepped (h : Tidy s) (pid : UInt32) (addr : Nat) (seg : Int) :
    Stepped seg s (sysvCall s (.drop pid addr)).2 (.drop pid addr) [] := by
  refine (Synced.refl h).shed (c := .drop pid addr) (g := fun i => i.1 = pid ∧ i.2 = addr) (h.inv.call (.drop pid addr))
    rfl (drop_spec s.1 pid addr).1 (fun i hi => ?_) (fun i m hi _ => .inr (Prod.ext hi.1.symm hi.2.symm)) seg
  cases hi
  exact ⟨rfl, rfl⟩

theorem release_stepped (h : Tidy s) (pid : UInt32) (publish : Bool) (seg : Int) :
    ∃ is, Stepped seg s (sysvCall s (.release pid publish)).2 (.release pid publish) is := by
  obtain ⟨hio, hget, _⟩ := release_spec s.1 pid publish s.2
  have hsync : ∃ is, Synced s (if publish then (s.1.syncSysvFromProcess pid true s.2).2 else (s.1, s.2)) is ∧
      (publish → s.2.Reliable → ∀ addr m, s.1.sysvMapping pid addr = some m → (pid, addr) ∈ is) := by
    split_ifs with hno
    · obtain ⟨is, hsync, hmem⟩ := syncSysvAddrs_synced pid true (s.1.sysvAddrs pid) true h
      refine ⟨is, hsync, fun _ hrel addr m hm => ?_⟩
      exact hmem hrel addr (mem_sysvAddrs.mpr ⟨m, hm⟩) ⟨m, hm, .inl rfl⟩
    · exact ⟨[], .refl h, fun hyes => absurd hyes hno⟩
  obtain ⟨is, hsync, hmem⟩ := hsync
  refine ⟨is, hsync.shed (c := .release pid publish) (g := fun i => i.1 = pid) (h.inv.call (.release pid publish)) hio hget
    (fun i hi => Eq.symm hi) (fun i m hi hm => ?_) seg⟩
  obtain ⟨p, addr⟩ := i
  cases show p = pid from hi
  -- a process that is gone has lost what it could not publish
  by_cases hpub : publish ∧ s.2.Reliable
  · exact .inl (hmem hpub.1 hpub.2 addr m hm)
  · exact .inr ⟨rfl, fun hyes hrel => hpub ⟨hyes, hrel⟩⟩

section Attached

variable {t t' : SharedMappingTable} {io io' : Io} {pid : UInt32} {addr : Nat} (m : SysvShmMapping)
  (hget : ∀ p a, t'.sysvMapping p a = if p = pid ∧ a = addr then some m else t.sysvMapping p a)
  (hmemory : ∀ p a n, t.sysvMapping p a = some n → ∀ k, k < n.size → io'.memory p (a + k) = io.memory p (a + k))
  (hcopied : ∀ k, k < m.size → io'.memory pid (addr + k) = io.segByte m.segId k ∧ m.snapshot k = io.segByte m.segId k)
include hget hmemory hcopied

/-- The new attachment comes with the segment's bytes, and the others stay. -/
theorem observed_attached (hfree : t.sysvMapping pid addr = none) (seg : Int) (i : UInt32 × Nat) (k : Nat) :
    (observed seg (t', io')).copy i k = (observed seg (t, io)).copy i k ∨ (observed seg (t, io)).copy i k = none ∧
        (observed seg (t', io')).copy i k = some (io.segByte seg k, io.segByte seg k) := by
  by_cases hi : i.1 = pid ∧ i.2 = addr
  · have hold : (observed seg (t, io)).copy i k = none := observed_copy_none (by rw [hi.1, hi.2]; exact hfree) k
    have hnew : (observed seg (t', io')).copy i k = _ := observed_copy ((hget i.1 i.2).trans (if_pos hi)) k
    rw [hold, hnew]
    split_ifs with hk
    · rw [hi.1, hi.2, (hcopied k hk.2).1, (hcopied k hk.2).2, hk.1]
      exact .inr ⟨rfl, rfl⟩
    · exact .inl rfl
  · exact .inl (observed_copy_congr (by rw [hget, if_neg hi]) fun n hn _ hk => hmemory i.1 i.2 n hn k hk)

theorem tidy_attached (h : Tidy (t, io)) (hinv : SysvInv (t', io')) (hanswers : io'.answers = io.answers)
    (hapart : ∀ a n, t.sysvMapping pid a = some n → ∀ k, k < n.size → ∀ k', k' < m.size → a + k ≠ addr + k') : Tidy (t', io') := by
  refine ⟨hinv, ?_, ?_, fun n => ?_⟩
  · intro p a n a' n' hn hn' hne k hk k' hk'
    rw [hget] at hn hn'
    split at hn <;> split at hn'
    · rename_i h1 h2
      exact absurd (h1.2.trans h2.2.symm) hne
    · rename_i h1 h2
      cases hn
      rw [h1.1] at hn'
      rw [h1.2]
      exact (hapart a' n' hn' k' hk' k hk).symm
    · rename_i h1 h2
      cases hn'
      rw [h2.1] at hn
      rw [h2.2]
      exact hapart a n hn k hk k' hk'
    · exact h.apart p a n a' n' hn hn' hne k hk k' hk'
  · intro p a n hn hro k hk
    rw [hget] at hn
    split_ifs at hn with heq
    · cases hn
      rw [heq.1, heq.2, (hcopied k hk).1, (hcopied k hk).2]
    · rw [hmemory p a n hn k hk]
      exact h.still p a n hn hro k hk
  · rw [hanswers]
    exact h.reaches n

end Attached

theorem attach_stepped (h : Tidy s) {segId : Int} {size : Nat}
    {readOnly : Bool} (hp : Promised s (.attach pid addr segId size readOnly)) (seg : Int) :
    Stepped seg s (sysvCall s (.attach pid addr segId size readOnly)).2 (.attach pid addr segId size readOnly) [] := by
  obtain ⟨t, io⟩ := s
  have hinv := h.inv.track pid addr segId size readOnly
  have hout := track_outcome t pid addr segId size readOnly io
  change Stepped seg (t, io) (t.trackSysvMapping pid addr segId size readOnly io).2 _ []
  generalize t.trackSysvMapping pid addr segId size readOnly io = r at hinv hout ⊢
  cases hout with
  | stopped e io' asked =>
    have hsync : Synced (t, io) (t, io') [] := by
      refine ⟨h.asked asked, fun _ _ => rfl, asked.answers, fun seg => ?_⟩
      obtain ⟨_, rfl⟩ := asked
      rfl
    exact hsync.stepped (c := .attach pid addr segId size readOnly) (fun _ _ hi => nomatch hi) seg
  | refused e io' rewritten blame => exact absurd h.reaches blame
  | attached t' io' snapshot free sysv version rewritten covered copied =>
    have hget : ∀ p a, (t'.setSysvMapping pid addr ⟨segId, size, readOnly, snapshot, t.sysvSegmentVersion segId⟩).sysvMapping
        p a = if p = pid ∧ a = addr then some ⟨segId, size, readOnly, snapshot, t.sysvSegmentVersion segId⟩
          else t.sysvMapping p a := by
      intro p a
      rw [sysvMapping_set, sysvMapping_of_sysv sysv]
    have hmemory : ∀ p a n, t.sysvMapping p a = some n → ∀ k, k < n.size → io'.memory p (a + k) = io.memory p (a + k) := by
      intro p a n hn k hk
      refine rewritten.outside p (a + k) fun ⟨heq, hle, hlt⟩ => ?_
      subst heq
      exact hp a n hn k hk (a + k - addr) (by omega) (by omega)
    obtain ⟨hanswers, hshm⟩ : io'.answers = io.answers ∧ io'.shm = io.shm := by
      obtain ⟨_, hrest⟩ := rewritten.rest
      rw [hrest]
      exact ⟨rfl, rfl⟩
    have hcopy := observed_attached _ hget hmemory copied free seg
    have htidy := tidy_attached _ hget hmemory copied h hinv hanswers hp
    generalize t'.setSysvMapping pid addr ⟨segId, size, readOnly, snapshot, t.sysvSegmentVersion segId⟩ = t₁ at hcopy htidy ⊢
    have hauth : (observed seg (t₁, io')).auth = (observed seg (t, io)).auth := by
      funext k
      simp [observed, Io.segByte, hshm]
    refine ⟨htidy, hanswers, ⟨hauth, fun i k => ?_⟩, fun _ i hi => (nomatch hi), fun i k => ?_⟩
    · rcases hcopy i k with heq | ⟨_, hnew⟩
      · exact .inl heq
      refine .inr (.inr ?_)
      rw [hnew, hauth]
      rfl
    rcases hcopy i k with heq | ⟨hold, _⟩
    · exact .inl heq
    refine .inr (.inl ?_)
    change pending ((observed seg (t, io)).copy i k) = none
    rw [hold]
    rfl

theorem call_stepped (h : Tidy s) (hp : Promised s c) (hc : ¬Stores c) (seg : Int) : ∃ is, Stepped seg s (sysvCall s c).2 c is := by
  cases c with
  | store pid addr len bytes => exact absurd trivial hc
  | attach pid addr segId size readOnly => exact ⟨[], attach_stepped h hp seg⟩
  | syncProcess pid force =>
    obtain ⟨is, hsync, hmem⟩ := syncSysvAddrs_synced pid force (s.1.sysvAddrs pid) true h
    refine ⟨is, hsync.stepped (c := .syncProcess pid force) (fun hrel i ⟨hpid, hdue⟩ => ?_) seg⟩
    subst hpid
    obtain ⟨m, hm, _⟩ := id hdue
    exact hmem hrel i.2 (mem_sysvAddrs.mpr ⟨m, hm⟩) hdue
  | syncSegment segId =>
    obtain ⟨is, hsync, hmem⟩ := syncSegmentPids_synced segId (s.1.sysv.entries.map (·.1)) h
    refine ⟨is, hsync.stepped (c := .syncSegment segId) (fun hrel i ⟨m, hm, hto⟩ => hmem hrel i.1 ?_ i.2 m hm hto) seg⟩
    obtain ⟨entries, hentries, _⟩ := bind_eq_some_iff.mp hm
    exact OrdMap.isSome_get?_iff.mp (by rw [hentries]; rfl)
  | syncMapping pid addr =>
    obtain ⟨is, hsync, hmem⟩ := merge_synced h pid addr
    exact ⟨is, hsync.stepped (fun hrel i hi => by rw [← hi]; exact hmem hrel) seg⟩
  | drop pid addr => exact ⟨[], drop_stepped h pid addr seg⟩
  | release pid publish => exact release_stepped h pid publish seg

theorem store_tidy (h : Tidy s) {len : Nat} {bytes : Nat → UInt8}
    (hp : Promised s (.store pid addr len bytes)) : Tidy (sysvCall s (.store pid addr len bytes)).2 := by
  refine ⟨h.inv.call _, h.apart, fun p a m hm hro k hk => ?_, h.reaches⟩
  rw [← h.still p a m hm hro k hk]
  simp only [sysvCall, Io.store]
  split_ifs with hpid
  · subst hpid
    rw [Io.splice, if_neg (hp a m hm hro k hk)]
  · rfl

theorem Tidy.call (h : Tidy s) (hp : Promised s c) : Tidy (sysvCall s c).2 ∧ (sysvCall s c).2.2.answers = s.2.answers := by
  by_cases hc : Stores c
  · cases c with
    | store pid addr len bytes => exact ⟨store_tidy h hp, rfl⟩
    | _ => cases hc
  · obtain ⟨_, hstep⟩ := call_stepped h hp hc 0
    exact ⟨hstep.tidy, hstep.answers⟩

/-- The call does not store over byte `k` of the segment, nor end the attachment
`i` while it has something of its own there. -/
def Spares (seg : Int) (i : UInt32 × Nat) (k : Nat) (s : SharedMappingTable × Io) (c : SysvCall) : Prop :=
  (∀ pid addr len bytes, c = .store pid addr len bytes → ∀ a m, s.1.sysvMapping pid a = some m → m.segId = seg →
    k < m.size → ¬(addr ≤ a + k ∧ a + k < addr + len)) ∧
  (Loses i s c → pending ((observed seg s).copy i k) = none)

theorem store_pending {len : Nat} {bytes : Nat → UInt8} (hspares : Spares seg i k s (.store pid addr len bytes)) (j : UInt32 × Nat) :
    pending ((observed seg (sysvCall s (.store pid addr len bytes)).2).copy j k) = pending ((observed seg s).copy j k) := by
  refine congrArg pending (observed_copy_congr rfl fun m hm hseg hk => ?_)
  simp only [Io.store]
  split_ifs with hpid
  · rw [Io.splice, if_neg (hspares.1 pid addr len bytes rfl j.2 m (by rw [← hpid]; exact hm) hseg hk)]
  · rfl

variable {v : UInt8}

theorem held_call (h : Tidy s) (hp : Promised s c) (hspares : Spares seg i k s c) (hheld : Held (observed seg s) i k v) :
    Held (observed seg (sysvCall s c).2) i k v := by
  by_cases hc : Stores c
  · cases c with
    | store pid addr len bytes => exact hheld.of_pointwise rfl (store_pending hspares)
    | _ => cases hc
  obtain ⟨is, hstep⟩ := call_stepped h hp hc seg
  refine hheld.follows hstep.follows ?_
  rcases hstep.keeps i k with heq | hnone | hlose
  · exact .inl heq
  · exact .inr hnone
  · exact .inr (SnapshotMerge.pending_syncAll (hspares.2 hlose) is)

theorem pending_call (h : Tidy s)
    (hp : Promised s c) (hspares : Spares seg i k s c) (hnone : pending ((observed seg s).copy i k) = none) :
    pending ((observed seg (sysvCall s c).2).copy i k) = none := by
  by_cases hc : Stores c
  · cases c with
    | store pid addr len bytes => exact (store_pending hspares i).trans hnone
    | _ => cases hc
  · obtain ⟨is, hstep⟩ := call_stepped h hp hc seg
    exact hstep.follows.pending_of (SnapshotMerge.pending_syncAll hnone is)

theorem Settles.not_stores (h : Settles i s c) : ¬Stores c := by
  cases c with
  | store => cases h
  | _ => exact nofun

theorem pending_of_settles (h : Tidy s) (hrel : s.2.Reliable) (hp : Promised s c) (hi : Settles i s c) (k : Nat) :
    pending ((observed seg (sysvCall s c).2).copy i k) = none := by
  obtain ⟨is, hstep⟩ := call_stepped h hp hi.not_stores seg
  rcases hstep.settles hrel i hi with hmem | hgone
  · exact hstep.follows.pending_of (SnapshotMerge.pending_syncAll_of_mem hmem k)
  · rw [hgone k]
    rfl

theorem agrees_of_settles (h : Tidy s) (hrel : s.2.Reliable)
    (hquiet : Quiet (observed seg s)) (hp : Promised s c) (hi : Settles i s c) : Agrees (observed seg (sysvCall s c).2) i := by
  obtain ⟨is, hstep⟩ := call_stepped h hp hi.not_stores seg
  rcases hstep.settles hrel i hi with hmem | hgone
  · exact hstep.follows.agrees_of (hquiet.agrees_syncAll_of_mem hmem)
  intro k c hc
  rw [hgone k] at hc
  cases hc

/-! ## Runs -/

/-- Nothing is attached yet, and the host reaches every process's memory. -/
def Served (s : SharedMappingTable × Io) : Prop := Unattached s ∧ s.2.Reaches

theorem Tidy.of_reachable (h : Machine.ReachableWhen Served Promised sysvCall s) : Tidy s := by
  refine h.invariant (I := Tidy) (fun s ⟨hs, hreaches⟩ => ?_) fun s c hp ih => (ih.call hp).1
  have hnone : ∀ {pid addr m}, s.1.sysvMapping pid addr ≠ some m := fun {pid addr m} hm => by
    rw [hs.1] at hm
    cases hm
  exact ⟨⟨hs.2, fun _ _ _ hm => absurd hm hnone, fun _ _ _ hm => absurd hm hnone, fun _ _ _ hm => absurd hm hnone⟩,
    fun _ _ _ _ _ hm => absurd hm hnone, fun _ _ _ hm => absurd hm hnone, hreaches⟩

theorem reliable_call (hp : Promised s c) (hs : Tidy s ∧ s.2.Reliable) : Tidy (sysvCall s c).2 ∧ (sysvCall s c).2.2.Reliable := by
  obtain ⟨htidy, hanswers⟩ := hs.1.call hp
  exact ⟨htidy, fun n => by rw [hanswers]; exact hs.2 n⟩

/-- A byte only one attachment has changed stays its, and once that attachment has
synchronised the segment has it. -/
theorem held_run (h : Tidy s) (hheld : Held (observed seg s) i k v) (cs : List SysvCall)
    (hok : ∀ x ∈ steps sysvCall s cs, Promised x.1 x.2 ∧ Spares seg i k x.1 x.2) :
    Held (observed seg (run sysvCall s cs)) i k v ∧ (s.2.Reliable → (∃ x ∈ steps sysvCall s cs, Settles i x.1 x.2) →
        (run sysvCall s cs).2.segByte seg k = v) := by
  have hstep : ∀ s c, Promised s c ∧ Spares seg i k s c → Tidy s ∧ Held (observed seg s) i k v →
      Tidy (sysvCall s c).2 ∧ Held (observed seg (sysvCall s c).2) i k v :=
    fun s c hc hs => ⟨(hs.1.call hc.1).1, held_call hs.1 hc.1 hc.2 hs.2⟩
  have hend := (run_keeps _ hstep cs ⟨h, hheld⟩ hok).2
  refine ⟨hend, fun hrel hsettled => hend.auth_of_quiet ?_⟩
  refine run_establishes (fun s c => Promised s c ∧ Spares seg i k s c) (Settles i)
    (I := fun s => Tidy s ∧ s.2.Reliable) (P := fun s => pending ((observed seg s).copy i k) = none)
    (fun s c hc hs => ?_) (fun s c hc hs hnone => ?_)
    (fun s c hc hs hi => ?_) cs ⟨h, hrel⟩ hok (.inr hsettled)
  · exact reliable_call hc.1 hs
  · exact pending_call hs.1 hc.1 hc.2 hnone
  · exact pending_of_settles hs.1 hs.2 hc.1 hi k

/-- The calls of a run store nothing, and every attachment to `seg` there is at its
start synchronises in it, or goes. -/
def Round (seg : Int) (s : SharedMappingTable × Io) (cs : List SysvCall) : Prop :=
  (∀ x ∈ steps sysvCall s cs, Promised x.1 x.2 ∧ ¬Stores x.2) ∧
    ∀ pid addr m, s.1.sysvMapping pid addr = some m → m.segId = seg → ∃ x ∈ steps sysvCall s cs, Settles (pid, addr) x.1 x.2

variable {cs : List SysvCall}

theorem Round.copy (h : Round seg s cs) (i : UInt32 × Nat) :
    (∀ k, (observed seg s).copy i k = none) ∨ ∃ x ∈ steps sysvCall s cs, Settles i x.1 x.2 := by
  cases hm : s.1.sysvMapping i.1 i.2 with
  | none => exact .inl fun k => observed_copy_none hm k
  | some m =>
    by_cases hseg : m.segId = seg
    · exact .inr (h.2 i.1 i.2 m hm hseg)
    · refine .inl fun k => ?_
      exact (observed_copy hm k).trans (if_neg fun hk => hseg hk.1)

/-- After a round there is nothing left to publish. -/
theorem quiet_of_round (h : Tidy s ∧ s.2.Reliable) (hround : Round seg s cs) : Quiet (observed seg (run sysvCall s cs)) := by
  intro i
  refine run_establishes (fun s c => Promised s c ∧ ¬Stores c) (Settles i) (I := fun s => Tidy s ∧ s.2.Reliable)
    (P := fun s => ∀ k, pending ((observed seg s).copy i k) = none) (fun s c hc hs => reliable_call hc.1 hs)
    (fun s c hc hs hnone k => ?_) (fun s c hc hs hi => pending_of_settles hs.1 hs.2 hc.1 hi) cs h hround.1
    ((hround.copy i).imp_left fun hnone k => by rw [hnone k]; rfl)
  obtain ⟨is, hstep⟩ := call_stepped hs.1 hc.1 hc.2 seg
  exact hstep.follows.pending_of (SnapshotMerge.pending_syncAll (hnone k) is)

/-- After another, everybody has the segment. -/
theorem agrees_of_round (h : Tidy s ∧ s.2.Reliable) (hquiet : Quiet (observed seg s)) (hround : Round seg s cs) (i : UInt32 × Nat) :
    Agrees (observed seg (run sysvCall s cs)) i := by
  refine run_establishes (fun s c => Promised s c ∧ ¬Stores c) (Settles i) (I := fun s => (Tidy s ∧ s.2.Reliable) ∧ Quiet (observed seg s))
    (P := fun s => Agrees (observed seg s) i) (fun s c hc hs => ?_) (fun s c hc hs hagrees => ?_)
    (fun s c hc hs hi => agrees_of_settles hs.1.1 hs.1.2 hs.2 hc.1 hi) cs ⟨h, hquiet⟩ hround.1
    ((hround.copy i).imp_left fun hnone k c hc => ?_)
  · obtain ⟨is, hstep⟩ := call_stepped hs.1.1 hc.1 hc.2 seg
    exact ⟨reliable_call hc.1 hs.1, hstep.follows.quiet hs.2⟩
  · obtain ⟨is, hstep⟩ := call_stepped hs.1.1 hc.1 hc.2 seg
    exact hstep.follows.agrees_of (hs.2.agrees_syncAll hagrees is)
  · rw [hnone k] at hc
    cases hc

/-- What the attachments of SysV segments keep, over every interleaving of stores,
synchronisations, attaches and detaches.

In every state and whatever the host refuses, an attachment that has seen the
segment's version has a snapshot that is the segment. With a host that reaches the
processes' memories: a byte that only one attachment has changed is never lost to
what the others do, and is in the segment once that attachment has synchronised;
and after two rounds without stores, in each of which every attachment synchronises
at least once, every attachment holds the segment's bytes. -/
theorem sysv_updates_survive_and_converge :
    (∀ s, Machine.Reachable Unattached sysvCall s → ∀ pid addr m, s.1.sysvMapping pid addr = some m →
      m.seenVersion = s.1.sysvSegmentVersion m.segId → ∀ k, k < m.size → m.snapshot k = s.2.segByte m.segId k) ∧
    ∀ s, Machine.ReachableWhen Served Promised sysvCall s → ∀ seg, (∀ i k v, Held (observed seg s) i k v → ∀ cs,
        (∀ x ∈ Machine.steps sysvCall s cs, Promised x.1 x.2 ∧ Spares seg i k x.1 x.2) →
          Held (observed seg (Machine.run sysvCall s cs)) i k v ∧
            (s.2.Reliable → (∃ x ∈ Machine.steps sysvCall s cs, Settles i x.1 x.2) → (Machine.run sysvCall s cs).2.segByte seg k = v)) ∧
      (s.2.Reliable → ∀ cs cs', Round seg s cs → Round seg (Machine.run sysvCall s cs) cs' →
        let s' := Machine.run sysvCall (Machine.run sysvCall s cs) cs'
        ∀ pid addr m, s'.1.sysvMapping pid addr = some m → m.segId = seg → ∀ k, k < m.size →
          s'.2.memory pid (addr + k) = s'.2.segByte seg k ∧ m.snapshot k = s'.2.segByte seg k) := by
  refine ⟨fun s hs => (SysvInv.of_reachable hs).current, fun s hs seg => ?_⟩
  have htidy := Tidy.of_reachable hs
  refine ⟨fun i k v hheld cs hok => held_run htidy hheld cs hok, fun hrel cs cs' hround hround' => ?_⟩
  intro s' pid addr m hm hseg k hk
  have hfirst : Tidy (run sysvCall s cs) ∧ (run sysvCall s cs).2.Reliable :=
    run_keeps (fun s c => Promised s c ∧ ¬Stores c) (I := fun s => Tidy s ∧ s.2.Reliable)
      (fun _ _ hc hs => reliable_call hc.1 hs) cs ⟨htidy, hrel⟩ hround.1
  have hagrees := agrees_of_round hfirst (quiet_of_round ⟨htidy, hrel⟩ hround) hround' (pid, addr)
  have hcopy := (observed_copy (s := s') hm k).trans (if_pos ⟨hseg, hk⟩)
  exact Prod.mk.inj (hagrees k _ hcopy)

/-- A host that refuses nothing, and one segment of two bytes. -/
def obligingIo : Io where
  file := fun _ _ => 0
  generation := fun _ => none
  memory := fun _ _ => 0
  memoryLen := fun _ => none
  shm := fun s => if s = 7 then some [0, 0] else none
  answers := fun _ => ⟨true, .ok 0, .error .EINVAL, none, .ok (), fun _ => 0, 0⟩
  used := 0
  log := []

/-- Two processes attach the segment, and each stores into one of its bytes. -/
def twoStores : List SysvCall :=
  [.attach 1 0 7 2 false, .attach 2 0 7 2 false, .store 1 0 1 fun _ => 1, .store 2 1 1 fun _ => 2]

/-- Two synchronisations of each attachment, one attachment after the other, are
not enough: the first has seen nothing of the second's store. -/
theorem synced_twice_not_in_step :
    let cs : List SysvCall := [.syncProcess 1 false, .syncProcess 1 false, .syncProcess 2 false, .syncProcess 2 false]
    let s := Machine.run sysvCall (new, obligingIo) (twoStores ++ cs)
    (∀ x ∈ Machine.steps sysvCall (new, obligingIo) (twoStores ++ cs), (sysvCall x.1 x.2).1 = true) ∧
      s.2.segByte 7 1 = 2 ∧ s.2.memory 2 1 = 2 ∧ s.2.memory 1 1 = 0 := by
  decide +kernel

/-- Whether an attachment other than `i` has something of its own at byte `k`. -/
def changedElsewhere (s : SharedMappingTable × Io) (i : UInt32 × Nat) (k : Nat) : Bool :=
  s.1.sysv.entries.any fun p => p.2.entries.any fun e =>
    !(p.1 == i.1 && e.1 == i.2) && s.2.memory p.1 (e.1 + k) != e.2.snapshot k

theorem held_of_unchanged (hown : pending ((observed seg s).copy i k) = some v) (hothers : changedElsewhere s i k = false) :
    Held (observed seg s) i k v := by
  refine ⟨fun j hj => ?_, .inl hown⟩
  cases hm : s.1.sysvMapping j.1 j.2 with
  | none =>
    rw [observed_copy_none hm]
    rfl
  | some m =>
    have hsame : s.2.memory j.1 (j.2 + k) = m.snapshot k := by
      by_contra hne
      have hj' : ¬(j.1 = i.1 ∧ j.2 = i.2) := fun heq => hj (Prod.ext heq.1 heq.2)
      have hany := (any_sysv (f := fun p a m => !(p == i.1 && a == i.2) && s.2.memory p (a + k) != m.snapshot k)).mpr
        ⟨j.1, j.2, m, hm, by simpa [hne] using Decidable.not_and_iff_or_not.mp hj'⟩
      rw [changedElsewhere, hany] at hothers
      cases hothers
    rw [show (observed seg s).copy j k = _ from observed_copy hm k, hsame]
    split
    · exact SnapshotMerge.pending_same _
    · rfl

theorem promised_of_absent (h : (s.1.sysv.get? pid).isNone) (addr : Nat)
    (segId : Int) (size : Nat) (readOnly : Bool) : Promised s (.attach pid addr segId size readOnly) := by
  intro a m hm
  rw [sysvMapping, isNone_iff_eq_none.mp h] at hm
  cases hm

theorem promised_of_writable
    (h : (s.1.sysv.entries.any fun p => p.2.entries.any fun e => e.2.readOnly) = false) (pid : UInt32) (addr len : Nat)
    (bytes : Nat → UInt8) : Promised s (.store pid addr len bytes) := by
  intro a m hm hro
  rw [(any_sysv (f := fun _ _ m => m.readOnly)).mpr ⟨pid, a, m, hm, hro⟩] at h
  cases h

theorem twoStores_reachable : Machine.ReachableWhen Served Promised sysvCall (run sysvCall (new, obligingIo) twoStores) := by
  have hserved : Served (new, obligingIo) := by
    refine ⟨⟨fun _ _ => rfl, fun seg n hn => ?_⟩, fun _ => rfl⟩
    simp only [Io.segLen, obligingIo] at hn
    split at hn
    · cases hn
      decide
    · cases hn
  refine ((((Machine.ReachableWhen.start hserved).next _ ?_).next _ ?_).next _ ?_).next _ ?_
  · exact promised_of_absent (by decide +kernel) 0 7 2 false
  · exact promised_of_absent (by decide +kernel) 0 7 2 false
  · exact promised_of_writable (by decide +kernel) 1 0 1 fun _ => 1
  · exact promised_of_writable (by decide +kernel) 2 1 1 fun _ => 2

theorem syncSegment_round (seg : Int) (s : SharedMappingTable × Io) : Round seg s [.syncSegment seg] := by
  refine ⟨fun x hx => ?_, fun pid addr m hm hseg => ⟨_, List.mem_cons_self, m, hm, hseg⟩⟩
  rw [List.mem_singleton.mp hx]
  exact ⟨trivial, nofun⟩

theorem sysv_updates_survive_and_converge_twoStores :
    let s := Machine.run sysvCall (new, obligingIo) twoStores
    let s' := Machine.run sysvCall s [.syncProcess 2 false, .syncProcess 1 false]
    (s'.2.segByte 7 0 = 1 ∧ s'.2.segByte 7 1 = 2) ∧
      ∀ pid addr m, (Machine.run sysvCall (Machine.run sysvCall s [.syncSegment 7]) [.syncSegment 7]).1.sysvMapping pid addr =
        some m → m.segId = 7 → ∀ k, k < m.size → m.snapshot k =
          (Machine.run sysvCall (Machine.run sysvCall s [.syncSegment 7]) [.syncSegment 7]).2.segByte 7 k := by
  intro s s'
  have hrel : s.2.Reliable := fun _ => ⟨rfl, rfl⟩
  obtain ⟨hheld, hconverge⟩ := sysv_updates_survive_and_converge.2 s twoStores_reachable 7
  have hspares : ∀ i k, ∀ x ∈ steps sysvCall s [.syncProcess 2 false, .syncProcess 1 false],
      Promised x.1 x.2 ∧ Spares 7 i k x.1 x.2 := by
    intro i k x hx
    simp only [steps, List.mem_cons, List.not_mem_nil, or_false] at hx
    rcases hx with rfl | rfl <;> exact ⟨trivial, nofun, nofun⟩
  refine ⟨⟨?_, ?_⟩, fun pid addr m hm hseg k hk => ?_⟩
  · refine (hheld (1, 0) 0 1 (held_of_unchanged (by decide +kernel) (by decide +kernel)) _ (hspares _ _)).2 hrel ?_
    exact ⟨_, List.mem_cons_of_mem _ List.mem_cons_self, rfl, by decide +kernel⟩
  · refine (hheld (2, 0) 1 2 (held_of_unchanged (by decide +kernel) (by decide +kernel)) _ (hspares _ _)).2 hrel ?_
    exact ⟨_, List.mem_cons_self, rfl, by decide +kernel⟩
  · exact (hconverge hrel _ _ (syncSegment_round 7 s) (syncSegment_round 7 _) pid addr m hm hseg k hk).2

end Kandelo.Shared.SharedMappingTable

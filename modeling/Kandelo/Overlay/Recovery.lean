/-
Recovery of an overlay journal after a crash: `recovers`.

The storage of a handle starts with the committed transactions, and what a crash may leave
behind them is a torn tail or the one transaction in flight (`Recoverable`). A commit keeps this
however it ends, so it holds after every run of calls and crashes.
-/
import Kandelo.Lib.Machine
import Kandelo.Overlay.Log

namespace Kandelo.Overlay

open OverlayJournal List

/-! ## Runs -/

inductive Call
  | commit (ms : List Mutation)
  | writeFileAt (reader : Reader) (inode : UInt64) (baseSize offset : Nat) (src : Bytes)
  | writeFileAtBuffered (reader : Reader) (inode : UInt64) (baseSize offset : Nat) (src : Bytes)
  | truncateFileAt (reader : Reader) (inode : UInt64) (baseSize : Nat) (newSize : UInt64)
  | sync

/-- A call: whether it succeeded, and the handle after it. -/
def Call.run (e : Env) : Call → OverlayJournal → Except Errno Unit × OverlayJournal
  | .commit ms, j => OverlayJournal.commit e ms j
  | .writeFileAt reader inode baseSize offset src, j =>
    let (written, j) := OverlayJournal.writeFileAt e reader inode baseSize offset src j
    (written.map fun _ => (), j)
  | .writeFileAtBuffered reader inode baseSize offset src, j =>
    let (written, j) := OverlayJournal.writeFileAtBuffered e reader inode baseSize offset src j
    (written.map fun _ => (), j)
  | .truncateFileAt reader inode baseSize newSize, j => OverlayJournal.truncateFileAt e reader inode baseSize newSize j
  | .sync, j => OverlayJournal.sync e j

/-- A call with what the host answers during it, or a crash that keeps some of the unflushed bytes, and a reopening. A crash
inside a call is one after it: the host refuses from there on. -/
inductive Event
  | call (refuse : Nat → Option Errno) (torn : Nat → Nat) (call : Call)
  | crash (keep : Nat)

/-- A handle over its lives: the transactions earlier lives left, and how many transactions had a commit that succeeded. -/
structure Lives where
  journal : OverlayJournal
  kept : List (List Mutation)
  acked : Nat

/-- Every transaction that was issued, without those a crash lost. -/
def Lives.issued (l : Lives) : List (List Mutation) := l.kept ++ l.journal.issued

def Lives.step (sha : Digest) (base : Bytes) (first : Nat) (l : Lives) : Event → Except Errno Unit × Lives
  | .call refuse torn call =>
    let (result, journal) := call.run ⟨sha, refuse, torn⟩ l.journal
    (result, { l with journal, acked := max l.acked (journal.nextSequence - first) })
  | .crash keep =>
    match openJournal sha (l.journal.storage.survivors keep) base with
    | .error e => (.error e, l)
    | .ok journal => (.ok (), { l with journal, kept := l.issued.take (journal.nextSequence - first) })

variable {j : OverlayJournal} {e : Env}

/-- What commits and flushes keep of the log every call keeps. -/
theorem keeps_call {P : Log → Prop} (hcommit : ∀ ms, KeepsLog P (commitTransactionInternal e ms))
    (hflush : ∀ j : OverlayJournal, j.failure = none → P j.log → P (OverlayJournal.flush e j).2.log) (c : Call)
    (h : P j.log) : P (c.run e j).2.log := by
  cases c with
  | commit ms => exact kept_commit hcommit ms j h
  | writeFileAt reader inode baseSize offset src => exact kept_writeFileAt hcommit reader inode baseSize offset src j h
  | writeFileAtBuffered reader inode baseSize offset src =>
    exact kept_writeBufferedFileAt hcommit reader false inode baseSize offset src j h
  | truncateFileAt reader inode baseSize newSize => exact kept_truncateFileAtWithBaseTail hcommit reader inode baseSize newSize true j h
  | sync => exact kept_sync hcommit hflush j h

/-! ## The invariant -/

theorem transactionsSize_cons (ms : List Mutation) (txs : List (List Mutation)) :
    transactionsSize (ms :: txs) = transactionSize ms + transactionsSize txs := sum_cons

theorem applyTransactions_append (sha : Digest) (hasCheckpoint : Bool) (txs : List (List Mutation)) (ms : List Mutation) :
    ∀ (start : Nat) (s : OverlayState), applyTransactions sha hasCheckpoint start s (txs ++ [ms]) =
      applyMutations sha hasCheckpoint (start + transactionsSize txs) 0 (applyTransactions sha hasCheckpoint start s txs) ms := by
  induction txs with
  | nil => exact fun _ _ => rfl
  | cons tx txs ih =>
    intro start s
    rw [cons_append, applyTransactions, ih, applyTransactions, transactionsSize_cons, ← add_assoc]

theorem transactionsSize_append (txs : List (List Mutation)) (ms : List Mutation) :
    transactionsSize (txs ++ [ms]) = transactionsSize txs + transactionSize ms := by
  rw [transactionsSize, map_append, sum_append]
  rfl

/-- The journal that `txs` made of one with state `s₀`, next number `first` and end `start`. -/
structure Extends (sha : Digest) (base : Bytes) (start first : Nat) (s₀ : OverlayState)
    (txs : List (List Mutation)) (journal : Bytes) : Prop where
  replays : Replays sha base journal (first + txs.length) (applyTransactions sha false start s₀ txs)
  length : journal.length = start + transactionsSize txs

variable {ms : List Mutation} {journal : Bytes}

theorem Extends.append {sha : Digest} {base t : Bytes} {start first : Nat} {s₀ : OverlayState} {txs : List (List Mutation)}
    (h : Extends sha base start first s₀ txs journal) (hencode : encodeTransaction sha (first + txs.length) ms = .ok t)
    (hnext : first + txs.length + 1 < 2 ^ 64) : Extends sha base start first s₀ (txs ++ [ms]) (journal ++ t) where
  replays := by
    have := h.replays.append hencode hnext
    rw [h.length, ← applyTransactions_append] at this
    rwa [length_append, length_singleton, ← add_assoc]
  length := by
    obtain ⟨-, hlength, -⟩ := encodeTransaction_ok hencode
    rw [length_append, h.length, hlength, transactionsSize_append, add_assoc]

/-- What a crash may leave behind a journal: a torn tail, or the transaction in flight. -/
def Survives (sha : Digest) (base : Bytes) (start first : Nat) (s₀ : OverlayState)
    (txs issued : List (List Mutation)) (journal bytes : Bytes) : Prop :=
  (∃ tail, bytes = journal ++ tail ∧ Torn tail) ∨ ∃ ms, issued = txs ++ [ms] ∧ Extends sha base start first s₀ issued bytes

/-- The state of a log whose earlier lives left `kept`: the committed transactions `txs` are in the journal, and
whatever a crash leaves starts with them. Until a storage failure there is nothing else but a torn tail. -/
def Recoverable (sha : Digest) (base : Bytes) (start first : Nat) (s₀ : OverlayState) (kept : List (List Mutation)) (l : Log) : Prop :=
  ∃ txs journal, Extends sha base start first s₀ txs journal ∧ l.nextSequence = first + txs.length ∧ l.journalEnd = journal.length ∧
    txs <+: kept ++ l.issued ∧
    (∀ keep, Survives sha base start first s₀ txs (kept ++ l.issued) journal (l.storage.survivors keep)) ∧
    (l.failure = none → kept ++ l.issued = txs ∧ l.storage.stable = l.storage.bytes ∧
      ∃ tail, l.storage.bytes = journal ++ tail ∧ Torn tail ∧ (l.needsTailRepair = false → tail = []))

section Invariant

variable {sha : Digest} {base : Bytes} {start first : Nat} {s₀ : OverlayState} {kept : List (List Mutation)}

/-- What was flushed survives. -/
theorem survivors_of_stable {s : Storage} (h : s.stable = s.bytes) (keep : Nat) : s.survivors keep = s.bytes := by
  rw [Storage.survivors, h, if_pos (le_rfl), take_of_length_le (by omega)]

theorem log_finishTransaction (t : Bytes) (prepared : List PreparedOverlayMutation) (j : OverlayJournal) :
    (finishTransaction t prepared j).log = { j.log with journalEnd := j.journalEnd + t.length, nextSequence := j.nextSequence + 1 } := by
  have hpublish : ∀ (prepared : List PreparedOverlayMutation) (j : OverlayJournal), (prepared.foldl publishPrepared j).log = j.log := by
    intro prepared
    induction prepared with
    | nil => exact fun _ => rfl
    | cons p prepared ih => exact fun j => ih (publishPrepared j p)
  have hlog := hpublish prepared j
  simp only [log, Log.mk.injEq] at hlog
  obtain ⟨hstorage, hnext, hend, hneeds, hfailure, hissued⟩ := hlog
  simp [finishTransaction, log, hstorage, hnext, hend, hneeds, hfailure, hissued]

theorem overwrite_end (journal src : Bytes) : overwrite journal journal.length src = journal ++ src := by
  rw [overwrite, take_length, Nat.sub_self, replicate_zero, append_nil, drop_of_length_le (by omega), append_nil]

theorem repaired_eq {tail : Bytes} (hend : j.journalEnd = journal.length)
    (hstable : j.storage.stable = j.storage.bytes) (htail : j.storage.bytes = journal ++ tail)
    (hneeds : j.needsTailRepair = false → tail = []) : j.repaired = ⟨journal, journal⟩ := by
  rw [repaired]
  split_ifs with hfalse
  · rw [hend, htail, take_left]
  have hnil := hneeds (Bool.not_eq_true _ ▸ hfalse)
  rw [hnil, append_nil] at htail
  rw [← htail, show j.storage = ⟨j.storage.bytes, j.storage.stable⟩ from rfl, hstable]

/-- Until a storage failure everything that was issued is in the journal. -/
theorem Recoverable.whole (h : Recoverable sha base start first s₀ kept j.log) (hfailure : j.failure = none) :
    ∃ journal tail, Extends sha base start first s₀ (kept ++ j.issued) journal ∧
      j.nextSequence = first + (kept ++ j.issued).length ∧ j.journalEnd = journal.length ∧
      j.storage.stable = j.storage.bytes ∧ j.storage.bytes = journal ++ tail ∧ Torn tail ∧ (j.needsTailRepair = false → tail = []) := by
  obtain ⟨txs, journal, hextends, hnext, hend, -, -, hwhole⟩ := h
  obtain ⟨rfl, hstable, tail, htail⟩ := hwhole hfailure
  exact ⟨journal, tail, hextends, hnext, hend, hstable, htail⟩

/-- What a transaction that was prepared makes of the journal. -/
theorem Recoverable.extended {t : Bytes}
    (h : Recoverable e.sha base start first s₀ kept j.log) (hfailure : j.failure = none) (hprepared : PreparedFor e j ms t) :
    ∃ journal, Extends e.sha base start first s₀ (kept ++ j.issued) journal ∧
      Extends e.sha base start first s₀ (kept ++ (j.issued ++ [ms])) (journal ++ t) ∧ (∀ k < t.length, Torn (t.take k)) ∧
      j.nextSequence = first + (kept ++ j.issued).length ∧ j.journalEnd = journal.length ∧ j.repaired = ⟨journal, journal⟩ := by
  obtain ⟨journal, tail, hextends, hnext, hend, hstable, htail, -, hneeds⟩ := h.whole hfailure
  have hencode := hprepared.encoded
  have hsequence := hprepared.sequence
  have htorn : ∀ k < t.length, Torn (t.take k) := fun k hk => torn_of_encode hencode (by omega) hk
  rw [hnext] at hencode hsequence
  rw [← append_assoc]
  exact ⟨journal, hextends, hextends.append hencode hsequence, htorn, hnext, hend, repaired_eq hend hstable htail hneeds⟩

/-- A commit keeps the invariant, however it ends. -/
theorem Recoverable.commit (ms : List Mutation) :
    KeepsLog (Recoverable e.sha base start first s₀ kept) (commitTransactionInternal e ms) := by
  intro j hj
  have houtcome := commitTransactionInternal_outcome e ms j
  generalize commitTransactionInternal e ms j = result at houtcome
  cases houtcome with
  | refused error tick h => exact hj
  | empty h hfailure => exact hj
  | unrepaired error tick bytes hfailure hneeds hbytes =>
    obtain ⟨journal, tail, hextends, hnext, hend, hstable, htail, htorn, -⟩ := hj.whole hfailure
    refine ⟨_, journal, hextends, hnext, hend, prefix_rfl, fun keep => .inl ?_, nofun⟩
    show ∃ tail, Storage.survivors ⟨bytes, j.storage.stable⟩ keep = journal ++ tail ∧ Torn tail
    rcases hbytes with rfl | rfl
    · exact ⟨tail, htail ▸ survivors_of_stable hstable keep, htorn⟩
    -- the tail is cut off, but a crash may bring some of it back
    simp only [Storage.survivors, hstable, htail, hend, take_left]
    split_ifs with hle
    · refine ⟨[], ?_, torn_nil⟩
      rw [length_append] at hle ⊢
      rw [take_of_length_le (by omega), append_nil]
    · exact ⟨tail.take keep, take_length_add_append keep, htorn.take keep⟩
  | unwritten error tick written t hfailure hprepared =>
    obtain ⟨journal, hextends, hextends', htorn, hnext, hend, hrepaired⟩ := hj.extended hfailure hprepared
    refine ⟨_, journal, hextends, hnext, hend, ?_, fun keep => ?_, nofun⟩
    · show kept ++ j.issued <+: kept ++ (j.issued ++ [ms])
      rw [← append_assoc]
      exact prefix_append _ _
    show Survives e.sha base start first s₀ _ (kept ++ (j.issued ++ [ms])) journal
      (Storage.survivors ⟨overwrite j.repaired.bytes j.journalEnd (t.take written), j.repaired.stable⟩ keep)
    rw [hrepaired, hend, overwrite_end, Storage.survivors]
    simp only [length_append, Nat.le_add_right, take_length_add_append, take_take]
    by_cases hcut : min keep written < t.length
    · exact .inl ⟨t.take (min keep written), rfl, htorn _ hcut⟩
    · rw [take_of_length_le (by omega)]
      exact .inr ⟨ms, (append_assoc ..).symm, hextends'⟩
  | committed tick t prepared hfailure hne hprepared =>
    obtain ⟨journal, -, hextends, -, hnext, hend, hrepaired⟩ := hj.extended hfailure hprepared
    rw [log_finishTransaction]
    simp only [log, hrepaired, hend, overwrite_end]
    refine ⟨_, journal ++ t, hextends, ?_, ?_, prefix_rfl, fun keep => .inl ⟨[], ?_, torn_nil⟩, fun _ => ?_⟩
    · simp only [hnext, length_append, length_singleton, add_assoc]
    · rw [length_append]
    · rw [survivors_of_stable rfl, append_nil]
    · exact ⟨rfl, rfl, [], (append_nil _).symm, torn_nil, fun _ => rfl⟩

theorem Recoverable.flush (hfailure : j.failure = none)
    (h : Recoverable sha base start first s₀ kept j.log) : Recoverable sha base start first s₀ kept (OverlayJournal.flush e j).2.log := by
  rw [OverlayJournal.flush]
  split
  · exact h
  obtain ⟨_, _, _, _, _, hstable, _⟩ := h.whole hfailure
  have hsame : (⟨j.storage.bytes, j.storage.bytes⟩ : Storage) = j.storage := congrArg (Storage.mk j.storage.bytes) hstable.symm
  rw [hsame]
  exact h

/-- Numbers are never used again. -/
theorem nextSequence_call (j : OverlayJournal) (c : Call) : j.nextSequence ≤ (c.run e j).2.nextSequence := by
  refine keeps_call (P := fun l => j.nextSequence ≤ l.nextSequence) (fun ms j₁ hj => ?_) (fun j₁ _ hj => ?_) c (le_rfl)
  · have houtcome := commitTransactionInternal_outcome e ms j₁
    generalize commitTransactionInternal e ms j₁ = result at houtcome
    cases houtcome with
    | committed tick t prepared hfailure hne hprepared =>
      show j.nextSequence ≤ (finishTransaction t prepared _).log.nextSequence
      rw [log_finishTransaction]
      exact Nat.le_succ_of_le hj
    | refused | empty | unrepaired | unwritten => exact hj
  · rw [OverlayJournal.flush]
    split <;> exact hj

/-- What a reopening after a crash finds. -/
theorem Recoverable.reopens {l : Log} (h : Recoverable sha base start first s₀ kept l) (keep : Nat) :
    ∃ txs journal tail, openJournal sha (l.storage.survivors keep) base =
        .ok (openedHandle (journal ++ tail) base none (applyTransactions sha false start s₀ txs) (first + txs.length) journal.length) ∧
      Extends sha base start first s₀ txs journal ∧ Torn tail ∧ txs <+: kept ++ l.issued ∧ l.nextSequence ≤ first + txs.length := by
  obtain ⟨txs, journal, hextends, hnext, -, hprefix, hsurvives, -⟩ := h
  rcases hsurvives keep with ⟨tail, hbytes, htorn⟩ | ⟨ms, hissued, hextends'⟩
  · rw [hbytes]
    exact ⟨txs, journal, tail, hextends.replays.opens htorn, hextends, htorn, hprefix, le_of_eq hnext⟩
  refine ⟨kept ++ l.issued, l.storage.survivors keep, [], ?_, hextends', torn_nil, prefix_rfl, ?_⟩
  · have := hextends'.replays.opens torn_nil
    rwa [append_nil] at this ⊢
  · rw [hissued, length_append]
    omega

/-- After an opening there is nothing but a torn tail. -/
theorem recoverable_opened {tail : Bytes} {txs : List (List Mutation)} (hextends : Extends sha base start first s₀ txs journal)
    (htorn : Torn tail) (state : OverlayState) :
    Recoverable sha base start first s₀ txs (openedHandle (journal ++ tail) base none state (first + txs.length) journal.length).log := by
  refine ⟨txs, journal, hextends, rfl, rfl, by simp [log], fun keep => .inl ⟨tail, survivors_of_stable rfl keep, htorn⟩, fun _ => ?_⟩
  refine ⟨append_nil _, rfl, tail, rfl, htorn, fun hneeds => ?_⟩
  have : ¬journal.length < (journal ++ tail).length := of_decide_eq_false hneeds
  rw [length_append] at this
  exact length_eq_zero_iff.mp (by omega)

end Invariant

/-! ## What an answer promises -/

section Answers

open Fallible

variable {e : Env}

variable {j' : OverlayJournal}

/-- The transaction that mutations make: none, if there are none. -/
def transactionOf (ms : List Mutation) : List (List Mutation) := if ms = [] then [] else [ms]

theorem dirtyMutations_finishTransaction (t : Bytes) (prepared : List PreparedOverlayMutation) (j : OverlayJournal) :
    (finishTransaction t prepared j).dirtyMutations = j.dirtyMutations := by
  have hpublish : ∀ j : OverlayJournal, (prepared.foldl publishPrepared j).dirtyMutations = j.dirtyMutations := by
    induction prepared with
    | nil => exact fun _ => rfl
    | cons p prepared ih => exact fun j => ih (publishPrepared j p)
  exact hpublish j

theorem dirtyMutations_eq_nil : (j.dirtyBlocks.isEmpty && j.dirtySizes.entries.isEmpty) = true ↔ j.dirtyMutations = [] := by
  simp [dirtyMutations]

/-- A transaction that is committed is issued, and leaves no failure and no torn tail. -/
theorem commitTransactionInternal_ok (h : commitTransactionInternal e ms j = (.ok (), j')) :
    j'.failure = none ∧ (ms ≠ [] → j'.needsTailRepair = false) ∧ j'.issued = j.issued ++ transactionOf ms ∧
      j'.dirtyMutations = j.dirtyMutations := by
  have houtcome := commitTransactionInternal_outcome e ms j
  rw [h] at houtcome
  cases houtcome with
  | empty hempty hfailure => exact ⟨hfailure, fun hne => absurd hempty hne, by rw [transactionOf, if_pos hempty, append_nil], rfl⟩
  | committed tick t prepared hfailure hne hprepared =>
    have hlog := log_finishTransaction t prepared { j with
      tick
      needsTailRepair := false
      issued := j.issued ++ [ms]
      storage := ⟨overwrite j.repaired.bytes j.journalEnd t, overwrite j.repaired.bytes j.journalEnd t⟩ }
    refine ⟨(congrArg Log.failure hlog).trans hfailure, fun _ => congrArg Log.needsTailRepair hlog, ?_,
      dirtyMutations_finishTransaction t prepared _⟩
    rw [transactionOf, if_neg hne]
    exact congrArg Log.issued hlog

/-- A flush that succeeds has issued what was dirty. -/
theorem flushDirty_ok (hfailure : j.failure = none) (h : flushDirty e j = (.ok (), j')) :
    j'.failure = none ∧ j'.issued = j.issued ++ transactionOf j.dirtyMutations ∧ j'.dirtyMutations = [] := by
  obtain ⟨_, _, hget, h⟩ := bind_ok h
  cases hget
  split at h
  · rename_i hclean
    cases h
    have hnil := dirtyMutations_eq_nil.mp hclean
    exact ⟨hfailure, by rw [transactionOf, if_pos hnil, append_nil], hnil⟩
  obtain ⟨_, j₁, hallocate, h⟩ := bind_ok h
  obtain ⟨_, j₂, hcommit, h⟩ := bind_ok h
  cases h
  obtain ⟨hfailure, -, hissued, -⟩ := commitTransactionInternal_ok hcommit
  refine ⟨hfailure, hissued.trans (congrArg (· ++ _) ?_), rfl⟩
  rw [allocate] at hallocate
  split at hallocate <;> cases hallocate
  rfl

theorem checkActiveTailLimit_ok (h : checkActiveTailLimit j = (.ok (), j')) : j' = j := by
  obtain ⟨_, _, hget, h⟩ := bind_ok h
  cases hget
  cases hlimit : j.tailLimitBytes with
  | none =>
    rw [hlimit] at h
    cases h
    rfl
  | some limit =>
    simp only [hlimit] at h
    split_ifs at h <;> cases h
    rfl

theorem commit_ok (h : OverlayJournal.commit e ms j = (.ok (), j')) : j'.failure = none ∧ (ms ≠ [] → j'.needsTailRepair = false) ∧
      j'.issued = j.issued ++ transactionOf j.dirtyMutations ++ transactionOf ms ∧ j'.dirtyMutations = [] := by
  obtain ⟨_, _, hget, h⟩ := bind_ok h
  cases hget
  cases hfailure : j.failure with
  | some error =>
    rw [hfailure] at h
    cases h
  | none =>
    simp only [hfailure] at h
    split_ifs at h with hempty
    · obtain ⟨hfailure, hissued, hnil⟩ := flushDirty_ok hfailure h
      exact ⟨hfailure, fun hne => absurd hempty hne, by rw [hissued, transactionOf.eq_def ms, if_pos hempty, append_nil], hnil⟩
    obtain ⟨_, j₁, hlimit, h⟩ := bind_ok h
    obtain ⟨_, j₂, hflush, h⟩ := bind_ok h
    obtain ⟨_, j₃, hlimit', h⟩ := bind_ok h
    rw [checkActiveTailLimit_ok hlimit] at hflush
    rw [checkActiveTailLimit_ok hlimit'] at h
    obtain ⟨-, hissued, hnil⟩ := flushDirty_ok hfailure hflush
    obtain ⟨hfailure, hneeds, hissued', hnil'⟩ := commitTransactionInternal_ok h
    exact ⟨hfailure, hneeds, by rw [hissued', hissued], hnil'.trans hnil⟩

theorem sync_ok (h : OverlayJournal.sync e j = (.ok (), j')) :
    j'.failure = none ∧ j'.issued = j.issued ++ transactionOf j.dirtyMutations ∧ j'.dirtyMutations = [] := by
  obtain ⟨_, _, hget, h⟩ := bind_ok h
  cases hget
  cases hfailure : j.failure with
  | some error =>
    rw [hfailure] at h
    cases h
  | none =>
    simp only [hfailure] at h
    split at h
    · rename_i hclean
      have hnil := dirtyMutations_eq_nil.mp hclean
      rw [OverlayJournal.flush] at h
      split at h <;> cases h
      exact ⟨hfailure, by rw [transactionOf, if_pos hnil, append_nil], hnil⟩
    · exact flushDirty_ok hfailure h

end Answers

/-! ## Recovery -/

section Lives

variable {sha : Digest} {base : Bytes} {start first : Nat} {s₀ : OverlayState}

/-- The invariant of a run of calls and crashes. -/
def Lives.Sound (sha : Digest) (base : Bytes) (start first : Nat) (s₀ : OverlayState) (l : Lives) : Prop :=
  Recoverable sha base start first s₀ l.kept l.journal.log ∧ first + l.acked ≤ l.journal.nextSequence

variable {l : Lives}

theorem Lives.Sound.step (h : l.Sound sha base start first s₀) (event : Event) :
    (l.step sha base first event).2.Sound sha base start first s₀ := by
  obtain ⟨hlog, hacked⟩ := h
  cases event with
  | call refuse torn c =>
    have hnext := nextSequence_call (e := ⟨sha, refuse, torn⟩) l.journal c
    refine ⟨keeps_call (e := ⟨sha, refuse, torn⟩) Recoverable.commit (fun j hfailure hj => hj.flush hfailure) c hlog, ?_⟩
    show first + max l.acked ((c.run _ l.journal).2.nextSequence - first) ≤ (c.run _ l.journal).2.nextSequence
    omega
  | crash keep =>
    obtain ⟨txs, journal, tail, hopen, hextends, htorn, hprefix, hle⟩ := hlog.reopens keep
    have hkept : l.issued.take txs.length = txs := (prefix_iff_eq_take.mp hprefix).symm
    simp only [Lives.step]
    rw [show l.journal.storage.survivors keep = l.journal.log.storage.survivors keep from rfl, hopen]
    simp only [openedHandle, Nat.add_sub_cancel_left, hkept]
    exact ⟨recoverable_opened hextends htorn _, le_trans hacked hle⟩

theorem Lives.Sound.run (h : l.Sound sha base start first s₀) (events : List Event) :
    (Machine.run (Lives.step sha base first) l events).Sound sha base start first s₀ :=
  Machine.run_invariant (fun _ event hl => hl.step event) events h

theorem lives_sound {stored : Bytes} {j₀ : OverlayJournal} (hopen : openJournal sha stored base = .ok j₀) (hj : j.log = j₀.log) :
    Lives.Sound sha base j₀.journalEnd j₀.nextSequence j₀.state ⟨j, [], 0⟩ := by
  obtain ⟨journal, tail, hreplays, htorn, hopened⟩ := open_replays hopen
  have hend : j₀.journalEnd = journal.length := by rw [hopened]; rfl
  refine ⟨?_, ?_⟩
  · have hextends : Extends sha base j₀.journalEnd j₀.nextSequence j₀.state [] journal := ⟨hreplays, hend.symm⟩
    have := recoverable_opened hextends htorn j₀.state
    rw [length_nil, add_zero, ← hopened, ← hj] at this
    exact this
  · exact le_of_eq (congrArg Log.nextSequence hj).symm

/-- With no failure, all that was issued is acknowledged. -/
theorem Lives.Sound.acked_eq (h : l.Sound sha base start first s₀) (hfailure : l.journal.failure = none)
    (hacked : l.journal.nextSequence - first ≤ l.acked) : l.acked = l.issued.length := by
  obtain ⟨_, _, _, hnext, _⟩ := h.1.whole hfailure
  have := h.2
  rw [Lives.issued]
  omega

theorem Lives.Sound.repaired (h : l.Sound sha base start first s₀) (hfailure : l.journal.failure = none)
    (hneeds : l.journal.needsTailRepair = false) :
    l.journal.storage.bytes.length = l.journal.journalEnd ∧ l.journal.storage.stable = l.journal.storage.bytes := by
  obtain ⟨journal, tail, -, -, hend, hstable, htail, -, hnil⟩ := h.1.whole hfailure
  rw [hnil hneeds, append_nil] at htail
  exact ⟨by rw [htail, hend], hstable⟩

end Lives

/-- Recovery. Take any handle on a journal that was opened, with whatever index, limits and caches; any run of calls, with
any failures of the host, and of crashes; and any crash after it. What survives opens, and its state is that of the journal
at first with a prefix of the transactions issued since, which has all whose commit succeeded. A `commit` or a `sync` that
succeeds has issued what was buffered, and the `commit` then its own mutations. Neither leaves an issued transaction out of
that count, and a `commit` that wrote leaves no torn bytes. -/
theorem recovers (sha : Digest) (base : Bytes) {stored : Bytes} {j₀ j : OverlayJournal} (hopen : openJournal sha stored base = .ok j₀)
    (hj : j.log = j₀.log) (events : List Event) :
    let l := Machine.run (Lives.step sha base j₀.nextSequence) ⟨j, [], 0⟩ events
    (∀ keep, ∃ k reopened, openJournal sha (l.journal.storage.survivors keep) base = .ok reopened ∧ l.acked ≤ k ∧ k ≤ l.issued.length ∧
      reopened.nextSequence = j₀.nextSequence + k ∧
      reopened.state = applyTransactions sha false j₀.journalEnd j₀.state (l.issued.take k)) ∧
    (∀ refuse torn ms l', l.step sha base j₀.nextSequence (.call refuse torn (.commit ms)) = (.ok (), l') →
      l'.acked = l'.issued.length ∧
      l'.issued = l.issued ++ transactionOf l.journal.dirtyMutations ++ transactionOf ms ∧ l'.journal.dirtyMutations = [] ∧
      (ms ≠ [] → l'.journal.storage.bytes.length = l'.journal.journalEnd ∧ l'.journal.storage.stable = l'.journal.storage.bytes)) ∧
    ∀ refuse torn l', l.step sha base j₀.nextSequence (.call refuse torn .sync) = (.ok (), l') → l'.acked = l'.issued.length ∧
      l'.issued = l.issued ++ transactionOf l.journal.dirtyMutations ∧ l'.journal.dirtyMutations = [] := by
  intro l
  have hsound := (lives_sound hopen hj).run events
  refine ⟨fun keep => ?_, fun refuse torn ms l' hstep => ?_, fun refuse torn l' hstep => ?_⟩
  · obtain ⟨hlog, hacked⟩ := hsound
    obtain ⟨txs, journal, tail, hreopen, -, -, hprefix, hle⟩ := hlog.reopens keep
    refine ⟨txs.length, _, hreopen, ?_, hprefix.length_le, rfl, ?_⟩
    · have : j₀.nextSequence + l.acked ≤ j₀.nextSequence + txs.length := le_trans hacked hle
      omega
    · rw [show l.issued.take txs.length = txs from (prefix_iff_eq_take.mp hprefix).symm]
      rfl
  · have hsound' := hsound.step (.call refuse torn (.commit ms))
    rw [show Lives.step sha base j₀.nextSequence _ _ = _ from hstep] at hsound'
    obtain ⟨hresult, rfl⟩ := Prod.mk.inj hstep
    obtain ⟨hfailure, hneeds, hissued, hclean⟩ := commit_ok (e := ⟨sha, refuse, torn⟩) (Prod.ext hresult rfl)
    refine ⟨hsound'.acked_eq hfailure (le_max_right _ _), ?_, hclean, fun hne => hsound'.repaired hfailure (hneeds hne)⟩
    exact (congrArg (l.kept ++ ·) hissued).trans (by simp only [Lives.issued, append_assoc])
  · have hsound' := hsound.step (.call refuse torn .sync)
    rw [show Lives.step sha base j₀.nextSequence _ _ = _ from hstep] at hsound'
    obtain ⟨hresult, rfl⟩ := Prod.mk.inj hstep
    obtain ⟨hfailure, hissued, hclean⟩ := sync_ok (e := ⟨sha, refuse, torn⟩) (Prod.ext hresult rfl)
    refine ⟨hsound'.acked_eq hfailure (le_max_right _ _), ?_, hclean⟩
    exact (congrArg (l.kept ++ ·) hissued).trans (by simp only [Lives.issued, append_assoc])

/-- A digest to run the model with. -/
def noDigest : Digest := ⟨fun _ => List.replicate 32 0, fun _ => List.length_replicate⟩

/-- A handle on a new journal, with a buffered size. -/
def buffering : OverlayJournal :=
  { openedHandle (journalHeader noDigest (List.replicate 32 0)) (List.replicate 32 0) none OverlayState.default 1 headerBytes with
    dirtySizes := OrdMap.empty.insert 1 5 }

/-- A commit whose flush fails, and a crash that keeps three bytes of it. -/
def failsAndCrashes : List Event :=
  [.call (fun n => if n = 4 then some Errno.EIO else none) id (.commit [.put (.inode 1) [7]]), .crash 3]

/-- A commit that succeeds after this is there after every crash. -/
theorem recovers_buffering :
    let l := Machine.run (Lives.step noDigest (List.replicate 32 0) 1) ⟨buffering, [], 0⟩ failsAndCrashes
    let last := Lives.step noDigest (List.replicate 32 0) 1 l (.call (fun _ => none) id (.commit [.put (.inode 2) [7]]))
    last.1 = .ok () ∧ last.2.issued = l.issued ++ [[.put (.inode 2) [7]]] ∧
      ∀ keep, ∃ reopened, openJournal noDigest (last.2.journal.storage.survivors keep) (List.replicate 32 0) = .ok reopened ∧
        reopened.state = applyTransactions noDigest false headerBytes OverlayState.default last.2.issued := by
  intro l last
  have hlast : last.1 = .ok () := by decide +kernel
  have hclean : l.journal.dirtyMutations = [] := by decide +kernel
  have hrecovers := recovers noDigest (List.replicate 32 0) (openJournal_nil noDigest length_replicate) (j := buffering) rfl
  obtain ⟨-, hcommit, -⟩ := hrecovers failsAndCrashes
  obtain ⟨hacked, hissued, -⟩ := hcommit (fun _ => none) id [.put (.inode 2) [7]] last.2 (Prod.ext hlast rfl)
  obtain ⟨hreopens, -⟩ := hrecovers (failsAndCrashes ++ [.call (fun _ => none) id (.commit [.put (.inode 2) [7]])])
  rw [show Machine.run _ _ (failsAndCrashes ++ _) = last.2 from rfl] at hreopens
  refine ⟨hlast, ?_, fun keep => ?_⟩
  · calc last.2.issued = l.issued ++ transactionOf l.journal.dirtyMutations ++ [[.put (.inode 2) [7]]] := hissued
      _ = l.issued ++ [[.put (.inode 2) [7]]] := by rw [hclean, transactionOf, if_pos rfl, append_nil]
  obtain ⟨k, reopened, hopen, hle, hge, -, hstate⟩ := hreopens keep
  have hall : k = last.2.issued.length := Nat.le_antisymm hge (hacked ▸ hle)
  refine ⟨reopened, hopen, hstate.trans ?_⟩
  rw [hall]
  exact congrArg _ take_length

end Kandelo.Overlay

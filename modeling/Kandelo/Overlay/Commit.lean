/-
What committing a transaction can do to a handle: `commitTransactionInternal_outcome`, one
constructor of `CommitOutcome` for each way it ends. Nothing of the handle changes unless the
storage was touched; once it was, either the transaction is published or the failure is kept.
-/
import Kandelo.Overlay.File

namespace Kandelo.Overlay

namespace OverlayJournal

open Fallible

/-- What was prepared for a transaction before the storage is touched. -/
structure PreparedFor (e : Env) (j : OverlayJournal) (ms : List Mutation) (t : Bytes) : Prop where
  encoded : encodeTransaction e.sha j.nextSequence ms = .ok t
  sequence : j.nextSequence + 1 < 2 ^ 64

theorem allocate_apply (e : Env) (j : OverlayJournal) :
    (∃ error, allocate e j = (.error error, { j with tick := j.tick + 1 })) ∨ allocate e j = (.ok (), { j with tick := j.tick + 1 }) := by
  rw [allocate]
  split
  · exact .inl ⟨_, rfl⟩
  · exact .inr rfl

theorem prepareTransaction_cases (e : Env) (ms : List Mutation) (j : OverlayJournal) :
    ∃ tick, (∃ error, prepareTransaction e ms j = (.error error, { j with tick })) ∨
      ∃ t prepared, prepareTransaction e ms j = (.ok (t, prepared), { j with tick }) ∧ PreparedFor e j ms t := by
  simp only [prepareTransaction, bind_apply, get_apply]
  split
  · exact ⟨j.tick, .inl ⟨_, rfl⟩⟩
  simp only [bind_apply, lift]
  cases hencode : encodeTransaction e.sha j.nextSequence ms with
  | error error => exact ⟨j.tick, .inl ⟨error, rfl⟩⟩
  | ok t =>
    simp only
    rcases allocate_apply e j with ⟨error, ha⟩ | ha <;> rw [ha]
    · exact ⟨_, .inl ⟨error, rfl⟩⟩
    simp only
    split
    · exact ⟨_, .inl ⟨_, rfl⟩⟩
    split_ifs
    · simp only [bind_apply, lift]
      cases decodeMutations ((t.take (t.length - transactionTrailerBytes)).drop transactionHeaderBytes) with
      | error error => exact ⟨_, .inl ⟨error, rfl⟩⟩
      | ok records =>
        simp only
        rcases allocate_apply e { j with tick := j.tick + 1 } with ⟨error, hb⟩ | hb <;> rw [hb]
        · exact ⟨_, .inl ⟨error, rfl⟩⟩
        cases prepareRecords e.sha j.checkpoint.isSome j.trackCommittedState j.journalEnd records with
        | error error => exact ⟨_, .inl ⟨error, rfl⟩⟩
        | ok prepared => exact ⟨_, .inr ⟨t, prepared, rfl, hencode, by omega⟩⟩
    · exact ⟨_, .inr ⟨t, [], rfl, hencode, by omega⟩⟩

/-- The storage with its torn tail cut off. -/
def repaired (j : OverlayJournal) : Storage :=
  if j.needsTailRepair then ⟨j.storage.bytes.take j.journalEnd, j.storage.bytes.take j.journalEnd⟩ else j.storage

theorem repairTail_cases (e : Env) (j : OverlayJournal) :
    ∃ tick, repairTail e j = (.ok (), { j with tick, storage := j.repaired, needsTailRepair := false }) ∨
      ∃ error bytes, repairTail e j = (.error error, { j with tick, storage := ⟨bytes, j.storage.stable⟩, failure := some error }) ∧
        j.needsTailRepair ∧ (bytes = j.storage.bytes ∨ bytes = j.storage.bytes.take j.journalEnd) := by
  simp only [repairTail, bind_apply, get_apply, repaired]
  split_ifs with hneeds
  · simp only [recordFailure, onError, bind_apply, truncate]
    cases hr : e.refuse j.tick with
    | some error => exact ⟨_, .inr ⟨error, j.storage.bytes, rfl, hneeds, .inl rfl⟩⟩
    | none =>
      simp only [flush]
      cases hr' : e.refuse (j.tick + 1) with
      | some error => exact ⟨_, .inr ⟨error, _, rfl, hneeds, .inr rfl⟩⟩
      | none => exact ⟨_, .inl rfl⟩
  · rw [Bool.not_eq_true] at hneeds
    exact ⟨j.tick, .inl (by simp [pure_apply, ← hneeds])⟩

theorem appendTransaction_cases (e : Env) (ms : List Mutation) (t : Bytes) (j : OverlayJournal) :
    ∃ tick, (appendTransaction e ms t j = (.ok (), { j with
          tick
          issued := j.issued ++ [ms]
          storage := ⟨overwrite j.storage.bytes j.journalEnd t, overwrite j.storage.bytes j.journalEnd t⟩ })) ∨
      ∃ error written, appendTransaction e ms t j = (.error error, { j with
          tick
          issued := j.issued ++ [ms]
          failure := some error
          storage := ⟨overwrite j.storage.bytes j.journalEnd (t.take written), j.storage.stable⟩ }) := by
  simp only [appendTransaction, bind_apply, get_apply, modify_apply, recordFailure, onError, writeAllAt]
  cases hr : e.refuse j.tick with
  | some error => exact ⟨_, .inr ⟨error, e.torn j.tick, rfl⟩⟩
  | none =>
    simp only [flush]
    cases hr' : e.refuse (j.tick + 1) with
    | some error => exact ⟨_, .inr ⟨error, t.length, by rw [List.take_length]; rfl⟩⟩
    | none => exact ⟨_, .inl rfl⟩

/-- The ways a commit ends. -/
inductive CommitOutcome (e : Env) (ms : List Mutation) (j : OverlayJournal) : Except Errno Unit × OverlayJournal → Prop
  /-- Nothing was written. -/
  | refused (error : Errno) (tick : Nat) (h : ∀ kept, j.failure = some kept → error = kept) :
    CommitOutcome e ms j (.error error, { j with tick })
  | empty (h : ms = []) (hfailure : j.failure = none) : CommitOutcome e ms j (.ok (), j)
  | unrepaired (error : Errno) (tick : Nat) (bytes : Bytes) (hfailure : j.failure = none) (hneeds : j.needsTailRepair)
    (hbytes : bytes = j.storage.bytes ∨ bytes = j.storage.bytes.take j.journalEnd) :
    CommitOutcome e ms j (.error error, { j with tick, storage := ⟨bytes, j.storage.stable⟩, failure := some error })
  | unwritten (error : Errno) (tick written : Nat) (t : Bytes) (hfailure : j.failure = none) (hprepared : PreparedFor e j ms t) :
    CommitOutcome e ms j (.error error, { j with
      tick
      needsTailRepair := false
      issued := j.issued ++ [ms]
      failure := some error
      storage := ⟨overwrite j.repaired.bytes j.journalEnd (t.take written), j.repaired.stable⟩ })
  | committed (tick : Nat) (t : Bytes) (prepared : List PreparedOverlayMutation) (hfailure : j.failure = none) (hne : ms ≠ [])
    (hprepared : PreparedFor e j ms t) :
    CommitOutcome e ms j (.ok (), finishTransaction t prepared { j with
      tick
      needsTailRepair := false
      issued := j.issued ++ [ms]
      storage := ⟨overwrite j.repaired.bytes j.journalEnd t, overwrite j.repaired.bytes j.journalEnd t⟩ })

theorem commitTransactionInternal_outcome (e : Env) (ms : List Mutation) (j : OverlayJournal) :
    CommitOutcome e ms j (commitTransactionInternal e ms j) := by
  simp only [commitTransactionInternal, bind_apply, get_apply]
  cases hfailure : j.failure with
  | some error => exact .refused error j.tick fun kept h => Option.some.inj (hfailure.symm.trans h)
  | none =>
    split_ifs with hempty
    · exact .empty hempty hfailure
    have hnone : ∀ error kept, j.failure = some kept → error = kept := by
      intro error kept h
      rw [hfailure] at h
      cases h
    simp only [bind_apply]
    obtain ⟨tick, ⟨error, hp⟩ | ⟨t, prepared, hp, hprepared⟩⟩ := prepareTransaction_cases e ms j <;> rw [hp]
    · exact .refused error tick (hnone error)
    simp only
    obtain ⟨tick₁, hr | ⟨error, bytes, hr, hneeds, hbytes⟩⟩ := repairTail_cases e { j with tick } <;> rw [hr]
    · simp only
      obtain ⟨tick₂, ha⟩ := appendTransaction_cases e ms t { j with tick := tick₁, storage := j.repaired, needsTailRepair := false }
      rcases ha with ha | ha
      · rw [show repaired { j with tick } = j.repaired from rfl, ha]
        exact .committed tick₂ t prepared hfailure hempty hprepared
      obtain ⟨error, written, ha⟩ := ha
      rw [show repaired { j with tick } = j.repaired from rfl, ha]
      exact .unwritten error tick₂ written t hfailure hprepared
    · exact .unrepaired error tick₁ bytes hfailure hneeds hbytes

end OverlayJournal

end Kandelo.Overlay

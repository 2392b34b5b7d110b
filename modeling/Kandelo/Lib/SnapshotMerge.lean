/-
Copies of one shared value, each kept in step by comparing it with the snapshot
of what its observer last saw: an observer publishes the positions where its copy
differs from its snapshot, and then takes over the authoritative value.

Two facts carry such a protocol. A position that only one observer has changed is
not lost, whoever else publishes and in whatever order (`Held`); and once nothing
is left to publish (`Quiet`), whoever takes over the authoritative value agrees
with it from then on (`Agrees`). `Follows` is what a step may do that stores
nothing: some observers synchronise, some go, and some come.
-/
import Mathlib

namespace SnapshotMerge

open Function

variable {ι κ α : Type*}

/-- The authoritative value and, for each observer and each position it covers,
its copy and its snapshot. -/
structure Shared (ι κ α : Type*) where
  auth : κ → α
  copy : ι → κ → Option (α × α)

section Defs

variable [DecidableEq ι] [DecidableEq α]

/-- What an observer has stored at a position and not published. -/
def pending : Option (α × α) → Option α
  | some (mem, snap) => if mem = snap then none else some mem
  | none => none

def publish (s : Shared ι κ α) (i : ι) : Shared ι κ α where
  auth := fun k => (pending (s.copy i k)).getD (s.auth k)
  copy := update s.copy i fun k => (s.copy i k).map fun c => (c.1, c.1)

def refresh (s : Shared ι κ α) (i : ι) : Shared ι κ α where
  auth := s.auth
  copy := update s.copy i fun k => (s.copy i k).map fun _ => (s.auth k, s.auth k)

def sync (s : Shared ι κ α) (i : ι) : Shared ι κ α := refresh (publish s i) i

end Defs

section Facts

variable [DecidableEq ι] [DecidableEq α]

@[simp] theorem pending_same (a : α) : pending (some (a, a)) = none := if_pos rfl

theorem pending_map_same (c : Option (α × α)) (f : α × α → α) : pending (c.map fun x => (f x, f x)) = none := by
  cases c with
  | none => rfl
  | some c => exact pending_same _

/-! ## A change made by one observer -/

/-- Only `i` has changed position `k`: it still holds `v` unpublished, or `v` is
the authoritative value there. -/
def Held (s : Shared ι κ α) (i : ι) (k : κ) (v : α) : Prop :=
  (∀ j, j ≠ i → pending (s.copy j k) = none) ∧ (pending (s.copy i k) = some v ∨ pending (s.copy i k) = none ∧ s.auth k = v)

variable {s : Shared ι κ α} {k : κ} {i : ι} {v : α}

theorem Held.publish (h : Held s i k v) (j : ι) : Held (publish s j) i k v := by
  obtain ⟨hothers, hown⟩ := h
  have hquiet : pending ((SnapshotMerge.publish s j).copy j k) = none := by
    simp only [SnapshotMerge.publish, update_self]
    exact pending_map_same _ _
  have hsame : ∀ j', j' ≠ j → (SnapshotMerge.publish s j).copy j' k = s.copy j' k := fun j' hj' => by
    simp [SnapshotMerge.publish, update_of_ne hj']
  refine ⟨fun j' hj' => ?_, ?_⟩
  · by_cases hj : j' = j
    · rw [hj]
      exact hquiet
    · rw [hsame j' hj]
      exact hothers j' hj'
  by_cases hj : i = j
  · subst hj
    refine .inr ⟨hquiet, ?_⟩
    simp only [SnapshotMerge.publish]
    rcases hown with hown | ⟨hown, hv⟩
    · rw [hown, Option.getD_some]
    · rw [hown, Option.getD_none, hv]
  · -- another observer has nothing to publish here
    rw [hsame i hj]
    simp only [SnapshotMerge.publish, hothers j (Ne.symm hj), Option.getD_none]
    exact hown

variable {j : ι}

/-- Taking over the authoritative value loses nothing once it is published. -/
theorem Held.refresh (h : Held s i k v) (hj : pending (s.copy j k) = none) : Held (refresh s j) i k v := by
  obtain ⟨hothers, hown⟩ := h
  have hquiet : pending ((SnapshotMerge.refresh s j).copy j k) = none := by
    simp only [SnapshotMerge.refresh, update_self]
    exact pending_map_same _ fun _ => s.auth k
  have hsame : ∀ j', pending ((SnapshotMerge.refresh s j).copy j' k) = pending (s.copy j' k) := by
    intro j'
    by_cases heq : j' = j
    · rw [heq, hquiet, hj]
    · simp [SnapshotMerge.refresh, update_of_ne heq]
  refine ⟨fun j' hj' => (hsame j').trans (hothers j' hj'), ?_⟩
  rw [hsame i]
  exact hown

/-- Whatever leaves what is authoritative and what is stored at the position alone. -/
theorem Held.of_pointwise {s' : Shared ι κ α} (h : Held s i k v)
    (hauth : s'.auth k = s.auth k) (hpending : ∀ j, pending (s'.copy j k) = pending (s.copy j k)) : Held s' i k v := by
  refine ⟨fun j hj => (hpending j).trans (h.1 j hj), ?_⟩
  rw [hpending, hauth]
  exact h.2

/-- Once `i` has published, its change is authoritative. -/
theorem Held.auth_of_quiet (h : Held s i k v) (hquiet : pending (s.copy i k) = none) : s.auth k = v := by
  rcases h.2 with h | h
  · rw [hquiet] at h
    cases h
  · exact h.2

theorem Held.sync (h : Held s i k v) (j : ι) : Held (sync s j) i k v := by
  refine (h.publish j).refresh ?_
  simp only [SnapshotMerge.publish, update_self]
  exact pending_map_same _ _

/-! ## Several observers in turn -/

theorem sync_copy_self (s : Shared ι κ α) (i : ι) (k : κ) :
    (sync s i).copy i k = (s.copy i k).map fun _ => ((sync s i).auth k, (sync s i).auth k) := by
  simp only [sync, refresh, publish, update_self, Option.map_map]
  rfl

theorem sync_copy_other (s : Shared ι κ α) (h : j ≠ i) : (sync s i).copy j = s.copy j := by
  simp [sync, refresh, publish, update_of_ne h]

theorem pending_sync_self (s : Shared ι κ α) (i : ι) (k : κ) : pending ((sync s i).copy i k) = none := by
  rw [sync_copy_self]
  exact pending_map_same _ fun _ => (sync s i).auth k

theorem pending_sync (h : pending (s.copy j k) = none) (i : ι) : pending ((sync s i).copy j k) = none := by
  by_cases hj : j = i
  · rw [hj]
    exact pending_sync_self s i k
  · rw [sync_copy_other s hj]
    exact h

def syncAll (s : Shared ι κ α) (is : List ι) : Shared ι κ α := is.foldl sync s

theorem syncAll_append (s : Shared ι κ α) (is js : List ι) : syncAll s (is ++ js) = syncAll (syncAll s is) js :=
  List.foldl_append

theorem Held.syncAll (h : Held s i k v) (is : List ι) : Held (syncAll s is) i k v := by
  induction is generalizing s with
  | nil => exact h
  | cons j is ih => exact ih (h.sync j)

theorem pending_syncAll (h : pending (s.copy j k) = none) (is : List ι) : pending ((syncAll s is).copy j k) = none := by
  induction is generalizing s with
  | nil => exact h
  | cons i is ih => exact ih (pending_sync h i)

/-- An observer that has synchronised has nothing left to publish. -/
theorem pending_syncAll_of_mem {is : List ι} (h : j ∈ is) (k : κ) : pending ((syncAll s is).copy j k) = none := by
  induction is generalizing s with
  | nil => cases h
  | cons i is ih =>
    rcases List.mem_cons.mp h with rfl | h
    · exact pending_syncAll (pending_sync_self s j k) is
    · exact ih h

/-! ## Agreement -/

/-- Nothing is stored and not published. -/
def Quiet (s : Shared ι κ α) : Prop := ∀ i k, pending (s.copy i k) = none

/-- The copy of `i` is the authoritative value, wherever it covers it. -/
def Agrees (s : Shared ι κ α) (i : ι) : Prop := ∀ k c, s.copy i k = some c → c = (s.auth k, s.auth k)

/-- Who agrees gains nothing by synchronising. -/
theorem sync_of_agrees (h : Agrees s i) : sync s i = s := by
  have hauth : (sync s i).auth = s.auth := by
    funext k
    simp only [sync, refresh, publish]
    cases hc : s.copy i k with
    | none => rfl
    | some c => rw [h k c hc, pending_same, Option.getD_none]
  have hcopy : (sync s i).copy = s.copy := by
    funext j k
    by_cases hj : j = i
    · subst hj
      rw [sync_copy_self, hauth]
      cases hc : s.copy j k with
      | none => rfl
      | some c => rw [h k c hc, Option.map_some]
    · rw [sync_copy_other s hj]
  cases s
  exact congrArg₂ Shared.mk hauth hcopy

theorem Quiet.sync_auth (h : Quiet s) (i : ι) : (sync s i).auth = s.auth := by
  funext k
  simp [sync, refresh, publish, h i k]

theorem Quiet.sync (h : Quiet s) (i : ι) : Quiet (sync s i) := fun j k => pending_sync (h j k) i

theorem agrees_sync_self (s : Shared ι κ α) (i : ι) : Agrees (sync s i) i := by
  intro k c hc
  rw [sync_copy_self, Option.map_eq_some_iff] at hc
  obtain ⟨_, _, rfl⟩ := hc
  rfl

theorem Quiet.agrees_sync (h : Quiet s) (hj : Agrees s j) (i : ι) : Agrees (SnapshotMerge.sync s i) j := by
  by_cases hji : j = i
  · rw [hji]
    exact agrees_sync_self s i
  intro k c hc
  rw [sync_copy_other s hji] at hc
  rw [h.sync_auth]
  exact hj k c hc

theorem Quiet.agrees_syncAll (h : Quiet s) (hj : Agrees s j) (is : List ι) : Agrees (syncAll s is) j := by
  induction is generalizing s with
  | nil => exact hj
  | cons i is ih => exact ih (h.sync i) (h.agrees_sync hj i)

/-- With nothing left to publish, whoever synchronises agrees, and keeps agreeing. -/
theorem Quiet.agrees_syncAll_of_mem (h : Quiet s) {is : List ι} (hj : j ∈ is) : Agrees (syncAll s is) j := by
  induction is generalizing s with
  | nil => cases hj
  | cons i is ih =>
    rcases List.mem_cons.mp hj with rfl | hj
    · exact (h.sync j).agrees_syncAll (agrees_sync_self s j) is
    · exact ih (h.sync i) hj

/-! ## Steps that store nothing -/

/-- The observers `is` synchronise; then some may go, and some may come with the
authoritative value. -/
structure Follows (s s' : Shared ι κ α) (is : List ι) : Prop where
  auth : s'.auth = (syncAll s is).auth
  copy : ∀ j k, s'.copy j k = (syncAll s is).copy j k ∨ s'.copy j k = none ∨ s'.copy j k = some (s'.auth k, s'.auth k)

section Follows

variable {s s' : Shared ι κ α} {is : List ι} (h : Follows s s' is)
include h

theorem Follows.pending_of (hj : pending ((syncAll s is).copy j k) = none) : pending (s'.copy j k) = none := by
  rcases h.copy j k with hc | hc | hc <;> rw [hc]
  · exact hj
  · rfl
  · exact pending_same _

theorem Follows.quiet (hs : Quiet s) : Quiet s' := fun j k => h.pending_of (pending_syncAll (hs j k) is)

theorem Follows.agrees_of (hj : Agrees (syncAll s is) j) : Agrees s' j := by
  intro k c hc
  rcases h.copy j k with h' | h' | h' <;> rw [h'] at hc
  · rw [h.auth]
    exact hj k c hc
  · cases hc
  · cases hc
    rfl

theorem Held.follows (hheld : Held s i k v) (hi : s'.copy i k = (SnapshotMerge.syncAll s is).copy i k ∨
      pending ((SnapshotMerge.syncAll s is).copy i k) = none) : Held s' i k v := by
  obtain ⟨hothers, hown⟩ := hheld.syncAll is
  refine ⟨fun j hj => h.pending_of (hothers j hj), ?_⟩
  rw [h.auth]
  rcases hi with hi | hi
  · rw [hi]
    exact hown
  refine .inr ⟨h.pending_of hi, ?_⟩
  rcases hown with hown | hown
  · rw [hi] at hown
    cases hown
  · exact hown.2

end Follows

end Facts

end SnapshotMerge

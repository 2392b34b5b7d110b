/-
`Credentials`: the user and group identities of a process, and the calls that
change them.

The user half and the group half follow the same rules over a triple of a real,
an effective and a saved id; what tells them apart is that both ask the effective
*user* id whether the caller is privileged, and that `setregid` takes the saved
group id as a new real one where `setreuid` does not.
-/
import Kandelo.Errno
import Kandelo.Lib.Machine

namespace Kandelo.Process

open List

def ngroupsMax : Nat := 32

/-- `u32::MAX`: leave this id as it is. -/
def idUnchanged : UInt32 := 0xFFFFFFFF

structure SupplementaryGroups where
  values : List UInt32
  length_le : values.length ≤ ngroupsMax
  deriving DecidableEq, Repr

namespace SupplementaryGroups

def new : SupplementaryGroups := ⟨[], Nat.zero_le _⟩

def copyFrom (groups : List UInt32) : Except Errno SupplementaryGroups :=
  if h : groups.length ≤ ngroupsMax then .ok ⟨groups, h⟩ else .error .EINVAL

end SupplementaryGroups

structure Ids where
  real : UInt32
  effective : UInt32
  saved : UInt32
  deriving DecidableEq, Repr

namespace Ids

def held (ids : Ids) : List UInt32 := [ids.real, ids.effective, ids.saved]

/-- `setuid`, `setgid`. -/
def set (privileged : Bool) (ids : Ids) (id : UInt32) : Except Errno Ids :=
  if privileged then .ok ⟨id, id, id⟩
  else if id = ids.real ∨ id = ids.saved then .ok { ids with effective := id }
  else .error .EPERM

/-- `seteuid`, `setegid`. -/
def setEffective (privileged : Bool) (ids : Ids) (id : UInt32) : Except Errno Ids :=
  if privileged ∨ id = ids.real ∨ id = ids.saved then .ok { ids with effective := id } else .error .EPERM

/-- The id asked for, or the one there is. -/
def orElse (requested current : UInt32) : UInt32 := if requested = idUnchanged then current else requested

/-- `setresuid`, `setresgid`. -/
def setRes (privileged : Bool) (ids : Ids) (real effective saved : UInt32) : Except Errno Ids :=
  if !privileged && [real, effective, saved].any fun requested => requested != idUnchanged && !ids.held.contains requested then
    .error .EPERM
  else .ok ⟨orElse real ids.real, orElse effective ids.effective, orElse saved ids.saved⟩

/-- `setreuid`, `setregid`; `realAllowed` is whether an unprivileged caller may
have the real id it asks for. -/
def setRe (privileged realAllowed : Bool) (ids : Ids) (real effective : UInt32) : Except Errno Ids :=
  let effectiveAllowed := effective == idUnchanged || ids.held.contains effective
  if !privileged && (!realAllowed || !effectiveAllowed) then .error .EPERM
  else
    let real' := orElse real ids.real
    let effective' := orElse effective ids.effective
    .ok ⟨real', effective', if real ≠ idUnchanged ∨ (effective ≠ idUnchanged ∧ effective' ≠ real') then effective' else ids.saved⟩

end Ids

structure Credentials where
  uids : Ids
  gids : Ids
  supplementaryGroups : SupplementaryGroups
  deriving DecidableEq, Repr

namespace Credentials

def fromIds (uid gid : UInt32) : Credentials := ⟨⟨uid, uid, uid⟩, ⟨gid, gid, gid⟩, .new⟩

def root : Credentials := fromIds 0 0

def privileged (c : Credentials) : Bool := c.uids.effective == 0

/-- A call works on a candidate, which replaces the credentials if it succeeds. -/
def commit (c : Credentials) : Except Errno Credentials → Except Errno Unit × Credentials
  | .ok candidate => (.ok (), candidate)
  | .error e => (.error e, c)

def withUids (c : Credentials) (r : Except Errno Ids) : Except Errno Unit × Credentials :=
  c.commit (r.map fun uids => { c with uids := uids })

def withGids (c : Credentials) (r : Except Errno Ids) : Except Errno Unit × Credentials :=
  c.commit (r.map fun gids => { c with gids := gids })

def setuid (c : Credentials) (uid : UInt32) : Except Errno Unit × Credentials := c.withUids (c.uids.set c.privileged uid)

def seteuid (c : Credentials) (uid : UInt32) : Except Errno Unit × Credentials :=
  c.withUids (c.uids.setEffective c.privileged uid)

def setresuid (c : Credentials) (ruid euid suid : UInt32) : Except Errno Unit × Credentials :=
  c.withUids (c.uids.setRes c.privileged ruid euid suid)

def setreuid (c : Credentials) (ruid euid : UInt32) : Except Errno Unit × Credentials :=
  c.withUids (c.uids.setRe c.privileged (ruid == idUnchanged || ruid == c.uids.real) ruid euid)

def setgid (c : Credentials) (gid : UInt32) : Except Errno Unit × Credentials := c.withGids (c.gids.set c.privileged gid)

def setegid (c : Credentials) (gid : UInt32) : Except Errno Unit × Credentials :=
  c.withGids (c.gids.setEffective c.privileged gid)

def setresgid (c : Credentials) (rgid egid sgid : UInt32) : Except Errno Unit × Credentials :=
  c.withGids (c.gids.setRes c.privileged rgid egid sgid)

def setregid (c : Credentials) (rgid egid : UInt32) : Except Errno Unit × Credentials :=
  c.withGids (c.gids.setRe c.privileged (rgid == idUnchanged || rgid == c.gids.real || rgid == c.gids.saved) rgid egid)

def setgroups (c : Credentials) (groups : List UInt32) : Except Errno Unit × Credentials :=
  if !c.privileged then (.error .EPERM, c)
  else c.commit ((SupplementaryGroups.copyFrom groups).map fun g => { c with supplementaryGroups := g })

end Credentials

/-! ## What an unprivileged caller can reach -/

namespace Ids

/-- Every id held is one of those held before. -/
def Within (ids ids' : Ids) : Prop := ∀ id ∈ ids'.held, id ∈ ids.held

variable {ids ids' : Ids}

theorem within_iff : ids.Within ids' ↔ ids'.real ∈ ids.held ∧ ids'.effective ∈ ids.held ∧ ids'.saved ∈ ids.held := by
  simp [Within, held]

theorem real_mem (ids : Ids) : ids.real ∈ ids.held := mem_cons_self

theorem effective_mem (ids : Ids) : ids.effective ∈ ids.held := mem_cons_of_mem _ mem_cons_self

theorem saved_mem (ids : Ids) : ids.saved ∈ ids.held := mem_cons_of_mem _ (mem_cons_of_mem _ mem_cons_self)

theorem set_within {id : UInt32} (h : ids.set false id = .ok ids') : ids.Within ids' := by
  simp only [set, Bool.false_eq_true, if_false] at h
  split at h
  · rename_i hid
    cases h
    refine within_iff.mpr ⟨ids.real_mem, ?_, ids.saved_mem⟩
    rcases hid with rfl | rfl
    · exact ids.real_mem
    · exact ids.saved_mem
  · cases h

theorem setEffective_within {id : UInt32} (h : ids.setEffective false id = .ok ids') : ids.Within ids' := by
  have hset : ids.set false id = .ok ids' := by
    simpa only [set, setEffective, Bool.false_eq_true, false_or, if_false] using h
  exact set_within hset

/-- An id asked for that is allowed, or left unchanged, is one that was held. -/
theorem orElse_mem {requested current : UInt32} (hcurrent : current ∈ ids.held)
    (h : requested = idUnchanged ∨ requested ∈ ids.held) : orElse requested current ∈ ids.held := by
  simp only [orElse]
  split_ifs with hne
  · exact hcurrent
  · exact h.resolve_left hne

theorem setRes_within {real effective saved : UInt32} (h : ids.setRes false real effective saved = .ok ids') : ids.Within ids' := by
  simp only [setRes, Bool.not_false, Bool.true_and] at h
  split at h
  · cases h
  rename_i hallowed
  cases h
  have hheld : ∀ requested ∈ [real, effective, saved], requested = idUnchanged ∨ requested ∈ ids.held := by
    intro requested hmem
    by_contra hnot
    exact hallowed (any_eq_true.mpr ⟨requested, hmem, by simpa using hnot⟩)
  simp only [forall_mem_cons] at hheld
  exact within_iff.mpr ⟨orElse_mem ids.real_mem hheld.1, orElse_mem ids.effective_mem hheld.2.1, orElse_mem ids.saved_mem hheld.2.2.1⟩

theorem setRe_within {realAllowed : Bool} {real effective : UInt32} (hreal : realAllowed → real = idUnchanged ∨ real ∈ ids.held)
    (h : ids.setRe false realAllowed real effective = .ok ids') : ids.Within ids' := by
  simp only [setRe, Bool.not_false, Bool.true_and] at h
  split at h
  · cases h
  rename_i hallowed
  cases h
  simp only [Bool.or_eq_true, Bool.not_eq_true', not_or, Bool.not_eq_false, beq_iff_eq, contains_iff_mem] at hallowed
  have heffective := orElse_mem ids.effective_mem hallowed.2
  refine within_iff.mpr ⟨orElse_mem ids.real_mem (hreal hallowed.1), heffective, ?_⟩
  split
  · exact heffective
  · exact ids.saved_mem

end Ids

namespace Credentials

inductive Call
  | setuid (uid : UInt32)
  | seteuid (uid : UInt32)
  | setresuid (ruid euid suid : UInt32)
  | setreuid (ruid euid : UInt32)
  | setgid (gid : UInt32)
  | setegid (gid : UInt32)
  | setresgid (rgid egid sgid : UInt32)
  | setregid (rgid egid : UInt32)
  | setgroups (groups : List UInt32)
  deriving DecidableEq, Repr

def call (c : Credentials) : Call → Except Errno Unit × Credentials
  | .setuid uid => c.setuid uid
  | .seteuid uid => c.seteuid uid
  | .setresuid ruid euid suid => c.setresuid ruid euid suid
  | .setreuid ruid euid => c.setreuid ruid euid
  | .setgid gid => c.setgid gid
  | .setegid gid => c.setegid gid
  | .setresgid rgid egid sgid => c.setresgid rgid egid sgid
  | .setregid rgid egid => c.setregid rgid egid
  | .setgroups groups => c.setgroups groups

variable {c : Credentials}

theorem commit_error {r : Except Errno Credentials} {e : Errno} (h : (c.commit r).1 = .error e) : (c.commit r).2 = c := by
  cases r with
  | ok candidate => cases h
  | error e => rfl

/-- A call that fails changes nothing. -/
theorem call_error {x : Call} {e : Errno} (h : (c.call x).1 = .error e) : (c.call x).2 = c := by
  cases x with
  | setgroups groups =>
    simp only [call, setgroups] at h ⊢
    split_ifs with hprivileged
    · rfl
    · rw [if_neg hprivileged] at h
      exact commit_error h
  | _ => exact commit_error h

/-- `c'` holds no identity that `c` does not. -/
structure Bounded (c c' : Credentials) : Prop where
  uids : c.uids.Within c'.uids
  gids : c.gids.Within c'.gids
  groups : c'.supplementaryGroups = c.supplementaryGroups

theorem Bounded.refl (c : Credentials) : Bounded c c := ⟨fun _ h => h, fun _ h => h, rfl⟩

theorem Bounded.trans {c₁ c₂ : Credentials} (h1 : Bounded c c₁) (h2 : Bounded c₁ c₂) : Bounded c c₂ where
  uids := fun id h => h1.uids id (h2.uids id h)
  gids := fun id h => h1.gids id (h2.gids id h)
  groups := h2.groups.trans h1.groups

theorem withUids_bounded {r : Except Errno Ids} (h : ∀ ids, r = .ok ids → c.uids.Within ids) : Bounded c (c.withUids r).2 := by
  cases r with
  | error e => exact .refl c
  | ok ids => exact ⟨h ids rfl, fun _ h => h, rfl⟩

theorem withGids_bounded {r : Except Errno Ids} (h : ∀ ids, r = .ok ids → c.gids.Within ids) : Bounded c (c.withGids r).2 := by
  cases r with
  | error e => exact .refl c
  | ok ids => exact ⟨fun _ h => h, h ids rfl, rfl⟩

/-- What one call of an unprivileged process can do. -/
theorem call_bounded (hc : c.privileged = false) (x : Call) : Bounded c (c.call x).2 := by
  cases x with
  | setuid uid => exact withUids_bounded fun ids h => Ids.set_within (hc ▸ h)
  | seteuid uid => exact withUids_bounded fun ids h => Ids.setEffective_within (hc ▸ h)
  | setresuid ruid euid suid => exact withUids_bounded fun ids h => Ids.setRes_within (hc ▸ h)
  | setreuid ruid euid =>
    refine withUids_bounded fun ids h => Ids.setRe_within (fun hallowed => ?_) (hc ▸ h)
    rw [Bool.or_eq_true, beq_iff_eq, beq_iff_eq] at hallowed
    exact hallowed.imp_right fun (heq : ruid = c.uids.real) => heq ▸ c.uids.real_mem
  | setgid gid => exact withGids_bounded fun ids h => Ids.set_within (hc ▸ h)
  | setegid gid => exact withGids_bounded fun ids h => Ids.setEffective_within (hc ▸ h)
  | setresgid rgid egid sgid => exact withGids_bounded fun ids h => Ids.setRes_within (hc ▸ h)
  | setregid rgid egid =>
    refine withGids_bounded fun ids h => Ids.setRe_within (fun hallowed => ?_) (hc ▸ h)
    simp only [Bool.or_eq_true, beq_iff_eq, or_assoc] at hallowed
    rcases hallowed with heq | heq | heq
    · exact .inl heq
    · exact .inr (heq ▸ c.gids.real_mem)
    · exact .inr (heq ▸ c.gids.saved_mem)
  | setgroups groups =>
    simp only [call, setgroups, hc, Bool.not_false, if_true]
    exact .refl c

/-- Where no user id held was 0, none held afterwards is. -/
theorem Bounded.unprivileged {c' : Credentials} (h : Bounded c c') (hroot : 0 ∉ c.uids.held) : c'.privileged = false := by
  rw [privileged, beq_eq_false_iff_ne]
  intro heq
  exact hroot (h.uids 0 (heq ▸ c'.uids.effective_mem))

/-- Without user id 0 among its real, effective and saved ids, no sequence of calls
gives a process an identity it did not have; and a call that fails, from whatever
credentials, changes nothing. -/
theorem privileges_bounded (c : Credentials) (hroot : 0 ∉ c.uids.held) (c' : Credentials) (h : Machine.Reachable (· = c) call c') :
    ((∀ uid ∈ c'.uids.held, uid ∈ c.uids.held) ∧ (∀ gid ∈ c'.gids.held, gid ∈ c.gids.held) ∧
      c'.supplementaryGroups = c.supplementaryGroups ∧ c'.uids.effective ≠ 0) ∧
    ∀ x e, (c'.call x).1 = .error e → (c'.call x).2 = c' := by
  have hbounded : Bounded c c' := by
    induction h with
    | start hstart => exact hstart ▸ .refl c
    | next x _ ih => exact ih.trans (call_bounded (ih.unprivileged hroot) x)
  refine ⟨⟨hbounded.uids, hbounded.gids, hbounded.groups, ?_⟩, fun x e => call_error⟩
  have := hbounded.unprivileged hroot
  rwa [privileged, beq_eq_false_iff_ne] at this

theorem privileges_bounded_droppedToUser :
    let c : Credentials := ⟨⟨1000, 2000, 3000⟩, ⟨4000, 5000, 6000⟩, ⟨[7000, 8000], by decide⟩⟩
    (0 ∉ c.uids.held) ∧ (Machine.run call c [.setuid 3000, .setreuid 1000 2000, .setegid 0]).uids.effective ≠ 0 := by
  refine ⟨by decide, ?_⟩
  exact (privileges_bounded _ (by decide) _ (.run _ (.start rfl))).1.2.2.2

/-- A privileged process that sets its user id gives its privilege up for good. -/
theorem setuid_irrevocable (hc : c.privileged = true) {uid : UInt32} (huid : uid ≠ 0) {c' : Credentials}
    (h : Machine.Reachable (· = (c.setuid uid).2) call c') :
    c'.privileged = false ∧ c'.uids = ⟨uid, uid, uid⟩ ∧ (∀ gid ∈ c'.gids.held, gid ∈ c.gids.held) ∧
      c'.supplementaryGroups = c.supplementaryGroups := by
  have hset : (c.setuid uid).2 = { c with uids := ⟨uid, uid, uid⟩ } := by simp [setuid, withUids, Ids.set, hc, commit, Except.map]
  rw [hset] at h
  have hroot : 0 ∉ (⟨uid, uid, uid⟩ : Ids).held := by simp [Ids.held, huid.symm]
  have hbounded : Bounded { c with uids := ⟨uid, uid, uid⟩ } c' := by
    induction h with
    | start hstart => exact hstart ▸ .refl _
    | next x _ ih => exact ih.trans (call_bounded (ih.unprivileged hroot) x)
  obtain ⟨hreal, heffective, hsaved⟩ := Ids.within_iff.mp hbounded.uids
  refine ⟨hbounded.unprivileged hroot, ?_, hbounded.gids, hbounded.groups⟩
  cases hids : c'.uids
  simp_all [Ids.held]

theorem setuid_irrevocable_root : (Machine.run call (root.setuid 1000).2 [.setgid 5, .seteuid 0, .setuid 0]).privileged = false :=
  (setuid_irrevocable (c := root) (by decide) (by decide) (.run _ (.start rfl))).1

end Credentials

end Kandelo.Process

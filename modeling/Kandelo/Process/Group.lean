/-
Process groups and sessions: whether the processes of a group are always of one
session, and a session leader always in its own group.

`Fits` says it of one record among the others, and `sound_publish` that a record
that fits may be written. `Intrudes` names the calls that break the property, by their
arguments and the table before them: all of them put a process into a group without
asking which session the group is in.
-/
import Kandelo.Process.Table

namespace Kandelo.Process.ProcessTable

/-- The record agrees with the others: a session leader is in its own group, and the
live processes in the group of a live one are of its session. -/
def Fits (t : ProcessTable) (pid : Nat) (p : Identity) : Prop :=
  (p.isSessionLeader → p.pgid = pid) ∧
    (p.live → ∀ pid' p', t.processes.get? pid' = some p' → pid' ≠ pid → p'.live → p'.pgid = p.pgid → p'.sid = p.sid)

/-- All live processes that share a group share a session, and every session
leader leads its own group. -/
def Sound (t : ProcessTable) : Prop := ∀ pid p, t.processes.get? pid = some p → t.Fits pid p

/-- A live process other than `pid` is in the group `pgid` and not of the session `sid`. -/
def HasForeigner (t : ProcessTable) (pid pgid sid : Nat) : Prop :=
  ∃ pid' p', t.processes.get? pid' = some p' ∧ pid' ≠ pid ∧ p'.live ∧ p'.pgid = pgid ∧ p'.sid ≠ sid

instance (t : ProcessTable) (pid pgid sid : Nat) : Decidable (t.HasForeigner pid pgid sid) :=
  decidable_of_iff (∃ e ∈ t.processes.entries, e.1 ≠ pid ∧ e.2.live ∧ e.2.pgid = pgid ∧ e.2.sid ≠ sid) <| by
    simp only [HasForeigner, ← OrdMap.mem_entries_iff, Prod.exists]

theorem Fits.of_no_foreigner {t : ProcessTable} {pid : Nat} {p : Identity}
    (h : (p.isSessionLeader → p.pgid = pid) ∧ (p.live → ¬t.HasForeigner pid p.pgid p.sid)) : t.Fits pid p := by
  refine ⟨h.1, fun hlive pid' p' hp' hne hlive' hpgid => ?_⟩
  by_contra hsid
  exact h.2 hlive ⟨pid', p', hp', hne, hlive', hpgid, hsid⟩

theorem get?_publish (t : ProcessTable) (pid : Nat) (p : Identity) (pid' : Nat) :
    (t.publish pid p).processes.get? pid' = if pid' = pid then some p else t.processes.get? pid' :=
  t.processes.get?_insert pid pid' p

theorem Sound.new : Sound new := by
  intro pid p hp
  cases hp

variable {t t' : ProcessTable}

theorem sound_publish (h : t.Sound) {pid : Nat} {p : Identity} (hfits : t.Fits pid p) : (t.publish pid p).Sound := by
  intro x q hq
  rw [get?_publish] at hq
  split_ifs at hq with hx
  · cases hq
    rw [hx]
    refine ⟨hfits.1, fun hlive pid' p' hp' hne => ?_⟩
    rw [get?_publish, if_neg hne] at hp'
    exact hfits.2 hlive pid' p' hp' hne
  refine ⟨(h x q hq).1, fun hlive pid' p' hp' hne hlive' hpgid => ?_⟩
  rw [get?_publish] at hp'
  split at hp'
  · cases hp'
    exact (hfits.2 hlive' x q hq hx hlive hpgid.symm).symm
  · exact (h x q hq).2 hlive pid' p' hp' hne hlive' hpgid

/-! ## Calls that put nobody into a group -/

/-- Every process is one that was there, in the same group and session, and alive
only if it was. -/
def Keeps (t t' : ProcessTable) : Prop :=
  ∀ pid p', t'.processes.get? pid = some p' →
    ∃ p, t.processes.get? pid = some p ∧ (p'.live → p.live) ∧ p.pgid = p'.pgid ∧ p.sid = p'.sid ∧ p.isSessionLeader = p'.isSessionLeader

theorem Keeps.refl (t : ProcessTable) : Keeps t t := fun _ p hp => ⟨p, hp, id, rfl, rfl, rfl⟩

theorem Keeps.of_processes (h : t'.processes = t.processes) : Keeps t t' := by
  intro pid p hp
  rw [h] at hp
  exact ⟨p, hp, id, rfl, rfl, rfl⟩

theorem Keeps.trans {t'' : ProcessTable} (h : Keeps t t') (h' : Keeps t' t'') : Keeps t t'' := by
  intro pid p hp
  obtain ⟨p', hp', hlive', hpgid', hsid', hleader'⟩ := h' pid p hp
  obtain ⟨p'', hp'', hlive'', hpgid, hsid, hleader⟩ := h pid p' hp'
  exact ⟨p'', hp'', hlive'' ∘ hlive', hpgid.trans hpgid', hsid.trans hsid', hleader.trans hleader'⟩

theorem Sound.keeps (h : t.Sound) (hk : Keeps t t') : t'.Sound := by
  intro pid p' hp'
  obtain ⟨p, hp, hlive, hpgid, hsid, hleader⟩ := hk pid p' hp'
  have hfits := h pid p hp
  refine ⟨fun hl => hpgid ▸ hfits.1 (hleader.trans hl), fun hlive' y q' hq' hne hliveq' hpgidq => ?_⟩
  obtain ⟨q, hq, hliveq, hqpgid, hqsid, _⟩ := hk y q' hq'
  rw [← hqsid, ← hsid]
  exact hfits.2 (hlive hlive') y q hq hne (hliveq hliveq') (hqpgid.trans (hpgidq.trans hpgid.symm))

theorem keeps_erase (t : ProcessTable) (pid : Nat) : Keeps t { t with processes := t.processes.erase pid } := by
  intro x p hp
  rw [OrdMap.get?_erase] at hp
  split at hp
  · cases hp
  · exact ⟨p, hp, id, rfl, rfl, rfl⟩

variable {pid : Nat} {p : Identity}

/-- The record of a process is written again, with its group and session. -/
theorem keeps_rewrite (ht : Keeps t t') {p' : Identity} (hp : t.processes.get? pid = some p) (hlive : p'.live → p.live)
    (hsame : p.pgid = p'.pgid ∧ p.sid = p'.sid ∧ p.isSessionLeader = p'.isSessionLeader) : Keeps t (t'.publish pid p') := by
  intro x q hq
  rw [get?_publish] at hq
  split_ifs at hq with hx
  · cases hq
    rw [hx]
    exact ⟨p, hp, hlive, hsame⟩
  · exact ht x q hq

/-- And the task ids go on from where they were. -/
structure Keeping (t t' : ProcessTable) : Prop where
  keeps : Keeps t t'
  ids : t'.nextTaskId = t.nextTaskId

theorem Keeping.refl (t : ProcessTable) : Keeping t t := ⟨.refl t, rfl⟩

theorem Keeping.trans {t'' : ProcessTable} (h : Keeping t t') (h' : Keeping t' t'') : Keeping t t'' :=
  ⟨h.keeps.trans h'.keeps, h'.ids.trans h.ids⟩

section

variable (t : ProcessTable)

theorem keeping_prune : Keeping t t.pruneEmptyLimboGroups := by
  fun_induction pruneEmptyLimboGroups t with
  | case1 t _ => exact .refl t
  | case2 t e _ ih => exact ⟨(keeps_erase t e.1).trans ih.keeps, ih.ids⟩

theorem keeping_reparent (parentPid : Nat) : Keeping t (t.reparentChildrenToInit parentPid) := by
  simp only [reparentChildrenToInit]
  split
  · exact .refl t
  refine ⟨fun pid p' hp' => ?_, rfl⟩
  rw [OrdMap.get?_retain] at hp'
  obtain ⟨p, hp, heq⟩ := Option.bind_eq_some_iff.mp hp'
  rw [Option.some.injEq] at heq
  refine ⟨p, hp, ?_⟩
  rw [← heq]
  split
  · exact ⟨id, rfl, rfl, rfl⟩
  · exact ⟨id, rfl, rfl, rfl⟩

theorem keeping_remove (pid : Nat) (retainLimboLeader : Bool) : Keeping t (t.removeProcessInner pid retainLimboLeader) := by
  simp only [removeProcessInner]
  split
  · exact .refl t
  split
  · exact .refl t
  rename_i p hp
  refine .trans ?_ ((keeping_prune _).trans (keeping_reparent _ pid))
  split
  · -- the leader in limbo is not alive
    exact ⟨keeps_rewrite (keeps_erase t pid) hp nofun ⟨rfl, rfl, rfl⟩, rfl⟩
  · exact ⟨keeps_erase t pid, rfl⟩

theorem keeping_reapForInit (pid : Nat) : Keeping t (t.reapForInit pid) := by
  simp only [reapForInit]
  split
  · exact .refl t
  split
  · exact .refl t
  · exact keeping_remove t pid true

theorem keeping_publishProcessExit (pid : Nat) : Keeping t (t.publishProcessExit pid).2 := by
  simp only [publishProcessExit]
  split
  · exact .refl t
  split
  · exact .refl t
  rename_i p hp
  split
  · exact .refl t
  · exact .refl t
  · exact .refl t
  split
  · exact .refl t
  have hpublish : Keeping t (t.publish pid { p with exitPublished := true }) :=
    ⟨keeps_rewrite (.refl t) hp id ⟨rfl, rfl, rfl⟩, rfl⟩
  split
  · exact hpublish.trans (keeping_reapForInit _ pid)
  · exact hpublish

end

/-- A process changes its state or what its parent knows of it. -/
theorem keeping_update {f : Identity → Identity} (hf : ∀ p, ((f p).live → p.live) ∧
      p.pgid = (f p).pgid ∧ p.sid = (f p).sid ∧ p.isSessionLeader = (f p).isSessionLeader) : Keeping t (t.update pid f) := by
  simp only [update]
  split
  · exact .refl t
  · rename_i p hp
    exact ⟨keeps_rewrite (.refl t) hp (hf p).1 (hf p).2, rfl⟩

/-- A stop or a resumption changes the state of a process that lives before and after. -/
theorem jobControl_spec {f : Identity → Identity} (hf : f = recordStop ∨ f = recordContinue) (p : Identity) :
    ∃ state, f p = { p with state := state } ∧ (f p).live = p.live ∧ (state = .limbo ↔ p.state = .limbo) := by
  rcases hf with rfl | rfl
  all_goals
    simp only [recordStop, recordContinue]
    split
    · exact ⟨p.state, rfl, rfl, Iff.rfl⟩
    · rename_i hstate
      rw [not_not] at hstate
      exact ⟨_, rfl, by simp [Identity.live, hstate], by simp [hstate]⟩

theorem keeping_jobControl {f : Identity → Identity} (hf : f = recordStop ∨ f = recordContinue) : Keeping t (t.update pid f) := by
  refine keeping_update fun p => ?_
  obtain ⟨state, heq, hlive, _⟩ := jobControl_spec hf p
  rw [hlive, heq]
  exact ⟨id, rfl, rfl, rfl⟩

theorem allocateTaskId_processes (t : ProcessTable) (threads : Nat → Bool) : (t.allocateTaskId threads).2.processes = t.processes := by
  simp only [allocateTaskId]
  split <;> rfl

/-! ## Fresh task ids -/

theorem allocateTaskId_spec {threads : Nat → Bool}
    (h : (t.allocateTaskId threads).1 = .ok pid) : t.processes.get? pid = none ∧ t.nextTaskId ≤ pid := by
  simp only [allocateTaskId] at h
  split at h
  · rename_i candidate hfind
    cases h
    obtain ⟨hfree, hle⟩ := findTaskId_spec hfind
    rw [Bool.or_eq_false_iff, OrdMap.contains, Option.isSome_eq_false_iff, Option.isNone_iff_eq_none] at hfree
    exact ⟨hfree.1, hle⟩
  · cases h

/-! ## The calls -/

inductive Call
  | createProcess (answers : CreateAnswers)
  | createInitChild (answers : CreateAnswers)
  | fork (parentPid : Nat) (vfork : Bool) (answers : ForkAnswers)
  | spawn (parentPid : Nat) (attrs : SpawnAttrs) (answers : SpawnAnswers)
  | setpgid (callerPid pid pgid : Nat)
  | setsid (callerPid : Nat)
  | stop (pid : Nat)
  | resume (pid : Nat)
  | exec (pid : Nat)
  | publishExit (pid : Nat)
  | reap (pid : Nat)
  | remove (pid : Nat)

inductive Answer
  | created (r : Except Errno Nat)
  | done (r : Except Errno Unit)

def call (t : ProcessTable) : Call → Answer × ProcessTable
  | .createProcess answers => (t.createProcess answers).map .created id
  | .createInitChild answers => (t.createInitChild answers).map .created id
  | .fork parentPid vfork answers => (t.forkProcess parentPid vfork answers).map .created id
  | .spawn parentPid attrs answers => (t.spawnChild parentPid attrs answers).map .created id
  | .setpgid callerPid pid pgid => (t.setpgid callerPid pid pgid).map .done id
  | .setsid callerPid => (t.setsid callerPid).map .done id
  | .stop pid => (.done (.ok ()), t.update pid recordStop)
  | .resume pid => (.done (.ok ()), t.update pid recordContinue)
  | .exec pid => (.done (.ok ()), t.update pid commitExec)
  | .publishExit pid => (t.publishProcessExit pid).map .done id
  | .reap pid => (.done (.ok ()), t.reapProcess pid)
  | .remove pid => (.done (.ok ()), t.removeProcess pid)

/-- A process, or init before it, is created under an id that live processes of another
session use as their group. -/
def CreateIntrudes (sid : Nat → Nat) (t : ProcessTable) (answers : CreateAnswers) : Prop :=
  (t.processes.contains syntheticInitPid = false ∧ answers.initSlot ∧ t.HasForeigner syntheticInitPid syntheticInitPid 0) ∨
    (t.processes.contains syntheticInitPid ∨ answers.initSlot) ∧ answers.slot ∧ answers.built = .ok () ∧
      ∃ pid, ((t.ensureInit answers.initSlot).2.allocateTaskId answers.threads).1 = .ok pid ∧
        (t.ensureInit answers.initSlot).2.HasForeigner pid pid (sid pid)

/-- Nothing the kernel is asked for by a spawn fails. -/
def Granted (answers : SpawnAnswers) : Prop :=
  answers.callerLive ∧ answers.copied = .ok () ∧ answers.slot ∧ answers.installed = .ok () ∧ answers.fileActions = .ok ()

/-- The attributes of a spawn put the child `pid` where it does not fit: as the leader of
a session into a group other than its own, or into a group with foreigners. -/
def SpawnIntrudes (t : ProcessTable) (parent : Identity) (attrs : SpawnAttrs) (pid : Nat) : Prop :=
  let leads := attrs.flags &&& attrSetsid ≠ 0
  let pgrp := if attrs.pgrp = 0 then pid else attrs.pgrp.toUInt32.toNat
  if attrs.flags &&& attrSetpgroup ≠ 0 then
    (leads ∧ pgrp ≠ pid) ∨ t.HasForeigner pid pgrp (if leads then pid else parent.sid)
  else leads ∧ t.HasForeigner pid pid pid

/-- `setpgid` lets the caller move the process `target`, which is `p`: itself, or a child
of its session that has not called `exec`; no session leader. -/
def MayMove (t : ProcessTable) (callerPid target : Nat) (p : Identity) (pgid : Nat) : Prop :=
  pgid < 2 ^ 31 ∧ p.isSessionLeader = false ∧ (target ≠ callerPid → p.ppid = callerPid ∧ p.hasExec = false ∧
    ∃ caller, t.processes.get? callerPid = some caller ∧ p.sid = caller.sid)

/-- The calls that put a process where it does not fit, by their arguments and the table
before them. -/
def Intrudes (t : ProcessTable) : Call → Prop
  | .createProcess answers => CreateIntrudes (fun _ => 0) t answers
  | .createInitChild answers => CreateIntrudes id t answers
  | .spawn parentPid attrs answers => ∃ parent pid, t.processes.get? parentPid = some parent ∧ parent.gone = false ∧
      Granted answers ∧ (t.allocateTaskId answers.threads).1 = .ok pid ∧ SpawnIntrudes t parent attrs pid
  | .setpgid callerPid pid pgid =>
    let target := if pid = 0 then callerPid else pid
    ∃ p, t.processes.get? target = some p ∧ t.MayMove callerPid target p pgid ∧ p.live ∧
      t.HasForeigner target (if pgid = 0 then target else pgid) p.sid
  | .setsid callerPid => ∃ p, t.processes.get? callerPid = some p ∧ p.isSessionLeader = false ∧ p.live ∧
      t.HasForeigner callerPid callerPid callerPid
  | _ => False

/-! ## What each call does to the property -/

/-- The calls that put a process into a group. -/
def Call.groups : Call → Bool
  | .createProcess _ | .createInitChild _ | .fork .. | .spawn .. | .setpgid .. | .setsid _ => true
  | _ => false

theorem keeping_call {c : Call} (h : c.groups = false) : Keeping t (t.call c).2 := by
  cases c with
  | stop pid => exact keeping_jobControl (.inl rfl)
  | resume pid => exact keeping_jobControl (.inr rfl)
  | exec => exact keeping_update fun _ => ⟨id, rfl, rfl, rfl⟩
  | publishExit pid => exact t.keeping_publishProcessExit pid
  | reap pid => exact t.keeping_remove pid true
  | remove pid => exact t.keeping_remove pid false
  | _ => cases h

theorem nextTaskId_allocate (t : ProcessTable) (threads : Nat → Bool) :
    t.nextTaskId ≤ (t.allocateTaskId threads).2.nextTaskId ∨ maxTaskId < (t.allocateTaskId threads).2.nextTaskId := by
  simp only [allocateTaskId]
  split
  · rename_i candidate hfind
    exact .inl (Nat.le_succ_of_le (findTaskId_spec hfind).2)
  · exact .inr (Nat.lt_succ_self maxTaskId)

theorem firstTaskId_allocate (h : firstTaskId ≤ t.nextTaskId) (threads : Nat → Bool) :
    firstTaskId ≤ (t.allocateTaskId threads).2.nextTaskId := by
  have := t.nextTaskId_allocate threads
  simp only [firstTaskId, maxTaskId] at h this ⊢
  omega

theorem fresh_ne (h : firstTaskId ≤ t.nextTaskId) {threads : Nat → Bool} (hpid : (t.allocateTaskId threads).1 = .ok pid) :
    pid ≠ 0 ∧ pid ≠ syntheticInitPid := by
  have hle := (allocateTaskId_spec hpid).2
  simp only [firstTaskId, syntheticInitPid] at h ⊢
  omega

/-- What a call that makes a process comes to: it is refused, uses up a task id, or has the
record published under one. -/
inductive Made (t : ProcessTable) (threads : Nat → Bool) (record : Nat → Identity) : Except Errno Nat × ProcessTable → Prop
  | refused (e : Errno) : Made t threads record (.error e, t)
  | failed (e : Errno) : Made t threads record (.error e, (t.allocateTaskId threads).2)
  | made {pid : Nat} (h : (t.allocateTaskId threads).1 = .ok pid) :
    Made t threads record (.ok pid, (t.allocateTaskId threads).2.publish pid (record pid))

variable {threads : Nat → Bool} {record : Nat → Identity} {r : Except Errno Nat × ProcessTable}

section

variable (m : Made t threads record r)

include m

theorem Made.ids (h : firstTaskId ≤ t.nextTaskId) : firstTaskId ≤ r.2.nextTaskId := by
  cases m with
  | refused => exact h
  | failed | made => exact firstTaskId_allocate h threads

theorem Made.sound (h : t.Sound) (hfits : ∀ pid, r.1 = .ok pid → t.Fits pid (record pid)) : r.2.Sound := by
  have hsame := t.allocateTaskId_processes threads
  have hkept := h.keeps (.of_processes hsame)
  cases m with
  | refused => exact h
  | failed => exact hkept
  | made hpid => exact sound_publish hkept (by simpa only [Fits, hsame] using hfits _ rfl)

end

theorem create_made (record : Nat → Identity) (t : ProcessTable) (answers : CreateAnswers) :
    Made (t.ensureInit answers.initSlot).2 answers.threads record (create record t answers) := by
  simp only [create]
  split
  · exact .refused _
  split
  · exact .refused _
  split
  · exact .failed _
  rename_i pid hpid
  split
  · exact .failed _
  · exact .made hpid

theorem live_of_not_gone (h : p.gone = false) : p.live := by
  cases hstate : p.state <;> simp_all [Identity.live, Identity.gone]

theorem fork_made (t : ProcessTable) (parentPid : Nat) (vfork : Bool) (answers : ForkAnswers) :
    (∃ e, t.forkProcess parentPid vfork answers = (.error e, t)) ∨
      ∃ parent, t.processes.get? parentPid = some parent ∧ parent.live ∧ Made t answers.threads
        (fun _ => ⟨parentPid, parent.pgid, parent.sid, false, .running, false, vfork, false, false⟩)
        (t.forkProcess parentPid vfork answers) := by
  simp only [forkProcess]
  split
  · exact .inl ⟨_, rfl⟩
  rename_i parent hparent
  split
  · exact .inl ⟨_, rfl⟩
  rename_i hgone
  refine .inr ⟨parent, hparent, live_of_not_gone (eq_false_of_ne_true hgone), ?_⟩
  repeat' split
  all_goals first | exact .refused _ | exact .failed _ | exact .made ‹_›

/-- A child whose file actions fail is removed again. -/
theorem spawn_made (t : ProcessTable) (parentPid : Nat) (attrs : SpawnAttrs) (answers : SpawnAnswers) :
    (∃ e, t.spawnChild parentPid attrs answers = (.error e, t)) ∨ ∃ parent, t.processes.get? parentPid = some parent ∧
        (Made t answers.threads (spawned parentPid parent attrs) (t.spawnChild parentPid attrs answers) ∨
          ∃ e pid, (t.allocateTaskId answers.threads).1 = .ok pid ∧ t.spawnChild parentPid attrs answers = (.error e,
            ((t.allocateTaskId answers.threads).2.publish pid (spawned parentPid parent attrs pid)).removeProcess pid)) := by
  simp only [spawnChild]
  split
  · exact .inl ⟨_, rfl⟩
  rename_i parent hparent
  refine .inr ⟨parent, hparent, ?_⟩
  repeat' split
  all_goals first
    | exact .inl (.refused _)
    | exact .inl (.failed _)
    | exact .inl (.made ‹_›)
    | exact .inr ⟨_, _, ‹_›, rfl⟩

theorem ensureInit_sound (h : t.Sound) {slot : Bool} (hno : ¬(t.processes.contains syntheticInitPid = false ∧ slot ∧
    t.HasForeigner syntheticInitPid syntheticInitPid 0)) : (t.ensureInit slot).2.Sound := by
  simp only [ensureInit]
  split_ifs with hthere hslot
  · exact h
  · exact h
  · exact sound_publish h (.of_no_foreigner ⟨nofun, fun _ hforeign =>
      hno ⟨eq_false_of_ne_true hthere, by simpa using hslot, hforeign⟩⟩)

theorem create_ok {answers : CreateAnswers} (h : (create record t answers).1 = .ok pid) :
    (t.processes.contains syntheticInitPid ∨ answers.initSlot) ∧ answers.slot ∧ answers.built = .ok () ∧
      ((t.ensureInit answers.initSlot).2.allocateTaskId answers.threads).1 = .ok pid := by
  have hinit : (t.ensureInit answers.initSlot).1 = .ok () → t.processes.contains syntheticInitPid ∨ answers.initSlot := by
    simp only [ensureInit]
    split_ifs <;> simp_all
  simp only [create] at h
  repeat' split at h
  all_goals simp_all

/-- A process whose record is in its own group. -/
theorem create_sound {sid : Nat → Nat} (h : t.Sound) {answers : CreateAnswers}
    (hrecord : ∀ pid, (record pid).pgid = pid ∧ (record pid).sid = sid pid) (hno : ¬CreateIntrudes sid t answers) :
    (create record t answers).2.Sound := by
  rw [CreateIntrudes, not_or] at hno
  refine (create_made record t answers).sound (ensureInit_sound h hno.1) fun pid hok => ?_
  obtain ⟨hinit, hslot, hbuilt, hpid⟩ := create_ok hok
  refine .of_no_foreigner ⟨fun _ => (hrecord pid).1, fun _ hforeign => hno.2 ⟨hinit, hslot, hbuilt, pid, hpid, ?_⟩⟩
  rwa [(hrecord pid).1, (hrecord pid).2] at hforeign

/-- Beside a live process there is no foreigner. -/
theorem Sound.no_foreigner (h : t.Sound) {parentPid : Nat} {parent : Identity} (hparent : t.processes.get? parentPid = some parent)
    (hlive : parent.live) (pid : Nat) : ¬t.HasForeigner pid parent.pgid parent.sid := by
  rintro ⟨pid', p', hp', -, hlive', hpgid, hsid⟩
  by_cases hself : pid' = parentPid
  · rw [hself, hparent, Option.some.injEq] at hp'
    exact hsid (by rw [hp'])
  · exact hsid ((h parentPid parent hparent).2 hlive pid' p' hp' hself hlive' hpgid)

/-- A fork child is in its parent's group and session. -/
theorem fork_sound (h : t.Sound) (parentPid : Nat) (vfork : Bool) (answers : ForkAnswers) :
    (t.forkProcess parentPid vfork answers).2.Sound := by
  rcases t.fork_made parentPid vfork answers with ⟨e, heq⟩ | ⟨parent, hparent, hlive, hmade⟩
  · rw [heq]
    exact h
  · exact hmade.sound h fun pid _ => .of_no_foreigner ⟨nofun, fun _ => h.no_foreigner hparent hlive pid⟩

/-- A child that is removed at once was never there. -/
theorem keeps_publish_remove (hpid : pid ≠ syntheticInitPid) : Keeps t ((t.publish pid p).removeProcess pid) := by
  have hthere : (t.publish pid p).processes.get? pid = some p := (t.get?_publish pid p pid).trans (if_pos rfl)
  simp only [removeProcess, removeProcessInner, if_neg hpid, hthere, Bool.false_and, Bool.false_eq_true, if_false]
  refine .trans (fun x q hq => ?_) ((keeping_prune _).trans (keeping_reparent _ pid)).keeps
  rw [OrdMap.get?_erase, get?_publish] at hq
  split at hq
  · cases hq
  · exact ⟨q, hq, id, rfl, rfl, rfl⟩

theorem spawn_ok {parentPid : Nat} {attrs : SpawnAttrs} {answers : SpawnAnswers}
    (h : (t.spawnChild parentPid attrs answers).1 = .ok pid) : ∃ parent, t.processes.get? parentPid = some parent ∧
      parent.gone = false ∧ Granted answers ∧ (t.allocateTaskId answers.threads).1 = .ok pid := by
  simp only [spawnChild] at h
  repeat' split at h
  all_goals simp_all [Granted]

theorem spawned_fits (h : t.Sound) {parentPid : Nat} {parent : Identity} (hparent : t.processes.get? parentPid = some parent)
    (hlive : parent.live) {attrs : SpawnAttrs} (hno : ¬SpawnIntrudes t parent attrs pid) :
    t.Fits pid (spawned parentPid parent attrs pid) := by
  have hbeside := h.no_foreigner hparent hlive pid
  refine .of_no_foreigner ?_
  revert hno
  simp only [spawned, SpawnIntrudes]
  by_cases hgroup : attrs.flags &&& attrSetpgroup = 0 <;> by_cases hleads : attrs.flags &&& attrSetsid = 0 <;>
    simp +contextual [hgroup, hleads, Identity.live, hbeside]

theorem spawn_sound (hids : firstTaskId ≤ t.nextTaskId) (h : t.Sound) {parentPid : Nat} {attrs : SpawnAttrs}
    {answers : SpawnAnswers} (hno : ¬t.Intrudes (.spawn parentPid attrs answers)) : (t.spawnChild parentPid attrs answers).2.Sound := by
  rcases t.spawn_made parentPid attrs answers with ⟨e, heq⟩ | ⟨parent, hparent, hmade | ⟨e, pid, hpid, heq⟩⟩
  · rw [heq]
    exact h
  · refine hmade.sound h fun pid hok => ?_
    obtain ⟨parent', hparent', hgone, hgranted, hpid⟩ := spawn_ok hok
    cases hparent.symm.trans hparent'
    exact spawned_fits h hparent (live_of_not_gone hgone) fun hintrudes =>
      hno ⟨parent, pid, hparent, hgone, hgranted, hpid, hintrudes⟩
  rw [heq]
  exact (h.keeps (.of_processes (t.allocateTaskId_processes answers.threads))).keeps (keeps_publish_remove (fresh_ne hids hpid).2)

/-- A group change is a record of the target written again, or nothing; a group that this
leaves empty is forgotten. -/
theorem setpgid_cases (t : ProcessTable) (callerPid pid pgid target : Nat)
    (htarget : (if pid = 0 then callerPid else pid) = target) :
    (∃ e, t.setpgid callerPid pid pgid = (.error e, t)) ∨ ∃ p, t.processes.get? target = some p ∧ t.MayMove callerPid target p pgid ∧
        let t' := t.publish target { p with pgid := if pgid = 0 then target else pgid }
        t.setpgid callerPid pid pgid = (.ok (), t') ∨ t.setpgid callerPid pid pgid = (.ok (), t'.pruneEmptyLimboGroups) := by
  simp only [setpgid, htarget, sysSetpgid]
  split
  · rename_i hself
    rw [hself]
    split
    · exact .inl ⟨_, rfl⟩
    rename_i caller hcaller
    generalize (if pgid = 0 then callerPid else pgid) = group
    split_ifs with hbig hother hleader
    iterate 3 exact .inl ⟨_, rfl⟩
    exact .inr ⟨caller, hcaller, ⟨by omega, eq_false_of_ne_true hleader, fun hne => absurd rfl hne⟩, .inl rfl⟩
  generalize (if pgid = 0 then target else pgid) = group
  split
  · exact .inl ⟨_, rfl⟩
  split
  · exact .inl ⟨_, rfl⟩
  rename_i caller hcaller
  split
  · exact .inl ⟨_, rfl⟩
  rename_i p hp
  split_ifs with hppid hexec hsid hleader
  iterate 4 exact .inl ⟨_, rfl⟩
  exact .inr ⟨p, hp, ⟨by omega, eq_false_of_ne_true hleader, fun _ => ⟨not_not.mp hppid, eq_false_of_ne_true hexec, caller, hcaller,
    not_not.mp hsid⟩⟩, .inr rfl⟩

theorem setsid_cases (t : ProcessTable) (callerPid : Nat) : (∃ e, t.setsid callerPid = (.error e, t)) ∨
      ∃ p, t.processes.get? callerPid = some p ∧ p.isSessionLeader = false ∧ t.setsid callerPid =
        (.ok (), t.publish callerPid { p with sid := callerPid, pgid := callerPid, isSessionLeader := true }) := by
  simp only [setsid]
  split
  · exact .inl ⟨_, rfl⟩
  rename_i caller hcaller
  simp only [sysSetsid]
  by_cases hleader : caller.isSessionLeader
  · rw [if_pos hleader]
    exact .inl ⟨_, rfl⟩
  · rw [if_neg hleader]
    exact .inr ⟨caller, hcaller, eq_false_of_ne_true hleader, rfl⟩

/-- A call keeps the property unless it puts a process where it does not fit. -/
theorem call_sound (hids : firstTaskId ≤ t.nextTaskId) (h : t.Sound) {c : Call} (hc : ¬t.Intrudes c) : (t.call c).2.Sound := by
  cases c with
  | createProcess answers => exact create_sound h (fun _ => ⟨rfl, rfl⟩) hc
  | createInitChild answers => exact create_sound h (fun _ => ⟨rfl, rfl⟩) hc
  | fork parentPid vfork answers => exact fork_sound h parentPid vfork answers
  | spawn parentPid attrs answers => exact spawn_sound hids h hc
  | setpgid callerPid pid pgid =>
    rcases t.setpgid_cases callerPid pid pgid _ rfl with ⟨e, herr⟩ | ⟨p, hp, hmay, hset⟩
    · simp only [call, herr]
      exact h
    have hsound : Sound (t.publish (if pid = 0 then callerPid else pid)
        { p with pgid := if pgid = 0 then (if pid = 0 then callerPid else pid) else pgid }) :=
      sound_publish h (.of_no_foreigner ⟨fun hleader => absurd hleader (by simp [hmay.2.1]), fun hlive hforeign =>
        hc ⟨p, hp, hmay, hlive, hforeign⟩⟩)
    rcases hset with hset | hset <;> simp only [call, hset]
    · exact hsound
    · exact hsound.keeps (keeping_prune _).keeps
  | setsid callerPid =>
    rcases t.setsid_cases callerPid with ⟨e, herr⟩ | ⟨p, hp, hleader, hset⟩
    · simp only [call, herr]
      exact h
    · simp only [call, hset]
      exact sound_publish h (.of_no_foreigner ⟨fun _ => rfl, fun hlive hforeign => hc ⟨p, hp, hleader, hlive, hforeign⟩⟩)
  | _ => exact h.keeps (keeping_call rfl).keeps

/-! ## Whole runs -/

theorem firstTaskId_ensureInit (h : firstTaskId ≤ t.nextTaskId) (slot : Bool) : firstTaskId ≤ (t.ensureInit slot).2.nextTaskId := by
  simp only [ensureInit]
  split
  · exact h
  · split <;> exact h

/-- No task id below the first is ever handed out. -/
theorem firstTaskId_call (h : firstTaskId ≤ t.nextTaskId) (c : Call) : firstTaskId ≤ (t.call c).2.nextTaskId := by
  cases c with
  | createProcess answers => exact (create_made _ t answers).ids (firstTaskId_ensureInit h _)
  | createInitChild answers => exact (create_made _ t answers).ids (firstTaskId_ensureInit h _)
  | fork parentPid vfork answers =>
    rcases t.fork_made parentPid vfork answers with ⟨e, heq⟩ | ⟨_, _, _, hmade⟩
    · rw [call, heq]
      exact h
    · exact hmade.ids h
  | spawn parentPid attrs answers =>
    rcases t.spawn_made parentPid attrs answers with ⟨e, heq⟩ | ⟨_, _, hmade | ⟨e, pid, _, heq⟩⟩
    · rw [call, heq]
      exact h
    · exact hmade.ids h
    · rw [call, heq]
      exact (keeping_remove _ _ _).ids.symm ▸ firstTaskId_allocate h answers.threads
  | setpgid callerPid pid pgid =>
    rcases t.setpgid_cases callerPid pid pgid _ rfl with ⟨e, heq⟩ | ⟨p, _, _, heq | heq⟩ <;> rw [call, heq]
    · exact h
    · exact h
    · exact (keeping_prune _).ids.symm ▸ h
  | setsid callerPid =>
    rcases t.setsid_cases callerPid with ⟨e, herr⟩ | ⟨p, _, _, hset⟩
    · simp only [call, herr]
      exact h
    · simp only [call, hset]
      exact h
  | _ =>
    refine Nat.le_trans h (Nat.le_of_eq (keeping_call ?_).ids.symm)
    rfl

def readily : CreateAnswers := ⟨true, true, fun _ => false, .ok ()⟩

end Kandelo.Process.ProcessTable

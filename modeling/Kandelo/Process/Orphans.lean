/-
Exits and orphaned process groups over whole runs of the kernel. A kernel call that ends
processes applies their exits before it returns, so between calls every parent lives
(`Settled`); from there any set of processes may end at once.

`exits_applied` says what the call leaves: everyone has a parent, and a group that the exits
cut off from its session was hung up, and no other. A spawned child that is not yet
published stays with its parent, so a group it linked is cut off unnoticed
(`unpublished_child_hides_orphan`).
-/
import Kandelo.Process.ExitLoop

namespace Kandelo.Process

open ProcessTable Applying
open Signal (SignalProcess)

namespace JobTable

/-- A process records its end, once, and queues it. -/
def recordExit (t : JobTable) (pid : Nat) : JobTable :=
  match t.table.processes.get? pid with
  | none => t
  | some p =>
    if p.gone then t
    else { t with table := t.table.publish pid { p with state := .exited }, pendingExits := t.pendingExits ++ [pid] }

def recordExits (t : JobTable) (batch : List Nat) : JobTable := batch.foldl recordExit t

/-- To the rest of the table, processes that end by themselves are like processes that a signal
ends. -/
theorem signals_recordExit {groups : List Nat} {t : JobTable} (hall : ∀ pid p, t.table.processes.get? pid = some p → p.pgid ∈ groups)
    (pid : Nat) : Signals groups (start t) (start (t.recordExit pid)) := by
  simp only [recordExit]
  split
  · exact .refl groups _
  rename_i p hp
  split_ifs with hgone
  · exact .refl groups _
  · exact signals_publish hp (live_of_not_gone (eq_false_of_ne_true hgone)) (hall pid p hp) (by decide) rfl rfl
      (List.append_nil _).symm nofun

theorem signals_recordExits {groups : List Nat} (batch : List Nat) {t : JobTable}
    (hall : ∀ pid p, t.table.processes.get? pid = some p → p.pgid ∈ groups) :
    Signals groups (start t) (start (t.recordExits batch)) := by
  induction batch generalizing t with
  | nil => exact .refl groups _
  | cons pid batch ih =>
    have hone := signals_recordExit hall pid
    refine hone.trans (ih fun x p' hp' => ?_)
    obtain ⟨p, hp, hpgid, _⟩ := hone.later.back x p' hp'
    rw [hpgid]
    exact hall x p hp

end JobTable

/-! ## What every call leaves -/

/-- Between kernel calls: every parent lives, and the host has seen no live process end. -/
structure Settled (t : ProcessTable) : Prop where
  parented : Parented [] t
  unseen : Unseen t
  zero : t.processes.get? 0 = none
  ids : firstTaskId ≤ t.nextTaskId

theorem settled_new : Settled new := by
  have hempty : ∀ pid, new.processes.get? pid = none := fun pid => rfl
  refine ⟨⟨fun pid p _ hp => ?_, fun p hp => ?_⟩, fun pid p hp => ?_, hempty 0, le_rfl⟩
  all_goals
    cases hp

/-- Records written again: the parents, the lives and what is known of them are the same. -/
structure Steady (t t' : ProcessTable) : Prop where
  back : ∀ pid p', t'.processes.get? pid = some p' → ∃ p, t.processes.get? pid = some p ∧ p'.ppid = p.ppid ∧
    p'.live = p.live ∧ (p'.state = .limbo ↔ p.state = .limbo) ∧ (p'.live → p'.exitPublished = p.exitPublished) ∧
    p'.spawnPublicationPending = p.spawnPublicationPending
  kept : ∀ pid p, t.processes.get? pid = some p → p.live → ∃ p', t'.processes.get? pid = some p' ∧ p'.live

variable {t t' : ProcessTable}

theorem Steady.of_processes (h : t'.processes = t.processes) : Steady t t' := by
  refine ⟨fun pid p' hp' => ⟨p', h ▸ hp', rfl, rfl, Iff.rfl, fun _ => rfl, rfl⟩, fun pid p hp hl => ⟨p, h ▸ hp, hl⟩⟩

theorem Steady.trans {t'' : ProcessTable} (h : Steady t t') (h' : Steady t' t'') : Steady t t'' := by
  refine ⟨fun pid p'' hp'' => ?_, fun pid p hp hl => ?_⟩
  · obtain ⟨p', hp', h₁', h₂', h₃', h₄', h₅'⟩ := h'.back pid p'' hp''
    obtain ⟨p, hp, h1, h2, h3, h4, h5⟩ := h.back pid p' hp'
    exact ⟨p, hp, h₁'.trans h1, h₂'.trans h2, h₃'.trans h3, fun hl => (h₄' hl).trans (h4 (h₂' ▸ hl)), h₅'.trans h5⟩
  · obtain ⟨p', hp', hl'⟩ := h.kept pid p hp hl
    exact h'.kept pid p' hp' hl'

variable {pid : Nat} {p : Identity}

theorem Steady.publish {p' : Identity} (hp : t.processes.get? pid = some p)
    (h1 : p'.ppid = p.ppid) (h2 : p'.live = p.live) (h3 : p'.state = .limbo ↔ p.state = .limbo)
    (h4 : p'.live → p'.exitPublished = p.exitPublished) (h5 : p'.spawnPublicationPending = p.spawnPublicationPending) :
    Steady t (t.publish pid p') := by
  refine ⟨fun x q' hq' => ?_, fun x q hq hl => ?_⟩
  · rw [get?_publish] at hq'
    split_ifs at hq' with hx
    · rw [Option.some.injEq] at hq'
      subst hq'
      exact ⟨p, hx ▸ hp, h1, h2, h3, h4, h5⟩
    · exact ⟨q', hq', rfl, rfl, Iff.rfl, fun _ => rfl, rfl⟩
  rw [get?_publish]
  split_ifs with hx
  · rw [hx, hp, Option.some.injEq] at hq
    subst hq
    exact ⟨p', rfl, h2.trans hl⟩
  · exact ⟨q, hq, hl⟩

theorem Steady.prune (t : ProcessTable) : Steady t t.pruneEmptyLimboGroups :=
  ⟨fun _ p' hp' => ⟨p', get?_of_prune hp', rfl, rfl, Iff.rfl, fun _ => rfl, rfl⟩,
    fun _ p hp hl => ⟨p, get?_prune hp (not_limbo_of_live hl), hl⟩⟩

theorem live_of_stands {ppid : Nat} (h : Stands [] t ppid) : ∃ q, t.processes.get? ppid = some q ∧ q.live := by
  obtain ⟨q, hq, hl | ⟨_, hmem⟩⟩ := h
  · exact ⟨q, hq, hl⟩
  · exact absurd hmem List.not_mem_nil

theorem stands_of_live {ppid : Nat} {q : Identity} (h : t.processes.get? ppid = some q) (hl : q.live) :
    Stands [] t ppid := ⟨q, h, .inl hl⟩

theorem none_of_back (h : t.processes.get? pid = none)
    (hback : ∀ p', t'.processes.get? pid = some p' → ∃ p, t.processes.get? pid = some p) : t'.processes.get? pid = none := by
  cases hp' : t'.processes.get? pid with
  | none => rfl
  | some p' =>
    obtain ⟨p, hp⟩ := hback p' hp'
    rw [h] at hp
    cases hp

theorem Settled.steady (hs : Steady t t') (hids : firstTaskId ≤ t'.nextTaskId) (h : Settled t) : Settled t' := by
  refine ⟨⟨fun pid p' hinit hp' hl hpend => ?_, fun p' hp' hl => ?_⟩, fun pid p' hp' hlive => ?_, ?_, hids⟩
  · obtain ⟨p, hp, hppid, _, hlimbo, _, hsame⟩ := hs.back pid p' hp'
    rw [hppid]
    refine (h.parented.parent pid p hinit hp (fun hne => hl (hlimbo.mpr hne)) (hsame ▸ hpend)).imp_right (.imp_right fun hst => ?_)
    obtain ⟨q, hq, hlq⟩ := live_of_stands hst
    obtain ⟨q', hq', hlq'⟩ := hs.kept _ q hq hlq
    exact stands_of_live hq' hlq'
  · obtain ⟨p, hp, hppid, _, hlimbo, _⟩ := hs.back _ p' hp'
    rw [hppid]
    exact h.parented.root p hp fun hne => hl (hlimbo.mpr hne)
  · obtain ⟨p, hp, _, hsame, _, hpub, _⟩ := hs.back pid p' hp'
    rw [hpub hlive]
    exact h.unseen pid p hp (hsame ▸ hlive)
  · refine none_of_back h.zero fun p' hp' => ?_
    obtain ⟨p, hp, _⟩ := hs.back 0 p' hp'
    exact ⟨p, hp⟩

/-- A record under a parent that lives, of a new process or of one that stays as it was. -/
theorem Settled.publish (h : Settled t) (hpid : pid ≠ 0) (hkept : ∀ q, t.processes.get? pid = some q → q.live → p.live)
    (hparent : p.spawnPublicationPending ∨ p.ppid = 0 ∨ p.ppid = syntheticInitPid ∨ Stands [] t p.ppid)
    (hroot : pid = syntheticInitPid → p.ppid = 0 ∨ p.ppid = syntheticInitPid) (hpub : p.live → p.exitPublished = false)
    (ht' : t'.processes = (t.publish pid p).processes) (hids : firstTaskId ≤ t'.nextTaskId) : Settled t' := by
  have hget : ∀ x, t'.processes.get? x = if x = pid then some p else t.processes.get? x := by
    intro x
    rw [ht', get?_publish]
  have hstands : ∀ {y}, Stands [] t y → Stands [] t' y := by
    intro y hst
    obtain ⟨q, hq, hl⟩ := live_of_stands hst
    by_cases hy : y = pid
    · exact stands_of_live ((hget y).trans (if_pos hy)) (hkept q (hy ▸ hq) hl)
    · exact stands_of_live ((hget y).trans ((if_neg hy).trans hq)) hl
  refine ⟨⟨fun x q hinit hq hl hpend => ?_, fun q hq hl => ?_⟩, fun x q hq hlive => ?_, ?_, hids⟩
  · rw [hget] at hq
    split at hq
    · cases hq
      refine (hparent.resolve_left fun h' => ?_).imp_right (.imp_right hstands)
      rw [hpend] at h'
      cases h'
    · exact (h.parented.parent x q hinit hq hl hpend).imp_right (.imp_right hstands)
  · rw [hget] at hq
    split_ifs at hq with heq
    · cases hq
      exact hroot heq.symm
    · exact h.parented.root q hq hl
  · rw [hget] at hq
    split at hq
    · cases hq
      exact hpub hlive
    · exact h.unseen x q hq hlive
  · rw [hget, if_neg (Ne.symm hpid)]
    exact h.zero

theorem Settled.removes {z : Nat} (hz : Removes z t t') (hids : firstTaskId ≤ t'.nextTaskId) (h : Settled t) : Settled t' := by
  refine ⟨(h.parented.mono (List.nil_subset _)).removes hz, fun pid p' hp' hlive => ?_, ?_, hids⟩
  · by_cases hne : pid = z
    · rw [hne] at hp'
      exact absurd (hz.gone p' hp').1 (not_limbo_of_live hlive)
    obtain ⟨p, hp, rfl⟩ := hz.back pid p' hne hp'
    obtain ⟨ppid, hsame, _⟩ := adopted_eq z pid p
    rw [hsame] at hlive ⊢
    exact h.unseen pid p hp hlive
  refine none_of_back h.zero fun p' hp' => ?_
  by_cases hne : (0 : Nat) = z
  · subst hne
    obtain ⟨_, p, hp, _⟩ := hz.gone p' hp'
    exact ⟨p, hp⟩
  · obtain ⟨p, hp, _⟩ := hz.back 0 p' hne hp'
    exact ⟨p, hp⟩

section

variable (h : Settled t)

include h

theorem settled_ensureInit (slot : Bool) : Settled (t.ensureInit slot).2 := by
  simp only [ensureInit]
  split
  · exact h
  rename_i habsent
  split
  · exact h
  have hfree : t.processes.get? syntheticInitPid = none := by
    simpa [OrdMap.contains] using habsent
  exact h.publish (by decide) (fun q hq => by cases hfree.symm.trans hq) (.inr (.inl rfl)) (fun _ => .inl rfl)
    (fun _ => rfl) rfl h.ids

/-- A process that is made has its parent alive, or is published later. -/
theorem Settled.made {threads : Nat → Bool} {record : Nat → Identity} {r : Except Errno Nat × ProcessTable}
    (hmade : Made t threads record r) (hrecord : ∀ pid, (record pid).exitPublished = false ∧
      ((record pid).spawnPublicationPending ∨ (record pid).ppid = 0 ∨ (record pid).ppid = syntheticInitPid ∨
        Stands [] t (record pid).ppid)) : Settled r.2 := by
  have hids := hmade.ids h.ids
  have hsame := t.allocateTaskId_processes threads
  cases hmade with
  | refused => exact h
  | failed => exact h.steady (.of_processes hsame) hids
  | @made pid hpid =>
    obtain ⟨hzero, hone⟩ := fresh_ne h.ids hpid
    refine h.publish (p := record pid) hzero (fun q hq => nomatch (allocateTaskId_spec hpid).1.symm.trans hq) (hrecord pid).2
      (fun h1 => absurd h1 hone) (fun _ => (hrecord pid).1) ?_ hids
    simp [ProcessTable.publish, hsame]

theorem settled_fork (parentPid : Nat) (vfork : Bool) (answers : ForkAnswers) : Settled (t.forkProcess parentPid vfork answers).2 := by
  rcases t.fork_made parentPid vfork answers with ⟨e, heq⟩ | ⟨parent, hparent, hlive, hmade⟩
  · rw [heq]
    exact h
  · exact h.made hmade fun _ => ⟨rfl, .inr (.inr (.inr (stands_of_live hparent hlive)))⟩

theorem settled_remove (pid : Nat) (retain : Bool) : Settled (t.removeProcessInner pid retain) := by
  by_cases hinit : pid = syntheticInitPid
  · rw [removeProcessInner, if_pos hinit]
    exact h
  cases hp : t.processes.get? pid with
  | none =>
    simp only [removeProcessInner, if_neg hinit, hp]
    exact h
  | some p => exact h.removes (removes_inner retain hinit hp) ((t.keeping_remove pid retain).ids.symm ▸ h.ids)

end

theorem settled_spawn (h : Settled t) (parentPid : Nat) (attrs : SpawnAttrs) (answers : SpawnAnswers) :
    Settled (t.spawnChild parentPid attrs answers).2 := by
  have hpending : ∀ parent pid, (spawned parentPid parent attrs pid).spawnPublicationPending ∧
      (spawned parentPid parent attrs pid).exitPublished = false := by
    intro parent pid
    simp only [spawned]
    split <;> split <;> exact ⟨rfl, rfl⟩
  rcases t.spawn_made parentPid attrs answers with ⟨e, heq⟩ | ⟨parent, _, hmade | ⟨e, pid, hpid, heq⟩⟩
  · rw [heq]
    exact h
  · exact h.made hmade fun pid => ⟨(hpending parent pid).2, .inl (hpending parent pid).1⟩
  · rw [heq]
    exact settled_remove (h.made (.made hpid) fun pid => ⟨(hpending parent pid).2, .inl (hpending parent pid).1⟩) pid false

theorem steady_update {f : Identity → Identity}
    (hf : ∀ p, (f p).ppid = p.ppid ∧ (f p).live = p.live ∧ ((f p).state = .limbo ↔ p.state = .limbo) ∧
      (f p).exitPublished = p.exitPublished ∧ (f p).spawnPublicationPending = p.spawnPublicationPending) :
    Steady t (t.update pid f) := by
  simp only [update]
  split
  · exact .of_processes rfl
  rename_i p hp
  obtain ⟨h1, h2, h3, h4, h5⟩ := hf p
  exact .publish hp h1 h2 h3 (fun _ => h4) h5

theorem steady_jobControl {f : Identity → Identity} (hf : f = recordStop ∨ f = recordContinue) : Steady t (t.update pid f) := by
  refine steady_update fun p => ?_
  obtain ⟨state, heq, hlive, hlimbo⟩ := jobControl_spec hf p
  rw [hlive, heq]
  exact ⟨rfl, rfl, hlimbo, rfl, rfl⟩

theorem steady_setpgid (t : ProcessTable) (callerPid pid pgid : Nat) : Steady t (t.setpgid callerPid pid pgid).2 := by
  rcases t.setpgid_cases callerPid pid pgid _ rfl with ⟨e, heq⟩ | ⟨p, hp, -, heq | heq⟩ <;> rw [heq]
  · exact .of_processes rfl
  · exact .publish hp rfl rfl Iff.rfl (fun _ => rfl) rfl
  · refine .trans ?_ (.prune _)
    exact .publish hp rfl rfl Iff.rfl (fun _ => rfl) rfl

theorem steady_setsid (t : ProcessTable) (callerPid : Nat) : Steady t (t.setsid callerPid).2 := by
  rcases t.setsid_cases callerPid with ⟨e, herr⟩ | ⟨p, hp, -, hset⟩
  · rw [herr]
    exact .of_processes rfl
  · rw [hset]
    exact .publish hp rfl rfl Iff.rfl (fun _ => rfl) rfl

theorem settled_publishExit (h : Settled t) (pid : Nat) : Settled (t.publishProcessExit pid).2 := by
  simp only [publishProcessExit]
  split
  · exact h
  split
  · exact h
  rename_i p hp
  split
  · exact h
  · exact h
  · exact h
  rename_i hex
  split
  · exact h
  have hseen : Settled (t.publish pid { p with exitPublished := true }) := by
    refine h.steady (.publish hp rfl rfl Iff.rfl (fun hl => ?_) rfl) h.ids
    exact absurd hex (not_exited_of_live hl)
  split
  · simp only [ProcessTable.reapForInit]
    split
    · exact hseen
    split
    · exact hseen
    · exact settled_remove hseen pid true
  · exact hseen

/-! ## Kernel calls -/

/-- The host has launched the child: it is its parent's to wait for from now on. -/
def publishSpawnChild (t : ProcessTable) (parentPid childPid : Nat) : Except Errno Unit × ProcessTable :=
  let parentAcceptsPublication := (t.processes.get? parentPid).any (·.live)
  match t.processes.get? childPid with
  | none => (.error .ESRCH, t)
  | some child =>
    if child.ppid ≠ parentPid then (.error .ESRCH, t)
    else if !child.spawnPublicationPending then (.error .EINVAL, t)
    else if child.state = .limbo then (.error .ESRCH, t)
    else if !parentAcceptsPublication then (.error .ECHILD, t)
    else (.ok (), t.publish childPid { child with spawnPublicationPending := false })

theorem settled_publishSpawnChild (h : Settled t) (parentPid childPid : Nat) : Settled (publishSpawnChild t parentPid childPid).2 := by
  simp only [publishSpawnChild]
  split
  · exact h
  rename_i child hchild
  split
  · exact h
  rename_i hppid
  rw [not_not] at hppid
  split
  · exact h
  split
  · exact h
  rename_i hlimbo
  split_ifs with haccepts
  · exact h
  simp only [Bool.not_eq_true, Bool.not_eq_false', Option.any_eq_true] at haccepts
  obtain ⟨parent, hparent, hlive⟩ := haccepts
  refine h.publish (p := { child with spawnPublicationPending := false }) ?_ (fun q hq hl => ?_)
    (.inr (.inr (.inr (stands_of_live (hppid ▸ hparent) hlive))))
    (fun heq => h.parented.root child (heq ▸ hchild) hlimbo) (h.unseen childPid child hchild) rfl h.ids
  · rintro rfl
    cases h.zero.symm.trans hchild
  · cases hchild.symm.trans hq
    exact hl

/-- The processes of `batch` have ended. -/
def ended (t : ProcessTable) (signals : Nat → SignalProcess) (batch : List Nat) : JobTable :=
  JobTable.recordExits ⟨t, signals, []⟩ batch

/-- As many rounds as there are processes left to end, and the one that finds the queue empty. -/
def applied (t : JobTable) : Option Applying := (start t).applyPendingExits ((livePids t.table).length + 1)

inductive JobCall
  | table (c : Call)
  | publishSpawnChild (parentPid childPid : Nat)
  /-- A call that ends processes, with the signals of each as they are then. -/
  | exits (signals : Nat → SignalProcess) (batch : List Nat)

def callJob (t : ProcessTable) : JobCall → Answer × ProcessTable
  | .table c => t.call c
  | .publishSpawnChild parentPid childPid => (publishSpawnChild t parentPid childPid).map .done id
  | .exits signals batch => (.done (.ok ()), ((applied (ended t signals batch)).map (·.table)).getD t)

theorem settled_table (h : Settled t) (c : Call) : Settled (t.call c).2 := by
  have hids := firstTaskId_call h.ids c
  cases c with
  | createProcess answers =>
    exact (settled_ensureInit h _).made (create_made _ t answers) fun _ => ⟨rfl, .inr (.inl rfl)⟩
  | createInitChild answers =>
    exact (settled_ensureInit h _).made (create_made _ t answers) fun _ => ⟨rfl, .inr (.inr (.inl rfl))⟩
  | fork parentPid vfork answers => exact settled_fork h parentPid vfork answers
  | spawn parentPid attrs answers => exact settled_spawn h parentPid attrs answers
  | setpgid callerPid pid pgid => exact h.steady (steady_setpgid t callerPid pid pgid) hids
  | setsid callerPid => exact h.steady (steady_setsid t callerPid) hids
  | stop pid => exact h.steady (steady_jobControl (.inl rfl)) hids
  | resume pid => exact h.steady (steady_jobControl (.inr rfl)) hids
  | exec pid => exact h.steady (steady_update fun _ => ⟨rfl, rfl, Iff.rfl, rfl, rfl⟩) hids
  | publishExit pid => exact settled_publishExit h pid
  | reap pid => exact settled_remove h pid true
  | remove pid => exact settled_remove h pid false

/-! ## The end of the loop -/

/-- Along the loop. -/
structure Ongoing (before : ProcessTable) (waiting : List Nat) (s : Applying) : Prop where
  later : Later before s.table
  parented : Parented (waiting ++ s.pendingExits) s.table
  unseen : Unseen s.table
  zero : s.table.processes.get? 0 = none
  ids : s.table.nextTaskId = before.nextTaskId
  orphans : s.OnlyOrphans

theorem zero_later (h : t.processes.get? 0 = none) (hl : Later t t') : t'.processes.get? 0 = none := by
  refine none_of_back h fun p' hp' => ?_
  obtain ⟨p, hp, _⟩ := hl.back 0 p' hp'
  exact ⟨p, hp⟩

variable {s : Applying}

theorem ongoing_applyExit {before : ProcessTable} {x : Nat} {rest : List Nat} (h : Ongoing before (x :: rest) s) :
    Ongoing before rest (s.applyExit x) := by
  have hmoves := s.moves_applyExit x
  exact ⟨h.later.trans hmoves.later, parented_applyExit h.parented, h.unseen.later hmoves.later, zero_later h.zero hmoves.later,
    hmoves.ids.trans h.ids, onlyOrphans_applyExit x h.orphans⟩

theorem ongoing_round {before : ProcessTable} (h : Ongoing before [] s) : Ongoing before s.pendingExits { s with pendingExits := [] } :=
  { h with parented := by simpa using h.parented }

/-- When processes end. -/
theorem signals_ended (t : ProcessTable) (signals : Nat → SignalProcess) (batch : List Nat) :
    Signals (t.processes.entries.map (·.2.pgid)) (start ⟨t, signals, []⟩) (start (ended t signals batch)) :=
  JobTable.signals_recordExits batch fun pid p hp => List.mem_map.mpr ⟨(pid, p), OrdMap.mem_entries_iff.mpr hp, rfl⟩

theorem ongoing_ended (h : Settled t) (signals : Nat → SignalProcess) (batch : List Nat) :
    Ongoing t [] (start (ended t signals batch)) := by
  have hsignals := signals_ended t signals batch
  exact ⟨hsignals.later, .signals [] hsignals h.parented, h.unseen.later hsignals.later,
    zero_later h.zero hsignals.later, hsignals.ids, fun g hg => absurd hg List.not_mem_nil⟩

theorem applied_some (h : Settled t) (signals : Nat → SignalProcess) (batch : List Nat) :
    ∃ s, applied (ended t signals batch) = some s ∧ Ongoing t [] s ∧ s.pendingExits = [] := by
  obtain ⟨s, hs⟩ := applyPendingExits_ends (s := start (ended t signals batch)) (Nat.lt_succ_self _)
  have hend := loop_rule (I := Ongoing t) (fun _ _ _ => ongoing_applyExit) (fun _ => ongoing_round)
    (ongoing_ended h signals batch) hs
  exact ⟨s, hs, hend⟩

theorem settled_of_ongoing (h : Settled t) (hs : Ongoing t [] s) (hnil : s.pendingExits = []) : Settled s.table := by
  have hparented := hs.parented
  rw [hnil] at hparented
  exact ⟨hparented, hs.unseen, hs.zero, hs.ids.symm ▸ h.ids⟩

theorem settled_call (h : Settled t) (c : JobCall) : Settled (callJob t c).2 := by
  cases c with
  | table c => exact settled_table h c
  | publishSpawnChild parentPid childPid => exact settled_publishSpawnChild h parentPid childPid
  | exits signals batch =>
    obtain ⟨s, hs, hongoing, hnil⟩ := applied_some h signals batch
    simp only [callJob, hs, Option.map_some]
    exact settled_of_ongoing h hongoing hnil

/-! ## Every batch of exits -/

/-- The group had a link before the exits, has none when they are applied, and has a stopped
process. -/
structure CutOff (before after final : ProcessTable) (pgid : Nat) : Prop where
  linked : before.Linked pgid
  orphaned : ¬final.Linked pgid
  stopped : ∃ pid p, (after.Member pgid pid p ∨ final.Member pgid pid p) ∧ p.state = .stopped

/-- No link of the group is a child that is still to be published. -/
def LinksPublished (t : ProcessTable) (pgid : Nat) : Prop :=
  ∀ pid p parent, t.Link pgid pid p parent → p.spawnPublicationPending = false

theorem hungUp_of_cutOff (h : Settled t) {signals : Nat → SignalProcess} {batch : List Nat}
    (hs : applied (ended t signals batch) = some s) {pgid : Nat} (hpub : LinksPublished t pgid)
    (hcut : CutOff t (ended t signals batch).table s.table pgid)
    (hp : (ended t signals batch).table.Member pgid pid p) : s.HungUp pid := by
  set after := (ended t signals batch).table with hafter
  have hongoing := ongoing_ended h signals batch
  have htied : Tied ([] ++ (start (ended t signals batch)).pendingExits) after pgid := by
    obtain ⟨child, c, parent, hlink⟩ := hcut.linked
    exact .signals [] (signals_ended t signals batch) (.of_link h.unseen hlink (hpub child c parent hlink) _)
  have huntouched : Untouched after pgid after := fun x q hq => ⟨q, hq.1, hq.2.2.1, rfl, hongoing.unseen x q hq.1 hq.2.2.2⟩
  have hend := loop_rule (I := fun waiting s => Ongoing t waiting s ∧ Later after s.table ∧ Fate after pgid waiting s)
    (fun x rest s hI => ⟨ongoing_applyExit hI.1, hI.2.1.trans (s.moves_applyExit x).later,
      fate_applyExit hI.1.later hI.1.unseen hI.1.zero hpub hI.2.2⟩)
    (fun s hI => ⟨ongoing_round hI.1, hI.2.1, hI.2.2.imp_right (.imp_right (.imp_right fun htied => by simpa using htied))⟩)
    ⟨hongoing, .refl after, .inr ⟨huntouched, .inr htied⟩⟩ hs
  obtain ⟨⟨_, hlater, hfate⟩, hnil⟩ := hend
  rcases hfate with hhung | ⟨hsame, hwhy⟩
  · exact hhung pid p hp
  -- nothing was done: then nobody is stopped, or a link is left
  rcases hwhy with hnone | htied
  · obtain ⟨x, q, hq | hq, hstopped⟩ := hcut.stopped
    · exact absurd hstopped (hnone x q hq)
    obtain ⟨q₀, hq0, hpgid, _, hlive, _⟩ := hlater.back x q hq.1
    have hmember : after.Member pgid x q₀ := ⟨hq0, hq.2.1, hpgid ▸ hq.2.2.1, hlive hq.2.2.2⟩
    obtain ⟨q', hq', _, hstate, _⟩ := hsame x q₀ hmember
    rw [hq.1, Option.some.injEq] at hq'
    exact absurd (hstate.symm.trans (hq' ▸ hstopped)) (hnone x q₀ hmember)
  · rw [hnil] at htied
    exact absurd htied.linked hcut.orphaned

/-- After any run, whatever processes end at once: their exits are applied in finitely many
rounds, every published process then has a parent that lives (or none, or init), the
groups cut off from their session by it were hung up, and no group with a link was
signalled. -/
theorem exits_applied (cs : List JobCall) (signals : Nat → SignalProcess) (batch : List Nat) :
    ∃ s, applied (ended (Machine.run callJob new cs) signals batch) = some s ∧
      (∀ pid p, s.table.processes.get? pid = some p → p.state ≠ .limbo → p.spawnPublicationPending = false →
        p.ppid = 0 ∨ p.ppid = syntheticInitPid ∨ ∃ parent, s.table.processes.get? p.ppid = some parent ∧ parent.live = true) ∧
      (∀ pgid, CutOff (Machine.run callJob new cs) (ended (Machine.run callJob new cs) signals batch).table s.table pgid →
        LinksPublished (Machine.run callJob new cs) pgid →
        ∀ pid p, (ended (Machine.run callJob new cs) signals batch).table.Member pgid pid p → s.HungUp pid) ∧ s.OnlyOrphans := by
  have hsettled : Settled (Machine.run callJob new cs) :=
    Machine.run_invariant (I := Settled) (fun _ c h => settled_call h c) cs settled_new
  obtain ⟨s, hs, hongoing, hnil⟩ := applied_some hsettled signals batch
  have hfinal := settled_of_ongoing hsettled hongoing hnil
  refine ⟨s, hs, fun pid p hp hl hpend => ?_, fun pgid hcut hpub pid p hp => hungUp_of_cutOff hsettled hs hpub hcut hp, hongoing.orphans⟩
  by_cases hinit : pid = syntheticInitPid
  · exact (hfinal.parented.root p (hinit ▸ hp) hl).imp_right .inl
  · exact (hfinal.parented.parent pid p hinit hp hl hpend).imp_right (Or.imp_right live_of_stands)

/-- A shell starts a job, which is left by its parent, goes into a group of its own and is
stopped; then the shell spawns a child into that group and ends before the child is
published. -/
def shellLeavesJob : List JobCall :=
  [.table (.createProcess readily), .table (.fork 100 false ⟨true, .ok (), true, fun _ => false, .ok ()⟩),
    .table (.fork 101 false ⟨true, .ok (), true, fun _ => false, .ok ()⟩),
    .table (.setpgid 101 102 102),
    .exits SignalProcess.new [101],
    .table (.stop 102),
    .table (.spawn 100 ⟨attrSetpgroup, 102⟩ ⟨true, .ok (), true, fun _ => false, .ok (), .ok ()⟩)]

/-- The link, and what is left of it when the shell has ended. -/
def spawnedInto : Identity := ⟨100, 102, 0, false, .running, false, false, true, false⟩

theorem unpublished_child_hides_orphan :
    ∃ s, applied (ended (Machine.run callJob new shellLeavesJob) SignalProcess.new [100]) = some s ∧
      CutOff (Machine.run callJob new shellLeavesJob) (ended (Machine.run callJob new shellLeavesJob) SignalProcess.new [100]).table
        s.table 102 ∧
      (∃ p, (ended (Machine.run callJob new shellLeavesJob) SignalProcess.new [100]).table.Member 102 102 p) ∧ ¬s.HungUp 102 := by
  have hrun : (applied (ended (Machine.run callJob new shellLeavesJob) SignalProcess.new [100])).map
      (fun s => s.generated.isEmpty && s.table.isOrphanedGroupWithStoppedMember 102) = some true := by decide +kernel
  rw [Option.map_eq_some_iff] at hrun
  obtain ⟨s, hs, hresult⟩ := hrun
  rw [Bool.and_eq_true, List.isEmpty_iff, isOrphaned_iff] at hresult
  obtain ⟨hnone, horphaned, pid, p, hmember, hstopped⟩ := hresult
  refine ⟨s, hs, ⟨?_, horphaned, pid, p, .inr hmember, hstopped⟩, ?_, ?_⟩
  · refine ⟨103, spawnedInto, ⟨0, 100, 0, false, .running, false, false, false, false⟩, ⟨?_, by decide, rfl, rfl⟩, ?_, by decide⟩
    · decide +kernel
    · decide +kernel
  · refine ⟨⟨1, 102, 0, false, .stopped, false, false, false, false⟩, ?_, by decide, rfl, rfl⟩
    decide +kernel
  rintro (hsub | ⟨hmem, _⟩)
  · rw [hnone] at hsub
    exact absurd hsub (by decide)
  · rw [hnone] at hmem
    exact absurd hmem List.not_mem_nil

end Kandelo.Process

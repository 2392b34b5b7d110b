/-
Applying exits to the rest of the process table (`apply_pending_exits`): the children of a
process that ended go to synthetic init, and a process group that lost its last link to its
session while a member is stopped is sent SIGHUP and SIGCONT, which may end further
processes. `Applying` is the loop's state, with every signal generated and the table it
was generated in.

The invariants are over the exits yet to be applied: `Parented` for the parents, `Due` for a
group that is to be hung up. What the loop may change is `Later`: processes end, move to init
and leave, and a link that is gone does not come back (`Linked.of_later`).
-/
import Kandelo.Process.Group
import Kandelo.Signal.Delivery

namespace Kandelo.Process

open List OrdMap

open Signal (SignalProcess sighup sigcont)

namespace ProcessTable

/-! ## Orphaned process groups -/

/-- A live ordinary process: synthetic init and the host never link a group. -/
def liveParent (t : ProcessTable) (ppid : Nat) : Option Identity :=
  if ppid = 0 ∨ ppid = syntheticInitPid then none else (t.processes.get? ppid).filter (·.live)

/-- The parent is in another group of the same session. -/
def links (pgid : Nat) (member parent : Identity) : Bool := parent.pgid != pgid && parent.sid == member.sid

/-- The loop of `is_orphaned_group_with_stopped_member`. -/
def scanMembers (t : ProcessTable) (pgid : Nat) : Bool → List (Nat × Identity) → Bool
  | hasStoppedMember, [] => hasStoppedMember
  | hasStoppedMember, (pid, member) :: rest =>
    if pid = syntheticInitPid ∨ member.pgid ≠ pgid ∨ !member.live then t.scanMembers pgid hasStoppedMember rest
    else if (t.liveParent member.ppid).any (links pgid member) then false
    else t.scanMembers pgid (hasStoppedMember || member.state == .stopped) rest

def isOrphanedGroupWithStoppedMember (t : ProcessTable) (pgid : Nat) : Bool := t.scanMembers pgid false t.processes.entries

/-- The children that a process leaves. -/
def leftChildren (t : ProcessTable) (parentPid : Nat) : List (Nat × Identity) :=
  t.processes.entries.filter fun e => e.1 != syntheticInitPid && e.2.ppid == parentPid && !e.2.spawnPublicationPending

/-- The groups and sessions of the children that go to init. -/
def childGroups (t : ProcessTable) (parentPid : Nat) : List (Nat × Nat) :=
  ((t.leftChildren parentPid).filter fun e => e.2.state != .limbo).map fun e => (e.2.pgid, e.2.sid)

/-- The children whose end the host has seen. -/
def publishedZombies (t : ProcessTable) (parentPid : Nat) : List Nat :=
  ((t.leftChildren parentPid).filter fun e => e.2.state == .exited && e.2.exitPublished).map (·.1)

/-! ## Links -/

/-- A live process of the group. -/
def Member (t : ProcessTable) (pgid pid : Nat) (p : Identity) : Prop :=
  t.processes.get? pid = some p ∧ pid ≠ syntheticInitPid ∧ p.pgid = pgid ∧ p.live

/-- A live member with a live parent in another group of its session. -/
def Link (t : ProcessTable) (pgid pid : Nat) (p parent : Identity) : Prop :=
  t.Member pgid pid p ∧ t.liveParent p.ppid = some parent ∧ links pgid p parent

/-- The group is not orphaned. -/
def Linked (t : ProcessTable) (pgid : Nat) : Prop := ∃ pid p parent, t.Link pgid pid p parent

variable {t : ProcessTable}

theorem liveParent_eq_some {ppid : Nat} {parent : Identity} : t.liveParent ppid = some parent ↔
      ppid ≠ 0 ∧ ppid ≠ syntheticInitPid ∧ t.processes.get? ppid = some parent ∧ parent.live := by
  simp only [liveParent]
  split_ifs with h
  · refine iff_of_false nofun fun ⟨h1, h2, _⟩ => ?_
    exact h.elim h1 h2
  rw [not_or] at h
  rw [Option.filter_eq_some_iff]
  exact ⟨fun h' => ⟨h.1, h.2, h'⟩, fun h' => h'.2.2⟩

theorem scanMembers_iff (t : ProcessTable) (pgid : Nat) (stopped : Bool) (es : List (Nat × Identity)) :
    t.scanMembers pgid stopped es ↔ (∀ e ∈ es, e.1 ≠ syntheticInitPid → e.2.pgid = pgid → e.2.live →
        (t.liveParent e.2.ppid).any (links pgid e.2) = false) ∧
      (stopped ∨ ∃ e ∈ es, e.1 ≠ syntheticInitPid ∧ e.2.pgid = pgid ∧ e.2.live ∧ e.2.state = .stopped) := by
  induction es generalizing stopped with
  | nil => simp [scanMembers]
  | cons e es ih =>
    obtain ⟨pid, member⟩ := e
    rw [scanMembers]
    split
    · rename_i hskip
      rw [ih]
      have hnot : ¬(pid ≠ syntheticInitPid ∧ member.pgid = pgid ∧ member.live) := by
        rintro ⟨h1, h2, h3⟩
        rcases hskip with h | h | h
        · exact h1 h
        · exact h h2
        · rw [h3] at h
          cases h
      refine and_congr ⟨fun h e he => ?_, fun h e he => h e (mem_cons_of_mem _ he)⟩ (or_congr_right ?_)
      · rcases mem_cons.mp he with rfl | he
        · exact fun h1 h2 h3 => absurd ⟨h1, h2, h3⟩ hnot
        · exact h e he
      · simp only [mem_cons, exists_eq_or_imp]
        exact ⟨.inr, fun h => h.resolve_left fun h => hnot ⟨h.1, h.2.1, h.2.2.1⟩⟩
    rename_i hskip
    simp only [not_or, not_not, Bool.not_eq_true, Bool.not_eq_false'] at hskip
    obtain ⟨h1, h2, h3⟩ := hskip
    split
    · rename_i hlink
      refine iff_of_false Bool.false_ne_true fun h => ?_
      rw [h.1 (pid, member) mem_cons_self h1 h2 h3] at hlink
      cases hlink
    rename_i hlink
    rw [ih]
    refine and_congr ⟨fun h e he => ?_, fun h e he => h e (mem_cons_of_mem _ he)⟩ ?_
    · rcases mem_cons.mp he with rfl | he
      · exact fun _ _ _ => by simpa using hlink
      · exact h e he
    · simp only [Bool.or_eq_true, beq_iff_eq, mem_cons, exists_eq_or_imp, or_assoc]
      exact or_congr_right (or_congr_left ⟨fun h => ⟨h1, h2, h3, h⟩, fun h => h.2.2.2⟩)

theorem isOrphaned_iff (t : ProcessTable) (pgid : Nat) : t.isOrphanedGroupWithStoppedMember pgid ↔
      ¬t.Linked pgid ∧ ∃ pid p, t.Member pgid pid p ∧ p.state = .stopped := by
  rw [isOrphanedGroupWithStoppedMember, scanMembers_iff]
  refine and_congr ⟨fun h => ?_, fun h e he h1 h2 h3 => ?_⟩ ⟨fun h => ?_, fun h => .inr ?_⟩
  · rintro ⟨pid, p, parent, ⟨hget, h1, h2, h3⟩, hparent, hlink⟩
    have := h (pid, p) (mem_entries_iff.mpr hget) h1 h2 h3
    rw [hparent, Option.any_some, hlink] at this
    cases this
  · cases hparent : t.liveParent e.2.ppid with
    | none => rfl
    | some parent =>
      rw [← Bool.not_eq_true]
      exact fun hlink => h ⟨e.1, e.2, parent, ⟨mem_entries_iff.mp he, h1, h2, h3⟩, hparent, hlink⟩
  · obtain ⟨e, he, h1, h2, h3, h4⟩ := h.resolve_left Bool.false_ne_true
    exact ⟨e.1, e.2, ⟨mem_entries_iff.mp he, h1, h2, h3⟩, h4⟩
  · obtain ⟨pid, p, ⟨hget, h1, h2, h3⟩, h4⟩ := h
    exact ⟨(pid, p), mem_entries_iff.mpr hget, h1, h2, h3, h4⟩

/-! ## What applying exits may change -/

/-- The table later on: everything in it was there, in the same group and session, alive only
if it was, under the same parent or under init; and what the host has not seen end is
still there. -/
structure Later (t t' : ProcessTable) : Prop where
  back : ∀ pid p', t'.processes.get? pid = some p' → ∃ p, t.processes.get? pid = some p ∧ p'.pgid = p.pgid ∧ p'.sid = p.sid ∧
    (p'.live → p.live) ∧ (p'.ppid = p.ppid ∨ p'.ppid = syntheticInitPid) ∧
    (p'.state ≠ .limbo → p.state ≠ .limbo ∧ p'.spawnPublicationPending = p.spawnPublicationPending) ∧
    p'.isSessionLeader = p.isSessionLeader
  stays : ∀ pid p, t.processes.get? pid = some p → p.state ≠ .limbo → p.exitPublished = false →
    ∃ p', t'.processes.get? pid = some p' ∧ p'.state ≠ .limbo ∧ p'.exitPublished = false ∧ (p.state = .exited → p'.state = .exited)

theorem Later.refl (t : ProcessTable) : Later t t :=
  ⟨fun _ p hp => ⟨p, hp, rfl, rfl, id, .inl rfl, fun h => ⟨h, rfl⟩, rfl⟩, fun _ p hp h1 h2 => ⟨p, hp, h1, h2, id⟩⟩

variable {p : Identity}

theorem not_limbo_of_live (h : p.live) : p.state ≠ .limbo := by
  intro hl
  rw [Identity.live, hl] at h
  cases h

theorem not_exited_of_live (h : p.live) : p.state ≠ .exited := by
  intro hex
  rw [Identity.live, hex] at h
  cases h

theorem live_of_not {state : ProcessState} (hex : state ≠ .exited) (hlimbo : state ≠ .limbo) :
    ({ p with state := state } : Identity).live := by
  cases state with
  | running => rfl
  | stopped => rfl
  | exited => exact absurd rfl hex
  | limbo => exact absurd rfl hlimbo

variable {t' : ProcessTable}

theorem Later.trans {t'' : ProcessTable} (h : Later t t') (h' : Later t' t'') : Later t t'' := by
  refine ⟨fun pid p'' hp'' => ?_, fun pid p hp hl hu => ?_⟩
  · obtain ⟨p', hp', hpgid', hsid', hlive', hppid', hpend', hlead'⟩ := h'.back pid p'' hp''
    obtain ⟨p, hp, hpgid, hsid, hlive, hppid, hpend, hlead⟩ := h.back pid p' hp'
    refine ⟨p, hp, hpgid'.trans hpgid, hsid'.trans hsid, hlive ∘ hlive', ?_, fun hne => ?_, hlead'.trans hlead⟩
    · rcases hppid' with heq | heq
      · exact hppid.imp heq.trans heq.trans
      · exact .inr heq
    · obtain ⟨hne', heq'⟩ := hpend' hne
      exact ⟨(hpend hne').1, heq'.trans (hpend hne').2⟩
  · obtain ⟨p', hp', hl', hu', hex'⟩ := h.stays pid p hp hl hu
    obtain ⟨p'', hp'', hl'', hu'', hex''⟩ := h'.stays pid p' hp' hl' hu'
    exact ⟨p'', hp'', hl'', hu'', hex'' ∘ hex'⟩

variable {pid : Nat}

/-- A link that is gone does not come back: init links nothing. -/
theorem Link.of_later (h : Later t t') {pgid : Nat} {p' parent' : Identity} (hl : t'.Link pgid pid p' parent') :
    ∃ p parent, t.Link pgid pid p parent ∧ p'.ppid = p.ppid ∧ p'.spawnPublicationPending = p.spawnPublicationPending := by
  obtain ⟨⟨hget, hinit, hpgid, hlive⟩, hparent, hlinks⟩ := hl
  obtain ⟨hzero, hne, hgetp, hlivep⟩ := liveParent_eq_some.mp hparent
  obtain ⟨p, hp, hpgid', hsid', hlive', hppid', hpend', _⟩ := h.back pid p' hget
  obtain ⟨parent, hparent0, hpgidp, hsidp, hlivep', _⟩ := h.back p'.ppid parent' hgetp
  have hppid : p'.ppid = p.ppid := hppid'.resolve_right hne
  refine ⟨p, parent, ⟨⟨hp, hinit, hpgid' ▸ hpgid, hlive' hlive⟩, liveParent_eq_some.mpr ?_, ?_⟩, hppid,
    (hpend' (not_limbo_of_live hlive)).2⟩
  · rw [← hppid]
    exact ⟨hzero, hne, hparent0, hlivep' hlivep⟩
  · simpa only [links, hpgidp, hsidp, hsid'] using hlinks

theorem Linked.of_later (h : Later t t') {pgid : Nat} (hl : t'.Linked pgid) : t.Linked pgid := by
  obtain ⟨pid, p', parent', hl⟩ := hl
  obtain ⟨p, parent, hlink, _⟩ := hl.of_later h
  exact ⟨pid, p, parent, hlink⟩

/-- A child of `parentPid` that goes to init, any other as it is. -/
def adopted (parentPid pid : Nat) (child : Identity) : Identity :=
  if parentPid = syntheticInitPid ∨ pid = syntheticInitPid ∨ child.ppid ≠ parentPid ∨ child.spawnPublicationPending then child
  else { child with ppid := syntheticInitPid }

theorem adopted_cases (parentPid pid : Nat) (child : Identity) : (adopted parentPid pid child = child ∧
        (parentPid = syntheticInitPid ∨ pid = syntheticInitPid ∨ child.ppid ≠ parentPid ∨ child.spawnPublicationPending)) ∨
      adopted parentPid pid child = { child with ppid := syntheticInitPid } ∧ child.ppid = parentPid := by
  simp only [adopted]
  split_ifs with h
  · exact .inl ⟨rfl, h⟩
  · simp only [not_or, not_not] at h
    exact .inr ⟨rfl, h.2.2.1⟩

theorem get?_reparent (t : ProcessTable) (parentPid pid : Nat) :
    (t.reparentChildrenToInit parentPid).processes.get? pid = (t.processes.get? pid).map (adopted parentPid pid) := by
  simp only [reparentChildrenToInit]
  split_ifs with h
  · have hsame : adopted parentPid pid = id := funext fun child => if_pos (.inl h)
    rw [hsame, Option.map_id, id]
  rw [get?_retain]
  cases t.processes.get? pid with
  | none => rfl
  | some child => simp [adopted, h]

theorem adopted_eq (parentPid pid : Nat) (child : Identity) :
    ∃ ppid, adopted parentPid pid child = { child with ppid := ppid } ∧ (ppid = child.ppid ∨ ppid = syntheticInitPid) := by
  rcases adopted_cases parentPid pid child with ⟨h, _⟩ | ⟨h, _⟩
  · exact ⟨child.ppid, h, .inl rfl⟩
  · exact ⟨_, h, .inr rfl⟩

theorem later_reparent (t : ProcessTable) (parentPid : Nat) : Later t (t.reparentChildrenToInit parentPid) := by
  refine ⟨fun pid p' hp' => ?_, fun pid p hp hl hu => ?_⟩
  · rw [get?_reparent, Option.map_eq_some_iff] at hp'
    obtain ⟨p, hp, rfl⟩ := hp'
    obtain ⟨ppid, heq, hppid⟩ := adopted_eq parentPid pid p
    exact heq ▸ ⟨p, hp, rfl, rfl, id, hppid, fun hne => ⟨hne, rfl⟩, rfl⟩
  · obtain ⟨ppid, heq, _⟩ := adopted_eq parentPid pid p
    exact ⟨{ p with ppid := ppid }, by rw [get?_reparent, hp, Option.map_some, heq], hl, hu, id⟩

/-! ## A process reaped -/

theorem get?_of_prune (h : t.pruneEmptyLimboGroups.processes.get? pid = some p) : t.processes.get? pid = some p := by
  fun_induction pruneEmptyLimboGroups t with
  | case1 t _ => exact h
  | case2 t e _ ih =>
    have := ih h
    rw [get?_erase] at this
    split at this
    · cases this
    · exact this

theorem get?_prune (h : t.processes.get? pid = some p) (hl : p.state ≠ .limbo) :
    t.pruneEmptyLimboGroups.processes.get? pid = some p := by
  fun_induction pruneEmptyLimboGroups t with
  | case1 t _ => exact h
  | case2 t e hfind ih =>
    refine ih ?_
    rw [get?_erase, if_neg]
    · exact h
    rintro rfl
    have hempty := find?_some hfind
    rw [mem_entries_iff.mp (mem_of_find?_eq_some hfind), Option.some.injEq] at h
    simp only [emptyLimbo, Bool.and_eq_true, beq_iff_eq] at hempty
    exact hl (h ▸ hempty.1.1)

/-- `z` has left, or stays in limbo for its group; its children are init's. -/
structure Removes (z : Nat) (t t' : ProcessTable) : Prop where
  gone : ∀ p', t'.processes.get? z = some p' → p'.state = .limbo ∧ ∃ p, t.processes.get? z = some p ∧
    p'.pgid = p.pgid ∧ p'.sid = p.sid ∧ (p'.ppid = p.ppid ∨ p'.ppid = syntheticInitPid) ∧ p'.isSessionLeader = p.isSessionLeader
  kept : ∀ pid p, pid ≠ z → t.processes.get? pid = some p → p.state ≠ .limbo → t'.processes.get? pid = some (adopted z pid p)
  back : ∀ pid p', pid ≠ z → t'.processes.get? pid = some p' → ∃ p, t.processes.get? pid = some p ∧ p' = adopted z pid p

theorem removes_inner {z : Nat} (retain : Bool) (hz : z ≠ syntheticInitPid)
    (hp : t.processes.get? z = some p) : Removes z t (t.removeProcessInner z retain) := by
  simp only [removeProcessInner, if_neg hz, hp]
  -- before the children are handed over: the others are where they were
  set kept := (if retain && p.pgid == z && groupHasMember { t with processes := t.processes.erase z } z then
    publish { t with processes := t.processes.erase z } z (p.limboFrom z) else { t with processes := t.processes.erase z }) with hkept
  have hother : ∀ pid, pid ≠ z → kept.processes.get? pid = t.processes.get? pid := by
    intro pid hne
    rw [hkept]
    split
    · rw [get?_publish, if_neg hne, get?_erase, if_neg hne]
    · rw [get?_erase, if_neg hne]
  have hself : ∀ q, kept.processes.get? z = some q → q = p.limboFrom z := by
    intro q hq
    rw [hkept] at hq
    split at hq
    · rw [get?_publish, if_pos rfl, Option.some.injEq] at hq
      exact hq.symm
    · rw [get?_erase, if_pos rfl] at hq
      cases hq
  refine ⟨fun p' hp' => ?_, fun pid q hne hq hl => ?_, fun pid q' hne hq' => ?_⟩
  · rw [get?_reparent, Option.map_eq_some_iff] at hp'
    obtain ⟨q, hq, rfl⟩ := hp'
    obtain ⟨ppid, heq, hppid⟩ := adopted_eq z z (p.limboFrom z)
    rw [hself q (get?_of_prune hq), heq]
    exact ⟨rfl, p, hp, rfl, rfl, hppid, rfl⟩
  · rw [get?_reparent, get?_prune ((hother pid hne).trans hq) hl]
    rfl
  · rw [get?_reparent, Option.map_eq_some_iff] at hq'
    obtain ⟨q, hq, rfl⟩ := hq'
    exact ⟨q, (hother pid hne).symm.trans (get?_of_prune hq), rfl⟩

theorem Removes.later {z : Nat} (h : Removes z t t') (hz : ∀ p, t.processes.get? z = some p → p.exitPublished) : Later t t' := by
  refine ⟨fun pid p' hp' => ?_, fun pid p hp hl hu => ?_⟩
  · by_cases hne : pid = z
    · rw [hne] at hp' ⊢
      obtain ⟨hlimbo, p, hp, hpgid, hsid, hppid, hlead⟩ := h.gone p' hp'
      exact ⟨p, hp, hpgid, hsid, fun hlive => absurd hlimbo (not_limbo_of_live hlive), hppid, fun h' => absurd hlimbo h', hlead⟩
    obtain ⟨p, hp, rfl⟩ := h.back pid p' hne hp'
    obtain ⟨ppid, heq, hppid⟩ := adopted_eq z pid p
    exact heq ▸ ⟨p, hp, rfl, rfl, id, hppid, fun hne => ⟨hne, rfl⟩, rfl⟩
  have hne : pid ≠ z := by
    rintro rfl
    rw [hz p hp] at hu
    cases hu
  obtain ⟨ppid, heq, _⟩ := adopted_eq z pid p
  have hkept := h.kept pid p hne hp hl
  rw [heq] at hkept
  exact ⟨_, hkept, hl, hu, id⟩

end ProcessTable

/-- The process table, the signals of each process (whose state is the table's), and the
exits not yet applied. -/
structure JobTable where
  table : ProcessTable
  signals : Nat → SignalProcess
  pendingExits : List Nat

structure ExitApplication where
  reaped : List Nat
  signaled : List Nat

/-- A signal generated for a process, and the table as it was. -/
structure Generated where
  table : ProcessTable
  pid : Nat
  signum : Nat

structure Applying extends JobTable where
  application : ExitApplication
  generated : List Generated

namespace Applying

open ProcessTable

def start (t : JobTable) : Applying := ⟨t, ⟨[], []⟩, []⟩

/-! ## Signals -/

/-- One process of the group: the signal is generated for it and delivered. A process that
ends queues its exit. -/
def signalMember (s : Applying) (pgid signum pid : Nat) : Applying :=
  match s.table.processes.get? pid with
  | none => s
  | some p =>
    let process := { s.signals pid with pid := pid, state := p.state }
    if p.pgid ≠ pgid ∨ p.state = .limbo ∨ pid = syntheticInitPid ∨ !process.isLiveExplicitTid pid then s
    else
      let process := process.generate signum
      { table := s.table.publish pid { p with state := process.state }
        signals := fun x => if x = pid then process else s.signals x
        pendingExits := if process.state = .exited then s.pendingExits ++ [pid] else s.pendingExits
        application := if signum = sighup then { s.application with signaled := s.application.signaled ++ [pid] } else s.application
        generated := s.generated ++ [⟨s.table, pid, signum⟩] }

/-- The processes in the order of their ids: a signal adds none and moves none to another
group. -/
def signalGroup (s : Applying) (pgid signum : Nat) : Applying :=
  (s.table.processes.entries.map (·.1)).foldl (fun s pid => s.signalMember pgid signum pid) s

def signalOrphanedGroup (s : Applying) (pgid : Nat) : Applying := (s.signalGroup pgid sighup).signalGroup pgid sigcont

/-! ## Exits -/

/-- The groups newly orphaned by an exit: those of the children, then the process's own. -/
def orphanedGroups (t : ProcessTable) (p : Identity) (childGroups : List (Nat × Nat)) : List Nat :=
  let groups := childGroups.foldl (fun groups child =>
    if child.1 ≠ p.pgid ∧ child.2 = p.sid ∧ child.1 ∉ groups ∧ t.isOrphanedGroupWithStoppedMember child.1 then
      groups ++ [child.1]
    else groups) []
  let parentWasLink := (t.liveParent p.ppid).any (links p.pgid p)
  if parentWasLink ∧ p.pgid ∉ groups ∧ t.isOrphanedGroupWithStoppedMember p.pgid then groups ++ [p.pgid] else groups

def reapForInit (s : Applying) (zombie : Nat) : Applying :=
  match s.table.processes.get? zombie with
  | none => s
  | some p =>
    if p.ppid ≠ syntheticInitPid ∨ p.state ≠ .exited then s
    else
      { s with
        table := s.table.reapForInit zombie
        application := { s.application with reaped := s.application.reaped ++ [zombie] } }

def applyExit (s : Applying) (pid : Nat) : Applying :=
  match s.table.processes.get? pid with
  | none => s
  | some p =>
    if pid = syntheticInitPid ∨ p.state ≠ .exited then s
    else
      let adopted := { s with table := s.table.reparentChildrenToInit pid }
      let signaled := (orphanedGroups adopted.table p (s.table.childGroups pid)).foldl signalOrphanedGroup adopted
      (s.table.publishedZombies pid).foldl reapForInit signaled

/-- The loop, as often as `fuel` says; `none` if that is not enough. -/
def applyPendingExits : Nat → Applying → Option Applying
  | 0, s => if s.pendingExits = [] then some s else none
  | fuel + 1, s =>
    if s.pendingExits = [] then some s
    else applyPendingExits fuel (s.pendingExits.foldl applyExit { s with pendingExits := [] })

/-! ## What a signal changes -/

/-- A process a group signal is for. -/
def Target (t : ProcessTable) (pgid pid : Nat) (p : Identity) : Prop := t.Member pgid pid p ∧ pid ≠ 0

theorem signalMember_cases (s : Applying) (pgid signum pid : Nat) :
    ((∀ p, ¬Target s.table pgid pid p) ∧ s.signalMember pgid signum pid = s) ∨ ∃ p state, Target s.table pgid pid p ∧ state ≠ .limbo ∧
        (s.signalMember pgid signum pid).table = s.table.publish pid { p with state := state } ∧
        (s.signalMember pgid signum pid).pendingExits = (if state = .exited then s.pendingExits ++ [pid] else s.pendingExits) ∧
        (s.signalMember pgid signum pid).generated = s.generated ++ [⟨s.table, pid, signum⟩] := by
  simp only [signalMember]
  split
  · rename_i hnone
    refine .inl ⟨fun p hp => ?_, rfl⟩
    rw [hp.1.1] at hnone
    cases hnone
  rename_i p hp
  have hlive : SignalProcess.isLiveExplicitTid { s.signals pid with pid := pid, state := p.state } pid ↔
      pid ≠ syntheticInitPid ∧ p.live ∧ pid ≠ 0 := by
    simp only [SignalProcess.isLiveExplicitTid, Identity.live, syntheticInitPid, Bool.and_eq_true, bne_iff_ne,
      beq_self_eq_true, Bool.true_or, and_true, and_assoc]
  split
  · rename_i hskip
    refine .inl ⟨fun q hq => ?_, rfl⟩
    obtain ⟨⟨hget, hinit, hpgid, hl⟩, hzero⟩ := hq
    rw [hp, Option.some.injEq] at hget
    subst hget
    rcases hskip with h | h | h | h
    · exact h hpgid
    · exact not_limbo_of_live hl h
    · exact hinit h
    · rw [hlive.mpr ⟨hinit, hl, hzero⟩] at h
      cases h
  · rename_i hskip
    simp only [not_or, not_not, Bool.not_eq_true, Bool.not_eq_false'] at hskip
    obtain ⟨hpgid, hlimbo, hinit, htid⟩ := hskip
    obtain ⟨_, hl, hzero⟩ := hlive.mp htid
    refine .inr ⟨p, _, ⟨⟨hp, hinit, hpgid, hl⟩, hzero⟩, ?_, rfl, rfl, rfl⟩
    exact SignalProcess.generate_not_limbo hlimbo signum

/-- What signals to groups may change: the states of their live members, whose exits are queued. -/
structure Signals (groups : List Nat) (s s' : Applying) : Prop where
  keep : ∀ pid p, s.table.processes.get? pid = some p → ∃ state, s'.table.processes.get? pid = some { p with state := state } ∧
    (state = p.state ∨ p.live ∧ p.pgid ∈ groups ∧ state ≠ .limbo) ∧
    (p.live → state = .exited → pid ∈ s'.pendingExits)
  back : ∀ pid p', s'.table.processes.get? pid = some p' → ∃ p, s.table.processes.get? pid = some p
  queue : ∀ x ∈ s.pendingExits, x ∈ s'.pendingExits
  fresh : ∀ x ∈ s'.pendingExits, x ∈ s.pendingExits ∨
    ∃ p, s.table.processes.get? x = some p ∧ p.live ∧ s'.table.processes.get? x = some { p with state := .exited }
  ids : s'.table.nextTaskId = s.table.nextTaskId
  log : ∃ new, s'.generated = s.generated ++ new ∧
    ∀ g ∈ new, Later s.table g.table ∧ ∃ p, g.table.processes.get? g.pid = some p ∧ p.pgid ∈ groups

/-- A signal may change the state of a live member of the groups. -/
def Turns (groups : List Nat) (p : Identity) (state : ProcessState) : Prop :=
  state = p.state ∨ p.live ∧ p.pgid ∈ groups ∧ state ≠ .limbo

namespace Turns

variable {groups : List Nat} {p : Identity} {state : ProcessState}

section

variable (h : Turns groups p state)

include h

theorem live_back (hl : ({ p with state := state } : Identity).live) : p.live := by
  rcases h with rfl | h
  · exact hl
  · exact h.1

theorem live (hl : p.live) (hex : state ≠ .exited) : ({ p with state := state } : Identity).live := by
  rcases h with rfl | h
  · exact hl
  · exact live_of_not hex h.2.2

theorem exited (hex : p.state = .exited) : state = .exited := h.elim (·.trans hex) fun h => absurd hex (not_exited_of_live h.1)

theorem not_limbo_iff : state ≠ .limbo ↔ p.state ≠ .limbo := by
  rcases h with rfl | h
  · exact Iff.rfl
  · exact iff_of_true h.2.2 (not_limbo_of_live h.1)

end

end Turns

theorem Signals.refl (groups : List Nat) (s : Applying) : Signals groups s s := by
  exact ⟨fun pid p hp => ⟨p.state, hp, .inl rfl, fun hl he => absurd he (not_exited_of_live hl)⟩, fun _ p hp => ⟨p, hp⟩,
    fun _ hx => hx, fun _ hx => .inl hx, rfl, [], (append_nil _).symm, fun g hg => absurd hg not_mem_nil⟩

variable {s s' : Applying} {groups : List Nat}

theorem Signals.later (h : Signals groups s s') : Later s.table s'.table := by
  refine ⟨fun pid p' hp' => ?_, fun pid p hp hl hu => ?_⟩
  · obtain ⟨p, hp⟩ := h.back pid p' hp'
    obtain ⟨state, hstate, hturns, _⟩ := h.keep pid p hp
    rw [hstate, Option.some.injEq] at hp'
    subst hp'
    exact ⟨p, hp, rfl, rfl, Turns.live_back hturns, .inl rfl, fun hne => ⟨(Turns.not_limbo_iff hturns).mp hne, rfl⟩, rfl⟩
  · obtain ⟨state, hstate, hturns, _⟩ := h.keep pid p hp
    exact ⟨_, hstate, (Turns.not_limbo_iff hturns).mpr hl, hu, Turns.exited hturns⟩

theorem Signals.trans {s'' : Applying} (h : Signals groups s s') (h' : Signals groups s' s'') : Signals groups s s'' := by
  refine ⟨fun pid p hp => ?_, fun pid p'' hp'' => ?_, fun x hx => h'.queue x (h.queue x hx), fun x hx => ?_, h'.ids.trans h.ids, ?_⟩
  · obtain ⟨st, hst, hwhich, hqueued⟩ := h.keep pid p hp
    obtain ⟨st', hst', hwhich', hqueued'⟩ := h'.keep pid _ hst
    refine ⟨st', hst', ?_, fun hl he => ?_⟩
    · rcases hwhich' with heq' | ⟨hl', hpgid, hne⟩
      · exact hwhich.imp heq'.trans fun ⟨hl, hpgid, hne⟩ => ⟨hl, hpgid, heq'.trans_ne hne⟩
      · exact .inr ⟨Turns.live_back hwhich hl', hpgid, hne⟩
    by_cases hst_ex : st = .exited
    · exact h'.queue pid (hqueued hl hst_ex)
    · exact hqueued' (Turns.live hwhich hl hst_ex) he
  · obtain ⟨p', hp'⟩ := h'.back pid p'' hp''
    exact h.back pid p' hp'
  · rcases h'.fresh x hx with hx | ⟨p', hp', hl', hex⟩
    · rcases h.fresh x hx with hx | ⟨p, hp, hl, hex⟩
      · exact .inl hx
      · obtain ⟨st, hst, hwhich, _⟩ := h'.keep x _ hex
        exact .inr ⟨p, hp, hl, hst.trans (by rw [Turns.exited hwhich rfl])⟩
    obtain ⟨p, hp⟩ := h.back x p' hp'
    obtain ⟨st, hst, hwhich, _⟩ := h.keep x p hp
    rw [hst, Option.some.injEq] at hp'
    subst hp'
    exact .inr ⟨p, hp, Turns.live_back hwhich hl', hex⟩
  · obtain ⟨new, hnew, hlog⟩ := h.log
    obtain ⟨new', hnew', hlog'⟩ := h'.log
    refine ⟨new ++ new', by rw [hnew', hnew, append_assoc], fun g hg => ?_⟩
    rcases mem_append.mp hg with hg | hg
    · exact hlog g hg
    · exact ⟨h.later.trans (hlog' g hg).1, (hlog' g hg).2⟩

variable {pgid pid : Nat} {p : Identity}

/-- A live member of the groups gets a new state, and its exit is queued. -/
theorem signals_publish {state : ProcessState} {new : List Generated} (hget : s.table.processes.get? pid = some p)
    (hlive : p.live) (hg : p.pgid ∈ groups) (hne : state ≠ .limbo) (htab : s'.table = s.table.publish pid { p with state := state })
    (hexits : s'.pendingExits = if state = .exited then s.pendingExits ++ [pid] else s.pendingExits)
    (hlog : s'.generated = s.generated ++ new) (hnew : ∀ g ∈ new, g.table = s.table ∧ g.pid = pid) : Signals groups s s' := by
  refine ⟨fun x q hq => ?_, fun x q' hq' => ?_, fun x hx => ?_, fun x hx => ?_, by rw [htab]; rfl, new, hlog, fun g hg' => ?_⟩
  · by_cases hx : x = pid
    · rw [hx, hget, Option.some.injEq] at hq
      subst hq
      refine ⟨state, by rw [htab, get?_publish, if_pos hx], .inr ⟨hlive, hg, hne⟩, fun _ he => ?_⟩
      rw [hexits, if_pos he, hx]
      exact mem_append_right _ (mem_singleton_self pid)
    · exact ⟨q.state, by rw [htab, get?_publish, if_neg hx, hq], .inl rfl, fun hl he => absurd he (not_exited_of_live hl)⟩
  · rw [htab, get?_publish] at hq'
    split_ifs at hq' with hx
    · exact ⟨p, hx ▸ hget⟩
    · exact ⟨q', hq'⟩
  · rw [hexits]
    split
    · exact mem_append_left _ hx
    · exact hx
  · rw [hexits] at hx
    split_ifs at hx with hex
    · rcases mem_append.mp hx with hx | hx
      · exact .inl hx
      rw [mem_singleton] at hx
      refine .inr ⟨p, hx ▸ hget, hlive, ?_⟩
      rw [htab, get?_publish, if_pos hx, hex]
    · exact .inl hx
  · obtain ⟨htable, hpid⟩ := hnew g hg'
    rw [htable, hpid]
    exact ⟨.refl s.table, p, hget, hg⟩

section

variable (hg : pgid ∈ groups)

include hg

theorem signals_member (s : Applying) (signum pid : Nat) : Signals groups s (s.signalMember pgid signum pid) := by
  rcases s.signalMember_cases pgid signum pid with ⟨_, heq⟩ | ⟨p, state, ⟨⟨hget, _, hpgid, hlive⟩, _⟩, hne, htab, hexits, hgen⟩
  · rw [heq]
    exact .refl groups s
  · exact signals_publish hget hlive (hpgid ▸ hg) hne htab hexits hgen fun g hg' => by simp_all

theorem signals_fold (signum : Nat) (pids : List Nat) (s : Applying) :
    Signals groups s (pids.foldl (fun s pid => s.signalMember pgid signum pid) s) :=
  List.foldlRecOn pids _ (.refl groups s) fun _ h pid _ => h.trans (signals_member hg _ signum pid)

theorem signals_group (s : Applying) (signum : Nat) : Signals groups s (s.signalGroup pgid signum) := signals_fold hg signum _ s

theorem signals_orphanedGroup (s : Applying) : Signals groups s (s.signalOrphanedGroup pgid) :=
  (signals_group hg s sighup).trans (signals_group hg _ sigcont)

end

theorem signals_orphanedGroups (gs : List Nat) (hgs : ∀ g ∈ gs, g ∈ groups) (s : Applying) :
    Signals groups s (gs.foldl signalOrphanedGroup s) :=
  List.foldlRecOn gs _ (.refl groups s) fun _ h g hg => h.trans (signals_orphanedGroup (hgs g hg) _)

/-- A process whose turn it is not keeps its record. -/
theorem signalMember_other (s : Applying) (pgid signum : Nat) {x : Nat} (h : x ≠ pid) :
    (s.signalMember pgid signum pid).table.processes.get? x = s.table.processes.get? x := by
  rcases s.signalMember_cases pgid signum pid with ⟨_, heq⟩ | ⟨p, state, _, _, htab, _, _⟩
  · rw [heq]
  · rw [htab, get?_publish, if_neg h]

/-- The signal is generated for every live process of the list. -/
theorem generated_fold (pgid signum : Nat) {pids : List Nat} (hnodup : pids.Nodup)
    (hmem : pid ∈ pids) (hp : Target s.table pgid pid p) :
    ∃ new, (pids.foldl (fun s pid => s.signalMember pgid signum pid) s).generated = s.generated ++ new ∧
      ∃ g ∈ new, g.pid = pid ∧ g.signum = signum := by
  induction pids generalizing s with
  | nil => exact absurd hmem not_mem_nil
  | cons k pids ih =>
    rw [nodup_cons] at hnodup
    rw [foldl_cons]
    obtain ⟨new, hnew, _⟩ := (signals_fold (mem_singleton_self pgid) signum pids (s.signalMember pgid signum k)).log
    by_cases hk : pid = k
    · rcases s.signalMember_cases pgid signum k with ⟨hno, _⟩ | ⟨_, _, _, _, _, _, hgen⟩
      · exact absurd hp (hk ▸ hno p)
      · refine ⟨⟨s.table, k, signum⟩ :: new, ?_, _, mem_cons_self, hk.symm, rfl⟩
        rw [hnew, hgen, append_assoc, singleton_append]
    obtain ⟨new₀, hnew0, _⟩ := (signals_member (mem_singleton_self pgid) s signum k).log
    have hp' : Target (s.signalMember pgid signum k).table pgid pid p :=
      ⟨⟨(s.signalMember_other pgid signum hk).trans hp.1.1, hp.1.2⟩, hp.2⟩
    obtain ⟨new', hnew', hg⟩ := ih hnodup.2 ((mem_cons.mp hmem).resolve_left hk) hp'
    refine ⟨new₀ ++ new', by rw [hnew', hnew0, append_assoc], ?_⟩
    obtain ⟨g, hg, hgp⟩ := hg
    exact ⟨g, mem_append_right _ hg, hgp⟩

theorem generated_group (s : Applying) (pgid signum : Nat) (hp : Target s.table pgid pid p) :
    ∃ new, (s.signalGroup pgid signum).generated = s.generated ++ new ∧ ∃ g ∈ new, g.pid = pid ∧ g.signum = signum :=
  generated_fold pgid signum s.table.processes.keys_nodup
    (mem_map.mpr ⟨(pid, p), mem_entries_iff.mpr hp.1.1, rfl⟩) hp

/-- The process was sent SIGHUP and then SIGCONT, or SIGHUP ended it. -/
def HungUp (s : Applying) (pid : Nat) : Prop :=
  ((s.generated.map fun g => (g.pid, g.signum)) |> List.Sublist [(pid, sighup), (pid, sigcont)]) ∨
    (pid, sighup) ∈ s.generated.map (fun g => (g.pid, g.signum)) ∧
      ∃ p, s.table.processes.get? pid = some p ∧ p.state = .exited ∧ p.exitPublished = false

theorem hungUp_signalOrphanedGroup (s : Applying) (pgid : Nat) (hp : Target s.table pgid pid p)
    (hu : p.exitPublished = false) : (s.signalOrphanedGroup pgid).HungUp pid := by
  obtain ⟨new, hnew, g, hg, hgpid, hgsig⟩ := s.generated_group pgid sighup hp
  obtain ⟨state, hget, hwhich, _⟩ := (signals_group (mem_singleton_self pgid) s sighup).keep pid p hp.1.1
  obtain ⟨new', hnew', _⟩ := (signals_group (mem_singleton_self pgid) (s.signalGroup pgid sighup) sigcont).log
  have hhup : (pid, sighup) ∈ new.map fun g => (g.pid, g.signum) := mem_map.mpr ⟨g, hg, by rw [hgpid, hgsig]⟩
  have hlog : (s.signalOrphanedGroup pgid).generated = s.generated ++ new ++ new' := by
    rw [signalOrphanedGroup, hnew', hnew]
  have hmap : (s.signalOrphanedGroup pgid).generated.map (fun g => (g.pid, g.signum)) = s.generated.map (fun g => (g.pid, g.signum)) ++
        (new.map (fun g => (g.pid, g.signum)) ++ new'.map (fun g => (g.pid, g.signum))) := by
    rw [hlog, map_append, map_append, append_assoc]
  by_cases hex : state = .exited
  · -- it ended at once, and an ended process is sent nothing
    refine .inr ⟨?_, ?_⟩
    · rw [hmap]
      exact mem_append_right _ (mem_append_left _ hhup)
    · obtain ⟨state', hget', hwhich', _⟩ := (signals_group (mem_singleton_self pgid) (s.signalGroup pgid sighup) sigcont).keep pid _ hget
      exact ⟨_, hget', Turns.exited hwhich' hex, hu⟩
  have hlive : ({ p with state := state } : Identity).live := Turns.live hwhich hp.1.2.2.2 hex
  obtain ⟨new'', hnew'', g', hg', hgpid', hgsig'⟩ := generated_group (s.signalGroup pgid sighup) pgid sigcont
    (p := { p with state := state }) ⟨⟨hget, hp.1.2.1, hp.1.2.2.1, hlive⟩, hp.2⟩
  have hsame : new'' = new' := append_cancel_left (hnew''.symm.trans hnew')
  have hcont : (pid, sigcont) ∈ new'.map fun g => (g.pid, g.signum) := mem_map.mpr ⟨g', hsame ▸ hg', by rw [hgpid', hgsig']⟩
  refine .inl ?_
  rw [hmap]
  exact (List.Sublist.append (singleton_sublist.mpr hhup) (singleton_sublist.mpr hcont)).trans
    (sublist_append_right _ _)

theorem HungUp.mono (h : s.HungUp pid) {new : List Generated}
    (hlog : s'.generated = s.generated ++ new) (hlater : Later s.table s'.table) : s'.HungUp pid := by
  have hmap : s'.generated.map (fun g => (g.pid, g.signum)) =
      s.generated.map (fun g => (g.pid, g.signum)) ++ new.map fun g => (g.pid, g.signum) := by
    rw [hlog, map_append]
  rcases h with hsub | ⟨hhup, p, hp, hex, hu⟩
  · refine .inl ?_
    rw [hmap]
    exact hsub.trans (sublist_append_left _ _)
  obtain ⟨p', hp', _, hu', hex'⟩ := hlater.stays pid p hp (by rw [hex]; decide) hu
  refine .inr ⟨?_, p', hp', hex' hex, hu'⟩
  rw [hmap]
  exact mem_append_left _ hhup

theorem hungUp_orphanedGroups {gs : List Nat} (hg : pgid ∈ gs)
    (hp : Target s.table pgid pid p) (hu : p.exitPublished = false) : (gs.foldl signalOrphanedGroup s).HungUp pid := by
  induction gs generalizing s p with
  | nil => exact absurd hg not_mem_nil
  | cons g gs ih =>
    by_cases heq : pgid = g
    · have hrest := signals_orphanedGroups gs (fun _ h => h) (s.signalOrphanedGroup g)
      obtain ⟨new, hnew, _⟩ := hrest.log
      exact (hungUp_signalOrphanedGroup s g (heq ▸ hp) hu).mono hnew hrest.later
    -- signals to another group leave the process as it is
    obtain ⟨state, hget, hwhich, _⟩ := (signals_orphanedGroup (mem_singleton_self g) s).keep pid p hp.1.1
    have hstate : state = p.state := hwhich.resolve_right fun h => heq (hp.1.2.2.1.symm.trans (mem_singleton.mp h.2.1))
    rw [hstate] at hget
    exact ih ((mem_cons.mp hg).resolve_left heq) ⟨⟨hget, hp.1.2⟩, hp.2⟩ hu

/-! ## One exit -/

theorem mem_pushIf {x a : Nat} {l : List Nat} {c : Prop} [Decidable c] : x ∈ (if c then l ++ [a] else l) ↔ x ∈ l ∨ c ∧ x = a := by
  split_ifs with h <;> simp [h]

theorem mem_orphanedGroups {t : ProcessTable} {childGroups : List (Nat × Nat)} :
    pgid ∈ orphanedGroups t p childGroups ↔ t.isOrphanedGroupWithStoppedMember pgid ∧
      (pgid ≠ p.pgid ∧ (pgid, p.sid) ∈ childGroups ∨ pgid = p.pgid ∧ (t.liveParent p.ppid).any (links p.pgid p)) := by
  have hfold : ∀ (cs : List (Nat × Nat)) (groups : List Nat), pgid ∈ cs.foldl (fun groups child =>
        if child.1 ≠ p.pgid ∧ child.2 = p.sid ∧ child.1 ∉ groups ∧ t.isOrphanedGroupWithStoppedMember child.1 then
          groups ++ [child.1]
        else groups) groups ↔
      pgid ∈ groups ∨ t.isOrphanedGroupWithStoppedMember pgid ∧ pgid ≠ p.pgid ∧ (pgid, p.sid) ∈ cs := by
    intro cs
    induction cs with
    | nil => simp
    | cons c cs ih =>
      intro groups
      obtain ⟨g, sid⟩ := c
      rw [foldl_cons, ih, mem_pushIf, mem_cons, Prod.mk.injEq]
      by_cases heq : pgid = g
      · subst heq
        tauto
      · tauto
  have hbase := (hfold childGroups []).trans (or_iff_right not_mem_nil)
  simp only [orphanedGroups]
  rw [mem_pushIf, hbase]
  by_cases heq : pgid = p.pgid
  · subst heq
    rw [hbase]
    tauto
  · tauto

/-- Init reaps a zombie whose end the host has seen. -/
structure Reaped (z : Nat) (s s' : Applying) : Prop where
  seen : ∃ p, s.table.processes.get? z = some p ∧ p.state = .exited ∧ p.exitPublished
  removes : Removes z s.table s'.table
  queue : s'.pendingExits = s.pendingExits
  ids : s'.table.nextTaskId = s.table.nextTaskId
  log : s'.generated = s.generated

variable {z : Nat}

theorem Reaped.published (h : Reaped z s s') (hp : s.table.processes.get? z = some p) : p.exitPublished := by
  obtain ⟨q, hq, _, hpub⟩ := h.seen
  rw [hp, Option.some.injEq] at hq
  exact hq ▸ hpub

theorem Reaped.ne (h : Reaped z s s') (hp : s.table.processes.get? pid = some p) (hu : p.exitPublished = false) : pid ≠ z := by
  rintro rfl
  rw [h.published hp] at hu
  cases hu

theorem Reaped.later (h : Reaped z s s') : Later s.table s'.table := h.removes.later fun _ => h.published

/-- Any number of zombies reaped. -/
def Reaps : Applying → Applying → Prop := Relation.ReflTransGen fun s s' => ∃ z, Reaped z s s'

theorem Reaps.keeps {I : Applying → Prop} (hstep : ∀ {z s s'}, Reaped z s s' → I s → I s') (h : Reaps s s') (hs : I s) : I s' := by
  induction h with
  | refl => exact hs
  | tail _ hz ih =>
    obtain ⟨z, hz⟩ := hz
    exact hstep hz ih

theorem Reaps.later (h : Reaps s s') : Later s.table s'.table :=
  Reaps.keeps (I := fun s' => Later s.table s'.table) (fun hz hl => hl.trans hz.later) h (Later.refl s.table)

theorem Reaps.queue (h : Reaps s s') : s'.pendingExits = s.pendingExits :=
  Reaps.keeps (I := fun s' => s'.pendingExits = s.pendingExits) (fun hz heq => hz.queue.trans heq) h rfl

theorem Reaps.log (h : Reaps s s') : s'.generated = s.generated :=
  Reaps.keeps (I := fun s' => s'.generated = s.generated) (fun hz heq => hz.log.trans heq) h rfl

theorem Reaps.ids (h : Reaps s s') : s'.table.nextTaskId = s.table.nextTaskId :=
  Reaps.keeps (I := fun s' => s'.table.nextTaskId = s.table.nextTaskId) (fun hz heq => hz.ids.trans heq) h rfl

theorem reapForInit_cases (s : Applying) (hz : z ≠ syntheticInitPid)
    (hpub : ∀ p, s.table.processes.get? z = some p → p.state = .exited → p.exitPublished) :
    s.reapForInit z = s ∨ Reaped z s (s.reapForInit z) := by
  simp only [reapForInit]
  split
  · exact .inl rfl
  rename_i p hp
  split_ifs with hkeep
  · exact .inl rfl
  have hex : p.state = .exited := by
    rw [not_or, not_not, not_not] at hkeep
    exact hkeep.2
  refine .inr ⟨⟨p, hp, hex, hpub p hp hex⟩, ?_, rfl, (keeping_reapForInit _ _).ids, rfl⟩
  simp only [ProcessTable.reapForInit, hp, if_neg hkeep]
  exact removes_inner true hz hp

theorem reaps_zombies {zs : List Nat}
    (hzs : ∀ z ∈ zs, z ≠ syntheticInitPid ∧ ∀ p, s.table.processes.get? z = some p → p.state = .exited → p.exitPublished) :
    Reaps s (zs.foldl reapForInit s) := by
  induction zs generalizing s with
  | nil => exact .refl
  | cons z zs ih =>
    obtain ⟨hz, hpub⟩ := hzs z mem_cons_self
    rw [foldl_cons]
    rcases s.reapForInit_cases hz hpub with heq | hreaped
    · rw [heq]
      exact ih fun z' hz' => hzs z' (mem_cons_of_mem z hz')
    refine .head ⟨z, hreaped⟩ (ih fun z' hz' => ⟨(hzs z' (mem_cons_of_mem z hz')).1, fun p' hp' hex => ?_⟩)
    by_cases hne : z' = z
    · rw [hne] at hp'
      rw [(hreaped.removes.gone p' hp').1] at hex
      cases hex
    obtain ⟨p, hp, rfl⟩ := hreaped.removes.back z' p' hne hp'
    obtain ⟨ppid, heq, _⟩ := adopted_eq z z' p
    rw [heq] at hex ⊢
    exact (hzs z' (mem_cons_of_mem z hz')).2 p hp hex

/-- The table once the children of `x` have gone to init. -/
def adopting (s : Applying) (x : Nat) : Applying := { s with table := s.table.reparentChildrenToInit x }

theorem get?_adopting (x : Nat) (hp : s.table.processes.get? pid = some p) :
    (s.adopting x).table.processes.get? pid = some (adopted x pid p) := by
  rw [adopting, get?_reparent, hp]
  rfl

/-- The groups that the end of `x`, which was `p`, orphans. -/
def newlyOrphaned (s : Applying) (x : Nat) (p : Identity) : List Nat :=
  orphanedGroups (s.adopting x).table p (s.table.childGroups x)

theorem applyExit_cases (s : Applying) (x : Nat) :
    (s.applyExit x = s ∧ ∀ p, s.table.processes.get? x = some p → x = syntheticInitPid ∨ p.state ≠ .exited) ∨
      ∃ p, s.table.processes.get? x = some p ∧ x ≠ syntheticInitPid ∧ p.state = .exited ∧
        Reaps ((s.newlyOrphaned x p).foldl signalOrphanedGroup (s.adopting x)) (s.applyExit x) := by
  simp only [applyExit]
  split
  · rename_i hnone
    refine .inl ⟨rfl, fun p hp => ?_⟩
    rw [hnone] at hp
    cases hp
  rename_i p hp
  split_ifs with hskip
  · refine .inl ⟨rfl, fun q hq => ?_⟩
    rw [hp, Option.some.injEq] at hq
    exact hq ▸ hskip
  rw [not_or, not_not] at hskip
  refine .inr ⟨p, hp, hskip.1, hskip.2, reaps_zombies fun z hz => ?_⟩
  obtain ⟨⟨z', child⟩, he, rfl⟩ := mem_map.mp hz
  simp only [leftChildren, mem_filter, Bool.and_eq_true, bne_iff_ne] at he
  obtain ⟨⟨hmem, ⟨hinit, _⟩, _⟩, hex, hpub⟩ := he
  -- signals find the zombie ended and leave it so
  obtain ⟨state, hget, _⟩ := (signals_orphanedGroups (s.newlyOrphaned x p) (fun _ h => h) (s.adopting x)).keep z' _
    (get?_adopting x (mem_entries_iff.mp hmem))
  refine ⟨hinit, fun q hq _ => ?_⟩
  obtain ⟨ppid, heq, _⟩ := adopted_eq x z' child
  rw [hget, Option.some.injEq] at hq
  rw [← hq, heq]
  exact hpub

end Applying

end Kandelo.Process

/-
`ProcessTable`, as far as it decides who a process is: parent, process group,
session, and the life cycle from creation to reaping.

What a call asks of other parts of the kernel (memory for a record, the
serialised fork state, the descriptors a child takes over, file actions) is an
argument of the call: a part that fails ends the call with its error where the
source does. Task ids taken by threads are an argument too.
-/
import Kandelo.Errno
import Kandelo.Lib.Machine
import Kandelo.Lib.OrdMap

namespace Kandelo.Process

inductive ProcessState
  | running
  | stopped
  | exited
  | limbo
  deriving DecidableEq, Repr

structure Identity where
  ppid : Nat
  pgid : Nat
  sid : Nat
  isSessionLeader : Bool
  state : ProcessState
  hasExec : Bool
  vforkChild : Bool
  spawnPublicationPending : Bool
  exitPublished : Bool
  deriving DecidableEq, Repr

def syntheticInitPid : Nat := 1
def firstTaskId : Nat := 100
def maxTaskId : Nat := 2 ^ 31 - 1

namespace Identity

/-- `Process::new_inner`. -/
def new (pid : Nat) : Identity := ⟨0, pid, 0, false, .running, false, false, false, false⟩

def live (p : Identity) : Bool := p.state == .running || p.state == .stopped

/-- The process has ended. -/
def gone (p : Identity) : Bool := p.state == .exited || p.state == .limbo

def limboFrom (pid : Nat) (p : Identity) : Identity :=
  { new pid with
    ppid := p.ppid
    pgid := p.pgid
    sid := p.sid
    isSessionLeader := p.isSessionLeader
    state := .limbo
    hasExec := p.hasExec }

end Identity

/-- The attributes of `posix_spawn` that say who the child is. -/
structure SpawnAttrs where
  flags : UInt32
  pgrp : Int32

def attrSetpgroup : UInt32 := 0x02
def attrSetsid : UInt32 := 0x80

structure ProcessTable where
  processes : OrdMap Nat Identity
  nextTaskId : Nat

namespace ProcessTable

def new : ProcessTable := ⟨OrdMap.empty, firstTaskId⟩

def publish (t : ProcessTable) (pid : Nat) (p : Identity) : ProcessTable :=
  { t with processes := t.processes.insert pid p }

/-- The first task id from `candidate` on that is not in use. -/
def findTaskId (inUse : Nat → Bool) (candidate : Nat) : Option Nat :=
  if _h : candidate ≤ maxTaskId then
    if !inUse candidate then some candidate else findTaskId inUse (candidate + 1)
  else none
termination_by maxTaskId + 1 - candidate

theorem findTaskId_spec {inUse : Nat → Bool} {candidate pid : Nat} (h : findTaskId inUse candidate = some pid) :
    inUse pid = false ∧ candidate ≤ pid := by
  fun_induction findTaskId inUse candidate with
  | case1 candidate _ hfree =>
    rw [Option.some.injEq] at h
    rw [h] at hfree
    exact ⟨by simpa using hfree, Nat.le_of_eq h⟩
  | case2 candidate _ _ ih => exact ⟨(ih h).1, Nat.le_of_succ_le (ih h).2⟩
  | case3 candidate _ => cases h

def allocateTaskId (t : ProcessTable) (threads : Nat → Bool) : Except Errno Nat × ProcessTable :=
  match findTaskId (fun candidate => t.processes.contains candidate || threads candidate) t.nextTaskId with
  | some candidate => (.ok candidate, { t with nextTaskId := candidate + 1 })
  | none => (.error .EAGAIN, { t with nextTaskId := maxTaskId + 1 })

/-! ## Creation -/

def ensureInit (t : ProcessTable) (slot : Bool) : Except Errno Unit × ProcessTable :=
  if t.processes.contains syntheticInitPid then (.ok (), t)
  else if !slot then (.error .ENOMEM, t)
  else (.ok (), t.publish syntheticInitPid (Identity.new syntheticInitPid))

/-- What creating a process asks for: the record of init, its own, and the rest of it. -/
structure CreateAnswers where
  initSlot : Bool
  slot : Bool
  threads : Nat → Bool
  built : Except Errno Unit

/-- `create_process_with_stdio` and `create_init_child`, which differ in the record. -/
def create (record : Nat → Identity) (t : ProcessTable) (answers : CreateAnswers) : Except Errno Nat × ProcessTable :=
  let i := t.ensureInit answers.initSlot
  match i.1 with
  | .error e => (.error e, i.2)
  | .ok () =>
    if !answers.slot then (.error .ENOMEM, i.2)
    else
      let a := i.2.allocateTaskId answers.threads
      match a.1 with
      | .error e => (.error e, a.2)
      | .ok pid =>
        match answers.built with
        | .error e => (.error e, a.2)
        | .ok () => (.ok pid, a.2.publish pid (record pid))

def createProcess : ProcessTable → CreateAnswers → Except Errno Nat × ProcessTable := create Identity.new

/-- A process the kernel starts itself leads its own session and group. -/
def initChild (pid : Nat) : Identity :=
  { Identity.new pid with
    ppid := syntheticInitPid
    pgid := pid
    sid := pid
    isSessionLeader := true
    spawnPublicationPending := true }

def createInitChild : ProcessTable → CreateAnswers → Except Errno Nat × ProcessTable := create initChild

/-- What `fork` asks for: the calling thread, the serialised parent, the child's
record and the state installed in it. -/
structure ForkAnswers where
  callerLive : Bool
  serialized : Except Errno Unit
  slot : Bool
  threads : Nat → Bool
  installed : Except Errno Unit

def forkProcess (t : ProcessTable) (parentPid : Nat) (vfork : Bool) (answers : ForkAnswers) : Except Errno Nat × ProcessTable :=
  match t.processes.get? parentPid with
  | none => (.error .ESRCH, t)
  | some parent =>
    if parent.gone then (.error .ESRCH, t)
    else if !answers.callerLive then (.error .ESRCH, t)
    else if parent.vforkChild && vfork then (.error .EAGAIN, t)
    else
      match answers.serialized with
      | .error e => (.error e, t)
      | .ok () =>
        if !answers.slot then (.error .ENOMEM, t)
        else
          let a := t.allocateTaskId answers.threads
          match a.1 with
          | .error e => (.error e, a.2)
          | .ok pid =>
            match answers.installed with
            | .error e => (.error e, a.2)
            | .ok () =>
              -- a fork child inherits the session and never leads it
              (.ok pid, a.2.publish pid ⟨parentPid, parent.pgid, parent.sid, false, .running, false, vfork, false, false⟩)

/-! ## Removal -/

def groupHasMember (t : ProcessTable) (pgid : Nat) : Bool :=
  t.processes.entries.any fun e => e.1 != pgid && e.2.pgid == pgid && e.2.state != .limbo

/-- A reaped group leader that is kept for its group, which has no member any more. -/
def emptyLimbo (t : ProcessTable) (e : Nat × Identity) : Bool := e.2.state == .limbo && e.2.pgid == e.1 && !t.groupHasMember e.1

def pruneEmptyLimboGroups (t : ProcessTable) : ProcessTable :=
  match _h : t.processes.entries.find? t.emptyLimbo with
  | none => t
  | some e => pruneEmptyLimboGroups { t with processes := t.processes.erase e.1 }
termination_by t.processes.entries.length
decreasing_by
  have hmem := OrdMap.mem_entries_iff.mp (List.mem_of_find?_eq_some _h)
  have hlength := (OrdMap.erase_perm hmem).length_eq
  rw [List.length_cons] at hlength
  omega

def reparentChildrenToInit (t : ProcessTable) (parentPid : Nat) : ProcessTable :=
  if parentPid = syntheticInitPid then t
  else
    let adopt := fun (pid : Nat) (child : Identity) =>
      if pid = syntheticInitPid ∨ child.ppid ≠ parentPid ∨ child.spawnPublicationPending then child
      else { child with ppid := syntheticInitPid }
    { t with processes := t.processes.retain fun pid child => some (adopt pid child) }

/-- `remove_process_inner`: a leader that is reaped stays in limbo while its group
has members. -/
def removeProcessInner (t : ProcessTable) (pid : Nat) (retainLimboLeader : Bool) : ProcessTable :=
  if pid = syntheticInitPid then t
  else
    match t.processes.get? pid with
    | none => t
    | some p =>
      let removed := { t with processes := t.processes.erase pid }
      let kept := if retainLimboLeader && p.pgid == pid && removed.groupHasMember pid then
          removed.publish pid (p.limboFrom pid)
        else removed
      kept.pruneEmptyLimboGroups.reparentChildrenToInit pid

def removeProcess (t : ProcessTable) (pid : Nat) : ProcessTable := t.removeProcessInner pid false

def reapProcess (t : ProcessTable) (pid : Nat) : ProcessTable := t.removeProcessInner pid true

def reapForInit (t : ProcessTable) (pid : Nat) : ProcessTable :=
  match t.processes.get? pid with
  | none => t
  | some p => if p.ppid ≠ syntheticInitPid ∨ p.state ≠ .exited then t else t.reapProcess pid

/-! ## Spawn -/

/-- The child of a spawn, with the attributes applied in their order. -/
def spawned (parentPid : Nat) (parent : Identity) (attrs : SpawnAttrs) (pid : Nat) : Identity :=
  let child : Identity := ⟨parentPid, parent.pgid, parent.sid, false, .running, false, false, true, false⟩
  let child := if attrs.flags &&& attrSetsid ≠ 0 then { child with sid := pid, pgid := pid, isSessionLeader := true } else child
  if attrs.flags &&& attrSetpgroup ≠ 0 then
    { child with pgid := if attrs.pgrp = 0 then pid else attrs.pgrp.toUInt32.toNat }
  else child

structure SpawnAnswers where
  callerLive : Bool
  copied : Except Errno Unit
  slot : Bool
  threads : Nat → Bool
  installed : Except Errno Unit
  fileActions : Except Errno Unit

def spawnChild (t : ProcessTable) (parentPid : Nat) (attrs : SpawnAttrs) (answers : SpawnAnswers) : Except Errno Nat × ProcessTable :=
  match t.processes.get? parentPid with
  | none => (.error .ESRCH, t)
  | some parent =>
    if parent.gone then (.error .ESRCH, t)
    else if !answers.callerLive then (.error .ESRCH, t)
    else
      match answers.copied with
      | .error e => (.error e, t)
      | .ok () =>
        if !answers.slot then (.error .ENOMEM, t)
        else
          let a := t.allocateTaskId answers.threads
          match a.1 with
          | .error e => (.error e, a.2)
          | .ok pid =>
            match answers.installed with
            | .error e => (.error e, a.2)
            | .ok () =>
              let published := a.2.publish pid (spawned parentPid parent attrs pid)
              match answers.fileActions with
              | .error e => (.error e, published.removeProcess pid)
              | .ok () => (.ok pid, published)

/-! ## Groups and sessions -/

/-- `sys_setpgid`, on the caller itself. -/
def sysSetpgid (p : Identity) (self pid pgid : Nat) : Except Errno Identity :=
  if 2 ^ 31 ≤ pgid then .error .EINVAL
  else if pid ≠ 0 ∧ pid ≠ self then .error .ESRCH
  else if p.isSessionLeader then .error .EPERM
  else .ok { p with pgid := if pgid = 0 then self else pgid }

def sysSetsid (p : Identity) (self : Nat) : Except Errno Identity :=
  if p.isSessionLeader then .error .EPERM
  else .ok { p with sid := self, pgid := self, isSessionLeader := true }

/-- The dispatch of `setpgid`: on the caller, or on a child of it. -/
def setpgid (t : ProcessTable) (callerPid pid pgid : Nat) : Except Errno Unit × ProcessTable :=
  let effectivePid := if pid = 0 then callerPid else pid
  if effectivePid = callerPid then
    match t.processes.get? callerPid with
    | none => (.error .ESRCH, t)
    | some caller =>
      match sysSetpgid caller callerPid pid pgid with
      | .error e => (.error e, t)
      | .ok caller' => (.ok (), t.publish callerPid caller')
  else if 2 ^ 31 ≤ pgid then (.error .EINVAL, t)
  else
    match t.processes.get? callerPid with
    | none => (.error .ESRCH, t)
    | some caller =>
      match t.processes.get? effectivePid with
      | none => (.error .ESRCH, t)
      | some target =>
        if target.ppid ≠ callerPid then (.error .ESRCH, t)
        else if target.hasExec then (.error .EACCES, t)
        else if target.sid ≠ caller.sid then (.error .EPERM, t)
        else if target.isSessionLeader then (.error .EPERM, t)
        else
          (.ok (), (t.publish effectivePid { target with pgid := if pgid = 0 then effectivePid else pgid }).pruneEmptyLimboGroups)

def setsid (t : ProcessTable) (callerPid : Nat) : Except Errno Unit × ProcessTable :=
  match t.processes.get? callerPid with
  | none => (.error .ESRCH, t)
  | some caller =>
    match sysSetsid caller callerPid with
    | .error e => (.error e, t)
    | .ok caller' => (.ok (), t.publish callerPid caller')

/-! ## Life cycle -/

/-- A process changes by itself. -/
def update (t : ProcessTable) (pid : Nat) (f : Identity → Identity) : ProcessTable :=
  match t.processes.get? pid with
  | none => t
  | some p => t.publish pid (f p)

def recordStop (p : Identity) : Identity := if p.state ≠ .running then p else { p with state := .stopped }

def recordContinue (p : Identity) : Identity := if p.state ≠ .stopped then p else { p with state := .running }

def commitExec (p : Identity) : Identity := { p with hasExec := true }

def publishProcessExit (t : ProcessTable) (pid : Nat) : Except Errno Unit × ProcessTable :=
  if pid = syntheticInitPid then (.error .EINVAL, t)
  else
    match t.processes.get? pid with
    | none => (.error .ESRCH, t)
    | some p =>
      match p.state with
      | .limbo => (.error .ESRCH, t)
      | .running | .stopped => (.error .EINVAL, t)
      | .exited =>
        if p.exitPublished then (.ok (), t)
        else
          let t' := t.publish pid { p with exitPublished := true }
          (.ok (), if p.ppid = syntheticInitPid then t'.reapForInit pid else t')

end ProcessTable

end Kandelo.Process

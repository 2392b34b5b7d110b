/-
What a parent learns of its children (`process.rs`, `process_table.rs`): a child has room
for one status record, a stop, a continuation and an exit each write it, and
`poll_wait_event` finds the first child of the caller with a record the caller asks for.

`Watched` is a table with the history of the records: which were made of each child, and
which of them a call took. A record is taken once because the slot it is in is empty from
then on (`Accounted`), and an exit record is the last one made of its child
(`Ended.steps`). The resource usage in a record is always the empty one and is left out.
-/
import Kandelo.Process.Table

namespace Kandelo.Process

open OrdMap List

def eventExited : UInt32 := 1
def eventStopped : UInt32 := 2
def eventContinued : UInt32 := 4
def wnowait : UInt32 := 0x01000000
def cldExited : Int32 := 1
def cldKilled : Int32 := 2
def cldStopped : Int32 := 5
def cldContinued : Int32 := 6

structure ChildWaitEvent where
  eventMask : UInt32
  waitStatus : Int32
  siCode : Int32
  siStatus : Int32
  childUid : UInt32
  deriving DecidableEq, Repr

/-- A process as its parent waits for it. -/
structure WaitChild extends Identity where
  realUid : UInt32
  exitStatus : Int32
  exitSignal : UInt32
  waitEvent : Option ChildWaitEvent
  deriving DecidableEq, Repr

namespace WaitChild

/-! ## Status records -/

def setWaitEvent (p : WaitChild) (eventMask : UInt32) (waitStatus siCode siStatus : Int32) : WaitChild :=
  { p with waitEvent := some ⟨eventMask, waitStatus, siCode, siStatus, p.realUid⟩ }

/-- Repeated stop signals change nothing. -/
def recordStop (p : WaitChild) (signum : UInt32) : Bool × WaitChild :=
  if p.state ≠ .running then (false, p)
  else (true, { p with state := .stopped }.setWaitEvent eventStopped (signum.toInt32 <<< 8 ||| 0x7f) cldStopped signum.toInt32)

def recordContinue (p : WaitChild) : Bool × WaitChild :=
  if p.state ≠ .stopped then (false, p)
  else (true, { p with state := .running }.setWaitEvent eventContinued 0xffff cldContinued 18)

def recordNormalExit (p : WaitChild) (status : Int32) : Bool × WaitChild :=
  if p.state = .exited ∨ p.state = .limbo then (false, p)
  else
    let status := status &&& 0xff
    (true, { p with state := .exited, exitStatus := status, exitSignal := 0 }.setWaitEvent eventExited (status <<< 8) cldExited status)

def recordSignalExit (p : WaitChild) (signum : UInt32) : Bool × WaitChild :=
  if p.state = .exited ∨ p.state = .limbo then (false, p)
  else
    let signum := signum &&& 0x7f
    (true, { p with state := .exited, exitStatus := 0, exitSignal := signum }.setWaitEvent eventExited signum.toInt32 cldKilled
      signum.toInt32)

/-! ## Waiting -/

/-- A pid, any child, the caller's group, another group; the smallest number has no
negation and names nothing. -/
def childMatchesWaitTarget (childPid : Nat) (child : WaitChild) (targetPid : Int32) (parentPgid : Nat) : Bool :=
  if 0 < targetPid then childPid == targetPid.toUInt32.toNat
  else if targetPid = -1 then true
  else if targetPid = 0 then child.pgid == parentPgid
  else if targetPid = Int32.minValue then false
  else child.pgid == (-targetPid).toUInt32.toNat

/-- Whom a wait is for. -/
inductive WaitTarget
  | child (pid : Nat)
  | any
  | callerGroup
  | group (pgid : Nat)

/-- The waitpid encoding of a target. -/
def WaitTarget.ofRaw (targetPid : Int32) : Option WaitTarget :=
  if 0 < targetPid.toInt then some (.child targetPid.toInt.toNat)
  else if targetPid.toInt = -1 then some .any
  else if targetPid.toInt = 0 then some .callerGroup
  else if targetPid.toInt = -2 ^ 31 then none
  else some (.group (-targetPid.toInt).toNat)

def WaitTarget.Selects (childPid childPgid parentPgid : Nat) : WaitTarget → Prop
  | .child pid => childPid = pid
  | .any => True
  | .callerGroup => childPgid = parentPgid
  | .group pgid => childPgid = pgid

theorem childMatchesWaitTarget_iff (childPid : Nat) (child : WaitChild) (targetPid : Int32) (parentPgid : Nat) :
    child.childMatchesWaitTarget childPid targetPid parentPgid ↔
      ∃ target ∈ WaitTarget.ofRaw targetPid, target.Selects childPid child.pgid parentPgid := by
  have hpos : 0 < targetPid ↔ 0 < targetPid.toInt := Int32.lt_iff_toInt_lt
  have hany : targetPid = -1 ↔ targetPid.toInt = -1 := Int32.toInt_inj.symm
  have hzero : targetPid = 0 ↔ targetPid.toInt = 0 := Int32.toInt_inj.symm
  have hmin : targetPid = .minValue ↔ targetPid.toInt = -2 ^ 31 := Int32.toInt_inj.symm
  have hunsigned : ∀ n : Int32, 0 ≤ n.toInt → n.toUInt32.toNat = n.toInt.toNat := fun n hn => by
    rw [Int32.toNat_toUInt32_of_le (Int32.le_iff_toInt_le.mpr hn), Int32.toNat_toInt]
  simp only [childMatchesWaitTarget, WaitTarget.ofRaw, hpos, hany, hzero, hmin]
  split
  · rename_i h
    rw [hunsigned targetPid (Int.le_of_lt h)]
    simp [WaitTarget.Selects]
  iterate 2 (split; · simp [WaitTarget.Selects])
  split
  · simp
  have hneg : (-targetPid).toInt = -targetPid.toInt := by
    have h1 := Int32.le_toInt targetPid
    rw [Int32.toInt_neg, Int.bmod_def]
    omega
  rw [hunsigned (-targetPid) (by omega), hneg]
  simp [WaitTarget.Selects]

end WaitChild

abbrev WaitTable := OrdMap Nat WaitChild

namespace WaitTable

/-- The loop of `poll_wait_event`: whether a child matched, and the first record found. -/
def findEvent (parentPid : Nat) (targetPid : Int32) (parentPgid : Nat) (eventMask : UInt32) :
    Bool → List (Nat × WaitChild) → Bool × Option (Nat × ChildWaitEvent)
  | saw, [] => (saw, none)
  | saw, (childPid, child) :: rest =>
    if childPid = syntheticInitPid ∨ child.ppid ≠ parentPid ∨ child.state = .limbo then
      findEvent parentPid targetPid parentPgid eventMask saw rest
    else if !child.childMatchesWaitTarget childPid targetPid parentPgid then
      findEvent parentPid targetPid parentPgid eventMask saw rest
    else if child.spawnPublicationPending then findEvent parentPid targetPid parentPgid eventMask true rest
    else
      match child.waitEvent with
      | none => findEvent parentPid targetPid parentPgid eventMask true rest
      | some event =>
        if event.eventMask &&& eventMask = 0 then findEvent parentPid targetPid parentPgid eventMask true rest
        else (true, some (childPid, event))

/-- Some of the three events, and no flag but `WNOWAIT`. -/
def validWait (eventMask flags : UInt32) : Bool :=
  !(eventMask == 0 || eventMask &&& ~~~(eventExited ||| eventStopped ||| eventContinued) != 0 || flags &&& ~~~wnowait != 0)

def pollWaitEvent (t : WaitTable) (parentPid : Nat) (targetPid : Int32) (eventMask flags : UInt32) :
    Except Errno (Option (Nat × ChildWaitEvent)) × WaitTable :=
  if !validWait eventMask flags then (.error .EINVAL, t)
  else
    match t.get? parentPid with
    | none => (.error .ESRCH, t)
    | some parent =>
      match findEvent parentPid targetPid parent.pgid eventMask false t.entries with
      | (_, some (childPid, event)) =>
        (.ok (some (childPid, event)),
          if flags &&& wnowait = 0 then t.retain fun pid child => some (if pid = childPid then { child with waitEvent := none } else child)
          else t)
      | (true, none) => (.ok none, t)
      | (false, none) => (.error .ECHILD, t)

/-! ## What one call answers -/

/-- A process that is a child of another one, reaped ones apart: synthetic init is nobody's. -/
def ChildOf (t : WaitTable) (parentPid pid : Nat) (child : WaitChild) : Prop :=
  t.get? pid = some child ∧ pid ≠ syntheticInitPid ∧ child.ppid = parentPid ∧ child.state ≠ .limbo

/-- The child has a record for the caller, and the caller may have it. -/
def Reports (child : WaitChild) (eventMask : UInt32) (event : ChildWaitEvent) : Prop :=
  child.spawnPublicationPending = false ∧ child.waitEvent = some event ∧ event.eventMask &&& eventMask ≠ 0

/-- An entry the loop looks at. -/
def candidate (parentPid : Nat) (targetPid : Int32) (parentPgid : Nat) (e : Nat × WaitChild) : Bool :=
  e.1 ≠ syntheticInitPid ∧ e.2.ppid = parentPid ∧ e.2.state ≠ .limbo ∧ e.2.childMatchesWaitTarget e.1 targetPid parentPgid

/-- The record of an entry, if it is for the caller. -/
def report (eventMask : UInt32) (e : Nat × WaitChild) : Option (Nat × ChildWaitEvent) :=
  if e.2.spawnPublicationPending then none
  else (e.2.waitEvent.filter fun event => event.eventMask &&& eventMask ≠ 0).map (e.1, ·)

theorem report_eq_some {eventMask : UInt32} {e : Nat × WaitChild} {r : Nat × ChildWaitEvent} :
    report eventMask e = some r ↔ Reports e.2 eventMask r.2 ∧ e.1 = r.1 := by
  obtain ⟨pid, event⟩ := r
  simp only [report, Reports]
  cases e.2.spawnPublicationPending <;> simp [Option.filter_eq_some_iff, and_assoc]

/-- The loop sees the candidates and finds the first record. -/
theorem findEvent_eq (parentPid parentPgid : Nat) (targetPid : Int32) (eventMask : UInt32) (saw : Bool)
    (es : List (Nat × WaitChild)) : findEvent parentPid targetPid parentPgid eventMask saw es =
      (saw || es.any (candidate parentPid targetPid parentPgid),
        (es.filter (candidate parentPid targetPid parentPgid)).findSome? (report eventMask)) := by
  induction es generalizing saw with
  | nil => simp [findEvent]
  | cons e es ih =>
    obtain ⟨pid, child⟩ := e
    cases hc : candidate parentPid targetPid parentPgid (pid, child) with
    | false =>
      rw [findEvent, any_cons, hc, Bool.false_or, filter_cons_of_neg (by simp [hc])]
      iterate 2 (split; · exact ih saw)
      rename_i hskip hmatch
      rw [not_or, not_or, not_not] at hskip
      exact absurd ⟨hskip.1, hskip.2.1, hskip.2.2, by simpa using hmatch⟩ (of_decide_eq_false hc)
    | true =>
      obtain ⟨h1, h2, h3, h4⟩ := of_decide_eq_true hc
      rw [findEvent, if_neg (by simp_all), if_neg (by simp_all), any_cons, hc, Bool.true_or, Bool.or_true,
        filter_cons_of_pos hc, findSome?_cons]
      simp only [ih, Bool.true_or, report]
      split_ifs with hpending
      · rfl
      cases child.waitEvent with
      | none => rfl
      | some event => by_cases hmask : event.eventMask &&& eventMask = 0 <;> simp [Option.filter, hmask]

/-- What a call does: it is refused, it finds no child, or it reports the record of one,
which it takes unless the caller only looks. -/
inductive Polled (t : WaitTable) (parentPid : Nat) (targetPid : Int32) (eventMask flags : UInt32) :
    Except Errno (Option (Nat × ChildWaitEvent)) × WaitTable → Prop
  | invalid (valid : validWait eventMask flags = false) : Polled t parentPid targetPid eventMask flags (.error .EINVAL, t)
  | absent (valid : validWait eventMask flags) (none : t.get? parentPid = none) :
      Polled t parentPid targetPid eventMask flags (.error .ESRCH, t)
  | childless (valid : validWait eventMask flags) (parent : WaitChild) (here : t.get? parentPid = some parent)
      (none : ∀ pid child, t.ChildOf parentPid pid child → child.childMatchesWaitTarget pid targetPid parent.pgid = false) :
      Polled t parentPid targetPid eventMask flags (.error .ECHILD, t)
  | quiet (valid : validWait eventMask flags) (parent : WaitChild) (here : t.get? parentPid = some parent)
      (some : ∃ pid child, t.ChildOf parentPid pid child ∧ child.childMatchesWaitTarget pid targetPid parent.pgid)
      (silent : ∀ pid child event, t.ChildOf parentPid pid child →
        child.childMatchesWaitTarget pid targetPid parent.pgid → ¬Reports child eventMask event) :
      Polled t parentPid targetPid eventMask flags (.ok none, t)
  | found (valid : validWait eventMask flags) (parent : WaitChild) (here : t.get? parentPid = some parent)
      (pid : Nat) (child : WaitChild) (event : ChildWaitEvent) (mine : t.ChildOf parentPid pid child)
      (selected : child.childMatchesWaitTarget pid targetPid parent.pgid) (reports : Reports child eventMask event) :
      Polled t parentPid targetPid eventMask flags (.ok (some (pid, event)), if flags &&& wnowait = 0 then
        t.retain fun pid' child => some (if pid' = pid then { child with waitEvent := none } else child) else t)

theorem polled (t : WaitTable) (parentPid : Nat) (targetPid : Int32) (eventMask flags : UInt32) :
    Polled t parentPid targetPid eventMask flags (t.pollWaitEvent parentPid targetPid eventMask flags) := by
  have hentry : ∀ {pid child} {pgid : Nat}, (pid, child) ∈ t.entries.filter (candidate parentPid targetPid pgid) ↔
      t.ChildOf parentPid pid child ∧ child.childMatchesWaitTarget pid targetPid pgid := by
    simp only [mem_filter, mem_entries_iff, candidate, decide_eq_true_eq, ChildOf, and_assoc, implies_true]
  simp only [pollWaitEvent, findEvent_eq, Bool.false_or]
  cases hvalid : validWait eventMask flags with
  | false => exact .invalid hvalid
  | true =>
    cases hparent : t.get? parentPid with
    | none => exact .absent hvalid hparent
    | some parent =>
      dsimp only
      cases hfound : (t.entries.filter (candidate parentPid targetPid parent.pgid)).findSome? (report eventMask) with
      | some r =>
        obtain ⟨⟨pid, child⟩, he, hr⟩ := exists_of_findSome?_eq_some hfound
        obtain ⟨hr, rfl⟩ := report_eq_some.mp hr
        exact .found hvalid parent hparent _ child _ (hentry.mp he).1 (hentry.mp he).2 hr
      | none =>
        rw [findSome?_eq_none_iff] at hfound
        cases hany : t.entries.any (candidate parentPid targetPid parent.pgid) with
        | true =>
          obtain ⟨e, he⟩ := any_eq_true.mp hany
          refine .quiet hvalid parent hparent ⟨e.1, e.2, hentry.mp (mem_filter.mpr he)⟩ fun pid child event hc hm hr => ?_
          cases (hfound _ (hentry.mpr ⟨hc, hm⟩)).symm.trans (report_eq_some (r := (pid, event)) |>.mpr ⟨hr, rfl⟩)
        | false =>
          refine .childless hvalid parent hparent fun pid child hc => Bool.eq_false_iff.mpr fun hm => ?_
          obtain ⟨he, hcand⟩ := mem_filter.mp (hentry.mpr ⟨hc, hm⟩)
          exact any_eq_false.mp hany _ he hcand

end WaitTable

/-! ## Runs, with the history of the records -/

/-- A change of state of a child, a wait, or another call on a process: that one may set
its parent, group, session and publication, and leaves its state. -/
inductive WaitCall
  | create (pid : Nat) (identity : Identity) (realUid : UInt32)
  | stop (pid : Nat) (signum : UInt32)
  | resume (pid : Nat)
  | exit (pid : Nat) (status : Int32)
  | kill (pid : Nat) (signum : UInt32)
  | change (pid : Nat) (f : Identity → Identity)
  | poll (parentPid : Nat) (targetPid : Int32) (eventMask flags : UInt32)

inductive WaitAnswer
  | done
  | recorded (made : Bool)
  | polled (r : Except Errno (Option (Nat × ChildWaitEvent)))

/-- `record` on the process `pid`, if there is one. -/
def WaitTable.record (t : WaitTable) (pid : Nat) (record : WaitChild → Bool × WaitChild) : WaitAnswer × WaitTable :=
  match t.get? pid with
  | none => (.recorded false, t)
  | some p => (.recorded (record p).1, t.insert pid (record p).2)

def WaitTable.call (t : WaitTable) : WaitCall → WaitAnswer × WaitTable
  | .create pid identity realUid =>
    match t.get? pid with
    | some _ => (.done, t)
    | none => (.done, t.insert pid ⟨{ identity with state := .running }, realUid, 0, 0, none⟩)
  | .stop pid signum => t.record pid (·.recordStop signum)
  | .resume pid => t.record pid (·.recordContinue)
  | .exit pid status => t.record pid (·.recordNormalExit status)
  | .kill pid signum => t.record pid (·.recordSignalExit signum)
  | .change pid f =>
    match t.get? pid with
    | none => (.done, t)
    | some p => (.done, t.insert pid { p with toIdentity := { f p.toIdentity with state := p.state } })
  | .poll parentPid targetPid eventMask flags => (t.pollWaitEvent parentPid targetPid eventMask flags).map .polled id

/-- The process a call records a change of. -/
def WaitCall.recordsOf : WaitCall → Option Nat
  | .stop pid _ | .resume pid | .exit pid _ | .kill pid _ => some pid
  | _ => none

/-- A table with every record made of each child, the newest first, and the records taken:
a record is known by its child and its number among the child's. -/
structure Watched where
  table : WaitTable
  made : Nat → List ChildWaitEvent
  taken : List (Nat × Nat)

namespace Watched

/-- What is in the slots is what was made so far. -/
def start (t : WaitTable) : Watched := ⟨t, fun pid => ((t.get? pid).bind (·.waitEvent)).toList, []⟩

/-- The history follows what the calls answer. -/
def call (w : Watched) (c : WaitCall) : WaitAnswer × Watched :=
  let r := w.table.call c
  (r.1,
    { table := r.2
      made := match c.recordsOf, r.1 with
        | some pid, .recorded true => fun x => if x = pid then ((r.2.get? pid).bind (·.waitEvent)).toList ++ w.made x else w.made x
        | _, _ => w.made
      taken := match c, r.1 with
        | .poll _ _ _ flags, .polled (.ok (some (pid, _))) =>
          if flags &&& wnowait = 0 then (pid, (w.made pid).length) :: w.taken else w.taken
        | _, _ => w.taken })

/-! ## A record is taken once -/

/-- A step that makes a record makes it of a child that has not ended. -/
def Records (record : WaitChild → Bool × WaitChild) : Prop :=
  ∀ p, record p = (false, p) ∨ ∃ event, (record p).1 ∧ (record p).2.waitEvent = some event ∧ p.state ≠ .exited ∧ p.state ≠ .limbo

theorem records_ite {refused : WaitChild → Prop} [DecidablePred refused] {next : WaitChild → WaitChild}
    (hslot : ∀ p, ∃ event, (next p).waitEvent = some event) (hlive : ∀ p, ¬refused p → p.state ≠ .exited ∧ p.state ≠ .limbo) :
    Records fun p => if refused p then (false, p) else (true, next p) := by
  intro p
  obtain ⟨event, hevent⟩ := hslot p
  by_cases h : refused p
  · exact .inl (if_pos h)
  beta_reduce
  rw [if_neg h]
  exact .inr ⟨event, rfl, hevent, hlive p h⟩

theorem records_stop (signum : UInt32) : Records (·.recordStop signum) :=
  records_ite (fun _ => ⟨_, rfl⟩) fun _ h => by rw [not_not.mp h]; decide

theorem records_continue : Records (·.recordContinue) := records_ite (fun _ => ⟨_, rfl⟩) fun _ h => by rw [not_not.mp h]; decide

theorem records_exit (status : Int32) : Records (·.recordNormalExit status) :=
  records_ite (fun _ => ⟨_, rfl⟩) fun _ => not_or.mp

theorem records_kill (signum : UInt32) : Records (·.recordSignalExit signum) :=
  records_ite (fun _ => ⟨_, rfl⟩) fun _ => not_or.mp

/-- Every child is as it was or new, in state and record. -/
def SameRecords (t t' : WaitTable) : Prop :=
  (∀ pid child, t.get? pid = some child →
      ∃ child', t'.get? pid = some child' ∧ child'.waitEvent = child.waitEvent ∧ child'.state = child.state) ∧
    ∀ pid child', t'.get? pid = some child' → child'.waitEvent ≠ none →
      ∃ child, t.get? pid = some child ∧ child.waitEvent = child'.waitEvent

/-- What `record` does to the table: nothing, or it puts a record into the slot of a process
that has not ended. -/
theorem record_cases {record : WaitChild → Bool × WaitChild} (hr : Records record) (t : WaitTable) (pid : Nat) :
    t.record pid record = (.recorded false, t) ∨
      ∃ p event, t.get? pid = some p ∧ p.state ≠ .exited ∧ (record p).1 ∧ (record p).2.waitEvent = some event ∧
        t.record pid record = (.recorded true, t.insert pid (record p).2) := by
  rw [WaitTable.record]
  cases hget : t.get? pid with
  | none => exact .inl rfl
  | some p =>
    rcases hr p with hsame | ⟨event, htrue, hevent, hexited, _⟩
    · have hinsert : t.insert pid p = t := by
        refine ext_get? fun k => ?_
        rw [get?_insert]
        split_ifs with hk
        · rw [hk, hget]
        · rfl
      exact .inl (by simp only [hsame, hinsert])
    · exact .inr ⟨p, event, rfl, hexited, htrue, hevent, by simp only [htrue]⟩

theorem SameRecords.refl (t : WaitTable) : SameRecords t t :=
  ⟨fun _ child h => ⟨child, h, rfl, rfl⟩, fun _ child h _ => ⟨child, h, rfl⟩⟩

variable {pid : Nat}

/-- A process is new and has no record, or its state and record stay. -/
theorem SameRecords.insert {t : WaitTable} {q : WaitChild}
    (hold : ∀ p, t.get? pid = some p → q.waitEvent = p.waitEvent ∧ q.state = p.state)
    (hnew : t.get? pid = none → q.waitEvent = none) : SameRecords t (t.insert pid q) := by
  refine ⟨fun x child hx => ?_, fun x child' hx hne => ?_⟩
  · by_cases hxp : x = pid
    · exact ⟨q, (get?_insert ..).trans (if_pos hxp), hold child (hxp ▸ hx)⟩
    · exact ⟨child, (get?_insert ..).trans ((if_neg hxp).trans hx), rfl, rfl⟩
  rw [get?_insert] at hx
  split_ifs at hx with hxp
  · cases hx
    cases hget : t.get? pid with
    | none => exact absurd (hnew hget) hne
    | some p => exact ⟨p, hxp ▸ hget, (hold p hget).1.symm⟩
  · exact ⟨child', hx, rfl⟩

/-- Everything a call can do to the records: nothing, make one of a child that has not
ended, or take the one of a child. -/
inductive Change (w w' : Watched) : Prop
  | same (kept : SameRecords w.table w'.table) (made : w'.made = w.made) (taken : w'.taken = w.taken)
  | make (pid : Nat) (child child' : WaitChild) (event : ChildWaitEvent) (here : w.table.get? pid = some child)
      (live : child.state ≠ .exited) (slot : child'.waitEvent = some event) (table : w'.table = w.table.insert pid child')
      (made : w'.made = fun x => if x = pid then event :: w.made x else w.made x) (taken : w'.taken = w.taken)
  | take (pid : Nat) (child : WaitChild) (event : ChildWaitEvent) (here : w.table.get? pid = some child)
      (slot : child.waitEvent = some event)
      (table : w'.table = w.table.retain fun pid' child => some (if pid' = pid then { child with waitEvent := none } else child))
      (made : w'.made = w.made) (taken : w'.taken = (pid, (w.made pid).length) :: w.taken)

theorem made_call {w : Watched} {c : WaitCall} {child : WaitChild} {event : ChildWaitEvent}
    (hof : c.recordsOf = some pid) (heq : w.table.call c = (.recorded true, w.table.insert pid child))
    (hevent : child.waitEvent = some event) : (w.call c).2.made = fun x => if x = pid then event :: w.made x else w.made x := by
  simp [call, heq, hof, hevent]

theorem call_change (w : Watched) (c : WaitCall) : Change w (w.call c).2 := by
  have hrecord : ∀ pid (record : WaitChild → Bool × WaitChild), Records record → c.recordsOf = some pid →
      w.table.call c = w.table.record pid record → (w.call c).2.taken = w.taken → Change w (w.call c).2 := by
    intro pid record hr hof hcall htaken
    rcases record_cases hr w.table pid with heq | ⟨p, event, hget, hexited, _, hevent, heq⟩
    · refine .same ?_ ?_ htaken
      · simp only [call, hcall, heq]
        exact .refl _
      · simp [call, hcall, heq]
    · refine .make pid p (record p).2 event hget hexited hevent ?_ (made_call hof (hcall.trans heq) hevent) htaken
      simp [call, hcall, heq]
  cases c with
  | create pid identity realUid =>
    refine .same ?_ rfl rfl
    simp only [call, WaitTable.call]
    cases hget : w.table.get? pid with
    | some p => exact .refl _
    | none => exact .insert (fun p hp => nomatch hget.symm.trans hp) fun _ => rfl
  | change pid f =>
    refine .same ?_ rfl rfl
    simp only [call, WaitTable.call]
    cases hget : w.table.get? pid with
    | none => exact .refl _
    | some p =>
      refine .insert (fun q hq => ?_) fun hnone => nomatch hget.symm.trans hnone
      cases hget.symm.trans hq
      exact ⟨rfl, rfl⟩
  | stop pid signum => exact hrecord pid _ (records_stop signum) rfl rfl rfl
  | resume pid => exact hrecord pid _ records_continue rfl rfl rfl
  | exit pid status => exact hrecord pid _ (records_exit status) rfl rfl rfl
  | kill pid signum => exact hrecord pid _ (records_kill signum) rfl rfl rfl
  | poll parentPid targetPid eventMask flags =>
    have hp := w.table.polled parentPid targetPid eventMask flags
    simp only [call, WaitTable.call]
    generalize w.table.pollWaitEvent parentPid targetPid eventMask flags = r at hp
    cases hp with
    | found valid parent here pid child event mine selected reports =>
      by_cases hflag : flags &&& wnowait = 0
      · simp only [if_pos hflag]
        exact .take pid child event mine.1 reports.2.1 rfl rfl (if_pos hflag)
      · simp only [if_neg hflag]
        exact .same (.refl _) rfl (if_neg hflag)
    | _ => exact .same (.refl _) rfl rfl

/-- Whatever is in a slot is the newest record of its child, and nobody took it. -/
structure Accounted (w : Watched) : Prop where
  nodup : w.taken.Nodup
  bound : ∀ e ∈ w.taken, e.2 ≤ (w.made e.1).length
  slots : ∀ pid child event, w.table.get? pid = some child → child.waitEvent = some event →
    (w.made pid).head? = some event ∧ (pid, (w.made pid).length) ∉ w.taken

theorem accounted_start (t : WaitTable) : Accounted (start t) := by
  refine ⟨nodup_nil, fun e he => absurd he not_mem_nil, fun pid child event hget hevent => ⟨?_, not_mem_nil⟩⟩
  have hget' : t.get? pid = some child := hget
  simp [start, hget', hevent]

variable {w : Watched}

theorem Accounted.call (h : Accounted w) (c : WaitCall) : Accounted (w.call c).2 := by
  rcases w.call_change c with ⟨hsame, hmade, htaken⟩ | ⟨pid, child, child', event, hget, _, hevent, htab, hmade, htaken⟩ |
    ⟨pid, child, event, hget, hevent, htab, hmade, htaken⟩
  · refine ⟨htaken ▸ h.nodup, ?_, fun pid child event hget hevent => ?_⟩
    · rw [htaken, hmade]
      exact h.bound
    obtain ⟨child₀, hget0, hsame0⟩ := hsame.2 pid child hget (by rw [hevent]; exact Option.some_ne_none event)
    rw [hmade, htaken]
    exact h.slots pid child₀ event hget0 (hsame0.trans hevent)
  · have hlength : ∀ x, (w.made x).length ≤ ((w.call c).2.made x).length := by
      intro x
      rw [hmade]
      dsimp only
      split
      · exact Nat.le_succ _
      · exact Nat.le_refl _
    refine ⟨htaken ▸ h.nodup, fun e he => ?_, fun x q event' hq hevent' => ?_⟩
    · rw [htaken] at he
      exact Nat.le_trans (h.bound e he) (hlength e.1)
    rw [htab, get?_insert] at hq
    rw [htaken, hmade]
    dsimp only
    split_ifs at hq with hx
    · cases hq
      rw [if_pos hx]
      rw [hevent, Option.some.injEq] at hevent'
      refine ⟨congrArg some hevent', fun hmem => ?_⟩
      -- the number of a new record is past all those that were taken
      exact absurd (h.bound _ hmem) (Nat.not_succ_le_self _)
    · rw [if_neg hx]
      exact h.slots x q event' hq hevent'
  · have hslot := h.slots pid child event hget hevent
    refine ⟨?_, fun e he => ?_, fun x q event' hq hevent' => ?_⟩
    · rw [htaken]
      exact nodup_cons.mpr ⟨hslot.2, h.nodup⟩
    · rw [htaken] at he
      rw [hmade]
      rcases mem_cons.mp he with rfl | he
      · exact Nat.le_refl _
      · exact h.bound e he
    rw [htab, get?_retain] at hq
    obtain ⟨q₀, hq0, heq⟩ := Option.bind_eq_some_iff.mp hq
    rw [Option.some.injEq] at heq
    rw [hmade, htaken]
    by_cases hx : x = pid
    · rw [if_pos hx] at heq
      rw [← heq] at hevent'
      cases hevent'
    rw [if_neg hx] at heq
    obtain ⟨hhead, hfresh⟩ := h.slots x q₀ event' hq0 (by rw [heq]; exact hevent')
    refine ⟨hhead, fun hmem => ?_⟩
    rcases mem_cons.mp hmem with heq' | hmem
    · exact hx (congrArg Prod.fst heq')
    · exact hfresh hmem

/-! ## An exit record is the last one -/

/-- The child has ended with `event` as its last record, which is in its slot or taken. -/
def Ended (pid : Nat) (event : ChildWaitEvent) (older : List ChildWaitEvent) (w : Watched) : Prop :=
  w.made pid = event :: older ∧ ∃ child, w.table.get? pid = some child ∧ child.state = .exited ∧
    (child.waitEvent = some event ∨ (pid, older.length + 1) ∈ w.taken)

theorem Ended.call {event : ChildWaitEvent} {older : List ChildWaitEvent} (h : Ended pid event older w)
    (c : WaitCall) : Ended pid event older (w.call c).2 := by
  obtain ⟨hrecords, child, hget, hexited, hkept⟩ := h
  rcases w.call_change c with ⟨hsame, hmade, htaken⟩ | ⟨pid', child', child'', event', hget', hlive, _, htab, hmade, htaken⟩ |
    ⟨pid', child', event', hget', hevent', htab, hmade, htaken⟩
  · obtain ⟨child', hget', hevent', hstate'⟩ := hsame.1 pid child hget
    refine ⟨hmade ▸ hrecords, child', hget', hstate'.trans hexited, ?_⟩
    rw [hevent', htaken]
    exact hkept
  · have hne : pid ≠ pid' := by
      intro heq
      rw [← heq, hget, Option.some.injEq] at hget'
      exact hlive (hget' ▸ hexited)
    refine ⟨?_, child, ?_, hexited, htaken ▸ hkept⟩
    · rw [hmade]
      exact (if_neg hne).trans hrecords
    · rw [htab, get?_insert, if_neg hne, hget]
  · refine ⟨hmade ▸ hrecords, if pid = pid' then { child with waitEvent := none } else child, ?_, ?_, ?_⟩
    · rw [htab, get?_retain, hget]
      rfl
    · split <;> exact hexited
    rw [htaken]
    split_ifs with heq
    · refine .inr (mem_cons.mpr (.inl ?_))
      rw [← heq, hrecords, length_cons]
    · exact hkept.imp_right (mem_cons_of_mem _)

/-- The call by which a process ends. -/
def Ends (pid : Nat) : WaitCall → Prop
  | .exit pid' _ | .kill pid' _ => pid' = pid
  | _ => False

theorem ended_of_exit {c : WaitCall} (hc : Ends pid c) (h : (w.table.call c).1 = .recorded true) :
    ∃ event, event.eventMask = eventExited ∧ Ended pid event (w.made pid) (w.call c).2 := by
  have hend : ∀ record : WaitChild → Bool × WaitChild, Records record → c.recordsOf = some pid →
      w.table.call c = w.table.record pid record →
      (∀ p, (record p).1 → (record p).2.state = .exited ∧
        ∀ event, (record p).2.waitEvent = some event → event.eventMask = eventExited) →
      ∃ event, event.eventMask = eventExited ∧ Ended pid event (w.made pid) (w.call c).2 := by
    intro record hr hof hcall hexit
    rcases record_cases hr w.table pid with heq | ⟨p, event, _, _, htrue, hevent, heq⟩
    · rw [hcall, heq] at h
      cases h
    obtain ⟨hstate, hmask⟩ := hexit p htrue
    refine ⟨event, hmask event hevent, ?_, (record p).2, ?_, hstate, .inl hevent⟩
    · rw [made_call hof (hcall.trans heq) hevent]
      exact if_pos rfl
    · simp [call, hcall, heq]
  cases c with
  | exit pid' status =>
    cases hc
    refine hend _ (records_exit status) rfl rfl fun p htrue => ?_
    simp only [WaitChild.recordNormalExit] at htrue ⊢
    split_ifs at htrue ⊢
    exact ⟨rfl, fun _ h => Option.some.inj h ▸ rfl⟩
  | kill pid' signum =>
    cases hc
    refine hend _ (records_kill signum) rfl rfl fun p htrue => ?_
    simp only [WaitChild.recordSignalExit] at htrue ⊢
    split_ifs at htrue ⊢
    exact ⟨rfl, fun _ h => Option.some.inj h ▸ rfl⟩
  | _ => exact hc.elim

/-! ## Waiting for children -/

/-- A child of the caller the target selects. -/
def Selected (t : WaitTable) (parentPid : Nat) (parent : WaitChild) (targetPid : Int32) (pid : Nat) (child : WaitChild) : Prop :=
  t.ChildOf parentPid pid child ∧ ∃ target ∈ WaitChild.WaitTarget.ofRaw targetPid, target.Selects pid child.pgid parent.pgid

/-- What a call answers: `ECHILD` exactly if no child is selected, a record for the caller
that is the newest of a selected child and not yet taken, and a record whenever a selected
child has one for the caller. A call with other events or flags, or by nobody, is refused. -/
structure Answers (w : Watched) (parentPid : Nat) (targetPid : Int32) (eventMask flags : UInt32) : Prop where
  refused : WaitTable.validWait eventMask flags = false → (w.table.pollWaitEvent parentPid targetPid eventMask flags).1 = .error .EINVAL
  absent : WaitTable.validWait eventMask flags → w.table.get? parentPid = none →
    (w.table.pollWaitEvent parentPid targetPid eventMask flags).1 = .error .ESRCH
  childless : WaitTable.validWait eventMask flags → ∀ parent, w.table.get? parentPid = some parent →
    ((w.table.pollWaitEvent parentPid targetPid eventMask flags).1 = .error .ECHILD ↔
      ¬∃ pid child, Selected w.table parentPid parent targetPid pid child)
  newest : ∀ pid event, (w.table.pollWaitEvent parentPid targetPid eventMask flags).1 = .ok (some (pid, event)) →
    ((w.made pid).head? = some event ∧ (pid, (w.made pid).length) ∉ w.taken) ∧ ∃ parent child,
      w.table.get? parentPid = some parent ∧ Selected w.table parentPid parent targetPid pid child ∧ WaitTable.Reports child eventMask event
  reported : WaitTable.validWait eventMask flags → ∀ parent, w.table.get? parentPid = some parent →
    (∃ pid child event, Selected w.table parentPid parent targetPid pid child ∧ WaitTable.Reports child eventMask event) →
    ∃ pid event, (w.table.pollWaitEvent parentPid targetPid eventMask flags).1 = .ok (some (pid, event))

theorem Accounted.answers (h : Accounted w) (parentPid : Nat) (targetPid : Int32) (eventMask flags : UInt32) :
    Answers w parentPid targetPid eventMask flags := by
  have hselected : ∀ parent pid child, Selected w.table parentPid parent targetPid pid child ↔
      w.table.ChildOf parentPid pid child ∧ child.childMatchesWaitTarget pid targetPid parent.pgid :=
    fun parent pid child => and_congr_right fun _ => (child.childMatchesWaitTarget_iff pid targetPid parent.pgid).symm
  have hp := w.table.polled parentPid targetPid eventMask flags
  constructor <;> generalize w.table.pollWaitEvent parentPid targetPid eventMask flags = r at hp
  case refused =>
    intro hv
    cases hp <;> simp_all
  case absent =>
    intro hv hnone
    cases hp <;> simp_all
  case childless =>
    intro hv parent hparent
    cases hp with
    | found valid parent here pid child event mine selected =>
      cases here.symm.trans hparent
      exact iff_of_false nofun fun hn => hn ⟨pid, child, (hselected ..).mpr ⟨mine, selected⟩⟩
    | _ => simp_all
  case newest =>
    intro pid event hans
    cases hp with
    | found valid parent here pid child event mine selected reports =>
      cases hans
      exact ⟨h.slots pid child event mine.1 reports.2.1, parent, child, here, (hselected ..).mpr ⟨mine, selected⟩, reports⟩
    | _ => cases hans
  case reported =>
    rintro hv parent hparent ⟨pid, child, event, hs, hr⟩
    obtain ⟨hc, hm⟩ := (hselected parent pid child).mp hs
    cases hp with
    | quiet valid parent here some silent =>
      cases here.symm.trans hparent
      exact absurd hr (silent pid child event hc hm)
    | _ => simp_all

/-- Over every sequence of state changes and waits: no record is taken twice, every wait is
answered as it should be, and from the exit of a child on its exit record is its last one,
and stays in the slot until a wait takes it. -/
theorem wait_records (t : WaitTable) (cs : List WaitCall) : (Machine.run call (start t) cs).taken.Nodup ∧
      (∀ parentPid targetPid eventMask flags, Answers (Machine.run call (start t) cs) parentPid targetPid eventMask flags) ∧
      ∀ pid c, Ends pid c → ((Machine.run call (start t) cs).call c).1 = .recorded true →
        ∃ event, event.eventMask = eventExited ∧ ∀ ds, Ended pid event ((Machine.run call (start t) cs).made pid)
          (Machine.run call ((Machine.run call (start t) cs).call c).2 ds) := by
  have haccounted : Accounted (Machine.run call (start t) cs) :=
    Machine.run_invariant (fun _ c h => h.call c) cs (accounted_start t)
  refine ⟨haccounted.nodup, haccounted.answers, fun pid c hc hmade => ?_⟩
  obtain ⟨event, hmask, hended⟩ := ended_of_exit hc hmade
  exact ⟨event, hmask, fun ds => Machine.run_invariant (fun _ c h => h.call c) ds hended⟩

end Watched

end Kandelo.Process

/-
`SignalState` (the signals of a process) and `PerThreadSignalState` (those
directed at one thread): the source's methods over the shared fields of
`Signal.Queue`, and what holds in every state they reach.

A process discards a signal whose disposition ignores it; a thread has no
dispositions and queues every raise. Timers raise past the disposition in both.
Mask waits and handler depths of a thread are not touched by these methods and
left out.
-/
import Kandelo.Signal.Queue
import Kandelo.Lib.Machine

namespace Kandelo.Signal

open Pending

/-! ## Dispositions -/

inductive SignalHandler
  | default
  | ignore
  | handler (function : UInt32)
  deriving DecidableEq, Repr

structure SignalAction where
  handler : SignalHandler
  flags : UInt32
  mask : BitVec 64
  deriving DecidableEq, Repr

def SignalAction.default : SignalAction := ⟨.default, 0, 0⟩

inductive DefaultAction
  | terminate
  | ignore
  | coreDump
  | stop
  | continue
  deriving DecidableEq, Repr

def sigkill : Nat := 9
def sigchld : Nat := 17
def sigcont : Nat := 18
def sigstop : Nat := 19
def sigtstp : Nat := 20
def sigttin : Nat := 21
def sigttou : Nat := 22
def sigwinch : Nat := 28

/-- Every signal that is not named here terminates, as the source's last two
arms do. -/
def defaultAction (signum : Nat) : DefaultAction :=
  if signum = sigchld ∨ signum = sigwinch then .ignore
  else if signum = sigcont then .continue
  else if signum = sigstop ∨ signum = sigtstp ∨ signum = sigttin ∨ signum = sigttou then .stop
  else .terminate

/-- Setting this handler discards what is pending, and raising under it queues
nothing. -/
def shouldDiscardPending (signum : Nat) : SignalHandler → Bool
  | .ignore => true
  | .default => defaultAction signum == .ignore
  | .handler _ => false

/-! ## The signals of a thread -/

structure PerThreadSignalState where
  readinessGeneration : UInt64
  blocked : BitVec 64
  /-- `pending` and `rt_queue`. -/
  signals : Pending
  deriving DecidableEq, Repr

namespace PerThreadSignalState

def new : PerThreadSignalState := ⟨0, 0, empty⟩

def raiseInternal (t : PerThreadSignalState) (signum : Nat) (siValueBits : UInt64) (siCode : Int32)
    (senderPid senderUid : UInt32) : Bool × PerThreadSignalState :=
  if !validSignum signum then (false, t)
  else
    (true, { t with
      readinessGeneration := t.readinessGeneration + 1
      signals := t.signals.queueSignal ⟨signum, siValueBits, siCode, senderPid, senderUid, none⟩ })

def raise (t : PerThreadSignalState) (signum : Nat) : Bool × PerThreadSignalState := t.raiseInternal signum 0 0 0 0

def raiseWithValue (t : PerThreadSignalState) (signum : Nat) (siValueBits : UInt64) : Bool × PerThreadSignalState :=
  t.raiseInternal signum siValueBits (-1) 0 0

def raiseWithMetadata (t : PerThreadSignalState) (signum : Nat) (siValueBits : UInt64) (siCode : Int32)
    (senderPid senderUid : UInt32) : Bool × PerThreadSignalState :=
  t.raiseInternal signum siValueBits siCode senderPid senderUid

def raiseTimer (t : PerThreadSignalState) (signum : Nat) (siValueBits : UInt64) (timerId : UInt32) : Bool × PerThreadSignalState :=
  if !validSignum signum then (false, t)
  else
    (true, { t with
      readinessGeneration := t.readinessGeneration + 1
      signals := t.signals.queueTimer signum siValueBits timerId })

def consumeOneInfo (t : PerThreadSignalState) (signum : Nat) : PendingSignalInfo × PerThreadSignalState :=
  let r := t.signals.consumePendingInfo signum
  (r.1, { t with signals := r.2 })

def removeTimerNotification (t : PerThreadSignalState) (timerId : UInt32) : Bool × PerThreadSignalState :=
  let r := t.signals.removeTimerInfo timerId
  (r.1, { t with signals := r.2 })

def clearPending (t : PerThreadSignalState) (signum : Nat) : PerThreadSignalState :=
  { t with signals := t.signals.clearPending signum }

def consumeOne (t : PerThreadSignalState) (signum : Nat) : Option (UInt64 × Int32) × PerThreadSignalState :=
  if !validSignum signum || !t.signals.bit signum then (none, t)
  else
    let r := t.consumeOneInfo signum
    (some (r.1.siValueBits, r.1.siCode), r.2)

def isPending (t : PerThreadSignalState) (signum : Nat) : Bool := validSignum signum && t.signals.bit signum

def dequeue (t : PerThreadSignalState) : Option (Nat × UInt64 × Int32) × PerThreadSignalState :=
  match t.signals.nextDeliverable t.blocked with
  | none => (none, t)
  | some signum =>
    if nsig ≤ signum then (none, t)
    else
      match t.consumeOne signum with
      | (none, t') => (none, t')
      | (some (siValue, siCode), t') => (some (signum, siValue, siCode), t')

end PerThreadSignalState

/-! ## The signals of a process -/

structure SignalState where
  readinessGeneration : UInt64
  actions : Vector SignalAction 65
  blocked : BitVec 64
  /-- `pending` and `rt_queue`. -/
  signals : Pending
  deriving DecidableEq

namespace SignalState

def new : SignalState := ⟨0, Vector.replicate 65 SignalAction.default, 0, empty⟩

def getAction (p : SignalState) (signum : Nat) : SignalAction :=
  if !validSignum signum then SignalAction.default else (p.actions[signum]?).getD SignalAction.default

def getHandler (p : SignalState) (signum : Nat) : SignalHandler :=
  if !validSignum signum then .default else ((p.actions[signum]?).getD SignalAction.default).handler

def clearPending (p : SignalState) (signum : Nat) : SignalState :=
  { p with signals := p.signals.clearPending signum }

def clear (p : SignalState) (signum : Nat) : SignalState := { p with signals := p.signals.clearPending signum }

/-- `set_action`: refused for an invalid signal and for the two that cannot be
caught; a disposition that ignores the signal discards what is pending. -/
def setAction (p : SignalState) (signum : Nat) (action : SignalAction) : Except Unit SignalAction × SignalState :=
  if !validSignum signum then (.error (), p)
  else if signum = sigkill ∨ signum = sigstop then (.error (), p)
  else
    let p' := { p with actions := p.actions.setIfInBounds signum action }
    (.ok (p.getAction signum), if shouldDiscardPending signum action.handler then p'.clearPending signum else p')

def setHandler (p : SignalState) (signum : Nat) (handler : SignalHandler) : Except Unit SignalHandler × SignalState :=
  if !validSignum signum then (.error (), p)
  else if signum = sigkill ∨ signum = sigstop then (.error (), p)
  else
    let p' := { p with actions := p.actions.setIfInBounds signum { p.getAction signum with handler := handler } }
    (.ok (p.getHandler signum), if shouldDiscardPending signum handler then p'.clearPending signum else p')

/-- What `set_action` and `set_handler` leave: the action is set where it can be, and what is
pending discarded if `handler` ignores it. -/
def dispose (p : SignalState) (signum : Nat) (handler : SignalHandler) (action : SignalAction) : SignalState :=
  if !validSignum signum || (signum == sigkill || signum == sigstop) then p
  else
    let p' := { p with actions := p.actions.setIfInBounds signum action }
    if shouldDiscardPending signum handler then p'.clearPending signum else p'

theorem setAction_snd (p : SignalState) (signum : Nat) (action : SignalAction) :
    (p.setAction signum action).2 = p.dispose signum action.handler action := by
  simp only [setAction, dispose]
  grind

theorem setHandler_snd (p : SignalState) (signum : Nat) (handler : SignalHandler) :
    (p.setHandler signum handler).2 = p.dispose signum handler { p.getAction signum with handler := handler } := by
  simp only [setHandler, dispose]
  grind

structure Sets (signum : Nat) (handler : SignalHandler) (p p' : SignalState) : Prop where
  blocked : p'.blocked = p.blocked
  kill : p'.getAction sigkill = p.getAction sigkill
  stop : p'.getAction sigstop = p.getAction sigstop
  signals : p'.signals = p.signals ∨ shouldDiscardPending signum handler ∧ p'.signals = p.signals.clearPending signum

theorem sets_dispose (p : SignalState) (signum : Nat) (handler : SignalHandler) (action : SignalAction) :
    Sets signum handler p (p.dispose signum handler action) := by
  have hother : ∀ {other}, signum ≠ other → (p.actions.setIfInBounds signum action)[other]? = p.actions[other]? :=
    fun h => Vector.getElem?_setIfInBounds_ne h
  simp only [dispose]
  split_ifs with hfixed hdiscard
  · exact ⟨rfl, rfl, rfl, .inl rfl⟩
  all_goals
    simp only [Bool.or_eq_true, beq_iff_eq, not_or] at hfixed
    refine ⟨rfl, ?_, ?_, ?_⟩
    · simp [getAction, clearPending, hother hfixed.2.1]
    · simp [getAction, clearPending, hother hfixed.2.2]
  · exact .inr ⟨hdiscard, rfl⟩
  · exact .inl rfl

/-- `exec` resets caught dispositions; the pending signals stay. -/
def resetDispositionsForExec (p : SignalState) : SignalState :=
  { p with
    actions := p.actions.mapIdx fun i action =>
      if i = 0 then action else ⟨if action.handler = .ignore then .ignore else .default, 0, 0⟩ }

def raiseInternal (p : SignalState) (signum : Nat) (siValueBits : UInt64) (siCode : Int32)
    (senderPid senderUid : UInt32) : Bool × SignalState :=
  if !validSignum signum then (false, p)
  else if shouldDiscardPending signum (p.getHandler signum) then (true, p)
  else
    (true, { p with
      readinessGeneration := p.readinessGeneration + 1
      signals := p.signals.queueSignal ⟨signum, siValueBits, siCode, senderPid, senderUid, none⟩ })

def raise (p : SignalState) (signum : Nat) : Bool × SignalState := p.raiseInternal signum 0 0 0 0

def raiseWithValue (p : SignalState) (signum : Nat) (siValueBits : UInt64) : Bool × SignalState :=
  p.raiseInternal signum siValueBits (-1) 0 0

def raiseWithMetadata (p : SignalState) (signum : Nat) (siValueBits : UInt64) (siCode : Int32)
    (senderPid senderUid : UInt32) : Bool × SignalState :=
  p.raiseInternal signum siValueBits siCode senderPid senderUid

def raiseTimer (p : SignalState) (signum : Nat) (siValueBits : UInt64) (timerId : UInt32) : Bool × SignalState :=
  if !validSignum signum then (false, p)
  else
    (true, { p with
      readinessGeneration := p.readinessGeneration + 1
      signals := p.signals.queueTimer signum siValueBits timerId })

def isPending (p : SignalState) (signum : Nat) : Bool := decide (signum < nsig) && p.signals.bit signum

def removeTimerNotification (p : SignalState) (timerId : UInt32) : Bool × SignalState :=
  let r := p.signals.removeTimerInfo timerId
  (r.1, { p with signals := r.2 })

def consumeOne (p : SignalState) (signum : Nat) : PendingSignalInfo × SignalState :=
  let r := p.signals.consumePendingInfo signum
  (r.1, { p with signals := r.2 })

def dequeue (p : SignalState) : Option (Nat × UInt64 × Int32) × SignalState :=
  match p.signals.nextDeliverable p.blocked with
  | none => (none, p)
  | some signum =>
    let r := p.consumeOne signum
    (some (signum, r.1.siValueBits, r.1.siCode), r.2)

/-- `from_actions`, and `from_parts` for actions that are handlers only. -/
def fromActions (actions : Vector SignalAction 65) (blocked : BitVec 64) : SignalState := ⟨0, actions, blocked, empty⟩

/-- `from_parts_with_pending`: one plain entry for each pending bit. -/
def fromPartsWithPending (handlers : Vector SignalHandler 65) (blocked pending : BitVec 64) : SignalState :=
  let q := (List.range' 1 64).filter fun signum => pending &&& sigBit signum != 0
  ⟨0, handlers.map fun h => ⟨h, 0, 0⟩, blocked, ⟨pending, q.map fun signum => ⟨signum, 0, 0, 0, 0, none⟩⟩⟩

end SignalState

/-! ## Runs -/

/-- A signal state of either kind. -/
inductive SigState
  | process (p : SignalState)
  | thread (t : PerThreadSignalState)

/-- The calls on a signal state. A timer raises the signal it was made for. -/
inductive Call
  | raise (signum : Nat)
  | raiseWithValue (signum : Nat) (value : UInt64)
  | raiseWithMetadata (signum : Nat) (value : UInt64) (code : Int32) (pid uid : UInt32)
  | raiseTimer (timerId : UInt32) (value : UInt64)
  | setAction (signum : Nat) (action : SignalAction)
  | setHandler (signum : Nat) (handler : SignalHandler)
  | resetDispositionsForExec
  | setBlocked (mask : BitVec 64)
  | clear (signum : Nat)
  | consume (signum : Nat)
  | consumeOne (signum : Nat)
  | dequeue
  | removeTimerNotification (timerId : UInt32)

inductive Answer
  | done
  | flag (b : Bool)
  | refused
  | info (i : PendingSignalInfo)
  | one (r : Option (UInt64 × Int32))
  | dequeued (r : Option (Nat × UInt64 × Int32))
  deriving DecidableEq

namespace SigState

def signals : SigState → Pending
  | .process p => p.signals
  | .thread t => t.signals

def blocked : SigState → BitVec 64
  | .process p => p.blocked
  | .thread t => t.blocked

def isPending : SigState → Nat → Bool
  | .process p => p.isPending
  | .thread t => t.isPending

/-- One call on the signals of a process. The gated `consume_one` is the
thread's; a process has the plain one only. -/
def callProcess (timerSignum : UInt32 → Nat) (p : SignalState) : Call → Answer × SignalState
  | .raise signum => let r := p.raise signum; (.flag r.1, r.2)
  | .raiseWithValue signum value => let r := p.raiseWithValue signum value; (.flag r.1, r.2)
  | .raiseWithMetadata signum value code pid uid =>
    let r := p.raiseWithMetadata signum value code pid uid; (.flag r.1, r.2)
  | .raiseTimer timerId value => let r := p.raiseTimer (timerSignum timerId) value timerId; (.flag r.1, r.2)
  | .setAction signum action => let r := p.setAction signum action; (if r.1.isOk then .done else .refused, r.2)
  | .setHandler signum handler => let r := p.setHandler signum handler; (if r.1.isOk then .done else .refused, r.2)
  | .resetDispositionsForExec => (.done, p.resetDispositionsForExec)
  | .setBlocked mask => (.done, { p with blocked := mask })
  | .clear signum => (.done, p.clear signum)
  | .consume signum | .consumeOne signum => let r := p.consumeOne signum; (.info r.1, r.2)
  | .dequeue => let r := p.dequeue; (.dequeued r.1, r.2)
  | .removeTimerNotification timerId => let r := p.removeTimerNotification timerId; (.flag r.1, r.2)

/-- One call on the signals of a thread, which has no dispositions. -/
def callThread (timerSignum : UInt32 → Nat) (t : PerThreadSignalState) : Call → Answer × PerThreadSignalState
  | .raise signum => let r := t.raise signum; (.flag r.1, r.2)
  | .raiseWithValue signum value => let r := t.raiseWithValue signum value; (.flag r.1, r.2)
  | .raiseWithMetadata signum value code pid uid =>
    let r := t.raiseWithMetadata signum value code pid uid; (.flag r.1, r.2)
  | .raiseTimer timerId value => let r := t.raiseTimer (timerSignum timerId) value timerId; (.flag r.1, r.2)
  | .setAction _ _ | .setHandler _ _ | .resetDispositionsForExec => (.refused, t)
  | .setBlocked mask => (.done, { t with blocked := mask })
  | .clear signum => (.done, t.clearPending signum)
  | .consume signum => let r := t.consumeOneInfo signum; (.info r.1, r.2)
  | .consumeOne signum => let r := t.consumeOne signum; (.one r.1, r.2)
  | .dequeue => let r := t.dequeue; (.dequeued r.1, r.2)
  | .removeTimerNotification timerId => let r := t.removeTimerNotification timerId; (.flag r.1, r.2)

def call (timerSignum : UInt32 → Nat) : SigState → Call → Answer × SigState
  | .process p, c => let r := callProcess timerSignum p c; (r.1, .process r.2)
  | .thread t, c => let r := callThread timerSignum t c; (r.1, .thread r.2)

/-- The states a signal state starts in: new, and those `fork` and `exec` build. -/
inductive Fresh : SigState → Prop
  | process : Fresh (.process SignalState.new)
  | actions (actions : Vector SignalAction 65) (blocked : BitVec 64) :
      Fresh (.process (SignalState.fromActions actions blocked))
  | exec (handlers : Vector SignalHandler 65) (blocked pending : BitVec 64) :
      Fresh (.process (SignalState.fromPartsWithPending handlers blocked pending))
  | thread : Fresh (.thread PerThreadSignalState.new)

open List

abbrev Reachable (timerSignum : UInt32 → Nat) : SigState → Prop := Machine.Reachable Fresh (call timerSignum)

/-! ## What a call does to the shared fields -/

/-- A raise is queued: the number is a signal, and the disposition of a process
does not ignore it. -/
def accepts : SigState → Nat → Bool
  | .process p, signum => validSignum signum && !shouldDiscardPending signum (p.getHandler signum)
  | .thread _, signum => validSignum signum

/-- The operation of the shared fields a raise comes down to. -/
def raiseOp (st : SigState) (e : RtSigEntry) : Pending.Op := if st.accepts e.signum then .queue e else .idle

/-- The disposition is set, and ignores the signal. -/
def discardOp (signum : Nat) (handler : SignalHandler) : Pending.Op :=
  if validSignum signum && !(signum == sigkill || signum == sigstop) && shouldDiscardPending signum handler then
    .clear signum
  else .idle

/-- The operation of the shared fields a call comes down to. -/
def op (timerSignum : UInt32 → Nat) (st : SigState) : Call → Pending.Op
  | .raise signum => st.raiseOp ⟨signum, 0, 0, 0, 0, none⟩
  | .raiseWithValue signum value => st.raiseOp ⟨signum, value, -1, 0, 0, none⟩
  | .raiseWithMetadata signum value code pid uid => st.raiseOp ⟨signum, value, code, pid, uid, none⟩
  | .raiseTimer timerId value =>
    if validSignum (timerSignum timerId) then .timer (timerSignum timerId) value timerId else .idle
  | .setAction signum action =>
    match st with
    | .process _ => discardOp signum action.handler
    | .thread _ => .idle
  | .setHandler signum handler =>
    match st with
    | .process _ => discardOp signum handler
    | .thread _ => .idle
  | .resetDispositionsForExec | .setBlocked _ => .idle
  | .clear signum => .clear signum
  | .consume signum => .consume signum
  | .consumeOne signum =>
    match st with
    | .process _ => .consume signum
    | .thread t => if validSignum signum && t.signals.bit signum then .consume signum else .idle
  | .dequeue =>
    match st.signals.nextDeliverable st.blocked with
    | none => .idle
    | some signum => .consume signum
  | .removeTimerNotification timerId => .removeTimer timerId

theorem op_ok (timerSignum : UInt32 → Nat) (st : SigState) (c : Call) : (st.op timerSignum c).Ok timerSignum := by
  have hraise : ∀ e : RtSigEntry, e.timerId = none → (st.raiseOp e).Ok timerSignum := by
    intro e he
    simp only [raiseOp]
    split_ifs with h
    · refine ⟨?_, he⟩
      cases st with
      | process p => exact (Bool.and_eq_true_iff.mp h).1
      | thread t => exact h
    · trivial
  cases c with
  | raise | raiseWithValue | raiseWithMetadata => exact hraise _ rfl
  | raiseTimer timerId value =>
    simp only [op]
    split
    · exact ⟨‹_›, rfl⟩
    · trivial
  | setAction | setHandler => cases st <;> simp only [op, discardOp] <;> (try split) <;> trivial
  | consumeOne signum => cases st <;> simp only [op] <;> (try split) <;> trivial
  | dequeue =>
    simp only [op]
    split <;> trivial
  | _ => trivial

variable {s : Nat}

/-- The signal picked for delivery is pending, not blocked, and the lowest such. -/
theorem nextDeliverable_spec {p : Pending} {blocked : BitVec 64} (h : p.nextDeliverable blocked = some s) :
    validSignum s ∧ p.bit s ∧ blocked &&& sigBit s = 0 ∧ ∀ t, validSignum t → t < s → p.bit t → blocked &&& sigBit t ≠ 0 := by
  simp only [nextDeliverable] at h
  split at h
  · simp at h
  rename_i hne
  have hbits : ∀ {t}, validSignum t → ((p.pending &&& ~~~blocked).getLsbD (t - 1) ↔ p.bit t ∧ blocked &&& sigBit t = 0) := by
    intro t ht
    have hmask := and_sigBit (x := blocked) ht
    rw [bit_eq ht, BitVec.getLsbD_and]
    rw [validSignum_iff] at ht
    have hlt : t - 1 < 64 := by omega
    cases hb : blocked.getLsbD (t - 1) <;> rw [hb] at hmask <;> simp_all
  -- some bit is set, so the search finds the lowest
  cases hf : (range 64).find? fun i => (p.pending &&& ~~~blocked).getLsbD i with
  | none =>
    refine absurd (BitVec.eq_of_getLsbD_eq fun i hi => ?_) hne
    have := find?_eq_none.mp hf i (by simpa using hi)
    simpa using this
  | some i =>
    rw [find?_range_eq_some] at hf
    obtain ⟨hi, hmem, hlow⟩ := hf
    have hlt : i < 64 := by simpa using hmem
    simp only [trailingZeros] at h
    rw [find?_range_eq_some.mpr ⟨hi, hmem, hlow⟩, Option.getD_some, Option.some.injEq] at h
    subst h
    have hv : validSignum (i + 1) := validSignum_iff.mpr (by omega)
    obtain ⟨h1, h2⟩ := (hbits hv).mp (by simpa using hi)
    refine ⟨hv, h1, h2, ?_⟩
    intro t ht hlt' hbit hblock
    have hset := (hbits ht).mpr ⟨hbit, hblock⟩
    rw [validSignum_iff] at ht
    have := hlow (t - 1) (by omega)
    simp [hset] at this

variable {signum : Nat}

theorem dispose_signals (p : SignalState) (signum : Nat) (handler : SignalHandler) (action : SignalAction) :
    (p.dispose signum handler action).signals = p.signals.step (discardOp signum handler) := by
  simp only [SignalState.dispose, discardOp]
  cases validSignum signum <;> cases (signum == sigkill || signum == sigstop) <;>
    cases shouldDiscardPending signum handler <;> rfl

theorem process_raise (p : SignalState) (signum : Nat) (value : UInt64) (code : Int32) (pid uid : UInt32) :
    (p.raiseInternal signum value code pid uid).2.signals =
      p.signals.step ((SigState.process p).raiseOp ⟨signum, value, code, pid, uid, none⟩) := by
  simp only [SignalState.raiseInternal, raiseOp, accepts]
  by_cases hv : validSignum signum <;>
    by_cases hd : shouldDiscardPending signum (p.getHandler signum) <;> simp [hv, hd, step]

section

variable (timerSignum : UInt32 → Nat)

theorem callProcess_signals (p : SignalState) (c : Call) :
    (callProcess timerSignum p c).2.signals = p.signals.step ((SigState.process p).op timerSignum c) := by
  cases c with
  | raise signum => exact process_raise p signum 0 0 0 0
  | raiseWithValue signum value => exact process_raise p signum value (-1) 0 0
  | raiseWithMetadata signum value code pid uid => exact process_raise p signum value code pid uid
  | raiseTimer timerId value =>
    simp only [callProcess, SignalState.raiseTimer, op]
    cases validSignum (timerSignum timerId) <;> simp [step]
  | setAction signum action =>
    simp only [callProcess, op, SignalState.setAction_snd, dispose_signals]
  | setHandler signum handler =>
    simp only [callProcess, op, SignalState.setHandler_snd, dispose_signals]
  | dequeue =>
    simp only [callProcess, SignalState.dequeue, op, signals, blocked]
    cases p.signals.nextDeliverable p.blocked <;> rfl
  | _ => rfl

section

variable (t : PerThreadSignalState)

theorem thread_raise (signum : Nat) (value : UInt64) (code : Int32) (pid uid : UInt32) :
    (t.raiseInternal signum value code pid uid).2.signals =
      t.signals.step ((SigState.thread t).raiseOp ⟨signum, value, code, pid, uid, none⟩) := by
  simp only [PerThreadSignalState.raiseInternal, raiseOp, accepts]
  by_cases hv : validSignum signum <;> simp [hv, step]

/-- A signal that is pending passes the gate of the thread's `consume_one`. -/
theorem thread_consumeOne (hv : validSignum signum) (hbit : t.signals.bit signum) :
    t.consumeOne signum = (some ((t.signals.consumePendingInfo signum).1.siValueBits,
      (t.signals.consumePendingInfo signum).1.siCode), (t.consumeOneInfo signum).2) := by
  simp [PerThreadSignalState.consumeOne, hv, hbit, PerThreadSignalState.consumeOneInfo]

theorem thread_dequeue (hnext : t.signals.nextDeliverable t.blocked = some signum) :
    t.dequeue = (some (signum, (t.signals.consumePendingInfo signum).1.siValueBits,
      (t.signals.consumePendingInfo signum).1.siCode), (t.consumeOneInfo signum).2) := by
  obtain ⟨hv, hbit, _⟩ := nextDeliverable_spec hnext
  have hlt : ¬ nsig ≤ signum := by
    rw [validSignum_iff] at hv
    simp only [nsig]
    omega
  simp [PerThreadSignalState.dequeue, hnext, if_neg hlt, thread_consumeOne t hv hbit]

theorem callThread_signals (c : Call) :
    (callThread timerSignum t c).2.signals = t.signals.step ((SigState.thread t).op timerSignum c) := by
  cases c with
  | raise signum => exact thread_raise t signum 0 0 0 0
  | raiseWithValue signum value => exact thread_raise t signum value (-1) 0 0
  | raiseWithMetadata signum value code pid uid => exact thread_raise t signum value code pid uid
  | raiseTimer timerId value =>
    simp only [callThread, PerThreadSignalState.raiseTimer, op]
    cases validSignum (timerSignum timerId) <;> simp [step]
  | consumeOne signum =>
    simp only [callThread, PerThreadSignalState.consumeOne, op]
    cases validSignum signum <;> cases t.signals.bit signum <;> rfl
  | dequeue =>
    simp only [callThread, op, signals, blocked]
    cases hnext : t.signals.nextDeliverable t.blocked with
    | none => simp [PerThreadSignalState.dequeue, hnext, step]
    | some signum =>
      rw [thread_dequeue t hnext]
      rfl
  | _ => rfl

end

/-- A call changes the shared fields by its operation and in no other way. -/
theorem call_signals (st : SigState) (c : Call) : (call timerSignum st c).2.signals = st.signals.step (st.op timerSignum c) := by
  cases st with
  | process p => exact callProcess_signals timerSignum p c
  | thread t => exact callThread_signals timerSignum t c

end

/-! ## Every reachable state -/

variable {timerSignum : UInt32 → Nat} {st : SigState}

theorem Fresh.consistent (h : Fresh st) : st.signals.Consistent timerSignum := by
  cases h with
  | process | actions | thread => exact .empty
  | exec handlers blocked pending =>
    have hmem : ∀ e ∈ (SignalState.fromPartsWithPending handlers blocked pending).signals.rtQueue,
        validSignum e.signum ∧ (pending &&& sigBit e.signum != 0) ∧ e.timerId = none := by
      intro e he
      simp only [SignalState.fromPartsWithPending, mem_map, mem_filter, mem_range'_1] at he
      obtain ⟨s, ⟨hs, hbit⟩, rfl⟩ := he
      exact ⟨validSignum_iff.mpr (show s ≠ 0 ∧ s < 65 by omega), hbit, rfl⟩
    refine ⟨?_, fun e he => (hmem e he).1, ?_, ?_⟩
    · intro s hs
      constructor
      · intro hbit
        refine ⟨⟨s, 0, 0, 0, 0, none⟩, ?_, rfl⟩
        simp only [signals, SignalState.fromPartsWithPending, mem_map, mem_filter, mem_range'_1]
        rw [validSignum_iff] at hs
        exact ⟨s, ⟨by omega, hbit⟩, rfl⟩
      · intro he
        obtain ⟨e, he, rfl⟩ := he
        exact (hmem e he).2.1
    · intro s _
      refine nodup_iff_count_le_one.mp ?_ _
      simp only [signals, SignalState.fromPartsWithPending, map_map]
      refine List.Nodup.map ?_ ((nodup_range' ..).filter _)
      intro a b hab
      simpa [key] using hab
    · intro e he id hid
      simp [(hmem e he).2.2] at hid

theorem Reachable.consistent (h : Reachable timerSignum st) : st.signals.Consistent timerSignum := by
  refine Machine.Reachable.invariant (I := fun st => st.signals.Consistent timerSignum) ?_ ?_ h
  · intro st hst
    exact hst.consistent
  intro st c hst
  rw [call_signals]
  exact hst.step (st.op_ok timerSignum c)

theorem isPending_eq (st : SigState) (hs : validSignum s) : st.isPending s = st.signals.bit s := by
  cases st with
  | process p =>
    rw [validSignum_iff] at hs
    simp [isPending, SignalState.isPending, nsig, hs.2, signals]
  | thread t => simp [isPending, PerThreadSignalState.isPending, hs, signals]

/-- The call consumes an instance of the signal. -/
def Consumes (st : SigState) (s : Nat) : Call → Prop
  | .consume signum | .consumeOne signum => signum = s
  | .dequeue => st.signals.nextDeliverable st.blocked = some s
  | _ => False

/-- The answer hands out this entry of the signal. -/
def Hands (s : Nat) (e : RtSigEntry) : Answer → Prop
  | .info i => i = e.info
  | .one r => r = some (e.siValueBits, e.siCode)
  | .dequeued r => r = some (s, e.siValueBits, e.siCode)
  | _ => False

theorem hands_info {e : RtSigEntry} {i : PendingSignalInfo} (h : i = e.info) :
    Hands s e (.info i) ∧ Hands s e (.one (some (i.siValueBits, i.siCode))) ∧
      Hands s e (.dequeued (some (s, i.siValueBits, i.siCode))) := by
  subst h
  exact ⟨rfl, rfl, rfl⟩

/-- A consuming call on a pending signal makes the shared consume and answers
what it handed out. -/
theorem consumes_op (timerSignum : UInt32 → Nat) {c : Call} (hv : validSignum s)
    (hbit : st.signals.bit s) (hc : st.Consumes s c) : st.op timerSignum c = .consume s ∧
      ∀ e, (st.signals.consumePendingInfo s).1 = e.info → Hands s e (call timerSignum st c).1 := by
  cases c with
  | consume signum =>
    obtain rfl : signum = s := hc
    refine ⟨rfl, fun e he => ?_⟩
    cases st <;> exact (hands_info he).1
  | consumeOne signum =>
    obtain rfl : signum = s := hc
    cases st with
    | process p => exact ⟨rfl, fun e he => (hands_info he).1⟩
    | thread t =>
      have hbit' : t.signals.bit signum := hbit
      refine ⟨by simp [op, hv, hbit'], fun e he => ?_⟩
      simp only [call, callThread, thread_consumeOne t hv hbit']
      exact (hands_info he).2.1
  | dequeue =>
    have hnext : st.signals.nextDeliverable st.blocked = some s := hc
    refine ⟨by simp [op, hnext], fun e he => ?_⟩
    cases st with
    | process p =>
      have hnext' : p.signals.nextDeliverable p.blocked = some s := hnext
      simp only [call, callProcess, SignalState.dequeue, hnext']
      exact (hands_info he).2.2
    | thread t =>
      simp only [call, callThread, thread_dequeue t hnext]
      exact (hands_info he).2.2
  | _ => exact absurd hc (by simp [Consumes])

/-- The moves of one signal's entries along a run. -/
def ledger (timerSignum : UInt32 → Nat) (s : Nat) : SigState → List Call → Fifo.Moves RtSigEntry :=
  Fifo.ledger (call timerSignum) fun st c => st.signals.moves s (st.op timerSignum c)

theorem ledger_balanced (hs : sigrtmin ≤ s) (cs : List Call) (h : st.signals.Consistent timerSignum) :
    Fifo.Balanced (entriesOf s st.signals.rtQueue)
      (entriesOf s (Machine.run (call timerSignum) st cs).signals.rtQueue) (ledger timerSignum s st cs) := by
  refine Fifo.ledger_balanced (I := fun st : SigState => st.signals.Consistent timerSignum)
    (fun st : SigState => entriesOf s st.signals.rtQueue) _ ?_ ?_ cs h
  · intro st c hst
    rw [call_signals]
    exact hst.step (st.op_ok timerSignum c)
  intro st c hst
  rw [call_signals]
  exact hst.step_balanced (st.op_ok timerSignum c) hs

theorem nonTimer_count (q : List RtSigEntry) (s : Nat) :
    (q.map key).count (s, none) = (q.filter fun e => e.signum == s && e.timerId.isNone).length := by
  rw [count_eq_countP, countP_map, countP_eq_length_filter]
  refine congrArg length (filter_congr ?_)
  intro e _
  cases ht : e.timerId <;> simp [key, ht]

/-- In every signal state: a bit is set exactly when an entry is queued; a
standard signal has at most one entry that is not a timer's; consuming a
pending signal takes its oldest entry, answers it and clears the bit only with
the last one, and consuming one that is not pending takes nothing; and along any
run the entries of a real-time signal are handed out in the order they were
accepted, each once, except those a discarding call took away. -/
theorem signal_queue_exact (timerSignum : UInt32 → Nat) {st : SigState} (h : Reachable timerSignum st) :
    (∀ s, validSignum s = true → (st.isPending s = true ↔ ∃ e ∈ st.signals.rtQueue, e.signum = s)) ∧
      (∀ s, s < sigrtmin → (st.signals.rtQueue.filter fun e => e.signum == s && e.timerId.isNone).length ≤ 1) ∧
      (∀ s c, validSignum s = true → st.Consumes s c → st.isPending s = true →
        ∃ e, Pending.Taken st.signals (call timerSignum st c).2.signals s e ∧ Hands s e (call timerSignum st c).1 ∧
          (ledger timerSignum s st [c]).delivered = [e]) ∧ (∀ s c, validSignum s = true → st.Consumes s c → st.isPending s = false →
        (call timerSignum st c).2.signals = st.signals) ∧ ∀ s cs, sigrtmin ≤ s → Fifo.Balanced (Pending.entriesOf s st.signals.rtQueue)
          (Pending.entriesOf s (Machine.run (call timerSignum) st cs).signals.rtQueue) (ledger timerSignum s st cs) ∧
        ((ledger timerSignum s st cs).discarded = [] → (ledger timerSignum s st cs).delivered ++
              Pending.entriesOf s (Machine.run (call timerSignum) st cs).signals.rtQueue =
            Pending.entriesOf s st.signals.rtQueue ++ (ledger timerSignum s st cs).accepted) := by
  have hcon := h.consistent
  refine ⟨?_, ?_, ?_, ?_, ?_⟩
  · intro s hs
    rw [st.isPending_eq hs]
    exact hcon.bits s hs
  · intro s hs
    rw [← nonTimer_count]
    exact hcon.single s hs
  · intro s c hv hc hpending
    rw [st.isPending_eq hv] at hpending
    obtain ⟨hop, hands⟩ := consumes_op timerSignum hv hpending hc
    obtain ⟨e, htaken, hinfo⟩ := hcon.consume_taken hv hpending
    refine ⟨e, ?_, hands e hinfo, ?_⟩
    · rw [call_signals, hop]
      exact htaken
    obtain ⟨before, after, hq, hbefore, _⟩ := htaken.split
    have hnil : entriesOf s before = [] := by
      simp only [entriesOf, filter_eq_nil_iff, beq_iff_eq]
      exact hbefore
    simp only [ledger, Fifo.ledger, hop, moves, hv, hq, entriesOf_append, hnil, Fifo.Moves.append, Fifo.Moves.none, append_nil]
    simp [entriesOf, htaken.signum]
  · intro s c hv hc hpending
    rw [st.isPending_eq hv] at hpending
    rw [call_signals]
    cases c with
    | consume signum =>
      obtain rfl : signum = s := hc
      simp [op, step, hcon.consume_idle hv hpending]
    | consumeOne signum =>
      obtain rfl : signum = s := hc
      cases st with
      | process p => simp [op, step, hcon.consume_idle hv hpending]
      | thread t =>
        have hbit : t.signals.bit signum = false := hpending
        simp [op, hbit, step]
    | dequeue =>
      have := (nextDeliverable_spec hc).2.1
      simp [hpending] at this
    | _ => exact absurd hc (by simp [Consumes])
  · intro s cs hs
    have hbal := ledger_balanced hs cs hcon
    exact ⟨hbal, hbal.fifo⟩

/-- A thread with a signal queued twice with values, once by a timer, and one
of them taken. -/
def queuedTwice : List Call := [.raiseWithValue 40 7, .raise 2, .raiseTimer 3 9, .raiseWithValue 40 8, .consume 40]

theorem signal_queue_exact_queuedTwice : (ledger (fun _ => 40) 40 (.thread PerThreadSignalState.new) queuedTwice).delivered ++
        Pending.entriesOf 40 (Machine.run (call fun _ => 40) (.thread PerThreadSignalState.new) queuedTwice).signals.rtQueue =
      [⟨40, 7, -1, 0, 0, none⟩, ⟨40, 9, -2, 0, 0, some 3⟩, ⟨40, 8, -1, 0, 0, none⟩] :=
  ((signal_queue_exact (fun _ => 40) (.start .thread)).2.2.2.2 40 queuedTwice (by decide)).2
    (by decide +kernel) |>.trans (by decide +kernel)

end SigState

end Kandelo.Signal

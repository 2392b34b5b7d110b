/-
The signals of one process with its threads: masks, generation, consumption and
delivery (`process.rs`, `signal.rs`, `wait_signal.rs`).

The main thread has its mask in `signals` and the signals directed at it in
`mainThreadSignals`; a worker has both in its own record. The wake-ups of parked
threads, wait events for the parent and the alternate stack are left out. A
loop that consumes signals until it has to stop is one turn here: it keeps
nothing from turn to turn but the process.
-/
import Kandelo.Errno
import Kandelo.Process.Table
import Kandelo.Signal.State

namespace Kandelo.Signal

open List

open Kandelo.Process (ProcessState)

/-! ## Threads and mask waits -/

inductive SignalMaskWaitKind
  | ppoll
  | pselect
  | sigsuspend
  | pause
  | epollPwait
  deriving DecidableEq, Repr

inductive SignalMaskWaitState
  | active
  | interrupted (handlerDepth : Nat)
  deriving DecidableEq, Repr

structure SignalMaskWaitContext where
  savedMask : BitVec 64
  replacementMask : BitVec 64
  kind : SignalMaskWaitKind
  state : SignalMaskWaitState
  deriving DecidableEq, Repr

/-- The waits of a thread that swapped its mask and the handlers it is in, the last
one first. -/
structure HandlerFrames where
  maskWaits : List SignalMaskWaitContext
  caughtHandlerDepth : Nat
  returnedHandlerDepths : List Nat
  deriving DecidableEq, Repr

def HandlerFrames.new : HandlerFrames := ⟨[], 0, []⟩

structure ThreadInfo where
  tid : Nat
  signals : PerThreadSignalState
  frames : HandlerFrames
  deriving DecidableEq, Repr

/-- `saturating_add` of a `u32`. -/
def nextDepth (depth : Nat) : Nat := min (depth + 1) (2 ^ 32 - 1)

/-! ## POSIX timers -/

/-- The notification modes that `timer_create` lets through. -/
inductive SigevNotify
  | signal
  | none
  | threadId
  deriving DecidableEq, Repr

structure PosixTimerState where
  sigevSigno : Nat
  sigevValueBits : UInt64
  sigevNotify : SigevNotify
  sigevTid : Nat
  /-- A notification is queued and not yet accepted. -/
  notificationPending : Bool
  overrunCurrent : Int
  overrunLast : Int
  deriving DecidableEq, Repr

/-- `saturating_add` of an `i32`. -/
def nextOverrun (n : Int) : Int := min (n + 1) (2 ^ 31 - 1)

structure SignalProcess where
  pid : Nat
  state : ProcessState
  signals : SignalState
  mainThreadSignals : PerThreadSignalState
  frames : HandlerFrames
  threads : List ThreadInfo
  posixTimers : List (Option PosixTimerState)

namespace SignalProcess

def new (pid : Nat) : SignalProcess := ⟨pid, .running, SignalState.new, PerThreadSignalState.new, HandlerFrames.new, [], []⟩

/-! ## Threads by their id -/

def isMainThread (p : SignalProcess) (tid : Nat) : Bool := tid == 0 || tid == p.pid

def getThread (p : SignalProcess) (tid : Nat) : Option ThreadInfo := p.threads.find? fun t => t.tid == tid

def knows (p : SignalProcess) (tid : Nat) : Bool := p.isMainThread tid || (p.getThread tid).isSome

def isLiveExplicitTid (p : SignalProcess) (tid : Nat) : Bool :=
  p.pid != 1 && (p.state == .running || p.state == .stopped) && tid != 0 && (tid == p.pid || (p.getThread tid).isSome)

/-- The first thread of the list with this id, changed. -/
def updateFirst (tid : Nat) (f : ThreadInfo → ThreadInfo) : List ThreadInfo → List ThreadInfo
  | [] => []
  | t :: ts => if t.tid == tid then f t :: ts else t :: updateFirst tid f ts

/-- `get_thread_mut`. -/
def updateThread (p : SignalProcess) (tid : Nat) (f : ThreadInfo → ThreadInfo) : SignalProcess :=
  { p with threads := updateFirst tid f p.threads }

def updateDirected (p : SignalProcess) (tid : Nat) (f : PerThreadSignalState → PerThreadSignalState) : SignalProcess :=
  if p.isMainThread tid then { p with mainThreadSignals := f p.mainThreadSignals }
  else p.updateThread tid fun t => { t with signals := f t.signals }

/-- The signals directed at one thread. -/
def directedFor (p : SignalProcess) (tid : Nat) : Option PerThreadSignalState :=
  if p.isMainThread tid then some p.mainThreadSignals else (p.getThread tid).map (·.signals)

def framesFor (p : SignalProcess) (tid : Nat) : Option HandlerFrames :=
  if p.isMainThread tid then some p.frames else (p.getThread tid).map (·.frames)

def setFramesFor (p : SignalProcess) (tid : Nat) (frames : HandlerFrames) : SignalProcess :=
  if p.isMainThread tid then { p with frames := frames } else p.updateThread tid fun t => { t with frames := frames }

/-! ## Masks -/

/-- An unknown task blocks every signal. -/
def blockedFor (p : SignalProcess) (tid : Nat) : BitVec 64 :=
  if p.isMainThread tid then p.signals.blocked
  else ((p.getThread tid).map (·.signals.blocked)).getD (BitVec.allOnes 64)

def setBlockedFor (p : SignalProcess) (tid : Nat) (newBlocked : BitVec 64) : Bool × SignalProcess :=
  if p.isMainThread tid then (true, { p with signals := { p.signals with blocked := newBlocked } })
  else ((p.getThread tid).isSome, p.updateThread tid fun t => { t with signals := { t.signals with blocked := newBlocked } })

def pendingFor (p : SignalProcess) (tid : Nat) : BitVec 64 :=
  ((p.directedFor tid).map fun t => p.signals.signals.pending ||| t.signals.pending).getD 0

def deliverableFor (p : SignalProcess) (tid : Nat) : BitVec 64 := p.pendingFor tid &&& ~~~p.blockedFor tid

def signalPendingAnywhere (p : SignalProcess) (sig : Nat) : Bool :=
  validSignum sig &&
    (p.signals.signals.bit sig || p.mainThreadSignals.signals.bit sig || p.threads.any fun t => t.signals.signals.bit sig)

/-- A stopped process keeps every pending signal but SIGKILL. -/
def nextDeliverableSignal (p : SignalProcess) (tid : Nat) : Option Nat :=
  if !p.knows tid then none
  else if p.state = .stopped then (if p.signalPendingAnywhere sigkill then some sigkill else none)
  else if p.deliverableFor tid = 0 then none
  else
    let signum := Pending.trailingZeros (p.deliverableFor tid) + 1
    if signum < nsig then some signum else none

/-! ## Generation -/

def clearDirectedSignal (p : SignalProcess) (signum : Nat) : SignalProcess :=
  { p with
    mainThreadSignals := p.mainThreadSignals.clearPending signum
    threads := p.threads.map fun t => { t with signals := t.signals.clearPending signum } }

def clearSignalEverywhere (p : SignalProcess) (signum : Nat) : SignalProcess :=
  { p with signals := p.signals.clearPending signum }.clearDirectedSignal signum

def recordContinue (p : SignalProcess) : SignalProcess := if p.state ≠ .stopped then p else { p with state := .running }

def recordStop (p : SignalProcess) : Bool × SignalProcess :=
  if p.state ≠ .running then (false, p) else (true, { p with state := .stopped })

/-- The stop signals, which SIGCONT discards and which discard SIGCONT. -/
def stopSignals : List Nat := [sigstop, sigtstp, sigttin, sigttou]

def prepareSignalGeneration (p : SignalProcess) (signum : Nat) : SignalProcess :=
  if !validSignum signum then p
  else if signum = sigcont then (stopSignals.foldl clearSignalEverywhere p).recordContinue
  else if signum ∈ stopSignals then p.clearSignalEverywhere sigcont
  else p

/-- What clearing a signal and continuing keep, preparing a signal keeps. -/
theorem prepare_keeps {P : SignalProcess → Prop} {p : SignalProcess} (hp : P p) (signum : Nat)
    (hclear : ∀ q s, P q → P (q.clearSignalEverywhere s)) (hrun : ∀ q, P q → P { q with state := .running }) :
    P (p.prepareSignalGeneration signum) := by
  rw [prepareSignalGeneration]
  split
  · exact hp
  split
  · have hstops : P (stopSignals.foldl clearSignalEverywhere p) := foldlRecOn stopSignals _ hp fun q hq s _ => hclear q s hq
    rw [recordContinue]
    split
    · exact hstops
    · exact hrun _ hstops
  · split
    · exact hclear p sigcont hp
    · exact hp

/-- The signal is prepared and raised in the shared queue. -/
def raiseShared (p : SignalProcess) (signum : Nat) (raise : SignalState → Bool × SignalState) : Bool × SignalProcess :=
  let p' := p.prepareSignalGeneration signum
  let r := raise p'.signals
  (r.1, { p' with signals := r.2 })

def raiseSignal (p : SignalProcess) (signum : Nat) : Bool × SignalProcess := p.raiseShared signum (·.raise signum)

def raiseSignalWithValue (p : SignalProcess) (signum : Nat) (siValueBits : UInt64) : Bool × SignalProcess :=
  p.raiseShared signum (·.raiseWithValue signum siValueBits)

def raiseSignalWithMetadata (p : SignalProcess) (signum : Nat) (siValueBits : UInt64) (siCode : Int32)
    (senderPid senderUid : UInt32) : Bool × SignalProcess :=
  p.raiseShared signum (·.raiseWithMetadata signum siValueBits siCode senderPid senderUid)

def raiseProcessTimer (p : SignalProcess) (signum : Nat) (siValueBits : UInt64) (timerId : UInt32) : Bool × SignalProcess :=
  if !validSignum signum then (false, p) else p.raiseShared signum (·.raiseTimer signum siValueBits timerId)

/-- The signal is prepared and raised in the queue of one thread. -/
def raiseDirected (p : SignalProcess) (tid signum : Nat) (raise : PerThreadSignalState → Bool × PerThreadSignalState) :
    Bool × SignalProcess :=
  if !validSignum signum then (false, p)
  else if !p.knows tid then (false, p)
  else
    let p' := p.prepareSignalGeneration signum
    if shouldDiscardPending signum (p'.signals.getHandler signum) then (true, p')
    else (((p'.directedFor tid).map fun t => (raise t).1).getD false, p'.updateDirected tid fun t => (raise t).2)

def raiseForThread (p : SignalProcess) (tid signum : Nat) : Bool × SignalProcess := p.raiseDirected tid signum (·.raise signum)

def raiseForThreadWithValue (p : SignalProcess) (tid signum : Nat) (siValueBits : UInt64) : Bool × SignalProcess :=
  p.raiseDirected tid signum (·.raiseWithValue signum siValueBits)

def raiseForThreadWithMetadata (p : SignalProcess) (tid signum : Nat) (siValueBits : UInt64) (siCode : Int32)
    (senderPid senderUid : UInt32) : Bool × SignalProcess :=
  p.raiseDirected tid signum (·.raiseWithMetadata signum siValueBits siCode senderPid senderUid)

def raiseTimerForThread (p : SignalProcess) (tid signum : Nat) (siValueBits : UInt64) (timerId : UInt32) : Bool × SignalProcess :=
  p.raiseDirected tid signum (·.raiseTimer signum siValueBits timerId)

/-! ## Timer notifications -/

def getTimer (p : SignalProcess) (timerId : UInt32) : Option PosixTimerState := (p.posixTimers[timerId.toNat]?).join

def setTimer (p : SignalProcess) (timerId : UInt32) (timer : Option PosixTimerState) : SignalProcess :=
  { p with posixTimers := p.posixTimers.set timerId.toNat timer }

def acceptPosixTimerNotification (p : SignalProcess) (timerId : UInt32) : Option Int × SignalProcess :=
  match p.getTimer timerId with
  | none => (none, p)
  | some timer =>
    if !timer.notificationPending then (none, p)
    else
      (some timer.overrunCurrent, p.setTimer timerId (some { timer with
        notificationPending := false
        overrunLast := timer.overrunCurrent
        overrunCurrent := 0 }))

def removePosixTimerNotification (p : SignalProcess) (timerId : UInt32) : SignalProcess :=
  { p with
    signals := (p.signals.removeTimerNotification timerId).2
    mainThreadSignals := (p.mainThreadSignals.removeTimerNotification timerId).2
    threads := p.threads.map fun t => { t with signals := (t.signals.removeTimerNotification timerId).2 } }

/-! ## Consumption -/

/-- The signals directed at the thread come before those of the process. -/
def consumeSignalFor (p : SignalProcess) (tid signum : Nat) : Option PendingSignalInfo × SignalProcess :=
  match p.directedFor tid with
  | none => (none, p)
  | some directed =>
    if directed.isPending signum then
      (some (directed.consumeOneInfo signum).1, p.updateDirected tid fun t => (t.consumeOneInfo signum).2)
    else if !p.signals.signals.bit signum then (none, p)
    else
      let r := p.signals.consumeOne signum
      (some r.1, { p with signals := r.2 })

/-- A timer whose notification was consumed is told. -/
def acceptConsumed (p : SignalProcess) (info : PendingSignalInfo) : SignalProcess :=
  match info.timerId with
  | none => p
  | some timerId => (p.acceptPosixTimerNotification timerId).2

/-- `take_signal_for`: what `sigtimedwait` takes. -/
def takeSignalFor (p : SignalProcess) (tid : Nat) (mask : BitVec 64) : Option (Nat × PendingSignalInfo) × SignalProcess :=
  if p.pendingFor tid &&& mask = 0 then (none, p)
  else
    let signum := Pending.trailingZeros (p.pendingFor tid &&& mask) + 1
    if nsig ≤ signum then (none, p)
    else
      let r := p.consumeSignalFor tid signum
      match r.1 with
      | none => (none, r.2)
      | some info => (some (signum, info), r.2.acceptConsumed info)

/-- A stopped process is killed by clearing SIGKILL everywhere. -/
def dequeueSignalFor (p : SignalProcess) (tid signum : Nat) : SignalProcess :=
  if p.state = .stopped ∧ signum = sigkill then p.clearSignalEverywhere signum
  else
    let r := p.consumeSignalFor tid signum
    match r.1 with
    | none => r.2
    | some info => r.2.acceptConsumed info

/-! ## Dispositions -/

/-- The timers with a notification of this signal queued, in the order of the queues. -/
def pendingTimerIds (p : SignalProcess) (signum : Nat) : List UInt32 :=
  let ids := fun (q : Pending) => (q.rtQueue.filter fun e => e.signum == signum).filterMap (·.timerId)
  ids p.signals.signals ++ ids p.mainThreadSignals.signals ++ (p.threads.map fun t => ids t.signals.signals).flatten

def discardPendingSignal (p : SignalProcess) (signum : Nat) : SignalProcess :=
  (p.pendingTimerIds signum).foldl (fun p timerId => (p.acceptPosixTimerNotification timerId).2)
    (p.clearSignalEverywhere signum)

/-- The action of a signal is set, and what is pending discarded where the new one
ignores it. `set` is `set_action` or `set_handler`. -/
def setDisposition (p : SignalProcess) (sig : Nat) (handler : SignalHandler) (set : SignalState → Bool × SignalState) :
    Except Errno Unit × SignalProcess :=
  if !validSignum sig then (.error .EINVAL, p)
  else if sig = sigkill ∨ sig = sigstop then (.error .EINVAL, p)
  else
    let p' := if shouldDiscardPending sig handler then p.discardPendingSignal sig else p
    let r := set p'.signals
    let p'' := { p' with signals := r.2 }
    if !r.1 then (.error .EINVAL, p'')
    else (.ok (), if shouldDiscardPending sig handler then p''.clearDirectedSignal sig else p'')

def sysSigaction (p : SignalProcess) (sig : Nat) (action : SignalAction) : Except Errno Unit × SignalProcess :=
  p.setDisposition sig action.handler fun s => let r := s.setAction sig action; (r.1.isOk, r.2)

def sysSignal (p : SignalProcess) (sig : Nat) (handler : SignalHandler) : Except Errno Unit × SignalProcess :=
  p.setDisposition sig handler fun s => let r := s.setHandler sig handler; (r.1.isOk, r.2)

/-! ## Threads -/

/-- `create_thread`: a new thread has the mask of its creator. What its record and its
id cost is asked of the rest of the kernel. -/
def createThread (p : SignalProcess) (callerTid : Nat) (prepared : Except Errno Unit) (taskId : Except Errno Nat) :
    Except Errno Nat × SignalProcess :=
  if !p.isLiveExplicitTid callerTid then (.error .ESRCH, p)
  else
    match prepared with
    | .error e => (.error e, p)
    | .ok () =>
      match taskId with
      | .error e => (.error e, p)
      | .ok tid =>
        (.ok tid, { p with threads :=
          p.threads ++ [⟨tid, { PerThreadSignalState.new with blocked := p.blockedFor callerTid }, HandlerFrames.new⟩] })

/-! ## Mask waits -/

/-- The wait on top is the same invocation, tried again or restarted after the handler
that interrupted it. -/
def reusesWait (kind : SignalMaskWaitKind) (newMask currentMask : BitVec 64) (depth : Nat) : List SignalMaskWaitContext → Bool
  | [] => false
  | wait :: _ =>
    wait.kind == kind && wait.replacementMask == newMask && currentMask == wait.replacementMask &&
      match wait.state with
      | .active => true
      | .interrupted handlerDepth => depth < handlerDepth

def enterSignalMaskWaitFor (p : SignalProcess) (tid : Nat) (kind : SignalMaskWaitKind) (newMask : BitVec 64) : SignalProcess :=
  match p.framesFor tid with
  | none => p
  | some frames =>
    if reusesWait kind newMask (p.blockedFor tid) frames.caughtHandlerDepth frames.maskWaits then
      match frames.maskWaits with
      | [] => p
      | wait :: waits => p.setFramesFor tid { frames with maskWaits := { wait with state := .active } :: waits }
    else
      let context : SignalMaskWaitContext := ⟨p.blockedFor tid, newMask, kind, .active⟩
      ((p.setFramesFor tid { frames with maskWaits := context :: frames.maskWaits }).setBlockedFor tid newMask).2

def finishSignalMaskWaitFor (p : SignalProcess) (tid : Nat) (kind : SignalMaskWaitKind) : Bool × SignalProcess :=
  match p.framesFor tid with
  | none => (false, p)
  | some frames =>
    match frames.maskWaits with
    | [] => (false, p)
    | wait :: waits =>
      if wait.kind = kind ∧ wait.state = .active then
        (true, ((p.setFramesFor tid { frames with maskWaits := waits }).setBlockedFor tid wait.savedMask).2)
      else (false, p)

def returnFromCaughtHandlerFor (p : SignalProcess) (tid : Nat) : Bool × SignalProcess :=
  match p.framesFor tid with
  | none => (false, p)
  | some frames =>
    if frames.caughtHandlerDepth = 0 then (false, p)
    else
      (true, p.setFramesFor tid { frames with
        caughtHandlerDepth := frames.caughtHandlerDepth - 1
        returnedHandlerDepths := frames.caughtHandlerDepth :: frames.returnedHandlerDepths })

def acknowledgeCaughtHandlerMaskRestoreFor (p : SignalProcess) (tid : Nat) : SignalProcess :=
  match p.framesFor tid with
  | none => p
  | some frames => p.setFramesFor tid { frames with returnedHandlerDepths := frames.returnedHandlerDepths.tail }

/-- A wait that a `siglongjmp` left is dropped without its mask; any other is
restored. -/
def cancelSignalMaskWaitFor (p : SignalProcess) (tid : Nat) : Bool × SignalProcess :=
  match p.framesFor tid with
  | none => (false, p)
  | some frames =>
    match frames.returnedHandlerDepths with
    | depth :: returned =>
      match frames.maskWaits with
      | wait :: waits =>
        if wait.state = .interrupted depth then
          (true, p.setFramesFor tid { frames with maskWaits := waits, returnedHandlerDepths := returned })
        else (false, p.setFramesFor tid { frames with returnedHandlerDepths := returned })
      | [] => (false, p.setFramesFor tid { frames with returnedHandlerDepths := returned })
    | [] =>
      match frames.maskWaits with
      | wait :: waits =>
        let eligible := match wait.state with
          | .active => true
          | .interrupted handlerDepth => handlerDepth == nextDepth frames.caughtHandlerDepth
        if eligible then
          (true, ((p.setFramesFor tid { frames with maskWaits := waits }).setBlockedFor tid wait.savedMask).2)
        else (false, p)
      | [] => (false, p)

/-- The waits as the handler of depth `handlerDepth` leaves them, and the mask its
return restores: `epoll_pwait` is over, any other active wait is interrupted. -/
def interruptWaits (base : BitVec 64) (handlerDepth : Nat) : List SignalMaskWaitContext → BitVec 64 × List SignalMaskWaitContext
  | [] => (base, [])
  | wait :: waits =>
    if wait.state = .active then
      if wait.kind = .epollPwait then (wait.savedMask, waits)
      else (base, { wait with state := .interrupted handlerDepth } :: waits)
    else (base, wait :: waits)

def installCaughtHandlerMaskFor (p : SignalProcess) (tid : Nat) (actionMask : BitVec 64) (signum : Nat) : BitVec 64 × SignalProcess :=
  let base := p.blockedFor tid
  match p.framesFor tid with
  | none => (base, (p.setBlockedFor tid (base ||| actionMask ||| sigBit signum)).2)
  | some frames =>
    let handlerDepth := nextDepth frames.caughtHandlerDepth
    let r := interruptWaits base handlerDepth frames.maskWaits
    let p' := p.setFramesFor tid { frames with caughtHandlerDepth := handlerDepth, maskWaits := r.2 }
    (r.1, (p'.setBlockedFor tid (base ||| actionMask ||| sigBit signum)).2)

/-! ## Delivery -/

inductive DefaultSignalOutcome
  | continue
  | stopped
  | exited
  deriving DecidableEq, Repr

/-- `terminate_process_by_signal`, as far as signals go. -/
def terminateProcessBySignal (p : SignalProcess) : SignalProcess :=
  { p with
    frames := HandlerFrames.new
    threads := p.threads.map fun t => { t with frames := HandlerFrames.new }
    state := if p.state = .exited ∨ p.state = .limbo then p.state else .exited }

def applyDefaultSignalAction (p : SignalProcess) (signum : Nat) : DefaultSignalOutcome × SignalProcess :=
  match defaultAction signum with
  | .terminate | .coreDump => (.exited, p.terminateProcessBySignal)
  | .stop => let r := p.recordStop; (if r.1 then .stopped else .continue, r.2)
  | .continue | .ignore => (.continue, p)

/-- One turn of the delivery loops: nothing to do, a handler to run with the mask its
return restores, or a signal consumed here. -/
inductive Turn
  | idle
  | caught (signum : Nat) (restoreMask : BitVec 64)
  | consumed (outcome : DefaultSignalOutcome)

/-- A turn of `deliver_pending_signals_impl`, which leaves caught signals queued. -/
def deliverTurn (p : SignalProcess) (tid : Nat) : Turn × SignalProcess :=
  match p.nextDeliverableSignal tid with
  | none => (.idle, p)
  | some signum =>
    match (p.signals.getAction signum).handler with
    | .handler _ => (.idle, p)
    | .default =>
      let r := (p.dequeueSignalFor tid signum).applyDefaultSignalAction signum
      (.consumed r.1, r.2)
    | .ignore => (.consumed .continue, p.dequeueSignalFor tid signum)

/-- A turn of `kernel_dequeue_signal`, which hands caught signals out. -/
def dequeueTurn (p : SignalProcess) (tid : Nat) : Turn × SignalProcess :=
  match p.nextDeliverableSignal tid with
  | none => (.idle, p)
  | some signum =>
    let action := p.signals.getAction signum
    match action.handler with
    | .handler _ =>
      let r := (p.dequeueSignalFor tid signum).installCaughtHandlerMaskFor tid action.mask signum
      (.caught signum r.1, r.2)
    | _ => p.deliverTurn tid

/-! ## What the queues hold -/

def tids (p : SignalProcess) : List Nat := p.threads.map (·.tid)

/-- The process, its threads in their order. -/
def ids (p : SignalProcess) : Nat × List Nat := (p.pid, p.tids)

/-- A measure of a queue, summed over the shared one, the main thread's and the workers'. -/
def total (p : SignalProcess) (measure : Pending → Nat) : Nat :=
  measure p.signals.signals + measure p.mainThreadSignals.signals + (p.threads.map fun t => measure t.signals.signals).sum

variable {p p' : SignalProcess} {tid : Nat}

/-- What the change of a thread does not touch stays. -/
theorem updateFirst_map {α : Type} (tid : Nat) {f : ThreadInfo → ThreadInfo} {g : ThreadInfo → α} (hf : ∀ t, g (f t) = g t)
    (ts : List ThreadInfo) : (updateFirst tid f ts).map g = ts.map g := by
  induction ts with
  | nil => rfl
  | cons t ts ih =>
    simp only [updateFirst]
    split
    · rw [map_cons, map_cons, hf]
    · rw [map_cons, map_cons, ih]

/-- The queue of one thread changes. -/
theorem sum_updateFirst {ts : List ThreadInfo} {t : ThreadInfo} (ht : ts.find? (fun t => t.tid == tid) = some t)
    (f : ThreadInfo → ThreadInfo) (g : ThreadInfo → Nat) : ((updateFirst tid f ts).map g).sum + g t = (ts.map g).sum + g (f t) := by
  induction ts with
  | nil => cases ht
  | cons u ts ih =>
    rw [find?_cons] at ht
    simp only [updateFirst]
    split at ht
    · rename_i hu
      cases ht
      rw [if_pos hu]
      simp only [map_cons, sum_cons]
      omega
    rename_i hu
    have := ih ht
    rw [if_neg (by simpa using hu)]
    simp only [map_cons, sum_cons]
    omega

theorem total_updateDirected {d : PerThreadSignalState} (hd : p.directedFor tid = some d)
    (f : PerThreadSignalState → PerThreadSignalState) (measure : Pending → Nat) :
    (p.updateDirected tid f).total measure + measure d.signals = p.total measure + measure (f d).signals := by
  simp only [directedFor, updateDirected] at hd ⊢
  split_ifs at hd with hmain
  · cases hd
    rw [if_pos hmain]
    simp only [total]
    omega
  rw [if_neg hmain]
  obtain ⟨t, ht, rfl⟩ := Option.map_eq_some_iff.mp hd
  have := sum_updateFirst ht (fun t => { t with signals := f t.signals }) fun t => measure t.signals.signals
  simp only [total, updateThread] at this ⊢
  omega

section

variable (p : SignalProcess)

theorem total_clearSignal (signum : Nat) (measure : Pending → Nat) :
    (p.clearSignalEverywhere signum).total measure = p.total fun q => measure (q.clearPending signum) := by
  simp only [total, clearSignalEverywhere, clearDirectedSignal, SignalState.clearPending, PerThreadSignalState.clearPending,
    map_map, Function.comp_def]

/-- Telling a timer changes nothing but the timers. -/
theorem accept_eq (timerId : UInt32) : ∃ ts, (p.acceptPosixTimerNotification timerId).2 = { p with posixTimers := ts } := by
  simp only [acceptPosixTimerNotification]
  split
  · exact ⟨_, rfl⟩
  split
  · exact ⟨_, rfl⟩
  · exact ⟨_, rfl⟩

theorem acceptConsumed_eq (info : PendingSignalInfo) : ∃ ts, p.acceptConsumed info = { p with posixTimers := ts } := by
  simp only [acceptConsumed]
  split
  · exact ⟨_, rfl⟩
  · exact p.accept_eq _

theorem applyDefault_cases (signum : Nat) :
    (p.applyDefaultSignalAction signum).2 = p ∨ (p.applyDefaultSignalAction signum).2 = p.terminateProcessBySignal ∨
      (p.applyDefaultSignalAction signum).2 = { p with state := .stopped } := by
  simp only [applyDefaultSignalAction, recordStop]
  split
  · exact .inr (.inl rfl)
  · exact .inr (.inl rfl)
  · split
    · exact .inl rfl
    · exact .inr (.inr rfl)
  · exact .inl rfl
  · exact .inl rfl

end

/-- Masks, frames and the state of the process may change. -/
structure SameQueues (p p' : SignalProcess) : Prop where
  ids : p'.ids = p.ids
  timers : p'.posixTimers = p.posixTimers
  actions : p'.signals.actions = p.signals.actions
  total : p'.total = p.total

theorem SameQueues.trans {p'' : SignalProcess} (h : SameQueues p p') (h' : SameQueues p' p'') : SameQueues p p'' :=
  ⟨h'.ids.trans h.ids, h'.timers.trans h.timers, h'.actions.trans h.actions, h'.total.trans h.total⟩

section

variable (p : SignalProcess)

theorem sameQueues_updateThread (tid : Nat) {f : ThreadInfo → ThreadInfo}
    (hf : ∀ t, (f t).tid = t.tid ∧ (f t).signals.signals = t.signals.signals) : SameQueues p (p.updateThread tid f) := by
  refine ⟨congrArg (Prod.mk p.pid) (updateFirst_map tid (fun t => (hf t).1) p.threads), rfl, rfl, funext fun measure => ?_⟩
  have hsame := updateFirst_map tid (g := fun t : ThreadInfo => measure t.signals.signals)
    (fun t => congrArg measure (hf t).2) p.threads
  simp only [total, updateThread, hsame]

theorem sameQueues_setFrames (tid : Nat) (frames : HandlerFrames) : SameQueues p (p.setFramesFor tid frames) := by
  simp only [setFramesFor]
  split
  · exact ⟨rfl, rfl, rfl, rfl⟩
  · exact p.sameQueues_updateThread tid fun _ => ⟨rfl, rfl⟩

theorem sameQueues_setBlocked (tid : Nat) (mask : BitVec 64) : SameQueues p (p.setBlockedFor tid mask).2 := by
  simp only [setBlockedFor]
  split
  · exact ⟨rfl, rfl, rfl, rfl⟩
  · exact p.sameQueues_updateThread tid fun _ => ⟨rfl, rfl⟩

theorem sameQueues_installMask (tid : Nat) (mask : BitVec 64) (signum : Nat) :
    SameQueues p (p.installCaughtHandlerMaskFor tid mask signum).2 := by
  simp only [installCaughtHandlerMaskFor]
  split
  · exact p.sameQueues_setBlocked tid _
  · exact (p.sameQueues_setFrames tid _).trans (sameQueues_setBlocked _ tid _)

theorem sameQueues_terminate : SameQueues p p.terminateProcessBySignal := by
  refine ⟨?_, rfl, rfl, funext fun measure => ?_⟩
  · simp [ids, tids, terminateProcessBySignal]
  · simp [total, terminateProcessBySignal, Function.comp_def]

theorem sameQueues_applyDefault (signum : Nat) : SameQueues p (p.applyDefaultSignalAction signum).2 := by
  rcases p.applyDefault_cases signum with h | h | h <;> rw [h]
  · exact ⟨rfl, rfl, rfl, rfl⟩
  · exact p.sameQueues_terminate
  · exact ⟨rfl, rfl, rfl, rfl⟩

end

end SignalProcess

end Kandelo.Signal

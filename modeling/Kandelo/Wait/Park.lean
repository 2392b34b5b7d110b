/-
`Parks`: the waits whose result the kernel decides. A park is a sleeper of the
wait queue with its own channel generation and a `Resume`, which says how each
way of ending it is answered. Ending it queues a completion, and a drain hands
the completions to the host in the order they were decided.

What the signal sweep asks the process table (is the task alive, does a pending
signal target it) is an argument, and so are the clock and the guest writes of a
drain. Opening a channel may panic, and then so does parking.
-/
import Kandelo.Wait.Account

namespace Kandelo.Wait

/-! ## What a park is answered with -/

structure WasmFlock where
  lType : Int16
  lWhence : Int16
  lStart : Int64
  lLen : Int64
  lPid : UInt32
  deriving DecidableEq, Repr

/-- One parked blocking call, with the arguments it was issued with. -/
inductive RetryOp
  | fcntlLock (fd : Int32) (cmd : UInt32) (flock : WasmFlock) (token : Int64)
  | flock (fd : Int32) (operation : UInt32) (token : Int64)
  | transfer (syscall : UInt32) (fd : Int32) (buf count : UInt64) (flags pipe : UInt32) (token : Int64)
      (restartable : Bool)
  deriving DecidableEq, Repr

namespace RetryOp

def source : RetryOp → WakeSource
  | .fcntlLock .. | .flock .. => .advisoryLock
  | .transfer _ _ _ _ _ pipe _ _ => .pipe pipe

/-- `RetryOp::restartable`. -/
def mayRestart : RetryOp → Bool
  | .transfer _ _ _ _ _ _ _ restartable => restartable
  | .fcntlLock .. | .flock .. => true

def token : RetryOp → Int64
  | .fcntlLock _ _ _ token | .flock _ _ token | .transfer _ _ _ _ _ _ token _ => token

end RetryOp

inductive ChildWaitOutput
  | wait4 (status rusage : UInt64)
  | waitid (siginfo rusage : UInt64)
  deriving DecidableEq, Repr

structure ChildWait where
  target : Int32
  eventMask : UInt32
  peek : Bool
  nohang : Bool
  output : ChildWaitOutput
  deriving DecidableEq, Repr

structure SigWait where
  mask : UInt64
  info : UInt64
  timeoutNs : Option UInt64
  deriving DecidableEq, Repr

inductive Resume
  | futex (bitset : UInt32) (timeoutNs : Option UInt64)
  | sleep (remainder : Option UInt64) (deadline : MonotonicNs)
  | child (wait : ChildWait)
  | suspend
  | sigTimed (wait : SigWait)
  | retry (op : RetryOp)
  deriving DecidableEq, Repr

def flagSuppressRestart : UInt32 := 1
def flagCancelled : UInt32 := 2

/-- A `rem` write owed to an interrupted sleep. -/
structure Remainder where
  addr : UInt64
  deadline : MonotonicNs
  deriving DecidableEq, Repr

/-- `n.to_le_bytes()` for an unsigned integer of that many bytes. -/
def leBytes : Nat → Nat → List UInt8
  | 0, _ => []
  | width + 1, n => UInt8.ofNat (n % 256) :: leBytes width (n / 256)

/-- `deadline.saturating_sub(now_ns).max(0)`. -/
def timeLeft (deadline nowNs : MonotonicNs) : Nat := min (deadline - nowNs).toNat i64Max

/-- The time left as the sixteen bytes of a `struct timespec`. -/
def Remainder.timespecAt (r : Remainder) (nowNs : MonotonicNs) : List UInt8 :=
  leBytes 8 (timeLeft r.deadline nowNs / 1000000000) ++ leBytes 8 (timeLeft r.deadline nowNs % 1000000000)

namespace Resume

def wokenValue (_ : Resume) : Int := 0

def deadlineValue : Resume → Int
  | .futex .. => -Errno.ETIMEDOUT.code
  | .sleep .. => 0
  | .retry (.transfer ..) => -Errno.EAGAIN.code
  | .child _ | .suspend | .retry _ => -Errno.ETIMEDOUT.code
  | .sigTimed _ => -Errno.EAGAIN.code

def interruptedFlags : Resume → UInt32
  | .futex _ (some _) => flagSuppressRestart
  | .futex _ none => 0
  | .sleep .. => flagSuppressRestart
  | .child _ => 0
  | .retry op => if op.mayRestart then 0 else flagSuppressRestart
  | .suspend | .sigTimed _ => flagSuppressRestart

def interruptedRemainder : Resume → Option Remainder
  | .sleep (some addr) deadline => some ⟨addr, deadline⟩
  | _ => none

end Resume

/-- One decided result, waiting for a host to publish it. -/
structure Completion where
  generation : ChannelGeneration
  pid : UInt32
  tid : UInt32
  value : Int
  flags : UInt32
  remainder : Option Remainder
  deriving DecidableEq, Repr

def recordBytes : Nat := 24

/-- The guest write a record owes: process, address and bytes. -/
def Completion.owed (c : Completion) (nowNs : MonotonicNs) : Option (UInt32 × UInt64 × List UInt8) :=
  c.remainder.map fun r => (c.pid, r.addr, r.timespecAt nowNs)

/-- The record as it is handed over: if its guest write failed, the result is
`EFAULT`. -/
def Completion.settle (c : Completion) (wrote : Bool) : Completion :=
  match c.remainder with
  | none => c
  | some _ => { c with remainder := none, value := if wrote then c.value else -Errno.EFAULT.code }

/-! ## The parks -/

structure Parks (T : Type*) where
  queue : WaitQueue T
  resume : OrdMap WaiterId Resume
  completions : List Completion
  signalsDirty : Bool
  sweepPids : List UInt32
  lastPark : Option ChannelGeneration
  childrenDirty : Bool
  exitNotices : List UInt32
  dirtySources : List WakeSource
  releasedRetryBindings : List (UInt32 × UInt32 × Int64)

namespace Parks

variable {T : Type*}

def new : Parks T := ⟨WaitQueue.new, OrdMap.empty, [], false, [], none, false, [], [], []⟩

/-- `none` is the panic of `open_channel`. -/
def park (p : Parks T) (pid tid : UInt32) (kind : WaitKind) (sources : List WakeSource) (deadline : Option MonotonicNs)
    (resume : Resume) : Option (Except Errno ChannelGeneration × Parks T) :=
  match p.queue.openChannel with
  | none => none
  | some (channel, queue) =>
    let r := queue.park ⟨pid, tid, channel, kind, sources, deadline, none, false⟩
    match r.1 with
    | .error e => some (.error e, { p with queue := r.2.releaseChannel channel })
    | .ok id =>
      some (.ok channel, { p with
        queue := r.2
        resume := p.resume.insert id resume
        sweepPids := if pid ∈ p.sweepPids then p.sweepPids else p.sweepPids ++ [pid] })

def finishWith (p : Parks T) (wakeup : Wakeup T) (value : Int) (flags : UInt32) (remainder : Option Remainder) : Parks T :=
  { p with
    releasedRetryBindings :=
      match p.resume.get? wakeup.id with
      | some (.retry op) => p.releasedRetryBindings ++ [(wakeup.pid, wakeup.tid, op.token)]
      | _ => p.releasedRetryBindings
    resume := p.resume.erase wakeup.id
    queue := p.queue.releaseChannel wakeup.channel
    completions := p.completions ++ [⟨wakeup.channel, wakeup.pid, wakeup.tid, value, flags, remainder⟩] }

def finish (p : Parks T) (wakeup : Wakeup T) (value : Int) (flags : UInt32) : Parks T := p.finishWith wakeup value flags none

def forget (p : Parks T) (wakeup : Wakeup T) : Parks T :=
  { p with resume := p.resume.erase wakeup.id, queue := p.queue.releaseChannel wakeup.channel }

def futexWake (p : Parks T) (pid : UInt32) (addr : UInt64) (max : Nat) (bitset : UInt32) : Nat × Parks T :=
  let accept := fun s : Sleeper T =>
    match p.resume.get? s.id with
    | some (.futex mine _) => mine &&& bitset != 0
    | _ => false
  let r := p.queue.wakeLimited (.futex pid addr) max accept
  (r.1.length, r.1.foldl (fun p w => p.finish w ((p.resume.get? w.id).elim 0 Resume.wokenValue) 0) { p with queue := r.2 })

def futexRequeue (p : Parks T) (pid : UInt32) (source target : UInt64) (max : Nat) : Nat × Parks T :=
  if source = target then (0, p)
  else
    let r := p.queue.retarget (.futex pid source) (.futex pid target) max
    (r.1, { p with queue := r.2 })

/-- What a wait that ran out credits its task's logical clock with. -/
def credit (wakeup : Wakeup T) : Option Resume → List (UInt32 × UInt32 × UInt64)
  | some (.futex _ (some ns)) => [(wakeup.pid, wakeup.tid, ns)]
  | some (.sigTimed ⟨_, _, some ns⟩) => [(wakeup.pid, wakeup.tid, ns)]
  | _ => []

def expireOne (acc : List (UInt32 × UInt32 × UInt64) × Parks T) (wakeup : Wakeup T) : List (UInt32 × UInt32 × UInt64) × Parks T :=
  let resume := acc.2.resume.get? wakeup.id
  (acc.1 ++ credit wakeup resume, acc.2.finish wakeup (resume.elim (-Errno.ETIMEDOUT.code) Resume.deadlineValue) 0)

def expire (p : Parks T) (nowNs : MonotonicNs) : List (UInt32 × UInt32 × UInt64) × Parks T :=
  let r := p.queue.expire nowNs
  r.1.foldl expireOne ([], { p with queue := r.2 })

/-- Asking for the next deadline drops stale heap entries on the way. -/
def hasDeadline (p : Parks T) : Bool × Parks T :=
  let r := p.queue.nextDeadlineNs
  (r.1.isSome, { p with queue := r.2 })

def needsClock (p : Parks T) : Bool × Parks T :=
  let r := p.hasDeadline
  (r.1 || p.completions.any (·.remainder.isSome), r.2)

def nextTimeoutNs (p : Parks T) (nowNs : MonotonicNs) : Option Nat × Parks T :=
  let r := p.queue.nextDeadlineNs
  (r.1.map (timeLeft · nowNs), { p with queue := r.2 })

def noteChildrenChanged (p : Parks T) : Parks T := { p with childrenDirty := true }

/-- The sleepers whose resume `f` selects, oldest first. -/
def waitersOf {β : Type*} (p : Parks T) (f : Resume → Option β) : List (WaiterId × UInt32 × UInt32 × β) :=
  p.queue.sleepers.values.filterMap fun s => ((p.resume.get? s.id).bind f).map fun b => (s.id, s.pid, s.tid, b)

def takeDirtyChildWaiters (p : Parks T) : Option (List (WaiterId × UInt32 × UInt32 × ChildWait)) × Parks T :=
  if !p.childrenDirty then (none, p)
  else
    (some (p.waitersOf fun | .child wait => some wait | _ => none), { p with childrenDirty := false })

/-- The kernel decided this wait: it ends for `source` with `value`, if it is
still parked. -/
def finishWaiter (p : Parks T) (id : WaiterId) (source : WakeSource) (value : Int) (flags : UInt32) : Bool × Parks T :=
  let r := p.queue.removeWithReason id (.source source)
  match r.1 with
  | some wakeup => (true, { p with queue := r.2 }.finish wakeup value flags)
  | none => (false, { p with queue := r.2 })

def finishChildWaiter (p : Parks T) (id : WaiterId) (parent : UInt32) (value : Int) : Bool × Parks T :=
  p.finishWaiter id (.childEvent parent) value 0

def dirtySignalWaiters (p : Parks T) : List (WaiterId × UInt32 × UInt32 × SigWait) :=
  if !p.signalsDirty then [] else p.waitersOf fun | .sigTimed wait => some wait | _ => none

def finishSignalWaiter (p : Parks T) (id : WaiterId) (pid tid : UInt32) (value : Int) : Bool × Parks T :=
  p.finishWaiter id (.signal pid tid) value 0

def takeDirtyRetryWaiters (p : Parks T) : List (WaiterId × UInt32 × UInt32 × RetryOp) × Parks T :=
  if p.dirtySources.isEmpty then ([], p)
  else
    (p.waitersOf fun | .retry op => if op.source ∈ p.dirtySources then some op else none | _ => none, { p with dirtySources := [] })

def noteSourceReady (p : Parks T) (source : WakeSource) : Parks T :=
  if !p.queue.isEmpty && !p.dirtySources.contains source then { p with dirtySources := p.dirtySources ++ [source] }
  else p

def finishRetryWaiterWithFlags (p : Parks T) (id : WaiterId) (op : RetryOp) (value : Int) (flags : UInt32) : Bool × Parks T :=
  p.finishWaiter id op.source value flags

def finishRetryWaiter (p : Parks T) (id : WaiterId) (op : RetryOp) (value : Int) : Bool × Parks T :=
  p.finishRetryWaiterWithFlags id op value 0

def takeReleasedRetryBindings (p : Parks T) : List (UInt32 × UInt32 × Int64) × Parks T :=
  (p.releasedRetryBindings, { p with releasedRetryBindings := [] })

def noteSignalGenerated (p : Parks T) : Parks T :=
  if !p.queue.isEmpty then { p with signalsDirty := true } else p

/-- What the process table says of a task: it is gone, or it is live and a
pending signal does or does not target it. -/
inductive TaskState
  | gone
  | live (targeted : Bool)
  deriving DecidableEq, Repr

/-- The loop bodies of the sweep: a retired park is dropped, an interrupted one
answered with `EINTR`. -/
def sweepRetire (p : Parks T) (id : WaiterId) : Parks T :=
  let r := p.queue.removeWithReason id .retired
  match r.1 with
  | some wakeup => { p with queue := r.2 }.forget wakeup
  | none => { p with queue := r.2 }

def sweepInterrupt (p : Parks T) (id : WaiterId) : Parks T :=
  let r := p.queue.removeWithReason id .interrupted
  match r.1 with
  | some wakeup =>
    let resume := p.resume.get? wakeup.id
    { p with queue := r.2 }.finishWith wakeup (-Errno.EINTR.code) (resume.elim 0 Resume.interruptedFlags)
      (resume.bind Resume.interruptedRemainder)
  | none => { p with queue := r.2 }

def sweepSignals (p : Parks T) (table : UInt32 → UInt32 → TaskState) : Parks T :=
  let all := p.signalsDirty
  let pids := p.sweepPids
  let p := { p with signalsDirty := false, sweepPids := [] }
  if !all && pids.isEmpty then p
  else
    let swept := p.queue.sleepers.values.filter fun s => all || pids.contains s.pid
    let interrupt := swept.filter fun s => table s.pid s.tid == .live true
    let retire := swept.filter fun s => table s.pid s.tid == .gone
    (interrupt.map (·.id)).foldl sweepInterrupt ((retire.map (·.id)).foldl sweepRetire p)

def cancelTask (p : Parks T) (pid tid : UInt32) : Bool × Parks T :=
  let r := p.queue.cancelTask pid tid
  (!r.1.isEmpty, r.1.foldl (fun p w => p.finish w (-Errno.EINTR.code) flagCancelled) { p with queue := r.2 })

def retireTask (p : Parks T) (pid tid : UInt32) : Parks T :=
  let r := p.queue.cancelTask pid tid
  r.1.foldl forget { p with queue := r.2 }

def retireProcess (p : Parks T) (pid : UInt32) : Parks T :=
  let r := p.queue.retireProcess pid
  let p := r.1.foldl forget { p with queue := r.2 }
  { p with
    completions := p.completions.filter fun c => c.pid != pid
    releasedRetryBindings := p.releasedRetryBindings.filter fun b => b.1 != pid }

/-- Hand the oldest records over, as many as fit; `wrote` answers the guest
write the record at that place owes. -/
def drain (p : Parks T) (outLen max : Nat) (nowNs : MonotonicNs) (wrote : Nat → Bool) :
    (List Completion × List (UInt32 × UInt64 × List UInt8)) × Parks T :=
  let count := min (min (outLen / recordBytes) max) p.completions.length
  let taken := p.completions.take count
  ((taken.mapIdx fun i c => c.settle (wrote i), taken.filterMap (·.owed nowNs)), { p with completions := p.completions.drop count })

def takeCompletions (p : Parks T) : List Completion × Parks T := (p.completions, { p with completions := [] })

/-! The module's notes on the one `Parks` of the kernel. -/

def noteParkedResult (p : Parks T) (generation : ChannelGeneration) : Parks T :=
  { p with lastPark := some generation }

def takeParkedResult (p : Parks T) : Option ChannelGeneration × Parks T := (p.lastPark, { p with lastPark := none })

def noteChildExited (p : Parks T) (pid : UInt32) : Parks T :=
  { p with exitNotices := p.exitNotices ++ [pid], childrenDirty := true }

def takeExitNotices (p : Parks T) : List UInt32 × Parks T := (p.exitNotices, { p with exitNotices := [] })

def requeueExitNotices (p : Parks T) (pids : List UInt32) : Parks T :=
  { p with exitNotices := pids ++ p.exitNotices }

end Parks

end Kandelo.Wait

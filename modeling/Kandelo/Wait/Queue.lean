/-
`WaitQueue`: the tasks that sleep in the kernel, what ends each sleep, and the
deadline heap. A heap entry whose sleeper has left stays until it is popped and
is then discarded.

Counters and identities are natural numbers: `park` refuses once the next
identity passes `i64::MAX`, and `counters_fit` bounds every counter by it.
Opening a channel past the last generation panics, and the model says so.
`T` is the pinned retry authority a sleeper may own, which the queue only hands
back.
-/
import Kandelo.Errno
import Kandelo.Lib.Machine
import Kandelo.Lib.MinHeap
import Kandelo.Lib.OrdMap

namespace Kandelo.Wait

/-- Nanoseconds on `CLOCK_MONOTONIC`. -/
abbrev MonotonicNs := Int

abbrev WaiterId := Nat

abbrev ChannelGeneration := Nat

def i64Max : Nat := 2 ^ 63 - 1

def u64Max : Nat := 2 ^ 64 - 1

inductive WakeSource
  | pipe (idx : UInt32)
  | accept (idx : UInt32)
  | pcmStream (idx : UInt32)
  | advisoryLock
  | datagramWritable
  | childEvent (parent : UInt32)
  | signal (pid tid : UInt32)
  | futex (pid : UInt32) (addr : UInt64)
  | processStopped (pid : UInt32)
  | processContinued (pid : UInt32)
  deriving DecidableEq, Repr

/-- The source carries no identity and wakes every waiter of its kind. -/
def WakeSource.isBroad : WakeSource → Bool
  | .advisoryLock | .datagramWritable => true
  | _ => false

inductive BlockingRetryOperation
  | read | write | fcntl | pread | pwrite | accept | connect | send | recv | sendto | recvfrom | sendmsg | recvmsg
  | flock | sendfile | copyFileRange | splice | mqSend | mqReceive | msgSend | msgReceive | semop
  deriving DecidableEq, Repr

inductive WaitKind
  | transfer (operation : BlockingRetryOperation)
  | poll
  | select
  | epollWait
  | sleep
  | sigTimedWait (mask : UInt64)
  | childWait (options : UInt32)
  | futex
  | advisoryLock
  | stoppedPublication
  deriving DecidableEq, Repr

inductive WakeReason
  | source (s : WakeSource)
  | deadline
  | interrupted
  | retired
  deriving DecidableEq, Repr

/-- One parked task. -/
structure Sleeper (T : Type*) where
  id : WaiterId
  pid : UInt32
  tid : UInt32
  channel : ChannelGeneration
  kind : WaitKind
  sources : List WakeSource
  deadline : Option MonotonicNs
  target : Option T
  signalSafe : Bool

structure ParkRequest (T : Type*) where
  pid : UInt32
  tid : UInt32
  channel : ChannelGeneration
  kind : WaitKind
  sources : List WakeSource
  deadline : Option MonotonicNs
  target : Option T
  signalSafe : Bool

/-- One task taken off the queue, with the reason. -/
structure Wakeup (T : Type*) where
  id : WaiterId
  pid : UInt32
  tid : UInt32
  channel : ChannelGeneration
  kind : WaitKind
  reason : WakeReason
  target : Option T

structure WaitQueueStats where
  parked : Nat
  wokenBySource : Nat
  wokenByDeadline : Nat
  broadWakes : Nat
  deadlineExpiriesWithSources : Nat
  retired : Nat
  cancelled : Nat
  deriving DecidableEq, Repr

variable {T : Type*}

/-- `Sleeper::matches`. -/
def Sleeper.matchesSource (s : Sleeper T) (source : WakeSource) : Bool := s.sources.any (· == source)

def intoWakeup (reason : WakeReason) (s : Sleeper T) : Wakeup T := ⟨s.id, s.pid, s.tid, s.channel, s.kind, reason, s.target⟩

structure WaitQueue (T : Type*) where
  enabled : Bool
  nextWaiter : Nat
  nextGeneration : Nat
  sleepers : OrdMap WaiterId (Sleeper T)
  deadlines : MinHeap (MonotonicNs ×ₗ WaiterId)
  liveChannels : Finset ChannelGeneration
  stats : WaitQueueStats

namespace WaitQueue

def new : WaitQueue T := ⟨false, 1, 1, OrdMap.empty, MinHeap.empty, ∅, ⟨0, 0, 0, 0, 0, 0, 0⟩⟩

def releaseChannel (q : WaitQueue T) (channel : ChannelGeneration) : WaitQueue T :=
  { q with liveChannels := q.liveChannels.erase channel }

def setEnabled (q : WaitQueue T) (enabled : Bool) : WaitQueue T := { q with enabled := enabled }

def len (q : WaitQueue T) : Nat := q.sleepers.entries.length

def isEmpty (q : WaitQueue T) : Bool := q.sleepers.entries.isEmpty

/-- `none` is the panic: the generation counter is exhausted. -/
def openChannel (q : WaitQueue T) : Option (ChannelGeneration × WaitQueue T) :=
  if q.nextGeneration = u64Max then none
  else
    some (q.nextGeneration, { q with nextGeneration := q.nextGeneration + 1, liveChannels := insert q.nextGeneration q.liveChannels })

def park (q : WaitQueue T) (request : ParkRequest T) : Except Errno WaiterId × WaitQueue T :=
  if request.channel ∉ q.liveChannels then (.error .ESRCH, q)
  else if i64Max < q.nextWaiter then (.error .EOVERFLOW, q)
  else
    let id := q.nextWaiter
    (.ok id, { q with
      nextWaiter := q.nextWaiter + 1
      deadlines :=
        match request.deadline with
        | some deadline => q.deadlines.push (toLex (deadline, id))
        | none => q.deadlines
      sleepers := q.sleepers.insert id
        ⟨id, request.pid, request.tid, request.channel, request.kind, request.sources, request.deadline,
          request.target, request.signalSafe⟩
      stats := { q.stats with parked := q.stats.parked + 1 } })

/-- The heap entry is the deadline of a task that still sleeps. -/
def holds (q : WaitQueue T) (e : MonotonicNs ×ₗ WaiterId) : Bool :=
  (q.sleepers.get? (ofLex e).2).any (·.deadline == some (ofLex e).1)

def nextDeadlineNs (q : WaitQueue T) : Option MonotonicNs × WaitQueue T :=
  match _hp : q.deadlines.peek with
  | none => (none, q)
  | some e =>
    if q.holds e then (some (ofLex e).1, q)
    else nextDeadlineNs { q with deadlines := q.deadlines.pop }
termination_by q.deadlines.items.length
decreasing_by exact MinHeap.length_pop_lt _hp

/-- The loop the removing calls share: each selected waiter that still sleeps
leaves, is counted and answered. -/
def removeAll (count : WaitQueueStats → WaitQueueStats) (reason : WakeReason) :
    List WaiterId → WaitQueue T → List (Wakeup T) × WaitQueue T
  | [], q => ([], q)
  | id :: ids, q =>
    match q.sleepers.get? id with
    | none => removeAll count reason ids q
    | some sleeper =>
      let r := removeAll count reason ids { q with sleepers := q.sleepers.erase id, stats := count q.stats }
      (intoWakeup reason sleeper :: r.1, r.2)

def countWake (source : WakeSource) (stats : WaitQueueStats) : WaitQueueStats :=
  if source.isBroad then { stats with broadWakes := stats.broadWakes + 1 }
  else { stats with wokenBySource := stats.wokenBySource + 1 }

def countRetired (stats : WaitQueueStats) : WaitQueueStats := { stats with retired := stats.retired + 1 }

def countCancelled (stats : WaitQueueStats) : WaitQueueStats := { stats with cancelled := stats.cancelled + 1 }

/-- The sleepers `wake` looks at: of the process, if one is given, and
registered for the source. -/
def candidates (q : WaitQueue T) (source : WakeSource) (pidFilter : Option UInt32) : List (WaiterId × Sleeper T) :=
  q.sleepers.entries.filter fun e => pidFilter.all (e.2.pid == ·) && e.2.matchesSource source

/-- Also answers whether a signal-safe sleeper was held back. -/
def wake (q : WaitQueue T) (source : WakeSource) (pidFilter : Option UInt32) (deferSignalSafe : Bool) :
    (List (Wakeup T) × Bool) × WaitQueue T :=
  let deferred := fun e : WaiterId × Sleeper T => deferSignalSafe && e.2.signalSafe
  let selected := (q.candidates source pidFilter).filter fun e => !deferred e
  let r := removeAll (countWake source) (.source source) (selected.map (·.1)) q
  ((r.1, (q.candidates source pidFilter).any deferred), r.2)

/-- `accept` is a predicate of the sleeper, as it is at every caller. -/
def wakeLimited (q : WaitQueue T) (source : WakeSource) (max : Nat) (accept : Sleeper T → Bool) : List (Wakeup T) × WaitQueue T :=
  let selected := (q.sleepers.entries.filter fun e => e.2.matchesSource source && accept e.2).take max
  removeAll (countWake source) (.source source) (selected.map (·.1)) q

/-- The body of the loop of `retarget`, with the number moved so far; once that
is `max` the source leaves the loop. -/
def retargetOne (source target : WakeSource) (max : Nat) (moved : Nat) (s : Sleeper T) : Nat × Sleeper T :=
  if moved = max then (moved, s)
  else if s.matchesSource source then
    (moved + 1, { s with sources := s.sources.map fun x => if x = source then target else x })
  else (moved, s)

def retarget (q : WaitQueue T) (source target : WakeSource) (max : Nat) : Nat × WaitQueue T :=
  let r := OrdMap.mapAccum (retargetOne source target max) 0 q.sleepers
  (r.1, { q with sleepers := r.2 })

def removeWithReason (q : WaitQueue T) (id : WaiterId) (reason : WakeReason) : Option (Wakeup T) × WaitQueue T :=
  match q.sleepers.get? id with
  | none => (none, q)
  | some sleeper =>
    (some (intoWakeup reason sleeper), { q with
      sleepers := q.sleepers.erase id
      stats := if reason = .retired then countRetired q.stats else countCancelled q.stats })

def countDeadline (s : Sleeper T) (stats : WaitQueueStats) : WaitQueueStats :=
  { stats with
    wokenByDeadline := stats.wokenByDeadline + 1
    deadlineExpiriesWithSources :=
      if s.sources.isEmpty then stats.deadlineExpiriesWithSources else stats.deadlineExpiriesWithSources + 1 }

def expire (q : WaitQueue T) (nowNs : MonotonicNs) : List (Wakeup T) × WaitQueue T :=
  match _hp : q.deadlines.peek with
  | none => ([], q)
  | some e =>
    if nowNs < (ofLex e).1 then ([], q)
    else
      match q.sleepers.get? (ofLex e).2 with
      | none => expire { q with deadlines := q.deadlines.pop } nowNs
      | some sleeper =>
        if sleeper.deadline ≠ some (ofLex e).1 then expire { q with deadlines := q.deadlines.pop } nowNs
        else
          let r := expire { q with
            deadlines := q.deadlines.pop
            sleepers := q.sleepers.erase (ofLex e).2
            stats := countDeadline sleeper q.stats } nowNs
          (intoWakeup .deadline sleeper :: r.1, r.2)
termination_by q.deadlines.items.length
decreasing_by all_goals exact MinHeap.length_pop_lt _hp

def cancel (q : WaitQueue T) (id : WaiterId) : Option (Wakeup T) × WaitQueue T :=
  match q.sleepers.get? id with
  | none => (none, q)
  | some sleeper =>
    (some (intoWakeup .interrupted sleeper), { q with sleepers := q.sleepers.erase id, stats := countCancelled q.stats })

/-- The sleepers a predicate selects, oldest first. -/
def select (q : WaitQueue T) (p : Sleeper T → Bool) : List (WaiterId × Sleeper T) := q.sleepers.entries.filter fun e => p e.2

def cancelTask (q : WaitQueue T) (pid tid : UInt32) : List (Wakeup T) × WaitQueue T :=
  removeAll countCancelled .interrupted ((q.select fun s => s.pid == pid && s.tid == tid).map (·.1)) q

def retireChannel (q : WaitQueue T) (channel : ChannelGeneration) : List (Wakeup T) × WaitQueue T :=
  removeAll countRetired .retired ((q.select fun s => s.channel == channel).map (·.1))
    { q with liveChannels := q.liveChannels.erase channel }

def retireChannels : List ChannelGeneration → WaitQueue T → List (Wakeup T) × WaitQueue T
  | [], q => ([], q)
  | channel :: channels, q =>
    let r := q.retireChannel channel
    let rs := retireChannels channels r.2
    (r.1 ++ rs.1, rs.2)

def retireProcess (q : WaitQueue T) (pid : UInt32) : List (Wakeup T) × WaitQueue T :=
  retireChannels ((q.select fun s => s.pid == pid).map (·.2.channel)) q

end WaitQueue

end Kandelo.Wait

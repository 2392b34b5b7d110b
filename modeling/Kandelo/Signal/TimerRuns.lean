/-
POSIX timers over whole runs: whether the flag of a timer says what is queued for
it, and whether a timer whose signal is caught goes on notifying.

Every way a notification leaves a queue tells the timer, except two that clear a
signal everywhere: the generation of SIGCONT or of a stop signal, and the kill of
a stopped process. `timer_flags_exact_iff` says that these are all: the flags
are right along a run exactly if nothing is lost to them.
-/
import Kandelo.Signal.Frame

namespace Kandelo.Signal

open List

namespace SignalProcess

/-! ## What no call changes -/

def killHandler (p : SignalProcess) : SignalHandler := (p.signals.getAction sigkill).handler

structure Same (p p' : SignalProcess) : Prop where
  threads : SameThreads p p'
  timers : ∀ i, p'.shape i = p.shape i
  kill : p'.killHandler = p.killHandler

theorem Same.refl (p : SignalProcess) : Same p p := ⟨.refl p, fun _ => rfl, rfl⟩

variable {p p' : SignalProcess}

theorem Same.trans {p'' : SignalProcess} (h : Same p p') (h' : Same p' p'') : Same p p'' :=
  ⟨h.threads.trans h'.threads, fun i => (h'.timers i).trans (h.timers i), h'.kill.trans h.kill⟩

theorem Quiet.same (h : Quiet p p') : Same p p' := by
  have hmasks := h.masks
  simp only [SignalProcess.masks, cons.injEq, Prod.mk.injEq] at hmasks
  refine ⟨⟨hmasks.1.1, ?_⟩, h.timers, congrArg Prod.fst h.fixed⟩
  have := congrArg (map Prod.fst) hmasks.2
  simpa only [tids, map_map, Function.comp_def] using this

theorem SameQueues.same (h : SameQueues p p') : Same p p' := by
  refine ⟨Prod.mk.inj h.ids, fun i => ?_, ?_⟩
  · simp [shape, slot, h.timers]
  · simp [killHandler, SignalState.getAction, h.actions]

theorem same_deliverTurn (p : SignalProcess) (tid : Nat) : Same p (p.deliverTurn tid).2 := by
  simp only [deliverTurn]
  split
  · exact .refl p
  rename_i signum _
  split
  · exact .refl p
  · exact (p.quiet_dequeue tid signum).same.trans (sameQueues_applyDefault _ signum).same
  · exact (p.quiet_dequeue tid signum).same

theorem same_dequeueTurn (p : SignalProcess) (tid : Nat) : Same p (p.dequeueTurn tid).2 := by
  simp only [dequeueTurn]
  split
  · exact .refl p
  rename_i signum _
  split
  · exact (p.quiet_dequeue tid signum).same.trans (sameQueues_installMask _ tid _ signum).same
  · exact p.same_deliverTurn tid

/-! ## Runs -/

inductive TimerCall
  | create (clockKnown : Bool) (event : Option Sigevent) (room : Bool)
  | delete (timerId : UInt32)
  | fire (timerId : UInt32)
  | raise (signum : Nat)
  | raiseWithValue (signum : Nat) (value : UInt64)
  | raiseWithMetadata (signum : Nat) (value : UInt64) (code : Int32) (senderPid senderUid : UInt32)
  | raiseForThread (tid signum : Nat)
  | raiseForThreadWithValue (tid signum : Nat) (value : UInt64)
  | raiseForThreadWithMetadata (tid signum : Nat) (value : UInt64) (code : Int32) (senderPid senderUid : UInt32)
  | sigaction (sig : Nat) (action : SignalAction)
  | signal (sig : Nat) (handler : SignalHandler)
  | sigtimedwait (tid : Nat) (mask : BitVec 64)
  | deliver (tid : Nat)
  | dequeue (tid : Nat)
  | setMask (tid : Nat) (mask : BitVec 64)
  | createThread (callerTid : Nat) (prepared : Except Errno Unit) (taskId : Except Errno Nat)

/-- A call on the process. Threads that end are left out: the timers directed at a
thread are promised to have it. -/
def timerCall (p : SignalProcess) : TimerCall → Unit × SignalProcess
  | .create clockKnown event room => ((), (p.timerCreate clockKnown event room).2)
  | .delete timerId => ((), (p.timerDelete timerId).2)
  | .fire timerId => ((), (p.queuePosixTimerFire timerId).2)
  | .raise signum => ((), (p.raiseSignal signum).2)
  | .raiseWithValue signum value => ((), (p.raiseSignalWithValue signum value).2)
  | .raiseWithMetadata signum value code senderPid senderUid =>
    ((), (p.raiseSignalWithMetadata signum value code senderPid senderUid).2)
  | .raiseForThread tid signum => ((), (p.raiseForThread tid signum).2)
  | .raiseForThreadWithValue tid signum value => ((), (p.raiseForThreadWithValue tid signum value).2)
  | .raiseForThreadWithMetadata tid signum value code senderPid senderUid =>
    ((), (p.raiseForThreadWithMetadata tid signum value code senderPid senderUid).2)
  | .sigaction sig action => ((), (p.sysSigaction sig action).2)
  | .signal sig handler => ((), (p.sysSignal sig handler).2)
  | .sigtimedwait tid mask => ((), (p.takeSignalFor tid mask).2)
  | .deliver tid => ((), (p.deliverTurn tid).2)
  | .dequeue tid => ((), (p.dequeueTurn tid).2)
  | .setMask tid mask => ((), (p.setBlockedFor tid mask).2)
  | .createThread callerTid prepared taskId => ((), (p.createThread callerTid prepared taskId).2)

/-- The notifications of each timer that a call takes out of the queues without
telling the timer. -/
def lost (p : SignalProcess) : TimerCall → Nat → Nat
  | .raise signum | .raiseWithValue signum _ | .raiseWithMetadata signum _ _ _ _ => p.queuedOf (discardedBy signum)
  | .raiseForThread tid signum | .raiseForThreadWithValue tid signum _ | .raiseForThreadWithMetadata tid signum _ _ _ _ =>
    fun i => if p.knows tid then p.queuedOf (discardedBy signum) i else 0
  | .fire timerId => p.lostByFire timerId
  | .deliver tid | .dequeue tid => p.lostByKill tid
  | _ => fun _ => 0

theorem changes_call (harmed : ∀ i timer, p.slot i = some timer → p.Armed timer)
    (hkill : p.killHandler = .default) (c : TimerCall) : Changes p (p.timerCall c).2 (p.lost c) := by
  cases c with
  | create clockKnown event room => exact p.changes_timerCreate clockKnown event room
  | delete timerId => exact p.changes_timerDelete timerId
  | fire timerId => exact changes_fire fun timer h => harmed _ timer h
  | raise signum => exact p.changes_raiseShared signum (·.raise signum) fun s i => queued_raiseInternal s signum 0 0 0 0 i
  | raiseWithValue signum value =>
    exact p.changes_raiseShared signum (·.raiseWithValue signum value) fun s i =>
      queued_raiseInternal s signum value (-1) 0 0 i
  | raiseWithMetadata signum value code senderPid senderUid =>
    exact p.changes_raiseShared signum (·.raiseWithMetadata signum value code senderPid senderUid) fun s i =>
      queued_raiseInternal s signum value code senderPid senderUid i
  | raiseForThread tid signum =>
    exact p.changes_raiseDirected tid signum (·.raise signum) fun t i => queued_raiseInternal_thread t signum 0 0 0 0 i
  | raiseForThreadWithValue tid signum value =>
    exact p.changes_raiseDirected tid signum (·.raiseWithValue signum value) fun t i =>
      queued_raiseInternal_thread t signum value (-1) 0 0 i
  | raiseForThreadWithMetadata tid signum value code senderPid senderUid =>
    exact p.changes_raiseDirected tid signum (·.raiseWithMetadata signum value code senderPid senderUid) fun t i =>
      queued_raiseInternal_thread t signum value code senderPid senderUid i
  | sigaction sig action => exact p.changes_sysSigaction sig action
  | signal sig handler => exact p.changes_sysSignal sig handler
  | sigtimedwait tid mask => exact p.changes_takeSignalFor tid mask
  | deliver tid => exact p.changes_deliverTurn tid hkill
  | dequeue tid => exact p.changes_dequeueTurn tid hkill
  | setMask tid mask => exact (Changes.refl p).sameQueues (p.sameQueues_setBlocked tid mask)
  | createThread callerTid prepared taskId =>
    simp only [timerCall, lost, createThread]
    iterate 3 (split; · exact .refl p)
    refine (Changes.refl p).congr rfl fun i => ?_
    simp only [queued, map_append, sum_append]
    rfl

/-- The flag of every timer is set exactly while one notification of it is queued. -/
def Exact (p : SignalProcess) : Prop := ∀ i timer, p.slot i = some timer → (timer.notificationPending ↔ p.queued i = 1)

/-- A timer whose signal is caught has a notification queued after each expiry. -/
def Produces (p : SignalProcess) : Prop :=
  ∀ timerId timer function, p.getTimer timerId = some timer → timer.sigevNotify ≠ .none →
    p.signals.getHandler timer.sigevSigno = .handler function → (p.queuePosixTimerFire timerId).2.queued timerId.toNat = 1

/-- What holds whatever is lost. -/
structure Tidy (p : SignalProcess) : Prop where
  single : ∀ i, p.queued i ≤ 1
  owned : ∀ i, p.flag i = none → p.queued i = 0
  armed : ∀ i timer, p.slot i = some timer → p.Armed timer
  kill : p.killHandler = .default

theorem right_of_exact (ht : p.Tidy) (he : p.Exact) (i : Nat) : p.Right i := by
  refine ⟨fun b hb => ?_, ht.single i, ht.owned i⟩
  obtain ⟨timer, htimer, rfl⟩ := Option.map_eq_some_iff.mp hb
  exact he i timer htimer

theorem exact_of_right (h : ∀ i, p.Right i) : p.Exact := by
  intro i timer htimer
  refine (h i).exact timer.notificationPending ?_
  rw [flag, htimer, Option.map_some]

theorem produces (ht : p.Tidy) (he : p.Exact) : p.Produces := by
  intro timerId timer function htimer hnotify hcaught
  have hslot : p.slot timerId.toNat = some timer := htimer
  have hexact := he _ timer hslot
  have hkeep : shouldDiscardPending timer.sigevSigno (p.signals.getHandler timer.sigevSigno) = false := by
    rw [hcaught]
    rfl
  cases hpending : timer.notificationPending with
  | true =>
    simp only [queuePosixTimerFire, htimer, hnotify, hkeep, hpending, if_true, if_false, Bool.false_eq_true]
    exact hexact.mp hpending
  | false =>
    have hfires : p.fires timer := by
      rw [fires, hkeep, hpending, bne_iff_ne.mpr hnotify]
      rfl
    have hone := (fire_spec htimer hfires (ht.armed _ timer hslot)).2 timerId.toNat
    have hnone : p.queued timerId.toNat ≠ 1 := by
      rw [hpending] at hexact
      exact fun h => Bool.false_ne_true (hexact.mpr h)
    have hsingle := ht.single timerId.toNat
    have hle := p.queuedOf_discarded_le timer.sigevSigno timerId.toNat
    rw [if_pos rfl] at hone
    omega

/-! ## What is left stays -/

theorem armed_of_same (h : Same p p') (ha : ∀ i timer, p.slot i = some timer → p.Armed timer) :
    ∀ i timer, p'.slot i = some timer → p'.Armed timer := by
  intro i timer htimer hnotify
  have hshape := h.timers i
  rw [shape, shape, htimer, Option.map_some] at hshape
  obtain ⟨timer₀, hslot, heq⟩ := Option.map_eq_some_iff.mp hshape.symm
  simp only [Prod.mk.injEq] at heq
  obtain ⟨hsigno, hmode, htid⟩ := heq
  obtain ⟨hvalid, hknown⟩ := ha i timer₀ hslot (hmode ▸ hnotify)
  refine ⟨hsigno ▸ hvalid, fun hthread => ?_⟩
  rw [h.threads.knows, ← htid]
  exact hknown (hmode.trans hthread)

theorem normalize_spec {notify : UInt32} {signo signo' : Nat} {mode : SigevNotify}
    (h : normalizePosixTimerSigno notify signo = .ok (mode, signo')) : mode ≠ .none → validSignum signo' := by
  simp only [normalizePosixTimerSigno] at h
  split at h
  · cases h
    exact fun h => absurd rfl h
  split at h
  · rename_i hvalid
    cases h
    exact fun _ => hvalid.2
  split at h
  · rename_i hvalid
    cases h
    exact fun _ => hvalid.2
  · cases h

/-- What a slot holds after a creation. -/
theorem slot_alloc (p : SignalProcess) (timer : PosixTimerState) (room : Bool) (i : Nat) (timer' : PosixTimerState)
    (h : (p.allocPosixTimer timer room).2.slot i = some timer') : timer' = timer ∨ p.slot i = some timer' := by
  simp only [allocPosixTimer] at h
  split at h
  · simp only [slot, getElem?_set] at h
    split at h
    · split at h
      · exact .inl (Option.some.inj h).symm
      · cases h
    · exact .inr h
  split at h
  · exact .inr h
  simp only [slot, getElem?_append] at h
  split at h
  · exact .inr h
  rw [getElem?_singleton] at h
  split at h
  · exact .inl (Option.some.inj h).symm
  · cases h

/-- Every timer of the process is armed, and SIGKILL's handler is still `p`'s. -/
structure StillArmed (p p' : SignalProcess) : Prop where
  armed (i : Nat) (timer : PosixTimerState) : p'.slot i = some timer → p'.Armed timer
  kill : p'.killHandler = p.killHandler

section

variable (ha : ∀ i timer, p.slot i = some timer → p.Armed timer)

include ha

theorem armed_create (clockKnown : Bool) (event : Option Sigevent) (room : Bool) :
    StillArmed p (p.timerCreate clockKnown event room).2 := by
  simp only [timerCreate]
  split
  · exact ⟨ha, rfl⟩
  split
  · exact ⟨ha, rfl⟩
  rename_i notify signo hnormal
  split_ifs with hlive
  · exact ⟨ha, rfl⟩
  have hrest : ∀ timer, let p' := (p.allocPosixTimer timer room).2
      SameThreads p p' ∧ p'.killHandler = p.killHandler := by
    intro timer
    simp only [allocPosixTimer]
    iterate 2 (split; · exact ⟨.refl p, rfl⟩)
    · exact ⟨.refl p, rfl⟩
  refine ⟨fun i timer htimer hmode => ?_, (hrest _).2⟩
  rw [(hrest _).1.knows]
  rcases p.slot_alloc _ room i timer htimer with rfl | hold
  · refine ⟨normalize_spec hnormal hmode, fun hthread => knows_of_live ?_⟩
    simpa using fun h => hlive ⟨hthread, h⟩
  · exact ha i timer hold hmode

theorem armed_delete (timerId : UInt32) : StillArmed p (p.timerDelete timerId).2 := by
  simp only [timerDelete]
  split
  · exact ⟨ha, rfl⟩
  rename_i timer₀ hthere
  refine ⟨fun i timer htimer hmode => ?_, rfl⟩
  have hthere' : (p.removePosixTimerNotification timerId).getTimer timerId = some timer₀ := hthere
  rw [slot_setTimer _ hthere'] at htimer
  split at htimer
  · cases htimer
  obtain ⟨hvalid, hknown⟩ := ha i timer htimer hmode
  refine ⟨hvalid, fun hthread => ?_⟩
  have hsame : SameThreads p ((p.removePosixTimerNotification timerId).setTimer timerId none) := by
    refine ⟨rfl, ?_⟩
    simp [tids, setTimer, removePosixTimerNotification]
  rw [hsame.knows]
  exact hknown hthread

theorem armed_createThread (callerTid : Nat) (prepared : Except Errno Unit) (taskId : Except Errno Nat) :
    StillArmed p (p.createThread callerTid prepared taskId).2 := by
  simp only [createThread]
  iterate 3 (split; · exact ⟨ha, rfl⟩)
  refine ⟨fun i timer htimer hmode => ?_, rfl⟩
  obtain ⟨hvalid, hknown⟩ := ha i timer htimer hmode
  refine ⟨hvalid, fun hthread => ?_⟩
  have hold := (p.knows_iff timer.sigevTid).mp (hknown hthread)
  rw [knows_iff]
  simp only [tids, map_append, mem_append]
  rcases hold with h | h | h
  · exact .inl h
  · exact .inr (.inl h)
  · exact .inr (.inr (.inl h))

theorem armed_call (c : TimerCall) : StillArmed p (p.timerCall c).2 := by
  have hof {p' : SignalProcess} (h : Same p p') : StillArmed p p' := ⟨armed_of_same h ha, h.kill⟩
  cases c with
  | create clockKnown event room => exact armed_create ha clockKnown event room
  | delete timerId => exact armed_delete ha timerId
  | fire timerId => exact hof (p.quiet_fire timerId).same
  | raise signum => exact hof (p.quiet_raiseShared signum fun s => raiseInternal_quiet s signum 0 0 0 0).same
  | raiseWithValue signum value =>
    exact hof (p.quiet_raiseShared signum fun s => raiseInternal_quiet s signum value (-1) 0 0).same
  | raiseWithMetadata signum value code senderPid senderUid =>
    exact hof (p.quiet_raiseShared signum fun s => raiseInternal_quiet s signum value code senderPid senderUid).same
  | raiseForThread tid signum =>
    exact hof (p.quiet_raiseDirected tid signum fun t => raiseInternal_blocked t signum 0 0 0 0).same
  | raiseForThreadWithValue tid signum value =>
    exact hof (p.quiet_raiseDirected tid signum fun t => raiseInternal_blocked t signum value (-1) 0 0).same
  | raiseForThreadWithMetadata tid signum value code senderPid senderUid =>
    exact hof (p.quiet_raiseDirected tid signum fun t => raiseInternal_blocked t signum value code senderPid senderUid).same
  | sigaction sig action => exact hof (p.quiet_sysSigaction sig action).same
  | signal sig handler => exact hof (p.quiet_sysSignal sig handler).same
  | sigtimedwait tid mask => exact hof (p.quiet_takeSignalFor tid mask).same
  | deliver tid => exact hof (p.same_deliverTurn tid)
  | dequeue tid => exact hof (p.same_dequeueTurn tid)
  | setMask tid mask => exact hof (p.sameQueues_setBlocked tid mask).same
  | createThread callerTid prepared taskId => exact armed_createThread ha callerTid prepared taskId

end

theorem tidy_call (ht : p.Tidy) (he : p.Exact) (c : TimerCall) : (p.timerCall c).2.Tidy := by
  have hkeeps := (changes_call ht.armed ht.kill c).keeps (right_of_exact ht he)
  obtain ⟨harmed, hkill⟩ := armed_call ht.armed c
  exact ⟨fun i => (hkeeps i).1, fun i => (hkeeps i).2, harmed, hkill.trans ht.kill⟩

theorem call_exact_iff (ht : p.Tidy) (he : p.Exact) (c : TimerCall) : (p.timerCall c).2.Exact ↔ ∀ i, p.lost c i = 0 := by
  have hright := right_of_exact ht he
  refine Iff.trans ?_ ((changes_call ht.armed ht.kill c).right_iff hright)
  exact ⟨right_of_exact (tidy_call ht he c), exact_of_right⟩

theorem tidy_new (pid : Nat) : (new pid).Tidy := by
  have hkill : (SignalState.new.getAction sigkill).handler = .default := by decide
  exact ⟨fun _ => Nat.zero_le 1, fun _ _ => rfl, fun _ _ h => by simp [slot, new] at h, hkill⟩

/-- Along a run of a process the flag of every timer is set exactly while one
notification of it is queued, and every timer whose signal is caught has one queued
after each expiry, exactly if no call of the run takes a notification out of the
queues without telling its timer. -/
theorem timer_flags_exact_iff (pid : Nat) (cs : List TimerCall) :
    (∀ k, let p := Machine.run timerCall (new pid) (cs.take k); p.Exact ∧ p.Produces) ↔
      ∀ x ∈ Machine.steps timerCall (new pid) cs, ¬∃ i, lost x.1 x.2 i ≠ 0 := by
  have hstep : ∀ (p : SignalProcess) (c : TimerCall), p.Tidy → p.Exact ∧ p.Produces →
      ((p.timerCall c).2.Exact ∧ (p.timerCall c).2.Produces ↔ ¬∃ i, p.lost c i ≠ 0) := by
    intro p c ht ⟨he, _⟩
    rw [not_exists]
    simp only [not_not, ← call_exact_iff ht he c]
    exact ⟨And.left, fun he' => ⟨he', produces (tidy_call ht he c) he'⟩⟩
  have hexact : (new pid).Exact := fun _ _ h => by simp [slot, new] at h
  exact Machine.run_always_iff (I := fun p => p.Exact ∧ p.Produces) (J := Tidy) (fun p c => ∃ i, p.lost c i ≠ 0)
    (fun _ c ht h => tidy_call ht h.1 c) hstep (s := new pid) (tidy_new pid) ⟨hexact, produces (tidy_new pid) hexact⟩ cs

/-- SIGTSTP is caught, a timer for it fires, and SIGCONT is sent before it is
delivered. -/
def stopTimerContinued : List TimerCall :=
  [.sigaction sigtstp ⟨.handler 5, 0, 0⟩, .create true (some ⟨sigtstp, 7, 0, 0⟩) true, .fire 0, .raise sigcont]

/-- The timer waits for a notification that is gone: no later expiry queues one. -/
theorem timer_silenced :
    let p := Machine.run timerCall (new 100) stopTimerContinued
    (¬p.Exact ∧ ¬p.Produces) ∧ p.flag 0 = some true ∧ p.queued 0 = 0 ∧ (p.queuePosixTimerFire 0).2.queued 0 = 0 := by
  have hslot : (Machine.run timerCall (new 100) stopTimerContinued).slot 0 = some ⟨sigtstp, 7, .signal, 0, true, 0, 0⟩ := by
    decide +kernel
  have hcaught : (Machine.run timerCall (new 100) stopTimerContinued).signals.getHandler sigtstp = .handler 5 := by
    decide +kernel
  have hnone : (Machine.run timerCall (new 100) stopTimerContinued).queued 0 = 0 := by decide +kernel
  have hfire : ((Machine.run timerCall (new 100) stopTimerContinued).queuePosixTimerFire 0).2.queued 0 = 0 := by
    decide +kernel
  refine ⟨⟨fun he => ?_, fun hp => ?_⟩, ?_, hnone, hfire⟩
  · have := (he 0 _ hslot).mp rfl
    omega
  · have := hp 0 _ 5 hslot (by decide) hcaught
    exact absurd (hfire.symm.trans this) (by decide)
  · rw [flag, hslot]
    rfl

end SignalProcess

end Kandelo.Signal

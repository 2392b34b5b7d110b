/-
What the signal queues leave alone: generating, consuming and discarding signals
changes neither masks nor mask waits nor threads, and no call sets a handler for
SIGKILL or SIGSTOP.
-/
import Kandelo.Signal.Timers

namespace Kandelo.Signal

namespace SignalProcess

/-- What a timer does when it fires. -/
def shape (p : SignalProcess) (i : Nat) : Option (Nat × SigevNotify × Nat) :=
  (p.slot i).map fun t => (t.sigevSigno, t.sigevNotify, t.sigevTid)

variable {p : SignalProcess}

theorem knows_of_live {tid : Nat} (h : p.isLiveExplicitTid tid) : p.knows tid := by
  simp only [isLiveExplicitTid, Bool.and_eq_true, Bool.or_eq_true, beq_iff_eq] at h
  simp only [knows, isMainThread, Bool.or_eq_true, beq_iff_eq]
  rcases h.2 with hpid | hthread
  · exact .inl (.inr hpid)
  · exact .inr hthread

/-- The masks and mask waits of the threads. -/
def masks (p : SignalProcess) : List (Nat × BitVec 64 × HandlerFrames) :=
  (p.pid, p.signals.blocked, p.frames) :: p.threads.map fun t => (t.tid, t.signals.blocked, t.frames)

/-- The handlers of the two signals that cannot be caught. -/
def fixedHandlers (p : SignalProcess) : SignalHandler × SignalHandler :=
  ((p.signals.getAction sigkill).handler, (p.signals.getAction sigstop).handler)

structure Quiet (p p' : SignalProcess) : Prop where
  masks : p'.masks = p.masks
  timers : ∀ i, p'.shape i = p.shape i
  fixed : p'.fixedHandlers = p.fixedHandlers

theorem Quiet.refl (p : SignalProcess) : Quiet p p := ⟨rfl, fun _ => rfl, rfl⟩

theorem Quiet.trans {p' p'' : SignalProcess} (h : Quiet p p') (h' : Quiet p' p'') : Quiet p p'' :=
  ⟨h'.masks.trans h.masks, fun i => (h'.timers i).trans (h.timers i), h'.fixed.trans h.fixed⟩

theorem Quiet.of_timers {p' : SignalProcess} (hmasks : p'.masks = p.masks) (ht : p'.posixTimers = p.posixTimers)
    (hactions : p'.signals.actions = p.signals.actions) : Quiet p p' := by
  refine ⟨hmasks, fun i => ?_, ?_⟩
  · simp [shape, slot, ht]
  · simp [fixedHandlers, SignalState.getAction, hactions]

section

variable (p : SignalProcess)

theorem quiet_updateDirected (tid : Nat) {f : PerThreadSignalState → PerThreadSignalState}
    (hf : ∀ t, (f t).blocked = t.blocked) : Quiet p (p.updateDirected tid f) := by
  have hmap := updateFirst_map (f := fun t => { t with signals := f t.signals })
    (g := fun t => (t.tid, t.signals.blocked, t.frames)) tid (fun t => by simp [hf]) p.threads
  simp only [updateDirected]
  split
  · exact .of_timers rfl rfl rfl
  · refine .of_timers ?_ rfl rfl
    simp [masks, updateThread, hmap]

theorem quiet_clearDirected (signum : Nat) : Quiet p (p.clearDirectedSignal signum) := by
  refine .of_timers ?_ rfl rfl
  simp [masks, clearDirectedSignal, PerThreadSignalState.clearPending]

theorem quiet_clearSignal (signum : Nat) : Quiet p (p.clearSignalEverywhere signum) :=
  (.of_timers rfl rfl rfl : Quiet p { p with signals := p.signals.clearPending signum }).trans
    (quiet_clearDirected _ signum)

theorem quiet_prepare (signum : Nat) : Quiet p (p.prepareSignalGeneration signum) :=
  prepare_keeps (.refl p) signum (fun q s h => h.trans (q.quiet_clearSignal s)) fun _ h =>
    h.trans (.of_timers rfl rfl rfl)

theorem quiet_raiseShared (signum : Nat) {raise : SignalState → Bool × SignalState}
    (hraise : ∀ s, (raise s).2.actions = s.actions ∧ (raise s).2.blocked = s.blocked) : Quiet p (p.raiseShared signum raise).2 := by
  refine (p.quiet_prepare signum).trans (.of_timers ?_ rfl (hraise _).1)
  simp [masks, raiseShared, (hraise _).2]

theorem quiet_raiseDirected (tid signum : Nat)
    {raise : PerThreadSignalState → Bool × PerThreadSignalState} (hraise : ∀ t, (raise t).2.blocked = t.blocked) :
    Quiet p (p.raiseDirected tid signum raise).2 := by
  rcases p.raiseDirected_cases tid signum raise with ⟨hsame, _⟩ | ⟨_, hprep | hupd⟩
  · rw [hsame]
    exact .refl p
  · rw [hprep]
    exact p.quiet_prepare signum
  · rw [hupd]
    exact (p.quiet_prepare signum).trans (quiet_updateDirected _ tid hraise)

end

theorem raiseInternal_quiet (s : SignalState) (signum : Nat) (value : UInt64) (code : Int32) (senderPid senderUid : UInt32) :
    (s.raiseInternal signum value code senderPid senderUid).2.actions = s.actions ∧
      (s.raiseInternal signum value code senderPid senderUid).2.blocked = s.blocked := by
  simp only [SignalState.raiseInternal]
  split
  · exact ⟨rfl, rfl⟩
  split
  · exact ⟨rfl, rfl⟩
  · exact ⟨rfl, rfl⟩

theorem raiseInternal_blocked (t : PerThreadSignalState) (signum : Nat) (value : UInt64) (code : Int32)
    (senderPid senderUid : UInt32) : (t.raiseInternal signum value code senderPid senderUid).2.blocked = t.blocked := by
  simp only [PerThreadSignalState.raiseInternal]
  split <;> rfl

theorem quiet_setTimer {timerId : UInt32} {timer timer' : PosixTimerState} (h : p.getTimer timerId = some timer)
    (hshape : (timer'.sigevSigno, timer'.sigevNotify, timer'.sigevTid) = (timer.sigevSigno, timer.sigevNotify, timer.sigevTid)) :
    Quiet p (p.setTimer timerId (some timer')) := by
  refine ⟨rfl, fun i => ?_, rfl⟩
  rw [shape, slot_setTimer p h]
  split_ifs with hi
  · rw [shape, ← hi, ← getTimer_eq, h, Option.map_some, Option.map_some, hshape]
  · rfl

section

variable (p : SignalProcess)

theorem quiet_accept (timerId : UInt32) : Quiet p (p.acceptPosixTimerNotification timerId).2 := by
  simp only [acceptPosixTimerNotification]
  split
  · exact .refl p
  rename_i timer htimer
  split
  · exact .refl p
  · exact quiet_setTimer htimer rfl

theorem quiet_discard (signum : Nat) : Quiet p (p.discardPendingSignal signum) := by
  have hfold : ∀ (ids : List UInt32) (p : SignalProcess),
      Quiet p (ids.foldl (fun p id => (p.acceptPosixTimerNotification id).2) p) := by
    intro ids
    induction ids with
    | nil => exact .refl
    | cons id ids ih => exact fun p => (p.quiet_accept id).trans (ih _)
  exact (p.quiet_clearSignal signum).trans (hfold _ _)

theorem quiet_acceptConsumed (info : PendingSignalInfo) : Quiet p (p.acceptConsumed info) := by
  simp only [acceptConsumed]
  split
  · exact .refl p
  · exact p.quiet_accept _

theorem quiet_consume (tid signum : Nat) : Quiet p (p.consumeSignalFor tid signum).2 := by
  simp only [consumeSignalFor]
  split
  · exact .refl p
  split
  · exact p.quiet_updateDirected tid (f := fun t => (t.consumeOneInfo signum).2) fun _ => rfl
  split
  · exact .refl p
  · exact .of_timers rfl rfl rfl

theorem quiet_takeSignalFor (tid : Nat) (mask : BitVec 64) : Quiet p (p.takeSignalFor tid mask).2 := by
  simp only [takeSignalFor]
  split
  · exact .refl p
  split
  · exact .refl p
  split
  · exact p.quiet_consume tid _
  · exact (p.quiet_consume tid _).trans (quiet_acceptConsumed _ _)

theorem quiet_dequeue (tid signum : Nat) : Quiet p (p.dequeueSignalFor tid signum) := by
  simp only [dequeueSignalFor]
  split
  · exact p.quiet_clearSignal signum
  split
  · exact p.quiet_consume tid signum
  · exact (p.quiet_consume tid signum).trans (quiet_acceptConsumed _ _)

/-- Neither of the two fixed dispositions can be set. -/
theorem quiet_setDisposition {sig : Nat} {handler : SignalHandler}
    {set : SignalState → Bool × SignalState} (hset : ∀ s, SignalState.Sets sig handler s (set s).2) :
    Quiet p (p.setDisposition sig handler set).2 := by
  simp only [setDisposition]
  split
  · exact .refl p
  split
  · exact .refl p
  have hset' : ∀ p' : SignalProcess, Quiet p' { p' with signals := (set p'.signals).2 } := by
    intro p'
    refine ⟨?_, fun _ => rfl, ?_⟩
    · simp [masks, (hset _).blocked]
    · simp [fixedHandlers, (hset _).kill, (hset _).stop]
  by_cases hdiscard : shouldDiscardPending sig handler
  · simp only [hdiscard, if_true]
    have hfirst := (p.quiet_discard sig).trans (hset' _)
    split
    · exact hfirst
    · exact hfirst.trans (quiet_clearDirected _ sig)
  · simp only [hdiscard, Bool.false_eq_true, if_false]
    split
    · exact hset' p
    · exact hset' p

theorem quiet_sysSigaction (sig : Nat) (action : SignalAction) : Quiet p (p.sysSigaction sig action).2 :=
  p.quiet_setDisposition fun s => s.setAction_snd sig action ▸ s.sets_dispose ..

theorem quiet_sysSignal (sig : Nat) (handler : SignalHandler) : Quiet p (p.sysSignal sig handler).2 :=
  p.quiet_setDisposition fun s => s.setHandler_snd sig handler ▸ s.sets_dispose ..

theorem quiet_fire (timerId : UInt32) : Quiet p (p.queuePosixTimerFire timerId).2 := by
  simp only [queuePosixTimerFire]
  split
  · exact .refl p
  rename_i timer htimer
  split
  · exact .refl p
  split
  · exact .refl p
  split
  · exact quiet_setTimer htimer rfl
  have hset : Quiet p (p.setTimer timerId (some { timer with notificationPending := true })) := quiet_setTimer htimer rfl
  split
  · refine hset.trans ?_
    simp only [raiseProcessTimer]
    split
    · exact .refl _
    refine quiet_raiseShared _ timer.sigevSigno fun s => ?_
    simp only [SignalState.raiseTimer]
    split
    · exact ⟨rfl, rfl⟩
    · exact ⟨rfl, rfl⟩
  · have hblocked : ∀ t : PerThreadSignalState, (t.raiseTimer timer.sigevSigno timer.sigevValueBits timerId).2.blocked = t.blocked := by
      intro t
      simp only [PerThreadSignalState.raiseTimer]
      split <;> rfl
    have hraise := hset.trans (quiet_raiseDirected _ timer.sigevTid timer.sigevSigno hblocked)
    split
    · exact hraise
    split
    · exact hraise
    · rename_i timer' htimer'
      exact hraise.trans (quiet_setTimer htimer' rfl)
  · exact hset

end

end SignalProcess

end Kandelo.Signal

/-
POSIX timers: what each call does to the flag of a timer and to the notifications
queued for it.

A timer that fires queues one notification and sets its flag; further expiries
only count as overruns until the notification leaves the queues, which is when
the flag has to be cleared. `Right` says it of one timer, and `Changes` what a
call may do to it: keep the flag and lose queued notifications, or leave it right
again.
-/
import Kandelo.Signal.Process

namespace Kandelo.Signal

open List RtSigEntry PerThreadSignalState UInt32

/-! ## Timer syscalls -/

def sigalrm : Nat := 14

structure Sigevent where
  signo : Nat
  valueBits : UInt64
  notify : UInt32
  threadId : Nat

/-- `normalize_posix_timer_signo`, with the mode it accepted. -/
def normalizePosixTimerSigno (notify : UInt32) (signo : Nat) : Except Errno (SigevNotify × Nat) :=
  if notify = 1 then .ok (.none, 0)
  else if notify = 0 ∧ validSignum signo then .ok (.signal, signo)
  else if notify = 4 ∧ validSignum signo then .ok (.threadId, signo)
  else .error .EINVAL

namespace SignalProcess

/-- `alloc_posix_timer`: the first free slot, or a new one if there is memory. -/
def allocPosixTimer (p : SignalProcess) (timer : PosixTimerState) (room : Bool) : Except Errno Nat × SignalProcess :=
  match p.posixTimers.findIdx? Option.isNone with
  | some slot => (.ok slot, { p with posixTimers := p.posixTimers.set slot (some timer) })
  | none =>
    if !room then (.error .ENOMEM, p)
    else (.ok p.posixTimers.length, { p with posixTimers := p.posixTimers ++ [some timer] })

/-- `kernel_timer_create`. No event means SIGALRM for the process. -/
def timerCreate (p : SignalProcess) (clockKnown : Bool) (event : Option Sigevent) (room : Bool) : Except Errno Nat × SignalProcess :=
  if !clockKnown then (.error .EINVAL, p)
  else
    let e := event.getD ⟨sigalrm, 0, 0, 0⟩
    match normalizePosixTimerSigno e.notify e.signo with
    | .error err => (.error err, p)
    | .ok (notify, signo) =>
      if notify = .threadId ∧ !p.isLiveExplicitTid e.threadId then (.error .EINVAL, p)
      else p.allocPosixTimer ⟨signo, e.valueBits, notify, e.threadId, false, 0, 0⟩ room

/-- `kernel_timer_delete`. -/
def timerDelete (p : SignalProcess) (timerId : UInt32) : Except Errno Unit × SignalProcess :=
  match p.getTimer timerId with
  | none => (.error .EINVAL, p)
  | some _ => (.ok (), (p.removePosixTimerNotification timerId).setTimer timerId none)

/-- `queue_posix_timer_fire`: the thread to wake, 0 for the process. -/
def queuePosixTimerFire (p : SignalProcess) (timerId : UInt32) : Except Errno Nat × SignalProcess :=
  match p.getTimer timerId with
  | none => (.error .EINVAL, p)
  | some timer =>
    if timer.sigevNotify = .none then (.error .EAGAIN, p)
    else if shouldDiscardPending timer.sigevSigno (p.signals.getHandler timer.sigevSigno) then (.error .EAGAIN, p)
    else if timer.notificationPending then
      (.error .EAGAIN, p.setTimer timerId (some { timer with overrunCurrent := nextOverrun timer.overrunCurrent }))
    else
      let p' := p.setTimer timerId (some { timer with notificationPending := true })
      match timer.sigevNotify with
      | .signal => (.ok 0, (p'.raiseProcessTimer timer.sigevSigno timer.sigevValueBits timerId).2)
      | .threadId =>
        let r := p'.raiseTimerForThread timer.sigevTid timer.sigevSigno timer.sigevValueBits timerId
        if r.1 then (.ok timer.sigevTid, r.2)
        else
          match r.2.getTimer timerId with
          | none => (.error .ESRCH, r.2)
          | some timer => (.error .ESRCH, r.2.setTimer timerId (some { timer with notificationPending := false }))
      | .none => (.error .EINVAL, p')

end SignalProcess

/-! ## What is queued for a timer -/

/-- The entry is a notification of timer `i`. -/
def RtSigEntry.ofTimer (i : Nat) (e : RtSigEntry) : Bool := e.timerId.map toNat == some i

/-- The same of what a consumer is handed. -/
def PendingSignalInfo.ofTimer (i : Nat) (info : PendingSignalInfo) : Bool := info.timerId.map toNat == some i

def Pending.queued (q : Pending) (i : Nat) : Nat := q.rtQueue.countP (RtSigEntry.ofTimer i)

/-- The notifications of timer `i` whose signal is one of `sigs`. -/
def Pending.queuedOf (q : Pending) (sigs : List Nat) (i : Nat) : Nat :=
  q.rtQueue.countP fun e => e.ofTimer i && decide (e.signum ∈ sigs)

namespace Pending

theorem countP_of_key {q q' : List RtSigEntry} (h : q'.map key = q.map key) (i : Nat) :
    q'.countP (ofTimer i) = q.countP (ofTimer i) := by
  have hkey : ∀ q : List RtSigEntry, q.countP (ofTimer i) = (q.map key).countP (·.2.map toNat == some i) := by
    intro q
    rw [countP_map]
    rfl
  rw [hkey, hkey, h]

/-- Signals that no timer raised are nobody's notifications. -/
theorem queued_queueSignal (p : Pending) {e : RtSigEntry} (he : e.timerId = none) (i : Nat) :
    (p.queueSignal e).queued i = p.queued i := by
  have happend : (p.rtQueue ++ [e]).countP (ofTimer i) = p.rtQueue.countP (ofTimer i) := by
    rw [countP_append, countP_singleton, ofTimer, he]
    rfl
  simp only [queueSignal]
  split
  · exact happend
  cases hc : coalesce e p.rtQueue with
  | none => exact happend
  | some q => exact countP_of_key (coalesce_key hc).1 i

theorem queued_queueTimer (p : Pending) (signum : Nat) (value : UInt64) (timerId : UInt32) (i : Nat) :
    (p.queueTimer signum value timerId).queued i = p.queued i + if timerId.toNat = i then 1 else 0 := by
  have hplain : ∀ q : List RtSigEntry,
      (q ++ [(⟨signum, 0, 0, 0, 0, none⟩ : RtSigEntry)]).countP (ofTimer i) = q.countP (ofTimer i) := by
    intro q
    rw [countP_append]
    rfl
  have hown : ∀ q : List RtSigEntry, (q ++ [(⟨signum, value, -2, 0, 0, some timerId⟩ : RtSigEntry)]).countP (ofTimer i) =
        q.countP (ofTimer i) + if timerId.toNat = i then 1 else 0 := by
    simp [ofTimer]
  simp only [queued, queueTimer, hown]
  split
  · rw [hplain]
  · rfl

variable {signum : Nat}

section

variable (p : Pending)

theorem queued_clearPending (hs : validSignum signum) (i : Nat) :
    p.queued i = (p.clearPending signum).queued i + p.queuedOf [signum] i := by
  simp only [queued, clearPending, hs, if_true]
  rw [countP_eq_countP_filter_add _ _ (·.signum != signum), Nat.add_left_cancel_iff, countP_filter]
  exact countP_congr fun e _ => by simp

/-- The notifications of other signals stay. -/
theorem queuedOf_clearPending (sigs : List Nat) (hs : signum ∉ sigs) (i : Nat) :
    (p.clearPending signum).queuedOf sigs i = p.queuedOf sigs i := by
  simp only [queuedOf, clearPending]
  split
  · rw [countP_filter]
    refine countP_congr fun e _ => ?_
    by_cases hsig : e.signum = signum
    · simp [hsig, hs]
    · simp [hsig]
  · rfl

/-- The first entry of the signal leaves, with its information. -/
theorem queued_consume (signum : Nat) (i : Nat) :
    p.queued i = (p.consumePendingInfo signum).2.queued i + ((p.consumePendingInfo signum).1.ofTimer i).toNat := by
  simp only [queued, consumePendingInfo]
  split
  · rfl
  induction p.rtQueue with
  | nil => rfl
  | cons e q ih =>
    rw [find?_cons, eraseP_cons]
    by_cases hsig : e.signum = signum
    · have heq : (e.signum == signum) := by simpa using hsig
      have hsame : e.info.ofTimer i = e.ofTimer i := rfl
      simp only [heq, Option.map_some, Option.getD_some, countP_cons, hsame]
      cases e.ofTimer i <;> rfl
    · have hne : (e.signum == signum) = false := by simpa using hsig
      simp only [hne, cond_false, countP_cons, ih]
      omega

theorem queued_removeTimer (timerId : UInt32) (i : Nat) :
    (p.removeTimerInfo timerId).2.queued i = if timerId.toNat = i then 0 else p.queued i := by
  rw [queued, removeTimerInfo_rtQueue, countP_filter]
  split_ifs with hi
  · rw [countP_eq_zero]
    intro e _ he
    simp only [ofTimer, Bool.and_eq_true, beq_iff_eq, Option.map_eq_some_iff, bne_iff_ne] at he
    obtain ⟨⟨id, hid, hidi⟩, hne⟩ := he
    exact hne (hid.trans (congrArg some (UInt32.toNat_inj.mp (hidi.trans hi.symm))))
  refine countP_congr fun e _ => ?_
  simp only [ofTimer, Bool.and_eq_true, beq_iff_eq, Option.map_eq_some_iff, bne_iff_ne, and_iff_left_iff_imp]
  rintro ⟨id, hid, hidi⟩ heq
  rw [hid, Option.some.injEq] at heq
  exact hi (heq ▸ hidi)

/-- The notifications of several signals, one signal at a time. -/
theorem queuedOf_cons {sigs : List Nat} (hs : signum ∉ sigs) (i : Nat) :
    p.queuedOf (signum :: sigs) i = p.queuedOf [signum] i + p.queuedOf sigs i := by
  simp only [queuedOf]
  rw [countP_eq_countP_filter_add _ _ (·.signum == signum), countP_filter, countP_filter]
  refine congrArg₂ _ (countP_congr fun e _ => ?_) (countP_congr fun e _ => ?_)
  · simp +contextual
  by_cases hsig : e.signum = signum
  · simp [hsig, hs]
  · simp [hsig]

end

end Pending

namespace SignalProcess

/-! ## The queues of a process -/

def slot (p : SignalProcess) (i : Nat) : Option PosixTimerState := (p.posixTimers[i]?).join

def flag (p : SignalProcess) (i : Nat) : Option Bool := (p.slot i).map (·.notificationPending)

/-- How many notifications of timer `i` are in the shared queue, the main thread's and
the workers'. -/
def queued (p : SignalProcess) (i : Nat) : Nat :=
  p.signals.signals.queued i + p.mainThreadSignals.signals.queued i + (p.threads.map fun t => t.signals.signals.queued i).sum

def queuedOf (p : SignalProcess) (sigs : List Nat) (i : Nat) : Nat :=
  p.signals.signals.queuedOf sigs i + p.mainThreadSignals.signals.queuedOf sigs i +
    (p.threads.map fun t => t.signals.signals.queuedOf sigs i).sum

theorem getTimer_eq (p : SignalProcess) (timerId : UInt32) : p.getTimer timerId = p.slot timerId.toNat := rfl

variable {timer : PosixTimerState} {timerId : UInt32}

theorem slot_setTimer (p : SignalProcess) (h : p.getTimer timerId = some timer) (timer' : Option PosixTimerState) (i : Nat) :
    (p.setTimer timerId timer').slot i = if timerId.toNat = i then timer' else p.slot i := by
  have hlt : timerId.toNat < p.posixTimers.length := by
    rcases Nat.lt_or_ge timerId.toNat p.posixTimers.length with hlt | hge
    · exact hlt
    · rw [getTimer, getElem?_eq_none hge] at h
      cases h
  simp only [slot, setTimer, getElem?_set, hlt]
  split <;> rfl

variable {ts : List ThreadInfo}

variable {signum : Nat}

theorem total_add (p : SignalProcess) (f g : Pending → Nat) : (p.total fun q => f q + g q) = p.total f + p.total g := by
  simp only [total, sum_map_add]
  omega

theorem queued_clearSignal (p : SignalProcess) (hs : validSignum signum) (i : Nat) :
    p.queued i = (p.clearSignalEverywhere signum).queued i + p.queuedOf [signum] i :=
  calc
    p.queued i = p.total fun q => (q.clearPending signum).queued i + q.queuedOf [signum] i :=
      congrArg p.total (funext fun q => q.queued_clearPending hs i)
    _ = (p.clearSignalEverywhere signum).total (·.queued i) + p.total (·.queuedOf [signum] i) := by
      rw [total_add, total_clearSignal]

variable {sigs : List Nat}

theorem queuedOf_clearSignal (p : SignalProcess) (hs : signum ∉ sigs) (i : Nat) :
    (p.clearSignalEverywhere signum).queuedOf sigs i = p.queuedOf sigs i :=
  (p.total_clearSignal signum (·.queuedOf sigs i)).trans
    (congrArg p.total (funext fun q => q.queuedOf_clearPending sigs hs i))

theorem queuedOf_cons (p : SignalProcess) (hs : signum ∉ sigs) (i : Nat) :
    p.queuedOf (signum :: sigs) i = p.queuedOf [signum] i + p.queuedOf sigs i :=
  (congrArg p.total (funext fun q => q.queuedOf_cons hs i)).trans (p.total_add _ _)

theorem queued_clearSignals (hnodup : sigs.Nodup) (hvalid : ∀ s ∈ sigs, validSignum s) (i : Nat)
    (p : SignalProcess) : p.queued i = (sigs.foldl clearSignalEverywhere p).queued i + p.queuedOf sigs i := by
  induction sigs generalizing p with
  | nil =>
    have hnone : ∀ q : Pending, q.queuedOf [] i = 0 := by
      intro q
      rw [Pending.queuedOf]
      simp
    simp [queuedOf, hnone]
  | cons s sigs ih =>
    obtain ⟨hs, hrest⟩ := nodup_cons.mp hnodup
    have hstep := p.queued_clearSignal (hvalid s mem_cons_self) i
    have hih := ih hrest (fun t ht => hvalid t (mem_cons_of_mem s ht)) (p.clearSignalEverywhere s)
    rw [queuedOf_clearSignal p hs] at hih
    rw [foldl_cons, queuedOf_cons p hs]
    omega

/-- The signals that generating this one takes out of the queues. -/
def discardedBy (signum : Nat) : List Nat :=
  if signum = sigcont then stopSignals else if signum ∈ stopSignals then [sigcont] else []

theorem posixTimers_prepare (p : SignalProcess) (signum : Nat) : (p.prepareSignalGeneration signum).posixTimers = p.posixTimers :=
  prepare_keeps (P := fun q => q.posixTimers = p.posixTimers) rfl signum (fun _ _ h => h) fun _ h => h

theorem queued_prepare (p : SignalProcess) (signum : Nat) (i : Nat) :
    p.queued i = (p.prepareSignalGeneration signum).queued i + p.queuedOf (discardedBy signum) i := by
  have hnil : p.queuedOf [] i = 0 := by
    have := p.queued_clearSignals nodup_nil (by simp) i
    rw [foldl_nil] at this
    omega
  have hstop : p.queued i = (stopSignals.foldl clearSignalEverywhere p).queued i + p.queuedOf stopSignals i :=
    p.queued_clearSignals (by decide) (by decide) i
  have hcont : p.queued i = (p.clearSignalEverywhere sigcont).queued i + p.queuedOf [sigcont] i :=
    p.queued_clearSignal (by decide) i
  simp only [prepareSignalGeneration, discardedBy, recordContinue]
  split
  · rename_i hinvalid
    rw [if_neg, if_neg, hnil]
    · rfl
    · intro hmem
      revert hinvalid
      revert signum
      decide
    · intro heq
      rw [heq] at hinvalid
      revert hinvalid
      decide
  · split
    · split
      · exact hstop
      · exact hstop
    split
    · exact hcont
    · rw [hnil]
      rfl

variable {tid : Nat} {p : SignalProcess}

theorem queued_updateDirected {d : PerThreadSignalState} (hd : p.directedFor tid = some d)
    (f : PerThreadSignalState → PerThreadSignalState) (i : Nat) :
    (p.updateDirected tid f).queued i + d.signals.queued i = p.queued i + (f d).signals.queued i :=
  total_updateDirected hd f (·.queued i)

theorem posixTimers_updateDirected (p : SignalProcess) (tid : Nat) (f : PerThreadSignalState → PerThreadSignalState) :
    (p.updateDirected tid f).posixTimers = p.posixTimers := by
  simp only [updateDirected]
  split <;> rfl

/-! ## Timers whose flag is right -/

/-- The flag of timer `i` says whether one notification of it is queued; there is
never more than one, and none for a slot without a timer. -/
structure Right (p : SignalProcess) (i : Nat) : Prop where
  exact : ∀ b, p.flag i = some b → (b ↔ p.queued i = 1)
  single : p.queued i ≤ 1
  owned : p.flag i = none → p.queued i = 0

/-- Nothing is queued for the timer and its flag is clear. -/
theorem Right.of_clear {p : SignalProcess} {i : Nat} (hq : p.queued i = 0) (hf : p.flag i ≠ some true) : p.Right i :=
  ⟨fun b hb => by cases b <;> simp_all, by omega, fun _ => hq⟩

/-- A timer that is right has its flag kept while `lost` of its notifications go, or is
right again. -/
def Changes (p p' : SignalProcess) (lost : Nat → Nat) : Prop :=
  ∀ i, (p'.flag i = p.flag i ∧ p.queued i = p'.queued i + lost i) ∨ (p.Right i → lost i = 0 ∧ p'.Right i)

variable {p' : SignalProcess} {lost : Nat → Nat}

theorem Changes.keeps (h : Changes p p' lost) (hp : ∀ i, p.Right i) : ∀ i, p'.queued i ≤ 1 ∧ (p'.flag i = none → p'.queued i = 0) := by
  intro i
  have hright := hp i
  rcases h i with ⟨hflag, hqueued⟩ | hagain
  · refine ⟨by have := hright.single; omega, fun hnone => ?_⟩
    have := hright.owned (hflag ▸ hnone)
    omega
  · exact ⟨(hagain hright).2.single, (hagain hright).2.owned⟩

/-- The flags stay right exactly if nothing is lost. -/
theorem Changes.right_iff (h : Changes p p' lost) (hp : ∀ i, p.Right i) : (∀ i, p'.Right i) ↔ ∀ i, lost i = 0 := by
  constructor
  · intro hp' i
    rcases h i with ⟨hflag, hqueued⟩ | hagain
    · by_contra hlost
      have hsingle := (hp i).single
      have hone : p.queued i = 1 := by omega
      cases hb : p.flag i with
      | none =>
        have := (hp i).owned hb
        omega
      | some b =>
        have hset : b := ((hp i).exact b hb).mpr hone
        have := ((hp' i).exact b (hflag.trans hb)).mp hset
        omega
    · exact (hagain (hp i)).1
  · intro hlost i
    rcases h i with ⟨hflag, hqueued⟩ | hagain
    · rw [hlost i, add_zero] at hqueued
      have hr := hp i
      exact ⟨fun b hb => hqueued ▸ hr.exact b (hflag ▸ hb), hqueued ▸ hr.single, fun hnone => hqueued ▸ hr.owned (hflag ▸ hnone)⟩
    · exact (hagain (hp i)).2

variable {p'' : SignalProcess}

/-- A change and then one of neither flags nor queues. -/
theorem Changes.congr (h : Changes p p' lost)
    (ht : p''.posixTimers = p'.posixTimers) (hq : ∀ i, p''.queued i = p'.queued i) : Changes p p'' lost := by
  have hflag : ∀ i, p''.flag i = p'.flag i := fun i => by simp [flag, slot, ht]
  intro i
  rcases h i with ⟨hf, hk⟩ | hagain
  · exact .inl ⟨(hflag i).trans hf, by rw [hq i]; exact hk⟩
  refine .inr fun hright => ⟨(hagain hright).1, ?_⟩
  obtain ⟨_, hexact, hsingle, howned⟩ := hagain hright
  exact ⟨fun b hb => by rw [hq i]; exact hexact b (hflag i ▸ hb), by rw [hq i]; exact hsingle,
    fun hnone => by rw [hq i]; exact howned (hflag i ▸ hnone)⟩

theorem Changes.sameQueues (h : Changes p p' lost) (hs : SameQueues p' p'') : Changes p p'' lost :=
  h.congr hs.timers fun i => congrFun hs.total (·.queued i)

section

variable (p : SignalProcess)

theorem Changes.refl : Changes p p fun _ => 0 := fun _ => .inl ⟨rfl, rfl⟩

theorem changes_prepare (signum : Nat) : Changes p (p.prepareSignalGeneration signum) (p.queuedOf (discardedBy signum)) :=
  fun i => .inl ⟨by simp [flag, slot, posixTimers_prepare], p.queued_prepare signum i⟩

/-! ## Generation -/

theorem queued_raiseInternal (s : SignalState) (signum : Nat) (value : UInt64) (code : Int32) (pid uid : UInt32) (i : Nat) :
    (s.raiseInternal signum value code pid uid).2.signals.queued i = s.signals.queued i := by
  simp only [SignalState.raiseInternal]
  split
  · rfl
  split
  · rfl
  · exact Pending.queued_queueSignal _ rfl i

theorem queued_raiseInternal_thread (t : PerThreadSignalState) (signum : Nat) (value : UInt64) (code : Int32)
    (pid uid : UInt32) (i : Nat) : (t.raiseInternal signum value code pid uid).2.signals.queued i = t.signals.queued i := by
  simp only [raiseInternal]
  split
  · rfl
  · exact Pending.queued_queueSignal _ rfl i

/-- A raise for the process that is no timer's. -/
theorem changes_raiseShared (signum : Nat) (raise : SignalState → Bool × SignalState)
    (hraise : ∀ s i, (raise s).2.signals.queued i = s.signals.queued i) :
    Changes p (p.raiseShared signum raise).2 (p.queuedOf (discardedBy signum)) := by
  refine (p.changes_prepare signum).congr rfl fun i => ?_
  simp [raiseShared, queued, hraise]

/-- What a directed raise comes down to: nothing, or the signal is prepared and then
dropped or put in the queue of the thread. -/
theorem raiseDirected_cases (tid signum : Nat) (raise : PerThreadSignalState → Bool × PerThreadSignalState) :
    (p.raiseDirected tid signum raise = (false, p) ∧ (validSignum signum = false ∨ p.knows tid = false)) ∨ p.knows tid ∧
        ((p.raiseDirected tid signum raise).2 = p.prepareSignalGeneration signum ∨ (p.raiseDirected tid signum raise).2 =
            (p.prepareSignalGeneration signum).updateDirected tid fun t => (raise t).2) := by
  simp only [raiseDirected]
  split
  · rename_i hs
    exact .inl ⟨rfl, .inl (by simpa using hs)⟩
  split
  · rename_i hknown
    exact .inl ⟨rfl, .inr (by simpa using hknown)⟩
  rename_i hknown
  refine .inr ⟨by simpa using hknown, ?_⟩
  split
  · exact .inl rfl
  · exact .inr rfl

/-! ## The threads stay -/

/-- The same process with the same threads. -/
def SameThreads (p p' : SignalProcess) : Prop := p'.pid = p.pid ∧ p'.tids = p.tids

theorem SameThreads.refl : SameThreads p p := ⟨rfl, rfl⟩

end

theorem SameThreads.trans (h : SameThreads p p') (h' : SameThreads p' p'') : SameThreads p p'' :=
  ⟨h'.1.trans h.1, h'.2.trans h.2⟩

theorem knows_iff (p : SignalProcess) (tid : Nat) : p.knows tid ↔ tid = 0 ∨ tid = p.pid ∨ tid ∈ p.tids := by
  simp only [knows, isMainThread, getThread, tids, Bool.or_eq_true, beq_iff_eq, find?_isSome, mem_map, or_assoc]

theorem SameThreads.knows (h : SameThreads p p') (tid : Nat) : p'.knows tid = p.knows tid := by
  rw [Bool.eq_iff_iff, knows_iff, knows_iff, h.1, h.2]

section

variable (p : SignalProcess)

theorem isSome_directedFor (tid : Nat) : (p.directedFor tid).isSome = p.knows tid := by
  simp only [directedFor, knows]
  split_ifs with hmain
  · rw [hmain]
    rfl
  · rw [Option.isSome_map, eq_false_of_ne_true hmain, Bool.false_or]

theorem sameThreads_updateDirected (tid : Nat) (f : PerThreadSignalState → PerThreadSignalState) :
    SameThreads p (p.updateDirected tid f) := by
  simp only [updateDirected]
  split
  · exact ⟨rfl, rfl⟩
  · refine ⟨rfl, ?_⟩
    exact updateFirst_map (f := fun t => { t with signals := f t.signals }) (g := ThreadInfo.tid) tid (fun _ => rfl) p.threads

theorem sameThreads_clearSignal (signum : Nat) : SameThreads p (p.clearSignalEverywhere signum) := by
  refine ⟨rfl, ?_⟩
  simp [tids, clearSignalEverywhere, clearDirectedSignal]

theorem sameThreads_prepare (signum : Nat) : SameThreads p (p.prepareSignalGeneration signum) :=
  prepare_keeps (.refl p) signum (fun q s h => h.trans (q.sameThreads_clearSignal s)) fun _ h => h

/-- A directed raise that is no timer's. -/
theorem changes_raiseDirected (tid signum : Nat) (raise : PerThreadSignalState → Bool × PerThreadSignalState)
    (hraise : ∀ t i, (raise t).2.signals.queued i = t.signals.queued i) : Changes p (p.raiseDirected tid signum raise).2
      fun i => if p.knows tid then p.queuedOf (discardedBy signum) i else 0 := by
  rcases p.raiseDirected_cases tid signum raise with ⟨hsame, hwhy⟩ | ⟨hknown, hprep | hupd⟩
  · rw [hsame]
    have hzero : ∀ i, (if p.knows tid then p.queuedOf (discardedBy signum) i else 0) = 0 := by
      intro i
      split_ifs with hknown
      · rcases hwhy with hinvalid | hunknown
        · have := p.queued_prepare signum i
          rw [prepareSignalGeneration, hinvalid] at this
          simpa using this
        · rw [hunknown] at hknown
          cases hknown
      · rfl
    exact fun i => .inl ⟨rfl, (congrArg (p.queued i + ·) (hzero i)).symm⟩
  · rw [hprep]
    simp only [hknown]
    exact p.changes_prepare signum
  · rw [hupd]
    simp only [hknown]
    refine (p.changes_prepare signum).congr (posixTimers_updateDirected _ tid _) fun i => ?_
    have hthere : ((p.prepareSignalGeneration signum).directedFor tid).isSome := by
      rw [isSome_directedFor, (p.sameThreads_prepare signum).knows, hknown]
    obtain ⟨d, hd⟩ := Option.isSome_iff_exists.mp hthere
    have := queued_updateDirected hd (fun t => (raise t).2) i
    rw [hraise] at this
    omega

end

/-! ## Consumption -/

theorem flag_setTimer (h : p.getTimer timerId = some timer) (timer' : Option PosixTimerState) (i : Nat) :
    (p.setTimer timerId timer').flag i = if timerId.toNat = i then timer'.map (·.notificationPending) else p.flag i := by
  rw [flag, slot_setTimer p h]
  split <;> rfl

theorem queued_accept (p : SignalProcess) (timerId : UInt32) (i : Nat) :
    (p.acceptPosixTimerNotification timerId).2.queued i = p.queued i := by
  obtain ⟨ts, h⟩ := p.accept_eq timerId
  rw [h]
  rfl

/-- A timer that is told has its flag cleared. -/
theorem flag_accept (p : SignalProcess) (timerId : UInt32) (i : Nat) : (p.acceptPosixTimerNotification timerId).2.flag i =
      if timerId.toNat = i then (p.flag i).map fun _ => false else p.flag i := by
  simp only [acceptPosixTimerNotification]
  split
  · rename_i hnone
    split_ifs with hi
    · rw [getTimer_eq, hi] at hnone
      rw [flag, hnone]
      rfl
    · rfl
  rename_i timer hsome
  have hself : ∀ hi : timerId.toNat = i, p.flag i = some timer.notificationPending := by
    intro hi
    rw [flag, ← hi, ← getTimer_eq, hsome]
    rfl
  split
  · rename_i hpending
    split_ifs with hi
    · rw [hself hi]
      simpa using hpending
    · rfl
  rw [flag_setTimer hsome]
  split_ifs with hi
  · rw [hself hi]
    rfl
  · rfl

/-- A notification left the queues and its timer is told. -/
theorem changes_acceptConsumed {info : PendingSignalInfo} (ht : p'.posixTimers = p.posixTimers)
    (hq : ∀ i, p.queued i = p'.queued i + (info.ofTimer i).toNat) : Changes p (p'.acceptConsumed info) fun _ => 0 := by
  have hflag : ∀ i, p'.flag i = p.flag i := fun i => by simp [flag, slot, ht]
  intro i
  cases hid : info.timerId with
  | none =>
    have hqi := hq i
    have hnot : info.ofTimer i = false := by rw [PendingSignalInfo.ofTimer, hid]; rfl
    rw [hnot] at hqi
    simp only [acceptConsumed, hid]
    exact .inl ⟨hflag i, hqi⟩
  | some timerId =>
    have hqi := hq i
    have hof : info.ofTimer i = decide (timerId.toNat = i) := by
      rw [PendingSignalInfo.ofTimer, hid, Option.map_some, Bool.eq_iff_iff, beq_iff_eq, Option.some.injEq, decide_eq_true_eq]
    rw [hof] at hqi
    simp only [acceptConsumed, hid]
    by_cases hi : timerId.toNat = i
    · rw [decide_eq_true hi, Bool.toNat_true] at hqi
      refine .inr fun hright => ⟨trivial, .of_clear ?_ ?_⟩
      · have := hright.single
        rw [queued_accept]
        omega
      · simp [flag_accept, hi]
    · rw [decide_eq_false hi] at hqi
      refine .inl ⟨?_, by rw [queued_accept]; exact hqi⟩
      rw [flag_accept, if_neg hi, hflag]

theorem consumeSignalFor_cases (p : SignalProcess) (tid signum : Nat) : p.consumeSignalFor tid signum = (none, p) ∨
      ∃ info, (p.consumeSignalFor tid signum).1 = some info ∧ SameThreads p (p.consumeSignalFor tid signum).2 ∧
        (p.consumeSignalFor tid signum).2.posixTimers = p.posixTimers ∧
        ∀ i, p.queued i = (p.consumeSignalFor tid signum).2.queued i + (info.ofTimer i).toNat := by
  simp only [consumeSignalFor]
  split
  · exact .inl rfl
  rename_i directed hd
  split
  · refine .inr ⟨_, rfl, sameThreads_updateDirected p tid _, posixTimers_updateDirected p tid _, fun i => ?_⟩
    have := queued_updateDirected hd (fun t => (t.consumeOneInfo signum).2) i
    have := directed.signals.queued_consume signum i
    simp only [consumeOneInfo] at *
    omega
  split
  · exact .inl rfl
  refine .inr ⟨_, rfl, .refl p, rfl, fun i => ?_⟩
  have := p.signals.signals.queued_consume signum i
  simp only [SignalState.consumeOne, queued] at *
  omega

theorem changes_takeSignalFor (p : SignalProcess) (tid : Nat) (mask : BitVec 64) :
    Changes p (p.takeSignalFor tid mask).2 fun _ => 0 := by
  simp only [takeSignalFor]
  split
  · exact .refl p
  split
  · exact .refl p
  rcases p.consumeSignalFor_cases tid (Pending.trailingZeros (p.pendingFor tid &&& mask) + 1) with hnone | ⟨info, hinfo, _, ht, hq⟩
  · rw [hnone]
    exact .refl p
  · rw [hinfo]
    exact changes_acceptConsumed ht hq

theorem changes_dequeueSignalFor (p : SignalProcess) (tid signum : Nat) (hnot : ¬(p.state = .stopped ∧ signum = sigkill)) :
    Changes p (p.dequeueSignalFor tid signum) fun _ => 0 := by
  simp only [dequeueSignalFor, if_neg hnot]
  rcases p.consumeSignalFor_cases tid signum with hnone | ⟨info, hinfo, _, ht, hq⟩
  · rw [hnone]
    exact .refl p
  · rw [hinfo]
    exact changes_acceptConsumed ht hq

/-! ## Dispositions -/

theorem foldl_accept (ids : List UInt32) (p : SignalProcess) (i : Nat) :
    let p' := ids.foldl (fun p timerId => (p.acceptPosixTimerNotification timerId).2) p
    p'.queued i = p.queued i ∧ p'.flag i = if i ∈ ids.map toNat then (p.flag i).map fun _ => false else p.flag i := by
  induction ids generalizing p with
  | nil => exact ⟨rfl, by simp⟩
  | cons id ids ih =>
    obtain ⟨hq, hf⟩ := ih (p.acceptPosixTimerNotification id).2
    rw [queued_accept] at hq
    rw [flag_accept] at hf
    refine ⟨hq, hf.trans ?_⟩
    by_cases hi : id.toNat = i
    · rw [if_pos (by simp [hi] : i ∈ (id :: ids).map toNat)]
      split
      · rw [Option.map_map]
        rfl
      · rfl
    · have hmem : (i ∈ (id :: ids).map toNat) = (i ∈ ids.map toNat) := by
        rw [map_cons, mem_cons, eq_false (Ne.symm hi), false_or]
      rw [if_neg hi]
      simp only [hmem]

variable {i : Nat}

theorem mem_timerIds {q : Pending} : i ∈ ((q.rtQueue.filter fun e => e.signum == signum).filterMap (·.timerId)).map toNat ↔
      0 < q.queuedOf [signum] i := by
  simp only [Pending.queuedOf, countP_pos_iff, mem_map, mem_filterMap, mem_filter, beq_iff_eq,
    ofTimer, Option.map_eq_some_iff, Bool.and_eq_true, mem_singleton, decide_eq_true_eq]
  constructor
  · rintro ⟨id, ⟨e, ⟨he, hs⟩, hid⟩, hi⟩
    exact ⟨e, he, ⟨id, hid, hi⟩, hs⟩
  · rintro ⟨e, he, ⟨id, hid, hi⟩, hs⟩
    exact ⟨id, ⟨e, ⟨he, hs⟩, hid⟩, hi⟩

theorem mem_pendingTimerIds : i ∈ (p.pendingTimerIds signum).map toNat ↔ 0 < p.queuedOf [signum] i := by
  have hthreads : i ∈ ((p.threads.map fun t =>
        (t.signals.signals.rtQueue.filter fun e => e.signum == signum).filterMap (·.timerId)).flatten).map toNat ↔
      0 < (p.threads.map fun t => t.signals.signals.queuedOf [signum] i).sum := by
    simp only [List.sum_pos_iff_exists_pos_nat, ← mem_timerIds, map_flatten, mem_flatten, mem_map, exists_exists_and_eq_and]
  simp only [pendingTimerIds, queuedOf, map_append, mem_append, mem_timerIds, hthreads]
  omega

section

variable (p : SignalProcess)

section

variable (hs : validSignum signum)

include hs

/-- Every timer whose notification is discarded is told. -/
theorem changes_discardPendingSignal : Changes p (p.discardPendingSignal signum) fun _ => 0 := by
  intro i
  obtain ⟨hq, hf⟩ := foldl_accept (p.pendingTimerIds signum) (p.clearSignalEverywhere signum) i
  have hclear := p.queued_clearSignal hs i
  by_cases hmem : i ∈ (p.pendingTimerIds signum).map toNat
  · rw [if_pos hmem] at hf
    have hpos := mem_pendingTimerIds.mp hmem
    refine .inr fun hright => ⟨rfl, .of_clear ?_ ?_⟩
    · have := hright.single
      rw [discardPendingSignal]
      omega
    · simp [discardPendingSignal, hf]
  · rw [if_neg hmem] at hf
    have hnone : ¬0 < p.queuedOf [signum] i := fun hpos => hmem (mem_pendingTimerIds.mpr hpos)
    have hkept : p.queued i = (p.discardPendingSignal signum).queued i := by
      rw [discardPendingSignal]
      omega
    exact .inl ⟨hf, hkept⟩

theorem queuedOf_clearSignal_self (i : Nat) : (p.clearSignalEverywhere signum).queuedOf [signum] i = 0 := by
  have hzero : ∀ q : Pending, (q.clearPending signum).queuedOf [signum] i = 0 := by
    intro q
    rw [Pending.queuedOf, Pending.clearPending, if_pos hs, countP_eq_zero]
    intro e he
    have hne := (mem_filter.mp he).2
    simp only [bne_iff_ne] at hne
    simp [hne]
  refine (p.total_clearSignal signum (·.queuedOf [signum] i)).trans ?_
  simp only [total, hzero, sum_map_zero, add_zero]

theorem queuedOf_discard (i : Nat) : (p.discardPendingSignal signum).queuedOf [signum] i = 0 := by
  refine List.foldlRecOn (motive := fun q : SignalProcess => q.queuedOf [signum] i = 0) (p.pendingTimerIds signum) _
    (p.queuedOf_clearSignal_self hs i) fun q hq id _ => ?_
  obtain ⟨ts, h⟩ := q.accept_eq id
  rw [h]
  exact hq

end

theorem changes_setDisposition {sig : Nat} {handler : SignalHandler}
    {set : SignalState → Bool × SignalState} (hset : ∀ s, SignalState.Sets sig handler s (set s).2) :
    Changes p (p.setDisposition sig handler set).2 fun _ => 0 := by
  simp only [setDisposition]
  split
  · exact .refl p
  rename_i hinvalid
  have hs : validSignum sig := by simpa using hinvalid
  split
  · exact .refl p
  by_cases hdiscard : shouldDiscardPending sig handler
  · simp only [hdiscard, if_true]
    have hdisc := p.changes_discardPendingSignal hs
    have hnone := p.queuedOf_discard hs
    generalize p.discardPendingSignal sig = q at hdisc hnone ⊢
    simp only [queuedOf] at hnone
    have hagain : ∀ {s : Pending} {i}, s.queuedOf [sig] i = 0 → (s.clearPending sig).queued i = s.queued i := by
      intro s i h
      have := s.queued_clearPending hs i
      omega
    have hset' : ∀ i, (set q.signals).2.signals.queued i = q.signals.signals.queued i := by
      intro i
      have hzero := hnone i
      rcases (hset q.signals).signals with hsame | ⟨_, hclear⟩
      · rw [hsame]
      · rw [hclear]
        exact hagain (by omega)
    have hchanges : Changes p { q with signals := (set q.signals).2 } fun _ => 0 :=
      hdisc.congr rfl fun i => by simp [queued, hset' i]
    split
    · exact hchanges
    refine hchanges.congr rfl fun i => ?_
    have hzero := hnone i
    have hthreads : q.threads.map (fun t => (t.signals.signals.clearPending sig).queued i) =
        q.threads.map fun t => t.signals.signals.queued i :=
      List.map_congr_left fun t ht => hagain (List.sum_eq_zero_iff_forall_eq_nat.mp
        (Nat.eq_zero_of_add_eq_zero_left hzero) _ (mem_map_of_mem ht))
    simp only [clearDirectedSignal, queued, clearPending, map_map, Function.comp_def, hthreads]
    rw [hagain (s := q.mainThreadSignals.signals) (by omega)]
  · simp only [hdiscard, Bool.false_eq_true, if_false]
    have hsame : ∀ s, (set s).2.signals = s.signals := fun s => (hset s).signals.resolve_right fun h => hdiscard h.1
    have hchanges : Changes p { p with signals := (set p.signals).2 } fun _ => 0 :=
      (Changes.refl p).congr rfl fun i => by simp [queued, hsame]
    split
    · exact hchanges
    · exact hchanges

theorem changes_sysSigaction (sig : Nat) (action : SignalAction) : Changes p (p.sysSigaction sig action).2 fun _ => 0 :=
  p.changes_setDisposition fun s => s.setAction_snd sig action ▸ s.sets_dispose ..

theorem changes_sysSignal (sig : Nat) (handler : SignalHandler) : Changes p (p.sysSignal sig handler).2 fun _ => 0 :=
  p.changes_setDisposition fun s => s.setHandler_snd sig handler ▸ s.sets_dispose ..

/-! ## Timers fire -/

theorem getHandler_prepare (signum s : Nat) : (p.prepareSignalGeneration signum).signals.getHandler s = p.signals.getHandler s :=
  prepare_keeps (P := fun q => q.signals.getHandler s = p.signals.getHandler s) rfl signum (fun _ _ h => h) fun _ h => h

end

/-- This expiry queues a notification. -/
def fires (p : SignalProcess) (timer : PosixTimerState) : Bool :=
  timer.sigevNotify != .none && !shouldDiscardPending timer.sigevSigno (p.signals.getHandler timer.sigevSigno) &&
    !timer.notificationPending

/-- The timer raises a signal, and one that is directed at a thread has it. -/
def Armed (p : SignalProcess) (timer : PosixTimerState) : Prop :=
  timer.sigevNotify ≠ .none → validSignum timer.sigevSigno ∧ (timer.sigevNotify = .threadId → p.knows timer.sigevTid)

theorem changes_of_fired (htimer : p.getTimer timerId = some timer) (hpending : timer.notificationPending = false)
    (ht : p'.posixTimers = (p.setTimer timerId (some { timer with notificationPending := true })).posixTimers)
    (hle : ∀ i, lost i ≤ p.queued i)
    (hq : ∀ i, p'.queued i + lost i = p.queued i + if timerId.toNat = i then 1 else 0) : Changes p p' lost := by
  have hflag : ∀ i, p'.flag i = if timerId.toNat = i then some true else p.flag i := by
    intro i
    refine Eq.trans ?_ (flag_setTimer htimer (some { timer with notificationPending := true }) i)
    simp [flag, slot, ht]
  intro i
  have hqi := hq i
  have hfi := hflag i
  by_cases hi : timerId.toNat = i
  · rw [if_pos hi] at hqi hfi
    refine .inr fun hright => ?_
    have hfalse : p.flag i = some false := by
      rw [flag, ← hi, ← getTimer_eq, htimer, Option.map_some, hpending]
    have hnone : p.queued i ≠ 1 := fun hone => Bool.false_ne_true ((hright.exact false hfalse).mpr hone)
    have hsingle := hright.single
    have hlost := hle i
    have hone : p'.queued i = 1 := by omega
    refine ⟨by omega, fun b hb => ?_, by omega, fun hnot => ?_⟩
    · rw [hfi, Option.some.injEq] at hb
      rw [← hb, hone]
      decide
    · rw [hfi] at hnot
      cases hnot
  · rw [if_neg hi] at hqi hfi
    exact .inl ⟨hfi, by omega⟩

theorem queued_raiseTimer (s : SignalState) (hs : validSignum signum) (value : UInt64) (timerId : UInt32) (i : Nat) :
    (s.raiseTimer signum value timerId).2.signals.queued i = s.signals.queued i + if timerId.toNat = i then 1 else 0 := by
  simp only [SignalState.raiseTimer, hs]
  exact s.signals.queued_queueTimer signum value timerId i

theorem queued_raiseTimer_thread (t : PerThreadSignalState) (hs : validSignum signum) (value : UInt64) (timerId : UInt32) (i : Nat) :
    (t.raiseTimer signum value timerId).2.signals.queued i = t.signals.queued i + if timerId.toNat = i then 1 else 0 := by
  simp only [raiseTimer, hs]
  exact t.signals.queued_queueTimer signum value timerId i

/-- A directed timer signal is queued with its thread. -/
theorem raiseTimerForThread_spec (hs : validSignum signum)
    (hknown : p.knows tid) (hkeep : shouldDiscardPending signum (p.signals.getHandler signum) = false)
    (value : UInt64) (timerId : UInt32) :
    let r := p.raiseTimerForThread tid signum value timerId
    r.1 ∧ r.2.posixTimers = p.posixTimers ∧ SameThreads p r.2 ∧
      ∀ i, r.2.queued i + p.queuedOf (discardedBy signum) i = p.queued i + if timerId.toNat = i then 1 else 0 := by
  have hknown' : (p.prepareSignalGeneration signum).knows tid := by
    rw [(p.sameThreads_prepare signum).knows, hknown]
  rw [← isSome_directedFor] at hknown'
  obtain ⟨d, hd⟩ := Option.isSome_iff_exists.mp hknown'
  simp only [raiseTimerForThread, raiseDirected, hs, hknown, getHandler_prepare, hkeep, hd, Bool.not_true, Bool.false_eq_true,
    if_false, Option.map_some]
  refine ⟨?_, ?_, ?_, fun i => ?_⟩
  · simp [raiseTimer, hs]
  · rw [posixTimers_updateDirected, posixTimers_prepare]
  · exact (p.sameThreads_prepare signum).trans (sameThreads_updateDirected _ tid _)
  have hadd := queued_updateDirected hd (fun t => (t.raiseTimer signum value timerId).2) i
  have hprep := p.queued_prepare signum i
  rw [queued_raiseTimer_thread d hs] at hadd
  omega

/-- The notifications of other timers that an expiry takes out of the queues. -/
def lostByFire (p : SignalProcess) (timerId : UInt32) : Nat → Nat :=
  match p.getTimer timerId with
  | none => fun _ => 0
  | some timer => if p.fires timer then p.queuedOf (discardedBy timer.sigevSigno) else fun _ => 0

theorem queuedOf_discarded_le (p : SignalProcess) (signum i : Nat) : p.queuedOf (discardedBy signum) i ≤ p.queued i := by
  have := p.queued_prepare signum i
  omega

/-- An expiry that queues nothing. -/
theorem changes_not_fired (htimer : p.getTimer timerId = some timer) (hnot : p.fires timer = false) :
    Changes p (p.queuePosixTimerFire timerId).2 fun _ => 0 := by
  simp only [queuePosixTimerFire, htimer]
  split
  · exact .refl p
  rename_i hnotify
  split
  · exact .refl p
  rename_i hkeep
  split
  · intro i
    refine .inl ⟨?_, rfl⟩
    rw [flag_setTimer htimer]
    split_ifs with hi
    · rw [flag, ← hi, ← getTimer_eq, htimer, Option.map_some, Option.map_some]
    · rfl
  · rename_i hpending
    simp [fires, hnotify, hkeep, hpending] at hnot

/-- An expiry that queues a notification: the flag is set, and the queues have one more
and what the signal discards less. -/
theorem fire_spec (htimer : p.getTimer timerId = some timer) (hfires : p.fires timer) (harmed : p.Armed timer) :
    (p.queuePosixTimerFire timerId).2.posixTimers = (p.setTimer timerId (some { timer with notificationPending := true })).posixTimers ∧
      ∀ i, (p.queuePosixTimerFire timerId).2.queued i + p.queuedOf (discardedBy timer.sigevSigno) i =
        p.queued i + if timerId.toNat = i then 1 else 0 := by
  simp only [fires, Bool.and_eq_true, bne_iff_ne, Bool.not_eq_true'] at hfires
  obtain ⟨⟨hnotify, hkeep⟩, hpending⟩ := hfires
  obtain ⟨hs, hknown⟩ := harmed hnotify
  simp only [queuePosixTimerFire, htimer, hnotify, hkeep, hpending, if_false, Bool.false_eq_true]
  split
  · simp only [raiseProcessTimer, hs, Bool.not_true, Bool.false_eq_true, if_false, raiseShared]
    refine ⟨posixTimers_prepare _ timer.sigevSigno, fun i => ?_⟩
    generalize hq : p.setTimer timerId (some { timer with notificationPending := true }) = q
    have hprep := queued_prepare q timer.sigevSigno i
    have hraise := queued_raiseTimer (q.prepareSignalGeneration timer.sigevSigno).signals hs timer.sigevValueBits timerId i
    have hsame : q.queued i = p.queued i := hq ▸ rfl
    have hsameOf : q.queuedOf (discardedBy timer.sigevSigno) i = p.queuedOf (discardedBy timer.sigevSigno) i := hq ▸ rfl
    rw [hsame] at hprep
    rw [hprep]
    simp only [queued]
    omega
  · rename_i hmode
    obtain ⟨hok, htimers, _, hq⟩ := raiseTimerForThread_spec
      (p := p.setTimer timerId (some { timer with notificationPending := true })) hs (hknown hmode) hkeep
      timer.sigevValueBits timerId
    rw [if_pos hok]
    exact ⟨htimers, hq⟩
  · rename_i hmode
    exact absurd hmode hnotify

theorem changes_fire (harmed : ∀ timer, p.getTimer timerId = some timer → p.Armed timer) :
    Changes p (p.queuePosixTimerFire timerId).2 (p.lostByFire timerId) := by
  cases htimer : p.getTimer timerId with
  | none =>
    simp only [queuePosixTimerFire, lostByFire, htimer]
    exact .refl p
  | some timer =>
    simp only [lostByFire, htimer]
    cases hfires : p.fires timer with
    | false => exact changes_not_fired htimer hfires
    | true =>
      obtain ⟨htimers, hq⟩ := fire_spec htimer hfires (harmed timer htimer)
      simp only [fires, Bool.and_eq_true, Bool.not_eq_true'] at hfires
      exact changes_of_fired htimer hfires.2 htimers (p.queuedOf_discarded_le timer.sigevSigno) hq

/-! ## Timers are created and deleted -/

theorem changes_timerCreate (p : SignalProcess) (clockKnown : Bool) (event : Option Sigevent) (room : Bool) :
    Changes p (p.timerCreate clockKnown event room).2 fun _ => 0 := by
  have hfresh : ∀ {p' : SignalProcess} {j : Nat}, p.flag j = none → p'.flag j = some false →
      (∀ i, i ≠ j → p'.flag i = p.flag i) → (∀ i, p'.queued i = p.queued i) → Changes p p' fun _ => 0 := by
    intro p' j hnone hnew hflag hq i
    by_cases hi : i = j
    · refine .inr fun hright => ⟨rfl, .of_clear ((hq i).trans (hright.owned (hi ▸ hnone))) ?_⟩
      simp [hi, hnew]
    · exact .inl ⟨hflag i hi, (hq i).symm⟩
  simp only [timerCreate]
  iterate 3 (split; · exact .refl p)
  simp only [allocPosixTimer]
  split
  · rename_i j hj
    obtain ⟨hlt, hfree, _⟩ := findIdx?_eq_some_iff_getElem.mp hj
    refine hfresh (j := j) ?_ ?_ (fun i hi => ?_) fun _ => rfl
    · simp only [flag, slot, getElem?_eq_getElem hlt]
      rw [Option.isNone_iff_eq_none.mp hfree]
      rfl
    · simp only [flag, slot, getElem?_set_self hlt]
      rfl
    · simp [flag, slot, getElem?_set_ne (Ne.symm hi)]
  split
  · exact .refl p
  refine hfresh (j := p.posixTimers.length) ?_ ?_ (fun i hi => ?_) fun _ => rfl
  · simp only [flag, slot, getElem?_eq_none (Nat.le_refl _)]
    rfl
  · simp only [flag, slot, getElem?_concat_length]
    rfl
  simp only [flag, slot]
  rcases Nat.lt_or_gt_of_ne hi with hlt | hgt
  · rw [getElem?_append_left hlt]
  · rw [getElem?_append_right (Nat.le_of_lt hgt), getElem?_eq_none (Nat.le_of_lt hgt),
      getElem?_eq_none (by rw [length_singleton]; omega)]

theorem queued_removeNotification (p : SignalProcess) (timerId : UInt32) (i : Nat) :
    (p.removePosixTimerNotification timerId).queued i = if timerId.toNat = i then 0 else p.queued i := by
  simp only [removePosixTimerNotification, queued, SignalState.removeTimerNotification,
    removeTimerNotification, map_map, Function.comp_def, Pending.queued_removeTimer]
  split
  · rw [sum_map_zero, add_zero]
  · rfl

theorem changes_timerDelete (p : SignalProcess) (timerId : UInt32) : Changes p (p.timerDelete timerId).2 fun _ => 0 := by
  simp only [timerDelete]
  split
  · exact .refl p
  rename_i timer htimer
  intro i
  have hq := p.queued_removeNotification timerId i
  have hthere : (p.removePosixTimerNotification timerId).getTimer timerId = some timer := htimer
  have hf := flag_setTimer hthere none i
  by_cases hi : timerId.toNat = i
  · rw [if_pos hi] at hq hf
    exact .inr fun _ => ⟨rfl, .of_clear hq (by simp [hf])⟩
  · rw [if_neg hi] at hq hf
    exact .inl ⟨hf, hq.symm⟩

/-! ## Delivery -/

/-- Killing a stopped process clears SIGKILL from every queue. -/
def lostByKill (p : SignalProcess) (tid : Nat) : Nat → Nat :=
  if p.state = .stopped ∧ p.nextDeliverableSignal tid = some sigkill then p.queuedOf [sigkill] else fun _ => 0

theorem changes_dequeue (hnext : p.nextDeliverableSignal tid = some signum) :
    Changes p (p.dequeueSignalFor tid signum) (p.lostByKill tid) := by
  simp only [lostByKill, hnext, Option.some.injEq]
  split_ifs with hkill
  · rw [dequeueSignalFor, if_pos hkill, hkill.2]
    exact fun i => .inl ⟨rfl, p.queued_clearSignal (by decide) i⟩
  · exact p.changes_dequeueSignalFor tid signum hkill

theorem lostByKill_none (hnext : p.nextDeliverableSignal tid = none) : p.lostByKill tid = fun _ => 0 := by
  rw [lostByKill, if_neg]
  rw [hnext]
  exact fun h => nomatch h.2

theorem changes_deliverTurn (p : SignalProcess) (tid : Nat)
    (hdefault : (p.signals.getAction sigkill).handler = .default) : Changes p (p.deliverTurn tid).2 (p.lostByKill tid) := by
  simp only [deliverTurn]
  split
  · rename_i hnone
    rw [lostByKill_none hnone]
    exact .refl p
  rename_i signum hnext
  split
  · rename_i hhandler
    rw [lostByKill, if_neg]
    · exact .refl p
    rintro ⟨_, hkill⟩
    rw [hnext, Option.some.injEq] at hkill
    rw [hkill, hdefault] at hhandler
    cases hhandler
  · exact (changes_dequeue hnext).sameQueues (sameQueues_applyDefault _ signum)
  · exact changes_dequeue hnext

theorem changes_dequeueTurn (p : SignalProcess) (tid : Nat)
    (hdefault : (p.signals.getAction sigkill).handler = .default) : Changes p (p.dequeueTurn tid).2 (p.lostByKill tid) := by
  simp only [dequeueTurn]
  split
  · rename_i hnone
    rw [lostByKill_none hnone]
    exact .refl p
  rename_i signum hnext
  split
  · exact (changes_dequeue hnext).sameQueues (sameQueues_installMask _ tid _ signum)
  · exact p.changes_deliverTurn tid hdefault

end SignalProcess

end Kandelo.Signal

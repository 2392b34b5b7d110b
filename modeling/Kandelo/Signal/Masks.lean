/-
The signal masks of a process: every system call that swaps, restores or inherits
one (`syscalls.rs`, `process_table.rs`).

SIGKILL and SIGSTOP cannot be blocked. The calls that take a mask from the program
filter the two out; this module follows the masks through waits, handlers, `fork`,
`exec` and threads, which only hand on masks they found. A handler's own mask and
the mask of a spawn attribute are taken as they come.
-/
import Kandelo.Signal.Frame

namespace Kandelo.Signal

open List

/-- The signals that cannot be blocked. -/
def unblockable : BitVec 64 := sigBit sigkill ||| sigBit sigstop

def withoutUnblockable (mask : BitVec 64) : BitVec 64 := mask &&& ~~~unblockable

namespace SignalProcess

/-! ## System calls on masks -/

/-- `sys_sigprocmask`: SIG_BLOCK is 0, SIG_UNBLOCK 1 and SIG_SETMASK 2. -/
def sysSigprocmask (p : SignalProcess) (tid how : Nat) (set : BitVec 64) : Except Errno (BitVec 64) × SignalProcess :=
  let oldMask := p.blockedFor tid
  let install := fun newMask => (.ok oldMask, (p.setBlockedFor tid (withoutUnblockable newMask)).2)
  match how with
  | 0 => install (oldMask ||| set)
  | 1 => install (oldMask &&& ~~~set)
  | 2 => install set
  | _ => (.error .EINVAL, p)

/-- The dispatch, which takes a call that succeeds for the return from a handler. -/
def kernelSigprocmask (p : SignalProcess) (tid how : Nat) (set : BitVec 64) : Except Errno (BitVec 64) × SignalProcess :=
  let r := p.sysSigprocmask tid how set
  match r.1 with
  | .error e => (.error e, r.2)
  | .ok old => (.ok old, r.2.acknowledgeCaughtHandlerMaskRestoreFor tid)

def sysSigsuspendWithKind (p : SignalProcess) (tid : Nat) (mask : BitVec 64) (kind : SignalMaskWaitKind) : Errno × SignalProcess :=
  let p' := p.enterSignalMaskWaitFor tid kind (withoutUnblockable mask)
  (if p'.deliverableFor tid ≠ 0 then .EINTR else .EAGAIN, p')

def sysSigsuspend (p : SignalProcess) (tid : Nat) (mask : BitVec 64) : Errno × SignalProcess :=
  p.sysSigsuspendWithKind tid mask .sigsuspend

def sysPause (p : SignalProcess) (tid : Nat) : Errno × SignalProcess := p.sysSigsuspendWithKind tid (p.blockedFor tid) .pause

/-- A poll under a mask: `ppoll` and `pselect6` differ in the kind of their wait. What
polling answers is an argument. -/
def pollWithMask (p : SignalProcess) (tid : Nat) (kind : SignalMaskWaitKind) (mask : Option (BitVec 64))
    (polled : Except Errno Nat) : Except Errno Nat × SignalProcess :=
  match mask with
  | none => (polled, p)
  | some newMask =>
    let p' := p.enterSignalMaskWaitFor tid kind (withoutUnblockable newMask)
    if p'.deliverableFor tid ≠ 0 then (.error .EINTR, p')
    else
      match polled with
      | .error .EAGAIN => (polled, p')
      | _ => (polled, (p'.finishSignalMaskWaitFor tid kind).2)

def sysPpoll (p : SignalProcess) (tid : Nat) (mask : Option (BitVec 64)) (polled : Except Errno Nat) :
    Except Errno Nat × SignalProcess :=
  p.pollWithMask tid .ppoll mask polled

def sysPselect6 (p : SignalProcess) (tid : Nat) (mask : Option (BitVec 64)) (polled : Except Errno Nat) :
    Except Errno Nat × SignalProcess :=
  p.pollWithMask tid .pselect mask polled

/-- `epoll_pwait` ends its wait on every answer but a park and an interruption, also one
the host had installed the mask of. -/
def sysEpollPwait (p : SignalProcess) (tid : Nat) (mask : Option (BitVec 64)) (polled : Except Errno Nat) :
    Except Errno Nat × SignalProcess :=
  let p' := match mask with
    | none => p
    | some newMask => p.enterSignalMaskWaitFor tid .epollPwait (withoutUnblockable newMask)
  match polled with
  | .error .EAGAIN | .error .EINTR => (polled, p')
  | _ => (polled, (p'.finishSignalMaskWaitFor tid .epollPwait).2)

def kernelSwapPollSigmask (p : SignalProcess) (tid : Nat) (mask : BitVec 64) : SignalProcess :=
  p.enterSignalMaskWaitFor tid .epollPwait (withoutUnblockable mask)

def kernelRestorePollSigmask (p : SignalProcess) (tid : Nat) : SignalProcess :=
  if p.deliverableFor tid = 0 then (p.finishSignalMaskWaitFor tid .epollPwait).2 else p

/-! ## Inheritance -/

/-- The signals of a fork child: the dispositions of the parent, the mask of the
thread that forked, and nothing pending. -/
def forkChild (p : SignalProcess) (callerTid childPid : Nat) : SignalProcess :=
  { new childPid with signals := SignalState.fromActions p.signals.actions (p.blockedFor callerTid) }

/-- The attributes of `posix_spawn` that are about signals. -/
structure SpawnSignalAttrs where
  flags : UInt32
  sigdef : BitVec 64
  sigmask : BitVec 64

def attrSetsigdef : UInt32 := 0x04
def attrSetsigmask : UInt32 := 0x08

/-- The handler of each signal that `which` picks is set, where it can be. -/
def setHandlers (handler : SignalHandler) (which : Nat → Bool) (s : SignalState) : SignalState :=
  (List.range' 1 64).foldl (fun s sig => if which sig then (s.setHandler sig handler).2 else s) s

/-- The signals of a spawned child: ignored signals stay ignored, and the attributes are
applied in their order. -/
def spawnChild (p : SignalProcess) (callerTid childPid : Nat) (attrs : SpawnSignalAttrs) : SignalProcess :=
  let s := { SignalState.new with blocked := p.blockedFor callerTid }
  let s := setHandlers .ignore (fun sig => p.signals.getHandler sig == .ignore) s
  let s := if attrs.flags &&& attrSetsigmask ≠ 0 then { s with blocked := attrs.sigmask } else s
  let s := if attrs.flags &&& attrSetsigdef ≠ 0 then setHandlers .default (fun sig => attrs.sigdef.getLsbD (sig - 1)) s else s
  { new childPid with signals := s }

/-- `commit_exec_state`: the thread that called becomes the only one. -/
def commitExecState (p : SignalProcess) (callerTid : Option Nat) : Except Errno Unit × SignalProcess :=
  if p.state = .exited ∨ p.state = .limbo then (.error .ESRCH, p)
  else
    let replace := fun (p : SignalProcess) =>
      let p := { p with signals := p.signals.resetDispositionsForExec, threads := [], frames := HandlerFrames.new }
      let p := (List.range p.posixTimers.length).foldl
        (fun p timerId => p.removePosixTimerNotification (UInt32.ofNat timerId)) p
      { p with posixTimers := [] }
    match callerTid with
    | none => (.ok (), replace p)
    | some tid =>
      if tid = 0 ∨ tid = p.pid then (.ok (), replace p)
      else
        match p.getThread tid with
        | none => (.error .ESRCH, p)
        | some caller => (.ok (), replace { p with
            signals := { p.signals with blocked := caller.signals.blocked }
            mainThreadSignals := caller.signals })

/-- `swap_remove` of the thread with this id: the last one takes its place. -/
def swapRemove (tid : Nat) : List ThreadInfo → List ThreadInfo
  | [] => []
  | t :: ts =>
    if t.tid == tid then
      match ts.getLast? with
      | none => []
      | some last => last :: ts.dropLast
    else t :: swapRemove tid ts

def removeThread (p : SignalProcess) (tid : Nat) : SignalProcess := { p with threads := swapRemove tid p.threads }

/-! ## Masks without the two -/

/-- The mask blocks neither of the two. -/
def Clear (mask : BitVec 64) : Prop := mask &&& unblockable = 0

instance (mask : BitVec 64) : Decidable (Clear mask) := inferInstanceAs (Decidable (_ = _))

theorem clear_iff {m : BitVec 64} : Clear m ↔ m.getLsbD 8 = false ∧ m.getLsbD 18 = false := by
  have hbit : ∀ i, unblockable.getLsbD i = (decide (i = 8) || decide (i = 18)) := by
    intro i
    rw [unblockable, BitVec.getLsbD_or, getLsbD_sigBit (by decide), getLsbD_sigBit (by decide)]
    rfl
  constructor
  · intro h
    have hget : ∀ i, (m.getLsbD i && unblockable.getLsbD i) = false := by
      intro i
      rw [← BitVec.getLsbD_and, h]
      exact BitVec.getLsbD_zero
    have h8 := hget 8
    have h18 := hget 18
    exact ⟨(Bool.and_true _).symm.trans h8, (Bool.and_true _).symm.trans h18⟩
  intro h
  apply BitVec.eq_of_getLsbD_eq
  intro i _
  rw [BitVec.getLsbD_and, hbit]
  by_cases h8 : i = 8
  · rw [h8, h.1]
    rfl
  by_cases h18 : i = 18
  · rw [h18, h.2]
    rfl
  · simp [h8, h18]

theorem clear_or {m n : BitVec 64} : Clear (m ||| n) ↔ Clear m ∧ Clear n := by
  simp only [clear_iff, BitVec.getLsbD_or, Bool.or_eq_false_iff]
  exact ⟨fun h => ⟨⟨h.1.1, h.2.1⟩, h.1.2, h.2.2⟩, fun h => ⟨⟨h.1.1, h.2.1⟩, h.1.2, h.2.2⟩⟩

theorem clear_withoutUnblockable (m : BitVec 64) : Clear (withoutUnblockable m) := by
  rw [Clear, withoutUnblockable, BitVec.and_assoc, BitVec.and_comm (~~~unblockable)]
  exact BitVec.and_zero

variable {signum : Nat}

theorem clear_sigBit (hs : validSignum signum) (hkill : signum ≠ sigkill) (hstop : signum ≠ sigstop) : Clear (sigBit signum) := by
  simp only [sigkill, sigstop] at hkill hstop
  rw [clear_iff, getLsbD_sigBit hs, getLsbD_sigBit hs, decide_eq_false_iff_not, decide_eq_false_iff_not]
  omega

/-- No thread blocks one of the two. -/
def Unblocked (p : SignalProcess) : Prop := ∀ m ∈ p.masks, Clear m.2.1

/-- Nor does any mask a wait will restore. -/
def Saved (p : SignalProcess) : Prop := ∀ m ∈ p.masks, ∀ wait ∈ m.2.2.maskWaits, Clear wait.savedMask

/-- What every call keeps: the saved masks, the threads there are, and the two
dispositions nothing can set. -/
structure Framed (ids : Nat × List Nat) (p : SignalProcess) : Prop where
  saved : p.Saved
  ids_eq : p.ids = ids
  fixed : p.fixedHandlers = (.default, .default)

structure Masked (ids : Nat × List Nat) (p : SignalProcess) : Prop extends Framed ids p where
  unblocked : p.Unblocked

variable {i : Nat × List Nat} {p p' : SignalProcess}

theorem Framed.quiet (h : Framed i p) (hq : Quiet p p') : Framed i p' := by
  have hmasks := hq.masks
  simp only [masks, List.cons.injEq, Prod.mk.injEq] at hmasks
  refine ⟨?_, ?_, hq.fixed.trans h.fixed⟩
  · rw [Saved, hq.masks]
    exact h.saved
  have htids := congrArg (List.map Prod.fst) hmasks.2
  rw [← h.ids_eq]
  exact Prod.ext hmasks.1.1 (by simpa only [ids, tids, map_map, Function.comp_def] using htids)

theorem Masked.quiet (h : Masked i p) (hq : Quiet p p') : Masked i p' := by
  refine ⟨h.toFramed.quiet hq, ?_⟩
  rw [Unblocked, hq.masks]
  exact h.unblocked

theorem Framed.knows (h : Framed i p) (h' : Framed i p') (tid : Nat) : p'.knows tid = p.knows tid :=
  SameThreads.knows (Prod.mk.inj (h'.ids_eq.trans h.ids_eq.symm)) tid

theorem SameQueues.framed (hs : SameQueues p p') (h : Framed i p) (hsaved : p'.Saved) : Framed i p' := by
  refine ⟨hsaved, hs.ids.trans h.ids_eq, .trans ?_ h.fixed⟩
  simp only [fixedHandlers, SignalState.getAction, hs.actions]

variable {tid : Nat} {f : ThreadInfo → ThreadInfo}

theorem mem_updateFirst {t : ThreadInfo} {ts : List ThreadInfo} (h : t ∈ updateFirst tid f ts) : t ∈ ts ∨ ∃ u ∈ ts, t = f u := by
  induction ts with
  | nil => cases h
  | cons u ts ih =>
    simp only [updateFirst] at h
    split at h
    · rcases mem_cons.mp h with h | h
      · exact .inr ⟨u, mem_cons_self, h⟩
      · exact .inl (mem_cons_of_mem u h)
    rcases mem_cons.mp h with h | h
    · exact .inl (h ▸ mem_cons_self)
    rcases ih h with h | ⟨v, hv, heq⟩
    · exact .inl (mem_cons_of_mem u h)
    · exact .inr ⟨v, mem_cons_of_mem u hv, heq⟩

variable {m : Nat × BitVec 64 × HandlerFrames}

/-- One edit of the main thread's masks or of another thread's. -/
theorem mem_masks_edit (edit : Nat × BitVec 64 × HandlerFrames → Nat × BitVec 64 × HandlerFrames) {q : SignalProcess}
    (hq : q.masks = edit (p.pid, p.signals.blocked, p.frames) :: p.masks.tail)
    (hf : ∀ t, ((f t).tid, (f t).signals.blocked, (f t).frames) = edit (t.tid, t.signals.blocked, t.frames))
    {main : Prop} [Decidable main] (h : m ∈ (if main then q else p.updateThread tid f).masks) :
    m ∈ p.masks ∨ ∃ m₀ ∈ p.masks, m = edit m₀ := by
  split at h
  · rcases mem_cons.mp (hq ▸ h) with rfl | h
    · exact .inr ⟨_, mem_cons_self, rfl⟩
    · exact .inl (mem_cons_of_mem _ h)
  rcases mem_cons.mp h with rfl | h
  · exact .inl mem_cons_self
  obtain ⟨t, ht, rfl⟩ := mem_map.mp h
  rcases mem_updateFirst ht with ht | ⟨u, hu, rfl⟩
  · exact .inl (mem_cons_of_mem _ (mem_map_of_mem ht))
  · exact .inr ⟨_, mem_cons_of_mem _ (mem_map_of_mem hu), hf u⟩

theorem mem_masks_setBlocked {mask : BitVec 64} (h : m ∈ (p.setBlockedFor tid mask).2.masks) :
    m ∈ p.masks ∨ ∃ m₀ ∈ p.masks, m = (m₀.1, mask, m₀.2.2) := by
  simp only [setBlockedFor, apply_ite Prod.snd] at h
  exact mem_masks_edit (fun m => (m.1, mask, m.2.2)) rfl (fun _ => rfl) h

variable {frames : HandlerFrames}

theorem mem_masks_setFrames (h : m ∈ (p.setFramesFor tid frames).masks) : m ∈ p.masks ∨ ∃ m₀ ∈ p.masks, m = (m₀.1, m₀.2.1, frames) :=
  mem_masks_edit (fun m => (m.1, m.2.1, frames)) rfl (fun _ => rfl) h

theorem Framed.setBlocked (h : Framed i p) (tid : Nat) (mask : BitVec 64) : Framed i (p.setBlockedFor tid mask).2 := by
  refine (p.sameQueues_setBlocked tid mask).framed h fun m hmem => ?_
  rcases mem_masks_setBlocked hmem with hm | ⟨m₀, hm, rfl⟩
  exacts [h.saved m hm, h.saved m₀ hm]

theorem Masked.setBlocked (h : Masked i p) (tid : Nat) {mask : BitVec 64} (hm : Clear mask) :
    Masked i (p.setBlockedFor tid mask).2 := by
  refine ⟨h.toFramed.setBlocked tid mask, fun m hmem => ?_⟩
  rcases mem_masks_setBlocked hmem with hold | ⟨m₀, _, rfl⟩
  · exact h.unblocked m hold
  · exact hm

theorem Framed.setFrames (h : Framed i p) (tid : Nat)
    (hf : ∀ wait ∈ frames.maskWaits, Clear wait.savedMask) : Framed i (p.setFramesFor tid frames) := by
  refine (p.sameQueues_setFrames tid frames).framed h fun m hmem => ?_
  rcases mem_masks_setFrames hmem with hm | ⟨m₀, _, rfl⟩
  · exact h.saved m hm
  · exact hf

theorem Masked.setFrames (h : Masked i p) (tid : Nat)
    (hf : ∀ wait ∈ frames.maskWaits, Clear wait.savedMask) : Masked i (p.setFramesFor tid frames) := by
  refine ⟨h.toFramed.setFrames tid hf, fun m hmem => ?_⟩
  rcases mem_masks_setFrames hmem with hm | ⟨m₀, hm, rfl⟩
  exacts [h.unblocked m hm, h.unblocked m₀ hm]

variable {p : SignalProcess}

theorem mem_masks_of_thread {t : ThreadInfo} (h : p.getThread tid = some t) : (t.tid, t.signals.blocked, t.frames) ∈ p.masks :=
  mem_cons_of_mem _ (mem_map_of_mem (mem_of_find?_eq_some h))

/-- The mask of a thread the process has. -/
theorem Unblocked.blockedFor (h : p.Unblocked) (hk : p.knows tid) : Clear (p.blockedFor tid) := by
  simp only [SignalProcess.blockedFor]
  split_ifs with hmain
  · exact h _ mem_cons_self
  simp only [knows, hmain] at hk
  obtain ⟨t, ht⟩ := Option.isSome_iff_exists.mp hk
  rw [ht]
  exact h _ (mem_masks_of_thread ht)

theorem Saved.framesFor (h : p.Saved) (hf : p.framesFor tid = some frames) : ∀ wait ∈ frames.maskWaits, Clear wait.savedMask := by
  simp only [SignalProcess.framesFor] at hf
  split at hf
  · cases hf
    exact h _ mem_cons_self
  · obtain ⟨t, ht, rfl⟩ := Option.map_eq_some_iff.mp hf
    exact h _ (mem_masks_of_thread ht)

theorem knows_of_framesFor (hf : p.framesFor tid = some frames) : p.knows tid := by
  simp only [framesFor] at hf
  split_ifs at hf with hmain
  · rw [knows, hmain, Bool.true_or]
  · obtain ⟨t, ht, _⟩ := Option.map_eq_some_iff.mp hf
    rw [knows, ht, Option.isSome_some, Bool.or_true]

/-! ## Each call keeps them so -/

section

variable (h : Masked i p)

include h

theorem Masked.enterWait (tid : Nat) (kind : SignalMaskWaitKind) {newMask : BitVec 64}
    (hm : Clear newMask) : Masked i (p.enterSignalMaskWaitFor tid kind newMask) := by
  simp only [enterSignalMaskWaitFor]
  split
  · exact h
  rename_i frames hframes
  have hsaved := h.saved.framesFor hframes
  split
  · split
    · exact h
    rename_i wait waits hwaits
    rw [hwaits] at hsaved
    refine h.setFrames tid fun w hw => ?_
    rcases mem_cons.mp hw with rfl | hw
    · exact hsaved wait mem_cons_self
    · exact hsaved w (mem_cons_of_mem wait hw)
  · refine (h.setFrames tid fun w hw => ?_).setBlocked tid hm
    rcases mem_cons.mp hw with rfl | hw
    · exact h.unblocked.blockedFor (knows_of_framesFor hframes)
    · exact hsaved w hw

variable {waits : List SignalMaskWaitContext}

/-- The wait on top is over, and its mask restored. -/
theorem Masked.popWait (hframes : p.framesFor tid = some frames) {wait : SignalMaskWaitContext}
    (hwaits : frames.maskWaits = wait :: waits) :
    Masked i ((p.setFramesFor tid { frames with maskWaits := waits }).setBlockedFor tid wait.savedMask).2 := by
  have hsaved := h.saved.framesFor hframes
  rw [hwaits] at hsaved
  exact (h.setFrames tid fun w hw => hsaved w (mem_cons_of_mem wait hw)).setBlocked tid (hsaved wait mem_cons_self)

section

variable (tid : Nat)

theorem Masked.finishWait (kind : SignalMaskWaitKind) : Masked i (p.finishSignalMaskWaitFor tid kind).2 := by
  simp only [finishSignalMaskWaitFor]
  split
  · exact h
  rename_i frames hframes
  split
  · exact h
  rename_i wait waits hwaits
  split
  · exact h.popWait hframes hwaits
  · exact h

theorem Masked.sigreturn : Masked i (p.returnFromCaughtHandlerFor tid).2 := by
  simp only [returnFromCaughtHandlerFor]
  split
  · exact h
  rename_i frames hframes
  have hsaved := h.saved.framesFor hframes
  split
  · exact h
  · exact h.setFrames tid hsaved

theorem Masked.acknowledge : Masked i (p.acknowledgeCaughtHandlerMaskRestoreFor tid) := by
  simp only [acknowledgeCaughtHandlerMaskRestoreFor]
  split
  · exact h
  rename_i frames hframes
  have hsaved := h.saved.framesFor hframes
  exact h.setFrames tid hsaved

theorem Masked.cancelWait : Masked i (p.cancelSignalMaskWaitFor tid).2 := by
  simp only [cancelSignalMaskWaitFor]
  split
  · exact h
  rename_i frames hframes
  have hsaved := h.saved.framesFor hframes
  split
  · split
    · rename_i wait waits hwaits
      split
      · exact h.setFrames tid fun w hw => hsaved w (hwaits ▸ mem_cons_of_mem wait hw)
      · exact h.setFrames tid hsaved
    · exact h.setFrames tid hsaved
  split
  · rename_i wait waits hwaits
    iterate 2 (split; · exact h.popWait hframes hwaits)
    · exact h
  · exact h

theorem Masked.sigprocmask (tid how : Nat) (set : BitVec 64) : Masked i (p.kernelSigprocmask tid how set).2 := by
  have hset : Masked i (p.sysSigprocmask tid how set).2 := by
    simp only [sysSigprocmask]
    split
    · exact h.setBlocked tid (clear_withoutUnblockable _)
    · exact h.setBlocked tid (clear_withoutUnblockable _)
    · exact h.setBlocked tid (clear_withoutUnblockable _)
    · exact h
  simp only [kernelSigprocmask]
  split
  · exact hset
  · exact hset.acknowledge tid

theorem Masked.poll (kind : SignalMaskWaitKind) (mask : Option (BitVec 64))
    (polled : Except Errno Nat) : Masked i (p.pollWithMask tid kind mask polled).2 := by
  simp only [pollWithMask]
  split
  · exact h
  rename_i newMask
  have henter := h.enterWait tid kind (clear_withoutUnblockable newMask)
  split
  · exact henter
  split
  · exact henter
  · exact henter.finishWait tid kind

theorem Masked.epoll (mask : Option (BitVec 64)) (polled : Except Errno Nat) : Masked i (p.sysEpollPwait tid mask polled).2 := by
  have henter : Masked i (match mask with
      | none => p
      | some newMask => p.enterSignalMaskWaitFor tid .epollPwait (withoutUnblockable newMask)) := by
    split
    · exact h
    · exact h.enterWait tid .epollPwait (clear_withoutUnblockable _)
  simp only [sysEpollPwait]
  split
  · exact henter
  · exact henter
  · exact henter.finishWait tid .epollPwait

theorem Masked.restorePoll : Masked i (p.kernelRestorePollSigmask tid) := by
  simp only [kernelRestorePollSigmask]
  split
  · exact h.finishWait tid .epollPwait
  · exact h

theorem Masked.applyDefault (signum : Nat) : Masked i (p.applyDefaultSignalAction signum).2 := by
  rcases p.applyDefault_cases signum with heq | heq | heq
  · rw [heq]
    exact h
  · have hmasks : p.terminateProcessBySignal.masks = p.masks.map fun m => (m.1, m.2.1, .new) := by
      simp [masks, terminateProcessBySignal]
    rw [heq]
    refine ⟨p.sameQueues_terminate.framed h.toFramed fun m hm => ?_, fun m hm => ?_⟩
    · rw [hmasks] at hm
      obtain ⟨_, _, rfl⟩ := mem_map.mp hm
      intro f hf
      cases hf
    · rw [hmasks] at hm
      obtain ⟨m₀, hm0, rfl⟩ := mem_map.mp hm
      exact h.unblocked m₀ hm0
  · rw [heq]
    exact h.quiet (.of_timers rfl rfl rfl)

theorem Masked.deliver : Masked i (p.deliverTurn tid).2 := by
  simp only [deliverTurn]
  split
  · exact h
  rename_i signum _
  split
  · exact h
  · exact (h.quiet (p.quiet_dequeue tid signum)).applyDefault signum
  · exact h.quiet (p.quiet_dequeue tid signum)

end

end

/-! ## A handler is run -/

theorem find?_updateFirst (hf : ∀ t, (f t).tid = t.tid) (ts : List ThreadInfo) :
    (updateFirst tid f ts).find? (fun t => t.tid == tid) = (ts.find? fun t => t.tid == tid).map f := by
  induction ts with
  | nil => rfl
  | cons t ts ih =>
    simp only [updateFirst]
    split_ifs with ht
    · have hft : ((f t).tid == tid) := by rw [hf]; exact ht
      rw [find?_cons, find?_cons, hft, ht]
      rfl
    · rw [find?_cons, find?_cons, eq_false_of_ne_true ht]
      exact ih

/-- The thread has the mask it was given. -/
theorem exists_mask_setBlocked (hk : p.knows tid) (mask : BitVec 64) : ∃ m ∈ (p.setBlockedFor tid mask).2.masks, m.2.1 = mask := by
  simp only [setBlockedFor]
  split_ifs with hmain
  · exact ⟨_, mem_cons_self, rfl⟩
  simp only [knows, hmain] at hk
  obtain ⟨t, ht⟩ := Option.isSome_iff_exists.mp hk
  have hfind : (p.updateThread tid fun t => { t with signals := { t.signals with blocked := mask } }).getThread tid =
      some { t with signals := { t.signals with blocked := mask } } :=
    (find?_updateFirst (f := fun t => { t with signals := { t.signals with blocked := mask } }) (fun _ => rfl) p.threads).trans
      (by rw [show p.threads.find? (fun t => t.tid == tid) = some t from ht]; rfl)
  exact ⟨_, mem_masks_of_thread hfind, rfl⟩

theorem interruptWaits_saved (base : BitVec 64) (depth : Nat)
    (h : ∀ wait ∈ waits, Clear wait.savedMask) : ∀ wait ∈ (interruptWaits base depth waits).2, Clear wait.savedMask := by
  cases waits with
  | nil => exact nofun
  | cons wait waits =>
    simp only [interruptWaits]
    split
    · split
      · exact fun w hw => h w (mem_cons_of_mem wait hw)
      intro w hw
      rcases mem_cons.mp hw with rfl | hw
      · exact h wait mem_cons_self
      · exact h w (mem_cons_of_mem wait hw)
    · exact h

/-- The mask a handler runs under blocks one of the two exactly if its action does. -/
theorem Masked.install (h : Masked i p) (hk : p.knows tid) (actionMask : BitVec 64) (hsig : Clear (sigBit signum)) :
    Framed i (p.installCaughtHandlerMaskFor tid actionMask signum).2 ∧
      ((p.installCaughtHandlerMaskFor tid actionMask signum).2.Unblocked ↔ Clear actionMask) := by
  have hbase := h.unblocked.blockedFor hk
  have hiff : ∀ q : SignalProcess, Masked i q → q.knows tid →
      Framed i (q.setBlockedFor tid (p.blockedFor tid ||| actionMask ||| sigBit signum)).2 ∧
        ((q.setBlockedFor tid (p.blockedFor tid ||| actionMask ||| sigBit signum)).2.Unblocked ↔ Clear actionMask) := by
    intro q hq hqk
    refine ⟨hq.toFramed.setBlocked tid _, fun hu => ?_, fun hc => ?_⟩
    · obtain ⟨m, hm, heq⟩ := exists_mask_setBlocked hqk (p.blockedFor tid ||| actionMask ||| sigBit signum)
      have hclear := hu m hm
      rw [heq] at hclear
      exact (clear_or.mp (clear_or.mp hclear).1).2
    · exact (hq.setBlocked tid (clear_or.mpr ⟨clear_or.mpr ⟨hbase, hc⟩, hsig⟩)).unblocked
  simp only [installCaughtHandlerMaskFor]
  split
  · exact hiff p h hk
  rename_i frames hframes
  have hwaits := interruptWaits_saved (p.blockedFor tid) (nextDepth frames.caughtHandlerDepth) (h.saved.framesFor hframes)
  have hq : Masked i (p.setFramesFor tid { frames with
      caughtHandlerDepth := nextDepth frames.caughtHandlerDepth
      maskWaits := (interruptWaits (p.blockedFor tid) (nextDepth frames.caughtHandlerDepth) frames.maskWaits).2 }) :=
    h.setFrames tid hwaits
  exact hiff _ hq ((h.toFramed.knows hq.toFramed tid).trans hk)

/-- The mask of the handler that the next turn of `kernel_dequeue_signal` runs. -/
def caughtMask (p : SignalProcess) (tid : Nat) : Option (BitVec 64) :=
  match p.nextDeliverableSignal tid with
  | none => none
  | some signum =>
    match (p.signals.getAction signum).handler with
    | .handler _ => some (p.signals.getAction signum).mask
    | _ => none

theorem nextDeliverable_spec (h : p.nextDeliverableSignal tid = some signum) : p.knows tid ∧ validSignum signum := by
  simp only [nextDeliverableSignal] at h
  split at h
  · cases h
  rename_i hk
  refine ⟨by simpa using hk, ?_⟩
  split at h
  · split at h
    · cases h
      rfl
    · cases h
  split at h
  · cases h
  split at h
  · rename_i hlt
    cases h
    rw [validSignum_iff]
    exact ⟨Nat.succ_ne_zero _, hlt⟩
  · cases h

theorem Masked.dequeue (h : Masked i p) (tid : Nat) : Framed i (p.dequeueTurn tid).2 ∧
      ((p.dequeueTurn tid).2.Unblocked ↔ ¬∃ mask, p.caughtMask tid = some mask ∧ ¬Clear mask) := by
  simp only [dequeueTurn]
  split
  · rename_i hnext
    have hcaught : p.caughtMask tid = none := by simp [caughtMask, hnext]
    exact ⟨h.toFramed, fun _ => by simp [hcaught], fun _ => h.unblocked⟩
  rename_i signum hnext
  obtain ⟨hk, hvalid⟩ := nextDeliverable_spec hnext
  split
  · rename_i f hhandler
    have hcaught : p.caughtMask tid = some (p.signals.getAction signum).mask := by simp [caughtMask, hnext, hhandler]
    have hfixed := h.fixed
    simp only [fixedHandlers, Prod.mk.injEq] at hfixed
    have hkill : signum ≠ sigkill := by
      rintro rfl
      cases hfixed.1.symm.trans hhandler
    have hstop : signum ≠ sigstop := by
      rintro rfl
      cases hfixed.2.symm.trans hhandler
    have hq := h.quiet (p.quiet_dequeue tid signum)
    obtain ⟨hframed, hiff⟩ := hq.install ((h.toFramed.knows hq.toFramed tid).trans hk) (p.signals.getAction signum).mask
      (clear_sigBit hvalid hkill hstop)
    exact ⟨hframed, hiff.trans (by simp [hcaught])⟩
  · have hcaught : p.caughtMask tid = none := by
      simp [caughtMask, hnext]
    exact ⟨(h.deliver tid).toFramed, fun _ => by simp [hcaught], fun _ => (h.deliver tid).unblocked⟩

end SignalProcess

end Kandelo.Signal

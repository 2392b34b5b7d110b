/-
The masks of every process there is, over whole runs: processes are created, forked,
spawned and replaced by `exec`, threads come and go, and every signal call is made on
any of them.

`Rules` is what every call keeps; the masks of all threads stay free of SIGKILL and
SIGSTOP exactly as long as no handler is run with an action mask that has one of the
two, and no child is spawned with such a mask in its attributes.
-/
import Kandelo.Signal.Masks

namespace Kandelo.Signal

open Process (firstTaskId maxTaskId syntheticInitPid)
open Process.ProcessTable (findTaskId findTaskId_spec)

/-- A call on the signals of one process. -/
inductive ProcessOp
  | sigaction (sig : Nat) (action : SignalAction)
  | signal (sig : Nat) (handler : SignalHandler)
  | sigprocmask (tid how : Nat) (set : BitVec 64)
  | sigsuspend (tid : Nat) (mask : BitVec 64)
  | pause (tid : Nat)
  | ppoll (tid : Nat) (mask : Option (BitVec 64)) (polled : Except Errno Nat)
  | pselect6 (tid : Nat) (mask : Option (BitVec 64)) (polled : Except Errno Nat)
  | epollPwait (tid : Nat) (mask : Option (BitVec 64)) (polled : Except Errno Nat)
  | swapPollSigmask (tid : Nat) (mask : BitVec 64)
  | restorePollSigmask (tid : Nat)
  | cancelMaskWait (tid : Nat)
  | handlerReturn (tid : Nat)
  | raise (signum : Nat) (value : UInt64) (code : Int32) (senderPid senderUid : UInt32)
  | raiseForThread (tid signum : Nat) (value : UInt64) (code : Int32) (senderPid senderUid : UInt32)
  | sigtimedwait (tid : Nat) (mask : BitVec 64)
  | deliver (tid : Nat)
  | dequeue (tid : Nat)

namespace SignalProcess

def apply (p : SignalProcess) : ProcessOp → SignalProcess
  | .sigaction sig action => (p.sysSigaction sig action).2
  | .signal sig handler => (p.sysSignal sig handler).2
  | .sigprocmask tid how set => (p.kernelSigprocmask tid how set).2
  | .sigsuspend tid mask => (p.sysSigsuspend tid mask).2
  | .pause tid => (p.sysPause tid).2
  | .ppoll tid mask polled => (p.sysPpoll tid mask polled).2
  | .pselect6 tid mask polled => (p.sysPselect6 tid mask polled).2
  | .epollPwait tid mask polled => (p.sysEpollPwait tid mask polled).2
  | .swapPollSigmask tid mask => p.kernelSwapPollSigmask tid mask
  | .restorePollSigmask tid => p.kernelRestorePollSigmask tid
  | .cancelMaskWait tid => (p.cancelSignalMaskWaitFor tid).2
  | .handlerReturn tid => (p.returnFromCaughtHandlerFor tid).2
  | .raise signum value code senderPid senderUid => (p.raiseSignalWithMetadata signum value code senderPid senderUid).2
  | .raiseForThread tid signum value code senderPid senderUid =>
    (p.raiseForThreadWithMetadata tid signum value code senderPid senderUid).2
  | .sigtimedwait tid mask => (p.takeSignalFor tid mask).2
  | .deliver tid => (p.deliverTurn tid).2
  | .dequeue tid => (p.dequeueTurn tid).2

/-- The call runs a handler whose action masks one of the two. -/
def MasksKill (p : SignalProcess) : ProcessOp → Prop
  | .dequeue tid => ∃ mask, p.caughtMask tid = some mask ∧ ¬Clear mask
  | _ => False

/-- A pending SIGKILL can be delivered to some thread. -/
def KillDeliverable (p : SignalProcess) : Prop :=
  p.signalPendingAnywhere sigkill → ∃ tid, p.knows tid ∧ (p.deliverableFor tid).getLsbD (sigkill - 1)

/-- The ids of the threads tell them apart, from each other and from the main one. -/
structure WellNamed (ids : Nat × List Nat) : Prop where
  nodup : ids.2.Nodup
  zero : 0 ∉ ids.2
  main : ids.1 ∉ ids.2

theorem wellNamed_single (pid : Nat) : WellNamed (pid, []) := ⟨List.nodup_nil, nofun, nofun⟩

/-! ## What each call keeps -/

variable {p : SignalProcess} {i : Nat × List Nat}

theorem Masked.unblocked_iff (h : Masked i p) : p.Unblocked ↔ ¬False := ⟨fun _ => id, fun _ => h.unblocked⟩

theorem Masked.apply (h : Masked i p) (op : ProcessOp) : Framed i (p.apply op) ∧ ((p.apply op).Unblocked ↔ ¬p.MasksKill op) := by
  have hkept : ∀ {p' : SignalProcess}, Masked i p' → Framed i p' ∧ (p'.Unblocked ↔ ¬False) :=
    fun h' => ⟨h'.toFramed, h'.unblocked_iff⟩
  have hquiet : ∀ {p' : SignalProcess}, Quiet p p' → Framed i p' ∧ (p'.Unblocked ↔ ¬False) := fun hq => hkept (h.quiet hq)
  cases op with
  | sigaction sig action => exact hquiet (p.quiet_sysSigaction sig action)
  | signal sig handler => exact hquiet (p.quiet_sysSignal sig handler)
  | sigprocmask tid how set => exact hkept (h.sigprocmask tid how set)
  | sigsuspend tid mask => exact hkept (h.enterWait tid .sigsuspend (clear_withoutUnblockable mask))
  | pause tid => exact hkept (h.enterWait tid .pause (clear_withoutUnblockable (p.blockedFor tid)))
  | ppoll tid mask polled => exact hkept (h.poll tid .ppoll mask polled)
  | pselect6 tid mask polled => exact hkept (h.poll tid .pselect mask polled)
  | epollPwait tid mask polled => exact hkept (h.epoll tid mask polled)
  | swapPollSigmask tid mask => exact hkept (h.enterWait tid .epollPwait (clear_withoutUnblockable mask))
  | restorePollSigmask tid => exact hkept (h.restorePoll tid)
  | cancelMaskWait tid => exact hkept (h.cancelWait tid)
  | handlerReturn tid => exact hkept (h.sigreturn tid)
  | raise signum value code senderPid senderUid =>
    exact hquiet (p.quiet_raiseShared signum fun s => raiseInternal_quiet s signum value code senderPid senderUid)
  | raiseForThread tid signum value code senderPid senderUid =>
    exact hquiet (p.quiet_raiseDirected tid signum fun t => raiseInternal_blocked t signum value code senderPid senderUid)
  | sigtimedwait tid mask => exact hquiet (p.quiet_takeSignalFor tid mask)
  | deliver tid => exact hkept (h.deliver tid)
  | dequeue tid => exact h.dequeue tid

theorem find?_tid {ts : List ThreadInfo} (hn : (ts.map (·.tid)).Nodup) {t : ThreadInfo} (ht : t ∈ ts) :
    ts.find? (fun u => u.tid == t.tid) = some t := by
  induction ts with
  | nil => cases ht
  | cons u ts ih =>
    rw [List.map_cons, List.nodup_cons] at hn
    rcases List.mem_cons.mp ht with rfl | ht
    · exact List.find?_cons_of_pos (beq_self_eq_true t.tid)
    have hne : u.tid ≠ t.tid := fun h => hn.1 (h ▸ List.mem_map_of_mem ht)
    rw [List.find?_cons_of_neg (by simpa using hne)]
    exact ih hn.2 ht

/-- A thread with SIGKILL pending is found under its id, and does not block it. -/
theorem killDeliverable (hn : WellNamed p.ids) (hu : p.Unblocked) : p.KillDeliverable := by
  have hbit : ∀ q : Pending, q.bit sigkill = q.pending.getLsbD 8 := fun q => Pending.bit_eq (by decide)
  have hblocked : ∀ tid, p.knows tid → (p.blockedFor tid).getLsbD 8 = false := fun tid hk => (clear_iff.mp (hu.blockedFor hk)).1
  have hdeliver : ∀ tid directed, p.knows tid → p.directedFor tid = some directed →
      (p.signals.signals.pending ||| directed.signals.pending).getLsbD 8 →
      (p.deliverableFor tid).getLsbD (sigkill - 1) := by
    intro tid directed hk hd hpending
    simp only [deliverableFor, pendingFor, hd, Option.map_some, Option.getD_some]
    rw [BitVec.getLsbD_and, BitVec.getLsbD_not]
    simp only [sigkill]
    rw [hpending, hblocked tid hk]
    rfl
  intro hpending
  simp only [signalPendingAnywhere, Bool.and_eq_true, Bool.or_eq_true, List.any_eq_true, hbit] at hpending
  obtain ⟨_, (hshared | hmain) | ⟨t, ht, hthread⟩⟩ := hpending
  · refine ⟨0, rfl, hdeliver 0 p.mainThreadSignals rfl rfl ?_⟩
    rw [BitVec.getLsbD_or, hshared, Bool.true_or]
  · refine ⟨0, rfl, hdeliver 0 p.mainThreadSignals rfl rfl ?_⟩
    rw [BitVec.getLsbD_or, hmain, Bool.or_true]
  have htid : t.tid ∈ p.tids := List.mem_map_of_mem ht
  have hmain : p.isMainThread t.tid = false := by
    simp only [isMainThread, Bool.or_eq_false_iff, beq_eq_false_iff_ne]
    exact ⟨fun h => hn.zero (h ▸ htid), fun h => hn.main (show p.pid ∈ p.tids from h ▸ htid)⟩
  have hfind : p.getThread t.tid = some t := find?_tid hn.nodup ht
  have hk : p.knows t.tid := by simp [knows, hfind]
  refine ⟨t.tid, hk, hdeliver t.tid t.signals hk ?_ ?_⟩
  · simp [directedFor, hmain, hfind]
  · rw [BitVec.getLsbD_or, hthread, Bool.or_true]

/-! ## New processes and threads -/

/-- A process with only its main thread and these signals. -/
theorem framed_child (pid : Nat) {s : SignalState}
    (hkill : (s.getAction sigkill).handler = .default) (hstop : (s.getAction sigstop).handler = .default) :
    Framed (pid, []) { SignalProcess.new pid with signals := s } ∧
      (Unblocked { SignalProcess.new pid with signals := s } ↔ Clear s.blocked) := by
  refine ⟨⟨fun m hm => ?_, rfl, Prod.ext hkill hstop⟩, fun hu => hu _ List.mem_cons_self, fun hc m hm => ?_⟩
  · obtain rfl := List.mem_singleton.mp hm
    exact nofun
  · obtain rfl := List.mem_singleton.mp hm
    exact hc

theorem masked_new (pid : Nat) : Masked (pid, []) (SignalProcess.new pid) :=
  ⟨(framed_child pid (s := .new) rfl rfl).1, (framed_child pid (s := .new) rfl rfl).2.mpr rfl⟩

variable {callerTid : Nat}

theorem fork_spec (h : Masked i p) (hk : p.knows callerTid) (pid : Nat) : Masked (pid, []) (p.forkChild callerTid pid) := by
  have hfixed := h.fixed
  simp only [fixedHandlers, Prod.mk.injEq] at hfixed
  have hchild := framed_child pid (s := .fromActions p.signals.actions (p.blockedFor callerTid)) hfixed.1 hfixed.2
  exact ⟨hchild.1, hchild.2.mpr (h.unblocked.blockedFor hk)⟩

/-- Setting handlers changes neither the mask nor the two fixed dispositions. -/
theorem setHandlers_spec (handler : SignalHandler) (which : Nat → Bool) (s : SignalState) :
    let s' := setHandlers handler which s
    s'.blocked = s.blocked ∧ s'.getAction sigkill = s.getAction sigkill ∧ s'.getAction sigstop = s.getAction sigstop := by
  refine List.foldlRecOn (motive := fun s' : SignalState => s'.blocked = s.blocked ∧
    s'.getAction sigkill = s.getAction sigkill ∧ s'.getAction sigstop = s.getAction sigstop) (List.range' 1 64) _
    ⟨rfl, rfl, rfl⟩ fun s' h sig _ => ?_
  split
  · rw [SignalState.setHandler_snd]
    have hset := s'.sets_dispose sig handler { s'.getAction sig with handler := handler }
    exact ⟨hset.blocked.trans h.1, hset.kill.trans h.2.1, hset.stop.trans h.2.2⟩
  · exact h

/-- The mask of a spawned child is the caller's, or the one of the attributes. -/
theorem spawn_spec (h : Masked i p) (hk : p.knows callerTid) (pid : Nat) (attrs : SpawnSignalAttrs) :
    Framed (pid, []) (p.spawnChild callerTid pid attrs) ∧
      ((p.spawnChild callerTid pid attrs).Unblocked ↔ ¬(attrs.flags &&& attrSetsigmask ≠ 0 ∧ ¬Clear attrs.sigmask)) := by
  obtain ⟨hb1, hk1, hs1⟩ := setHandlers_spec .ignore (fun sig => p.signals.getHandler sig == .ignore)
    { SignalState.new with blocked := p.blockedFor callerTid }
  have hcaller := h.unblocked.blockedFor hk
  simp only [spawnChild]
  generalize setHandlers .ignore _ _ = s₁ at hb1 hk1 hs1
  obtain ⟨s₂, hs2, hb2, ha2⟩ : ∃ s₂, (if attrs.flags &&& attrSetsigmask ≠ 0 then { s₁ with blocked := attrs.sigmask } else s₁) = s₂ ∧
      (Clear s₂.blocked ↔ ¬(attrs.flags &&& attrSetsigmask ≠ 0 ∧ ¬Clear attrs.sigmask)) ∧
      ∀ sig, s₂.getAction sig = s₁.getAction sig := by
    refine ⟨_, rfl, ?_, ?_⟩
    · by_cases hflag : attrs.flags &&& attrSetsigmask ≠ 0
      · rw [if_pos hflag]
        exact ⟨fun hc hn => hn.2 hc, fun hn => not_not.mp fun hc => hn ⟨hflag, hc⟩⟩
      · rw [if_neg hflag, hb1]
        exact ⟨fun _ hn => hflag hn.1, fun _ => hcaller⟩
    · intro sig
      split <;> rfl
  rw [hs2]
  split
  · obtain ⟨hb3, hk3, hs3⟩ := setHandlers_spec .default (fun sig => attrs.sigdef.getLsbD (sig - 1)) s₂
    rw [← hb2, ← hb3]
    exact framed_child pid (by rw [hk3, ha2, hk1]; rfl) (by rw [hs3, ha2, hs1]; rfl)
  · rw [← hb2]
    exact framed_child pid (by rw [ha2, hk1]; rfl) (by rw [ha2, hs1]; rfl)

theorem reset_handler (s : SignalState) (sig : Nat) :
    (s.resetDispositionsForExec.getAction sig).handler = if (s.getAction sig).handler = .ignore then .ignore else .default := by
  simp only [SignalState.getAction, SignalState.resetDispositionsForExec]
  split
  · rfl
  rename_i hv
  have hpos : sig ≠ 0 := by
    rintro rfl
    exact hv rfl
  rw [Vector.getElem?_mapIdx]
  cases s.actions[sig]? with
  | none => rfl
  | some action => simp [if_neg hpos]

theorem removeTimers_eq (ids : List Nat) (p : SignalProcess) (h : p.threads = []) :
    ids.foldl (fun p timerId => p.removePosixTimerNotification (UInt32.ofNat timerId)) p = { p with
      signals := { p.signals with signals := p.signals.signals.removeTimers ids }
      mainThreadSignals := { p.mainThreadSignals with signals := p.mainThreadSignals.signals.removeTimers ids } } := by
  induction ids generalizing p with
  | nil => rfl
  | cons id ids ih =>
    rw [List.foldl_cons, ih _ (by simp [removePosixTimerNotification, h])]
    simp only [removePosixTimerNotification, h]
    rfl

/-- The thread that calls `exec` goes on as the only one. -/
theorem commitExecState_cases (p : SignalProcess) (callerTid : Option Nat) : (∃ e, p.commitExecState callerTid = (.error e, p)) ∨
    ∃ caller, p.directedFor (callerTid.getD 0) = some caller ∧ p.commitExecState callerTid = (.ok (), { p with
      signals := { p.signals.resetDispositionsForExec with
        blocked := p.blockedFor (callerTid.getD 0)
        signals := p.signals.signals.removeTimers (List.range p.posixTimers.length) }
      mainThreadSignals := { caller with signals := caller.signals.removeTimers (List.range p.posixTimers.length) }
      frames := HandlerFrames.new
      threads := []
      posixTimers := [] }) := by
  simp only [commitExecState, removeTimers_eq, directedFor, blockedFor]
  split
  · exact .inl ⟨_, rfl⟩
  split
  · exact .inr ⟨_, rfl, rfl⟩
  simp only [Option.getD_some, isMainThread, Bool.or_eq_true, beq_iff_eq]
  split
  · exact .inr ⟨_, rfl, rfl⟩
  split
  · exact .inl ⟨_, rfl⟩
  rename_i caller hcaller
  simp only [hcaller]
  exact .inr ⟨_, rfl, rfl⟩

/-- The thread that called `exec` is the only one, with the mask it had. -/
theorem exec_spec (h : Masked p.ids p) (hn : WellNamed p.ids) (callerTid : Option Nat) :
    let p' := (p.commitExecState callerTid).2
    Masked p'.ids p' ∧ WellNamed p'.ids := by
  rcases p.commitExecState_cases callerTid with ⟨e, heq⟩ | ⟨caller, hcaller, heq⟩
  · rw [heq]
    exact ⟨h, hn⟩
  rw [heq]
  have hfixed := h.fixed
  simp only [fixedHandlers, Prod.mk.injEq] at hfixed
  have hreset : ∀ sig, (p.signals.getAction sig).handler = .default →
      (p.signals.resetDispositionsForExec.getAction sig).handler = .default := by
    intro sig hsig
    rw [reset_handler, hsig]
    rfl
  have hk : p.knows (callerTid.getD 0) := by rw [← isSome_directedFor, hcaller, Option.isSome_some]
  refine ⟨⟨⟨fun m hm => ?_, rfl, Prod.ext (hreset _ hfixed.1) (hreset _ hfixed.2)⟩, fun m hm => ?_⟩, wellNamed_single p.pid⟩
  · obtain rfl := List.mem_singleton.mp hm
    intro f hf
    cases hf
  · obtain rfl := List.mem_singleton.mp hm
    exact h.unblocked.blockedFor hk

theorem swapRemove_perm (tid : Nat) (ts : List ThreadInfo) : (swapRemove tid ts).Perm (ts.eraseP fun t => t.tid == tid) := by
  induction ts with
  | nil => exact .nil
  | cons t ts ih =>
    simp only [swapRemove]
    split_ifs with ht
    · rw [List.eraseP_cons_of_pos (p := fun t : ThreadInfo => t.tid == tid) ht]
      split
      · rename_i hlast
        rw [List.getLast?_eq_none_iff.mp hlast]
      rename_i last hlast
      have hts := List.dropLast_append_getLast? last hlast
      conv_rhs => rw [← hts]
      exact (List.perm_append_singleton last ts.dropLast).symm
    · rw [List.eraseP_cons_of_neg (p := fun t : ThreadInfo => t.tid == tid) ht]
      exact ih.cons t

theorem removeThread_spec (h : Masked p.ids p) (hn : WellNamed p.ids) (tid : Nat) :
    let p' := p.removeThread tid
    Masked p'.ids p' ∧ WellNamed p'.ids := by
  have hperm := swapRemove_perm tid p.threads
  have hmem : ∀ t ∈ swapRemove tid p.threads, t ∈ p.threads := fun t ht => List.mem_of_mem_eraseP (hperm.mem_iff.mp ht)
  have htids : ∀ n ∈ (swapRemove tid p.threads).map (·.tid), n ∈ p.tids := by
    intro n hn
    obtain ⟨t, ht, rfl⟩ := List.mem_map.mp hn
    exact List.mem_map_of_mem (hmem t ht)
  have hmasks : ∀ m ∈ (p.removeThread tid).masks, m ∈ p.masks := by
    intro m hm
    rcases List.mem_cons.mp hm with rfl | hm
    · exact List.mem_cons_self
    · obtain ⟨t, ht, rfl⟩ := List.mem_map.mp hm
      exact List.mem_cons_of_mem _ (List.mem_map_of_mem (hmem t ht))
  refine ⟨⟨⟨fun m hm => h.saved m (hmasks m hm), rfl, h.fixed⟩, fun m hm => h.unblocked m (hmasks m hm)⟩,
    ⟨?_, fun h0 => hn.zero (htids 0 h0), fun hp => hn.main (htids p.pid hp)⟩⟩
  exact ((hperm.map (·.tid)).nodup_iff).mpr (hn.nodup.sublist (List.eraseP_sublist.map ThreadInfo.tid))

/-- A new thread has the mask of its creator, and an id no thread has. -/
theorem createThread_spec (h : Masked p.ids p) (hn : WellNamed p.ids) {tid : Nat}
    (hk : p.knows callerTid) (hzero : tid ≠ 0) (hmain : p.pid ≠ tid) (hfresh : tid ∉ p.tids) :
    let p' : SignalProcess := { p with threads :=
      p.threads ++ [⟨tid, { PerThreadSignalState.new with blocked := p.blockedFor callerTid }, HandlerFrames.new⟩] }
    Masked p'.ids p' ∧ WellNamed p'.ids := by
  intro p'
  have htids : p'.tids = p.tids ++ [tid] := by simp [p', tids]
  have hmasks : ∀ m ∈ p'.masks, m ∈ p.masks ∨ m = (tid, p.blockedFor callerTid, .new) := by
    intro m hm
    simp only [masks, p', List.map_append, List.map_cons, List.mem_cons, List.mem_append] at hm ⊢
    tauto
  refine ⟨⟨⟨fun m hm => ?_, rfl, h.fixed⟩, fun m hm => ?_⟩, ⟨?_, ?_, ?_⟩⟩
  · rcases hmasks m hm with hm | rfl
    · exact h.saved m hm
    · intro f hf
      cases hf
  · rcases hmasks m hm with hm | rfl
    · exact h.unblocked m hm
    · exact h.unblocked.blockedFor hk
  · show p'.tids.Nodup
    rw [htids]
    exact List.Nodup.append hn.nodup (List.nodup_singleton tid) (by simpa using hfresh)
  · show 0 ∉ p'.tids
    rw [htids, List.mem_append, List.mem_singleton]
    exact fun h => h.elim hn.zero hzero.symm
  · show p.pid ∉ p'.tids
    rw [htids, List.mem_append, List.mem_singleton]
    exact fun h => h.elim hn.main hmain

end SignalProcess

/-- Every process there is, as far as signals go. -/
structure SignalTable where
  processes : OrdMap Nat SignalProcess
  nextTaskId : Nat

/-- A call on the table; the arguments that are results are answers of the rest of
the kernel, before and after the id of a new task is taken. -/
inductive TableCall
  | create (initSlot : Bool) (prepared built : Except Errno Unit)
  | fork (parentPid callerTid : Nat) (prepared installed : Except Errno Unit)
  | spawn (parentPid callerTid : Nat) (attrs : SignalProcess.SpawnSignalAttrs) (prepared installed fileActions : Except Errno Unit)
  | exec (pid : Nat) (callerTid : Option Nat)
  | createThread (pid callerTid : Nat) (prepared : Except Errno Unit)
  | exitThread (pid tid : Nat)
  | remove (pid : Nat)
  | process (pid : Nat) (op : ProcessOp)

namespace SignalTable

open SignalProcess

def new : SignalTable := ⟨OrdMap.empty, firstTaskId⟩

def publish (t : SignalTable) (p : SignalProcess) : SignalTable := { t with processes := t.processes.insert p.pid p }

def taskIdInUse (t : SignalTable) (candidate : Nat) : Bool :=
  t.processes.contains candidate || t.processes.values.any fun p => (p.getThread candidate).isSome

def allocateTaskId (t : SignalTable) : Except Errno Nat × SignalTable :=
  match findTaskId t.taskIdInUse t.nextTaskId with
  | some candidate => (.ok candidate, { t with nextTaskId := candidate + 1 })
  | none => (.error .EAGAIN, { t with nextTaskId := maxTaskId + 1 })

def ensureInit (t : SignalTable) (slot : Bool) : Except Errno Unit × SignalTable :=
  if t.processes.contains syntheticInitPid then (.ok (), t)
  else if !slot then (.error .ENOMEM, t)
  else (.ok (), t.publish (SignalProcess.new syntheticInitPid))

/-- An id is taken, and a record made for it is published. -/
def allocate (t : SignalTable) (prepared built : Except Errno Unit) (record : Nat → SignalProcess) : Except Errno Nat × SignalTable :=
  match prepared with
  | .error e => (.error e, t)
  | .ok () =>
    let a := t.allocateTaskId
    match a.1 with
    | .error e => (.error e, a.2)
    | .ok pid =>
      match built with
      | .error e => (.error e, a.2)
      | .ok () => (.ok pid, a.2.publish (record pid))

/-- A child of the process, for a thread that lives. -/
def inherit (t : SignalTable) (parentPid callerTid : Nat) (prepared installed : Except Errno Unit)
    (child : SignalProcess → Nat → SignalProcess) : Except Errno Nat × SignalTable :=
  match t.processes.get? parentPid with
  | none => (.error .ESRCH, t)
  | some parent =>
    if parent.state = .exited ∨ parent.state = .limbo then (.error .ESRCH, t)
    else if !parent.isLiveExplicitTid callerTid then (.error .ESRCH, t)
    else t.allocate prepared installed (child parent)

def remove (t : SignalTable) (pid : Nat) : SignalTable := { t with processes := t.processes.erase pid }

def spawn (t : SignalTable) (parentPid callerTid : Nat) (attrs : SpawnSignalAttrs)
    (prepared installed fileActions : Except Errno Unit) : Except Errno Nat × SignalTable :=
  let r := t.inherit parentPid callerTid prepared installed fun parent pid => parent.spawnChild callerTid pid attrs
  match r.1 with
  | .error e => (.error e, r.2)
  | .ok pid =>
    match fileActions with
    | .error e => (.error e, r.2.remove pid)
    | .ok () => (.ok pid, r.2)

def createThread (t : SignalTable) (pid callerTid : Nat) (prepared : Except Errno Unit) : Except Errno Nat × SignalTable :=
  match t.processes.get? pid with
  | none => (.error .ESRCH, t)
  | some p =>
    if !p.isLiveExplicitTid callerTid then (.error .ESRCH, t)
    else
      match prepared with
      | .error e => (.error e, t)
      | .ok () =>
        let a := t.allocateTaskId
        let r := p.createThread callerTid prepared a.1
        (r.1, a.2.publish r.2)

/-- A process of the table is changed. -/
def update (t : SignalTable) (pid : Nat) (f : SignalProcess → SignalProcess) : SignalTable :=
  match t.processes.get? pid with
  | none => t
  | some p => t.publish (f p)

def call (t : SignalTable) : TableCall → Unit × SignalTable
  | .create initSlot prepared built =>
    let i := t.ensureInit initSlot
    match i.1 with
    | .error _ => ((), i.2)
    | .ok () => ((), (i.2.allocate prepared built SignalProcess.new).2)
  | .fork parentPid callerTid prepared installed =>
    ((), (t.inherit parentPid callerTid prepared installed fun parent pid => parent.forkChild callerTid pid).2)
  | .spawn parentPid callerTid attrs prepared installed fileActions =>
    ((), (t.spawn parentPid callerTid attrs prepared installed fileActions).2)
  | .exec pid callerTid => ((), t.update pid fun p => (p.commitExecState callerTid).2)
  | .createThread pid callerTid prepared => ((), (t.createThread pid callerTid prepared).2)
  | .exitThread pid tid => ((), t.update pid fun p => p.removeThread tid)
  | .remove pid => ((), t.remove pid)
  | .process pid op => ((), t.update pid fun p => p.apply op)

/-- A thread that lives asks for a child, and nothing the kernel needs for it fails. -/
def Granted (t : SignalTable) (parentPid callerTid : Nat) (prepared installed fileActions : Except Errno Unit) : Prop :=
  (∃ p, t.processes.get? parentPid = some p ∧ p.state ≠ .exited ∧ p.state ≠ .limbo ∧ p.isLiveExplicitTid callerTid) ∧
    prepared = .ok () ∧ t.allocateTaskId.1.isOk ∧ installed = .ok () ∧ fileActions = .ok ()

/-- The call gives a thread a mask with one of the two. -/
def MasksKill (t : SignalTable) : TableCall → Prop
  | .spawn parentPid callerTid attrs prepared installed fileActions =>
    t.Granted parentPid callerTid prepared installed fileActions ∧ attrs.flags &&& attrSetsigmask ≠ 0 ∧ ¬Clear attrs.sigmask
  | .process pid op => ∃ p, t.processes.get? pid = some p ∧ p.MasksKill op
  | _ => False

/-! ## Runs -/

/-- What every call keeps of the table. -/
structure Rules (t : SignalTable) : Prop where
  next : 0 < t.nextTaskId
  framed : ∀ pid p, t.processes.get? pid = some p → p.pid = pid ∧ Framed p.ids p ∧ WellNamed p.ids

def Unblocked (t : SignalTable) : Prop := ∀ pid p, t.processes.get? pid = some p → p.Unblocked

variable {t : SignalTable} {p : SignalProcess}

theorem Rules.masked (hr : t.Rules) (hu : t.Unblocked) {pid : Nat}
    (h : t.processes.get? pid = some p) : Masked p.ids p := ⟨(hr.framed pid p h).2.1, hu pid p h⟩

/-- The call goes as it should: the rules stay, and the masks unless it is `bad`. -/
def Goes (t' : SignalTable) (bad : Prop) : Prop := t'.Rules ∧ (t'.Unblocked ↔ ¬bad)

theorem goes_of (hr : t.Rules) (hu : t.Unblocked) : Goes t False := ⟨hr, fun _ => id, fun _ => hu⟩

theorem goes_publish (hr : t.Rules) (hu : t.Unblocked) (hf : Framed p.ids p)
    (hn : WellNamed p.ids) {bad : Prop} (hb : p.Unblocked ↔ ¬bad) : Goes (t.publish p) bad := by
  refine ⟨⟨hr.next, fun pid q hq => ?_⟩, fun h => hb.mp (h p.pid p ?_), fun h pid q hq => ?_⟩
  · rw [publish, OrdMap.get?_insert] at hq
    split_ifs at hq with heq
    · cases hq
      exact ⟨heq.symm, hf, hn⟩
    · exact hr.framed pid q hq
  · rw [publish, OrdMap.get?_insert, if_pos rfl]
  · rw [publish, OrdMap.get?_insert] at hq
    split at hq
    · cases hq
      exact hb.mpr h
    · exact hu pid q hq

/-- A table with nothing new in it. -/
theorem goes_sub {t' : SignalTable} (hr : t.Rules) (hu : t.Unblocked) (hnext : 0 < t'.nextTaskId)
    (hsub : ∀ k p, t'.processes.get? k = some p → t.processes.get? k = some p) : Goes t' False :=
  goes_of ⟨hnext, fun k p h => hr.framed k p (hsub k p h)⟩ fun k p h => hu k p (hsub k p h)

theorem goes_remove (hr : t.Rules) (hu : t.Unblocked) (pid : Nat) : Goes (t.remove pid) False := by
  refine goes_sub hr hu hr.next fun k p h => ?_
  rw [remove, OrdMap.get?_erase] at h
  split at h
  · cases h
  · exact h

/-- The id taken is one that no process and no thread has. -/
theorem allocateTaskId_cases (t : SignalTable) : (∃ e next, t.allocateTaskId = (.error e, { t with nextTaskId := next }) ∧ 0 < next) ∨
      ∃ pid, t.allocateTaskId = (.ok pid, { t with nextTaskId := pid + 1 }) ∧ t.nextTaskId ≤ pid ∧ t.taskIdInUse pid = false := by
  simp only [allocateTaskId]
  split
  · rename_i pid hfind
    have hspec := findTaskId_spec hfind
    exact .inr ⟨pid, rfl, hspec.2, hspec.1⟩
  · exact .inl ⟨_, _, rfl, Nat.succ_pos _⟩

section

variable (hr : t.Rules)

include hr

theorem Rules.setNext {next : Nat} (hn : 0 < next) : Rules { t with nextTaskId := next } := ⟨hn, hr.framed⟩

theorem allocate_cases (prepared built : Except Errno Unit) (record : Nat → SignalProcess) :
    (∃ e next, t.allocate prepared built record = (.error e, { t with nextTaskId := next }) ∧ 0 < next) ∨
      ∃ pid, t.allocate prepared built record = (.ok pid, SignalTable.publish { t with nextTaskId := pid + 1 } (record pid)) := by
  simp only [allocate]
  cases prepared with
  | error e => exact .inl ⟨e, t.nextTaskId, rfl, hr.next⟩
  | ok _ =>
    rcases t.allocateTaskId_cases with ⟨e, next, heq, hnext⟩ | ⟨pid, heq, _, _⟩ <;> simp only [heq]
    · exact .inl ⟨e, next, rfl, hnext⟩
    cases built with
    | error e => exact .inl ⟨e, pid + 1, rfl, Nat.succ_pos pid⟩
    | ok _ => exact .inr ⟨pid, rfl⟩

/-- A child is published for a thread of a parent there is, or nothing is. -/
theorem inherit_cases (parentPid callerTid : Nat) (prepared installed : Except Errno Unit)
    (child : SignalProcess → Nat → SignalProcess) :
    (∃ e next, t.inherit parentPid callerTid prepared installed child = (.error e, { t with nextTaskId := next }) ∧ 0 < next) ∨
      ∃ parent pid, t.processes.get? parentPid = some parent ∧ parent.knows callerTid ∧
        t.inherit parentPid callerTid prepared installed child =
          (.ok pid, SignalTable.publish { t with nextTaskId := pid + 1 } (child parent pid)) := by
  simp only [inherit]
  split
  · exact .inl ⟨_, t.nextTaskId, rfl, hr.next⟩
  rename_i parent hparent
  split
  · exact .inl ⟨_, t.nextTaskId, rfl, hr.next⟩
  split_ifs with hlive
  · exact .inl ⟨_, t.nextTaskId, rfl, hr.next⟩
  rcases allocate_cases hr prepared installed (child parent) with herr | ⟨pid, heq⟩
  · exact .inl herr
  · exact .inr ⟨parent, pid, hparent, knows_of_live (by simpa using hlive), heq⟩

section

variable (hu : t.Unblocked)

include hu

/-- A record with its main thread only is published under a new id. -/
theorem goes_record {pid : Nat} (hf : Framed (pid, []) p) {bad : Prop} (hb : p.Unblocked ↔ ¬bad) :
    Goes (SignalTable.publish { t with nextTaskId := pid + 1 } p) bad := by
  refine goes_publish (hr.setNext (Nat.succ_pos pid)) hu ?_ ?_ hb
  · rw [hf.ids_eq]
    exact hf
  · rw [hf.ids_eq]
    exact wellNamed_single pid

omit hr hu in
theorem spawn_isOk (parentPid callerTid : Nat) (attrs : SpawnSignalAttrs) (prepared installed fileActions : Except Errno Unit) :
    t.Granted parentPid callerTid prepared installed fileActions ↔
      (t.spawn parentPid callerTid attrs prepared installed fileActions).1.isOk := by
  simp only [spawn, inherit, allocate, Granted]
  repeat' split
  all_goals simp_all [Except.isOk, Except.toBool]
  tauto

theorem goes_spawn (parentPid callerTid : Nat) (attrs : SpawnSignalAttrs) (prepared installed fileActions : Except Errno Unit) :
    Goes (t.spawn parentPid callerTid attrs prepared installed fileActions).2
      (t.MasksKill (.spawn parentPid callerTid attrs prepared installed fileActions)) := by
  have hfail : ∀ {t' : SignalTable} {P : Prop}, Goes t' False → Goes t' (false ∧ P) :=
    fun h => ⟨h.1, ⟨fun _ hp => Bool.false_ne_true hp.1, fun _ => h.2.mpr id⟩⟩
  simp only [MasksKill, t.spawn_isOk parentPid callerTid attrs, spawn]
  rcases inherit_cases hr parentPid callerTid prepared installed (fun parent pid => parent.spawnChild callerTid pid attrs)
    with ⟨e, next, heq, hnext⟩ | ⟨parent, pid, hparent, hk, heq⟩
  · simp only [heq]
    exact hfail (goes_sub hr hu hnext fun _ _ h => h)
  simp only [heq]
  have hchild := spawn_spec (hr.masked hu hparent) hk pid attrs
  cases fileActions with
  | ok _ =>
    have hgo := goes_record hr hu hchild.1 hchild.2
    exact ⟨hgo.1, fun h hbad => hgo.2.mp h hbad.2, fun h => hgo.2.mpr fun hbad => h ⟨rfl, hbad⟩⟩
  | error e =>
    refine hfail (goes_sub hr hu (Nat.succ_pos pid) fun k p h => ?_)
    have hpid : (parent.spawnChild callerTid pid attrs).pid = pid := congrArg Prod.fst hchild.1.ids_eq
    simp only [remove, publish, hpid, OrdMap.get?_erase, OrdMap.get?_insert] at h
    split at h
    · cases h
    · exact h

theorem goes_createThread (pid callerTid : Nat)
    (prepared : Except Errno Unit) : Goes (t.createThread pid callerTid prepared).2 False := by
  simp only [createThread]
  split
  · exact goes_of hr hu
  rename_i p hp
  obtain ⟨hpid, hf, hn⟩ := hr.framed pid p hp
  have hm := hr.masked hu hp
  split_ifs with hlive
  · exact goes_of hr hu
  have hlive : p.isLiveExplicitTid callerTid := by simpa using hlive
  cases prepared with
  | error e => exact goes_of hr hu
  | ok _ =>
    rcases t.allocateTaskId_cases with ⟨e, next, heq, hnext⟩ | ⟨tid, heq, hle, hfree⟩ <;>
      simp only [heq, SignalProcess.createThread, hlive]
    · exact goes_publish (hr.setNext hnext) hu hf hn hm.unblocked_iff
    simp only [taskIdInUse, Bool.or_eq_false_iff, List.any_eq_false] at hfree
    have hmain : p.pid ≠ tid := by
      rintro rfl
      have : t.processes.contains p.pid := by rw [OrdMap.contains, hpid, hp]; rfl
      cases this.symm.trans hfree.1
    have hfresh : tid ∉ p.tids := by
      intro hmem
      obtain ⟨u, hu, hutid⟩ := List.mem_map.mp hmem
      refine hfree.2 p (OrdMap.mem_values.mpr ⟨pid, hp⟩) ?_
      rw [getThread, List.find?_isSome]
      exact ⟨u, hu, by simpa using hutid⟩
    have hzero : tid ≠ 0 := Nat.ne_of_gt (Nat.lt_of_lt_of_le hr.next hle)
    obtain ⟨hm', hn'⟩ := createThread_spec hm hn (knows_of_live hlive) hzero hmain hfresh
    exact goes_publish (hr.setNext (Nat.succ_pos tid)) hu hm'.toFramed hn' hm'.unblocked_iff

theorem goes_update (pid : Nat) {f : SignalProcess → SignalProcess} {bad : SignalProcess → Prop}
    (hf : ∀ p, Masked p.ids p → WellNamed p.ids → Framed (f p).ids (f p) ∧ WellNamed (f p).ids ∧ ((f p).Unblocked ↔ ¬bad p)) :
    Goes (t.update pid f) (∃ p, t.processes.get? pid = some p ∧ bad p) := by
  simp only [update]
  split
  · rename_i hp
    refine ⟨hr, fun _ h => ?_, fun _ => hu⟩
    obtain ⟨p, hp', _⟩ := h
    exact nomatch hp.symm.trans hp'
  rename_i p hp
  obtain ⟨hf', hn', hb⟩ := hf p (hr.masked hu hp) (hr.framed pid p hp).2.2
  have hgo := goes_publish hr hu hf' hn' hb
  refine ⟨hgo.1, hgo.2.trans (not_congr ⟨fun h => ⟨p, hp, h⟩, fun ⟨q, hq, h⟩ => ?_⟩)⟩
  cases hp.symm.trans hq
  exact h

theorem goes_call (c : TableCall) : Goes (t.call c).2 (t.MasksKill c) := by
  -- a change that no process can go wrong by
  have hnever : ∀ (t' : SignalTable) (pid : Nat), Goes t' (∃ p, t.processes.get? pid = some p ∧ False) → Goes t' False :=
    fun _ _ h => ⟨h.1, h.2.trans (not_congr ⟨fun ⟨_, _, h⟩ => h, False.elim⟩)⟩
  cases c with
  | create initSlot prepared built =>
    have hinit : (t.ensureInit initSlot).2.Rules ∧ (t.ensureInit initSlot).2.Unblocked := by
      have hm := masked_new syntheticInitPid
      have hgo : Goes (t.publish (.new syntheticInitPid)) False :=
        goes_publish hr hu (p := .new syntheticInitPid) hm.toFramed (wellNamed_single syntheticInitPid) hm.unblocked_iff
      simp only [ensureInit]
      iterate 2 (split; · exact ⟨hr, hu⟩)
      · exact ⟨hgo.1, hgo.2.mpr id⟩
    simp only [call]
    split
    · exact goes_of hinit.1 hinit.2
    rcases allocate_cases hinit.1 prepared built SignalProcess.new with ⟨e, next, heq, hnext⟩ | ⟨pid, heq⟩ <;> rw [heq]
    · exact goes_sub hinit.1 hinit.2 hnext fun _ _ h => h
    · exact goes_record hinit.1 hinit.2 (masked_new pid).toFramed (masked_new pid).unblocked_iff
  | fork parentPid callerTid prepared installed =>
    simp only [call]
    rcases inherit_cases hr parentPid callerTid prepared installed (fun parent pid => parent.forkChild callerTid pid)
      with ⟨e, next, heq, hnext⟩ | ⟨parent, pid, hparent, hk, heq⟩
    · rw [heq]
      exact goes_sub hr hu hnext fun _ _ h => h
    rw [heq]
    have hchild := fork_spec (hr.masked hu hparent) hk pid
    exact goes_record hr hu hchild.toFramed hchild.unblocked_iff
  | spawn parentPid callerTid attrs prepared installed fileActions =>
    exact goes_spawn hr hu parentPid callerTid attrs prepared installed fileActions
  | exec pid callerTid =>
    refine hnever _ pid (goes_update hr hu pid fun p hm hn => ?_)
    obtain ⟨hm', hn'⟩ := exec_spec hm hn callerTid
    exact ⟨hm'.toFramed, hn', hm'.unblocked_iff⟩
  | createThread pid callerTid prepared => exact goes_createThread hr hu pid callerTid prepared
  | exitThread pid tid =>
    refine hnever _ pid (goes_update hr hu pid fun p hm hn => ?_)
    obtain ⟨hm', hn'⟩ := removeThread_spec hm hn tid
    exact ⟨hm'.toFramed, hn', hm'.unblocked_iff⟩
  | remove pid => exact goes_remove hr hu pid
  | process pid op =>
    refine goes_update hr hu pid fun p hm hn => ?_
    obtain ⟨hf', hb⟩ := hm.apply op
    have hids := hf'.ids_eq
    rw [hids]
    exact ⟨hf', hn, hb⟩

end

end

/-- No thread blocks SIGKILL or SIGSTOP, and a pending SIGKILL can be delivered. -/
def Killable (t : SignalTable) : Prop := ∀ pid p, t.processes.get? pid = some p → p.Unblocked ∧ p.KillDeliverable

theorem killable_iff (hr : t.Rules) : t.Killable ↔ t.Unblocked :=
  ⟨fun h pid p hp => (h pid p hp).1, fun h pid p hp => ⟨h pid p hp, killDeliverable (hr.framed pid p hp).2.2 (h pid p hp)⟩⟩

/-- Along every run the masks of all threads are clear of the two, and SIGKILL can be
delivered, exactly if no handler is run under a mask of its own with one of the two and
no child is spawned with such a mask. -/
theorem masks_clear_iff (cs : List TableCall) :
    (∀ k, (Machine.run call new (cs.take k)).Killable) ↔ ∀ x ∈ Machine.steps call new cs, ¬x.1.MasksKill x.2 := by
  refine Machine.run_always_iff (I := Killable) (J := Rules) (s := new) MasksKill ?_ ?_ ⟨by decide, fun _ _ h => nomatch h⟩ ?_ cs
  · intro t c hr hk
    exact (goes_call hr ((killable_iff hr).mp hk) c).1
  · intro t c hr hk
    have hgo := goes_call hr ((killable_iff hr).mp hk) c
    exact (killable_iff hgo.1).trans hgo.2
  · exact fun _ _ h => nomatch h

/-- A process catches SIGUSR1 with SIGKILL in the mask of the action; SIGKILL arrives
while the handler runs. -/
def killDuringHandler : List TableCall :=
  [.create true (.ok ()) (.ok ()), .process 100 (.sigaction 10 ⟨.handler 7, 0, sigBit sigkill⟩), .process 100 (.raise 10 0 0 0 0),
    .process 100 (.dequeue 100),
    .process 100 (.raise sigkill 0 0 0 0)]

theorem kill_blocked_in_handler : ((Machine.run call new killDuringHandler).processes.get? 100).map
        (fun p => (p.tids, p.blockedFor 100 &&& sigBit sigkill != 0, p.signalPendingAnywhere sigkill,
          p.deliverableFor 100 &&& sigBit sigkill != 0)) = some ([], true, true, false) := by
  decide +kernel

/-- The same for a child spawned with SIGKILL in its mask. -/
example : ((Machine.run call new
      [.create true (.ok ()) (.ok ()), .spawn 100 100 ⟨attrSetsigmask, 0, sigBit sigkill⟩ (.ok ()) (.ok ()) (.ok ()),
        .process 101 (.raise sigkill 0 0 0 0)]).processes.get? 101).map
        (fun p => (p.tids, p.signalPendingAnywhere sigkill, p.deliverableFor 101 &&& sigBit sigkill != 0)) =
      some ([], true, false) := by
  decide +kernel

end SignalTable

end Kandelo.Signal

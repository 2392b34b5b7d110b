/-
Delivering the pending signals of a process to its end (`deliver_pending_signals_impl`):
a turn that consumes a signal takes an entry or a bit out of a queue, so the loop ends.
-/
import Kandelo.Signal.Process

namespace Kandelo.Signal

open List

def sighup : Nat := 1

/-! ## What is queued -/

theorem countP_lt_of_imp {α : Type} {p q : α → Bool} {l : List α} (himp : ∀ a ∈ l, p a → q a) {a : α}
    (ha : a ∈ l) (hp : p a = false) (hq : q a) : l.countP p < l.countP q := by
  obtain ⟨before, after, rfl⟩ := append_of_mem ha
  have hbefore := countP_mono_left (l := before) fun x hx => himp x (mem_append_left _ hx)
  have hafter := countP_mono_left (l := after) fun x hx => himp x (mem_append_right _ (mem_cons_of_mem a hx))
  rw [countP_append, countP_append, countP_cons_of_neg (by simp [hp]), countP_cons_of_pos hq]
  omega

namespace Pending

/-- Entries and bits. -/
def load (p : Pending) : Nat := p.rtQueue.length + (List.range 64).countP p.pending.getLsbD

theorem countP_andNot_le (x y : BitVec 64) : (List.range 64).countP (x &&& ~~~y).getLsbD ≤ (List.range 64).countP x.getLsbD := by
  refine countP_mono_left fun i _ h => ?_
  rw [BitVec.getLsbD_and, Bool.and_eq_true] at h
  exact h.1

variable {s : Nat}

theorem countP_clear_lt {x : BitVec 64} (hv : validSignum s) (hbit : (x &&& sigBit s != 0)) :
    (List.range 64).countP (x &&& ~~~sigBit s).getLsbD < (List.range 64).countP x.getLsbD := by
  rw [and_sigBit hv] at hbit
  have hlt := validSignum_iff.mp hv
  refine countP_lt_of_imp (a := s - 1) (fun i _ h => ?_) (mem_range.mpr (by omega)) ?_ hbit
  · rw [BitVec.getLsbD_and, Bool.and_eq_true] at h
    exact h.1
  · rw [BitVec.getLsbD_and, BitVec.getLsbD_not, getLsbD_sigBit hv]
    simp

theorem load_consume_lt {p : Pending} (hv : validSignum s) (hbit : p.bit s) : (p.consumePendingInfo s).2.load < p.load := by
  simp only [consumePendingInfo, hv, Bool.not_true, Bool.false_eq_true, if_false, load, settleBit]
  by_cases hany : ∃ e ∈ p.rtQueue, (e.signum == s)
  · -- an entry leaves, and no bit comes
    obtain ⟨e, he, hs⟩ := hany
    have hlength := length_eraseP_of_mem (p := fun e => e.signum == s) he hs
    have hpos := length_pos_of_mem he
    split
    · omega
    · have := countP_andNot_le p.pending (sigBit s)
      omega
  · -- a bit without an entry is cleared
    have herase : p.rtQueue.eraseP (fun e => e.signum == s) = p.rtQueue := eraseP_of_forall_not fun e he hs => hany ⟨e, he, hs⟩
    have hnone : (p.rtQueue.any fun e => e.signum == s) = false := Bool.eq_false_iff.mpr fun h => hany (any_eq_true.mp h)
    rw [herase, hnone, if_neg Bool.false_ne_true]
    exact Nat.add_lt_add_left (countP_clear_lt hv hbit) _

theorem load_clear_le (p : Pending) (s : Nat) : (p.clearPending s).load ≤ p.load := by
  simp only [clearPending]
  split
  · exact Nat.add_le_add (length_filter_le _ _) (countP_andNot_le _ _)
  · exact le_rfl

theorem load_clear_lt {p : Pending} (hv : validSignum s) (hbit : p.bit s) : (p.clearPending s).load < p.load := by
  simp only [clearPending, hv, if_true]
  exact Nat.add_lt_add_of_le_of_lt (length_filter_le _ _) (countP_clear_lt hv hbit)

end Pending

namespace SignalProcess

/-- All that is queued for the process and its threads. -/
def load (p : SignalProcess) : Nat :=
  p.signals.signals.load + p.mainThreadSignals.signals.load + (p.threads.map (·.signals.signals.load)).sum

variable {tid : Nat}

variable {p : SignalProcess}

theorem load_accept (p : SignalProcess) (info : PendingSignalInfo) : (p.acceptConsumed info).load = p.load := by
  obtain ⟨ts, h⟩ := p.acceptConsumed_eq info
  rw [h]
  rfl

variable {signum : Nat}

/-- A signal the loop finds is queued: consuming it takes something out. -/
theorem load_consume_lt (hv : validSignum signum)
    (hpending : (p.pendingFor tid).getLsbD (signum - 1)) : (p.consumeSignalFor tid signum).2.load < p.load := by
  simp only [pendingFor] at hpending
  simp only [consumeSignalFor]
  split
  · rename_i hnone
    rw [hnone] at hpending
    simp at hpending
  rename_i directed hd
  split
  · rename_i hdir
    simp only [PerThreadSignalState.isPending, Bool.and_eq_true] at hdir
    have hlt := Pending.load_consume_lt hv hdir.2
    have hsum := total_updateDirected hd (fun t => (t.consumeOneInfo signum).2) Pending.load
    exact Nat.lt_of_add_lt_add_right (hsum ▸ Nat.add_lt_add_left hlt p.load)
  rename_i hdir
  simp only [PerThreadSignalState.isPending, hv, Bool.true_and, Bool.not_eq_true] at hdir
  rw [hd, Option.map_some, Option.getD_some, BitVec.getLsbD_or, ← Pending.bit_eq hv, ← Pending.bit_eq hv, hdir,
    Bool.or_false] at hpending
  rw [hpending, Bool.not_true, if_neg Bool.false_ne_true]
  have := Pending.load_consume_lt hv hpending
  simp only [load, SignalState.consumeOne]
  omega

theorem load_clear_lt (h : p.signalPendingAnywhere signum) : (p.clearSignalEverywhere signum).load < p.load := by
  simp only [signalPendingAnywhere, Bool.and_eq_true, Bool.or_eq_true, any_eq_true] at h
  obtain ⟨hv, hwhere⟩ := h
  have hshared := p.signals.signals.load_clear_le signum
  have hmain := p.mainThreadSignals.signals.load_clear_le signum
  have hthreads : (p.threads.map fun t => (t.signals.signals.clearPending signum).load).sum ≤
      (p.threads.map (·.signals.signals.load)).sum := sum_le_sum fun t _ => t.signals.signals.load_clear_le signum
  refine lt_of_eq_of_lt (p.total_clearSignal signum Pending.load) ?_
  simp only [total, load]
  rcases hwhere with (hbit | hbit) | ⟨t, ht, hbit⟩
  · have := Pending.load_clear_lt hv hbit
    omega
  · have := Pending.load_clear_lt hv hbit
    omega
  · have := sum_lt_sum (l := p.threads) _ _ (fun t _ => t.signals.signals.load_clear_le signum)
      ⟨t, ht, Pending.load_clear_lt hv hbit⟩
    omega

/-- The lowest bit of a mask that has one is a bit of it. -/
theorem trailingZeros_spec {x : BitVec 64} (h : x ≠ 0) : Pending.trailingZeros x < 64 ∧ x.getLsbD (Pending.trailingZeros x) := by
  have hsome : ∃ i ∈ List.range 64, x.getLsbD i := by
    by_contra hno
    refine h (BitVec.eq_of_getLsbD_eq fun i hi => ?_)
    have hclear : x.getLsbD i = false := Bool.eq_false_iff.mpr fun hx => hno ⟨i, mem_range.mpr hi, hx⟩
    rw [hclear, BitVec.ofNat_eq_ofNat, BitVec.getLsbD_zero]
  simp only [Pending.trailingZeros]
  cases hfind : (List.range 64).find? fun i => x.getLsbD i with
  | none =>
    obtain ⟨i, hi, hx⟩ := hsome
    exact absurd hx (find?_eq_none.mp hfind i hi)
  | some i => exact ⟨mem_range.mp (mem_of_find?_eq_some hfind), find?_some hfind⟩

theorem load_dequeue_lt (h : p.nextDeliverableSignal tid = some signum) : (p.dequeueSignalFor tid signum).load < p.load := by
  simp only [nextDeliverableSignal] at h
  split at h
  · cases h
  split at h
  · rename_i hstopped
    rw [Option.ite_none_right_eq_some, Option.some.injEq] at h
    obtain ⟨hpending, rfl⟩ := h
    simp only [dequeueSignalFor, hstopped, and_self, if_true]
    exact load_clear_lt hpending
  rename_i hstopped
  split at h
  · cases h
  rename_i hdeliverable
  rw [Option.ite_none_right_eq_some, Option.some.injEq] at h
  obtain ⟨hlt, rfl⟩ := h
  obtain ⟨_, hbit⟩ := trailingZeros_spec hdeliverable
  have hpending : (p.pendingFor tid).getLsbD (Pending.trailingZeros (p.deliverableFor tid) + 1 - 1) := by
    rw [deliverableFor, BitVec.getLsbD_and, Bool.and_eq_true] at hbit
    exact hbit.1
  have hconsume := load_consume_lt (validSignum_iff.mpr ⟨Nat.succ_ne_zero _, hlt⟩) hpending
  simp only [dequeueSignalFor, hstopped, false_and, if_false]
  split
  · exact hconsume
  · rw [load_accept]
    exact hconsume

theorem load_deliverTurn_lt {outcome : DefaultSignalOutcome}
    (h : (p.deliverTurn tid).1 = .consumed outcome) : (p.deliverTurn tid).2.load < p.load := by
  simp only [deliverTurn] at h ⊢
  split at h
  · cases h
  rename_i signum hnext
  split at h
  · cases h
  · exact lt_of_eq_of_lt (congrFun (sameQueues_applyDefault _ signum).total Pending.load) (load_dequeue_lt hnext)
  · exact load_dequeue_lt hnext

/-! ## The loop -/

/-- `deliver_pending_signals_impl`. -/
def deliverPendingSignals (p : SignalProcess) (tid : Nat) : SignalProcess :=
  match _h : (p.deliverTurn tid).1 with
  | .consumed .continue =>
    let p' := (p.deliverTurn tid).2
    if p'.state = .stopped ∨ p'.state = .exited then p' else p'.deliverPendingSignals tid
  | _ => (p.deliverTurn tid).2
termination_by p.load
decreasing_by exact load_deliverTurn_lt _h

def deliverPendingSignalsForTid (p : SignalProcess) (tid : Nat) : SignalProcess :=
  if !p.isLiveExplicitTid tid then p else p.deliverPendingSignals tid

def pickThreadForSharedSignal (p : SignalProcess) (sig : Nat) : Option Nat :=
  if !p.isLiveExplicitTid p.pid || !validSignum sig then none
  else if p.signals.blocked &&& sigBit sig = 0 then some p.pid
  else (p.threads.find? fun t => t.signals.blocked &&& sigBit sig = 0).map (·.tid)

/-- The signal is generated for the process, and what is pending delivered to the thread
that takes it. -/
def generate (p : SignalProcess) (signum : Nat) : SignalProcess :=
  let raised := (p.raiseSignal signum).2
  match raised.pickThreadForSharedSignal signum with
  | some tid => raised.deliverPendingSignalsForTid tid
  | none => raised

/-! ## What becomes of the process -/

theorem state_dequeue (p : SignalProcess) (tid signum : Nat) : (p.dequeueSignalFor tid signum).state = p.state := by
  have hconsume : (p.consumeSignalFor tid signum).2.state = p.state := by
    simp only [consumeSignalFor, updateDirected, updateThread]
    split
    · rfl
    split
    · split <;> rfl
    · split <;> rfl
  simp only [dequeueSignalFor]
  split
  · rfl
  split
  · exact hconsume
  obtain ⟨ts, h⟩ := acceptConsumed_eq (p.consumeSignalFor tid signum).2 _
  rw [h]
  exact hconsume

theorem deliverTurn_not_limbo (h : p.state ≠ .limbo) (tid : Nat) : (p.deliverTurn tid).2.state ≠ .limbo := by
  simp only [deliverTurn]
  split
  · exact h
  rename_i signum _
  have hd : (p.dequeueSignalFor tid signum).state ≠ .limbo := by rw [state_dequeue]; exact h
  split
  · exact h
  · rcases applyDefault_cases (p.dequeueSignalFor tid signum) signum with heq | heq | heq
    · rw [heq]
      exact hd
    · rw [heq, terminateProcessBySignal]
      split
      · exact hd
      · exact nofun
    · rw [heq]
      exact nofun
  · exact hd

theorem deliver_not_limbo (h : p.state ≠ .limbo) (tid : Nat) : (p.deliverPendingSignals tid).state ≠ .limbo := by
  fun_induction deliverPendingSignals p tid with
  | case1 p _ _ _ => exact deliverTurn_not_limbo h tid
  | case2 p _ _ _ ih => exact ih (deliverTurn_not_limbo h tid)
  | case3 p _ => exact deliverTurn_not_limbo h tid

/-- A signal leaves a process running or stopped, or ends it. -/
theorem generate_not_limbo (h : p.state ≠ .limbo) (signum : Nat) : (p.generate signum).state ≠ .limbo := by
  have hraise : (p.raiseSignal signum).2.state ≠ .limbo :=
    prepare_keeps (P := fun q => q.state ≠ .limbo) h signum (fun _ _ h => h) fun _ _ => nofun
  simp only [generate, deliverPendingSignalsForTid]
  split
  · split
    · exact hraise
    · exact deliver_not_limbo hraise _
  · exact hraise

end SignalProcess

end Kandelo.Signal

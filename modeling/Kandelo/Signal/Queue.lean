/-
The pending signals of a process or of one thread (`signal.rs`): a mask with one
bit per signal and a queue with one entry per instance. `SignalState` and
`PerThreadSignalState` keep the same two fields and change them by the same
few operations, which are the definitions here.

The mask and the queue say the same thing (`Consistent`): a bit is set exactly
when an entry is queued. Standard signals coalesce, so at most one entry of
such a signal does not come from a timer.
-/
import Kandelo.Lib.Fifo

namespace Kandelo.Signal

open List

/-- `NSIG`: signal numbers are 1, ..., 64. -/
def nsig : Nat := 65

/-- The first real-time signal. -/
def sigrtmin : Nat := 32

/-- Signal `n` has bit `n - 1`; other numbers have none. -/
def sigBit (signum : Nat) : BitVec 64 := if signum = 0 ∨ 65 ≤ signum then 0 else 1#64 <<< (signum - 1)

def validSignum (signum : Nat) : Bool := decide (signum ≠ 0) && decide (signum < nsig)

/-- A queued signal instance. -/
structure RtSigEntry where
  signum : Nat
  siValueBits : UInt64
  siCode : Int32
  senderPid : UInt32
  senderUid : UInt32
  /-- The POSIX timer that raised it. -/
  timerId : Option UInt32
  deriving DecidableEq, Repr

structure PendingSignalInfo where
  siValueBits : UInt64
  siCode : Int32
  senderPid : UInt32
  senderUid : UInt32
  timerId : Option UInt32
  deriving DecidableEq, Repr

def PendingSignalInfo.default : PendingSignalInfo := ⟨0, 0, 0, 0, none⟩

def RtSigEntry.info (e : RtSigEntry) : PendingSignalInfo := ⟨e.siValueBits, e.siCode, e.senderPid, e.senderUid, e.timerId⟩

/-- The `pending` and `rt_queue` fields of a signal state. -/
structure Pending where
  pending : BitVec 64
  rtQueue : List RtSigEntry
  deriving DecidableEq, Repr

namespace Pending

def empty : Pending := ⟨0, []⟩

/-- `pending & sig_bit(signum) != 0`. -/
def bit (p : Pending) (signum : Nat) : Bool := p.pending &&& sigBit signum != 0

/-- The standard signal's entry that is not a timer's takes the new metadata,
unless the new instance is a plain `SI_USER` one; `none` if there is none. -/
def coalesce (e : RtSigEntry) : List RtSigEntry → Option (List RtSigEntry)
  | [] => none
  | x :: xs =>
    if x.signum = e.signum ∧ x.timerId = none then
      some ((if e.siCode ≠ 0 then
        { x with siValueBits := e.siValueBits, siCode := e.siCode, senderPid := e.senderPid, senderUid := e.senderUid }
        else x) :: xs)
    else (coalesce e xs).map (x :: ·)

/-- What both `raise_internal` do once the signal is to be queued. -/
def queueSignal (p : Pending) (e : RtSigEntry) : Pending :=
  { pending := p.pending ||| sigBit e.signum
    rtQueue :=
      if sigrtmin ≤ e.signum then p.rtQueue ++ [e] else (coalesce e p.rtQueue).getD (p.rtQueue ++ [e]) }

/-- What both `raise_timer` do for a valid signal. -/
def queueTimer (p : Pending) (signum : Nat) (siValueBits : UInt64) (timerId : UInt32) : Pending :=
  let q :=
    if signum < sigrtmin ∧ p.bit signum ∧ ¬ (p.rtQueue.any fun e => e.signum == signum) then
      p.rtQueue ++ [⟨signum, 0, 0, 0, 0, none⟩]
    else p.rtQueue
  { pending := p.pending ||| sigBit signum, rtQueue := q ++ [⟨signum, siValueBits, -2, 0, 0, some timerId⟩] }

/-- The mask with the signal's bit cleared unless the queue still holds it. -/
def settleBit (pending : BitVec 64) (q : List RtSigEntry) (signum : Nat) : BitVec 64 :=
  if q.any fun e => e.signum == signum then pending else pending &&& ~~~sigBit signum

/-- `consume_pending_info`: the first entry of the signal leaves the queue. -/
def consumePendingInfo (p : Pending) (signum : Nat) : PendingSignalInfo × Pending :=
  if !validSignum signum then (PendingSignalInfo.default, p)
  else
    let info := ((p.rtQueue.find? fun e => e.signum == signum).map RtSigEntry.info).getD PendingSignalInfo.default
    let q := p.rtQueue.eraseP fun e => e.signum == signum
    (info, { pending := settleBit p.pending q signum, rtQueue := q })

/-- `remove_timer_info`: all notifications of one timer leave the queue. -/
def removeTimerInfo (p : Pending) (timerId : UInt32) : Bool × Pending :=
  match p.rtQueue.find? fun e => e.timerId == some timerId with
  | none => (false, p)
  | some e =>
    let q := p.rtQueue.filter fun e => e.timerId != some timerId
    (true, { pending := settleBit p.pending q e.signum, rtQueue := q })

/-- The notifications of several timers leave the queue. -/
def removeTimers (ids : List Nat) (p : Pending) : Pending :=
  ids.foldl (fun p timerId => (p.removeTimerInfo (UInt32.ofNat timerId)).2) p

/-- `clear` and `clear_pending`: all instances of one signal leave the queue. -/
def clearPending (p : Pending) (signum : Nat) : Pending :=
  if validSignum signum then
    { pending := p.pending &&& ~~~sigBit signum, rtQueue := p.rtQueue.filter fun e => e.signum != signum }
  else p

/-- `trailing_zeros`. -/
def trailingZeros (x : BitVec 64) : Nat := ((List.range 64).find? fun i => x.getLsbD i).getD 64

/-- The lowest signal that is pending and not blocked. -/
def nextDeliverable (p : Pending) (blocked : BitVec 64) : Option Nat :=
  let deliverable := p.pending &&& ~~~blocked
  if deliverable = 0 then none else some (trailingZeros deliverable + 1)

end Pending

/-! ## Bits -/

variable {s : Nat}

theorem validSignum_iff : validSignum s ↔ s ≠ 0 ∧ s < 65 := by
  simp only [validSignum, Bool.and_eq_true, decide_eq_true_eq]
  exact Iff.rfl

theorem getLsbD_sigBit (hs : validSignum s) (i : Nat) : (sigBit s).getLsbD i = decide (i = s - 1) := by
  rw [validSignum_iff] at hs
  rw [sigBit, if_neg (by omega), ← BitVec.twoPow_eq]
  have hlt : s - 1 < 64 := by omega
  simp [hlt, eq_comm]

/-- The mask test reads the signal's bit. -/
theorem and_sigBit {x : BitVec 64} (hs : validSignum s) : (x &&& sigBit s != 0) = x.getLsbD (s - 1) := by
  cases hx : x.getLsbD (s - 1) with
  | true =>
    rw [bne_iff_ne]
    intro h
    have := congrArg (fun y : BitVec 64 => y.getLsbD (s - 1)) h
    simp [hx, getLsbD_sigBit hs] at this
  | false =>
    rw [bne_eq_false_iff_eq]
    apply BitVec.eq_of_getLsbD_eq
    intro i hi
    rw [BitVec.getLsbD_and, getLsbD_sigBit hs]
    by_cases h : i = s - 1
    · simp [h, hx]
    · simp [h]

namespace Pending

variable {p : Pending}

theorem bit_eq (hs : validSignum s) : p.bit s = p.pending.getLsbD (s - 1) := and_sigBit hs

variable {q : List RtSigEntry} {t : Nat}

theorem bit_or (hs : validSignum s) (ht : validSignum t) : bit ⟨p.pending ||| sigBit t, q⟩ s = (p.bit s || decide (s = t)) := by
  rw [bit_eq hs, bit_eq hs, BitVec.getLsbD_or, getLsbD_sigBit ht]
  rw [validSignum_iff] at hs ht
  have : s - 1 = t - 1 ↔ s = t := by omega
  simp [this]

theorem bit_andNot (hs : validSignum s) (ht : validSignum t) : bit ⟨p.pending &&& ~~~sigBit t, q⟩ s = (p.bit s && decide (s ≠ t)) := by
  rw [bit_eq hs, bit_eq hs, BitVec.getLsbD_and, BitVec.getLsbD_not, getLsbD_sigBit ht]
  rw [validSignum_iff] at hs ht
  have h1 : s - 1 = t - 1 ↔ s = t := by omega
  have h2 : s - 1 < 64 := by omega
  simp [h1, h2]

theorem bit_settleBit (hs : validSignum s) (ht : validSignum t) :
    bit ⟨settleBit p.pending q t, q⟩ s = (p.bit s && (decide (s ≠ t) || q.any fun e => e.signum == t)) := by
  simp only [settleBit]
  split_ifs with h
  · simp only [h, Bool.or_true, Bool.and_true]
    rfl
  · rw [bit_andNot hs ht]
    simp [h]

/-! ## The mask and the queue agree -/

/-- What an entry counts as: its signal, and its timer if it has one. -/
def key (e : RtSigEntry) : Nat × Option UInt32 := (e.signum, e.timerId)

/-- The invariant of the two fields, each timer raising its own signal. -/
structure Consistent (timerSignum : UInt32 → Nat) (p : Pending) : Prop where
  bits : ∀ s, validSignum s → (p.bit s ↔ ∃ e ∈ p.rtQueue, e.signum = s)
  valid : ∀ e ∈ p.rtQueue, validSignum e.signum
  single : ∀ s, s < sigrtmin → (p.rtQueue.map key).count (s, none) ≤ 1
  timers : ∀ e ∈ p.rtQueue, ∀ id, e.timerId = some id → e.signum = timerSignum id

variable {timerSignum : UInt32 → Nat}

theorem Consistent.empty : Consistent timerSignum Pending.empty := by
  refine ⟨?_, by simp [Pending.empty], by simp [Pending.empty], by simp [Pending.empty]⟩
  intro s hs
  simp [bit_eq hs, Pending.empty]

theorem mem_iff_of_key {q' : List RtSigEntry} (h : q'.map key = q.map key) {t : Option UInt32} :
    (∃ e ∈ q', e.signum = s ∧ e.timerId = t) ↔ ∃ e ∈ q, e.signum = s ∧ e.timerId = t := by
  have hmem : ∀ l : List RtSigEntry, (s, t) ∈ l.map key ↔ ∃ e ∈ l, e.signum = s ∧ e.timerId = t := by
    simp [key]
  rw [← hmem, ← hmem, h]

/-- Metadata does not matter to the invariant. -/
theorem Consistent.of_key {p' : Pending} (hp : Consistent timerSignum p) (hbits : p'.pending = p.pending)
    (hkeys : p'.rtQueue.map key = p.rtQueue.map key) : Consistent timerSignum p' := by
  have hback : ∀ e ∈ p'.rtQueue, ∃ d ∈ p.rtQueue, d.signum = e.signum ∧ d.timerId = e.timerId :=
    fun e he => (mem_iff_of_key hkeys).mp ⟨e, he, rfl, rfl⟩
  have hforth : ∀ e ∈ p.rtQueue, ∃ d ∈ p'.rtQueue, d.signum = e.signum ∧ d.timerId = e.timerId :=
    fun e he => (mem_iff_of_key hkeys).mpr ⟨e, he, rfl, rfl⟩
  refine ⟨?_, ?_, hkeys ▸ hp.single, ?_⟩
  · intro s hs
    rw [bit_eq hs, hbits, ← bit_eq hs, hp.bits s hs]
    constructor
    · intro h
      obtain ⟨e, he, rfl⟩ := h
      obtain ⟨d, hd, hsig, _⟩ := hforth e he
      exact ⟨d, hd, hsig⟩
    intro h
    obtain ⟨e, he, rfl⟩ := h
    obtain ⟨d, hd, hsig, _⟩ := hback e he
    exact ⟨d, hd, hsig⟩
  · intro e he
    obtain ⟨d, hd, hsig, _⟩ := hback e he
    exact hsig ▸ hp.valid d hd
  · intro e he id hid
    obtain ⟨d, hd, hsig, htimer⟩ := hback e he
    rw [← hsig]
    exact hp.timers d hd id (htimer.trans hid)

variable {e : RtSigEntry}

/-- One more entry, with its bit. -/
theorem Consistent.append (hp : Consistent timerSignum p)
    (hv : validSignum e.signum) (htimer : ∀ id, e.timerId = some id → e.signum = timerSignum id)
    (hnew : e.signum < sigrtmin → e.timerId = none → ∀ d ∈ p.rtQueue, d.signum = e.signum → d.timerId ≠ none) :
    Consistent timerSignum ⟨p.pending ||| sigBit e.signum, p.rtQueue ++ [e]⟩ := by
  refine ⟨?_, ?_, ?_, ?_⟩
  · intro s hs
    rw [bit_or hs hv]
    simp only [Bool.or_eq_true, hp.bits s hs, decide_eq_true_eq, mem_append, mem_singleton]
    constructor
    · intro h
      rcases h with ⟨d, hd, hsig⟩ | rfl
      · exact ⟨d, .inl hd, hsig⟩
      · exact ⟨e, .inr rfl, rfl⟩
    intro h
    obtain ⟨d, hd | rfl, hsig⟩ := h
    · exact .inl ⟨d, hd, hsig⟩
    · exact .inr hsig.symm
  · intro d hd
    rcases mem_append.mp hd with hd | hd
    · exact hp.valid d hd
    · rw [mem_singleton.mp hd]; exact hv
  · intro s hs
    by_cases hk : key e = (s, none)
    · -- the new entry is the first of its kind
      have hzero : (p.rtQueue.map key).count (s, none) = 0 := by
        rw [count_eq_zero]
        intro hmem
        obtain ⟨d, hd, hkd⟩ := mem_map.mp hmem
        simp only [key, Prod.mk.injEq] at hk hkd
        exact hnew (hk.1 ▸ hs) hk.2 d hd (hkd.1.trans hk.1.symm) hkd.2
      simp [hzero, hk]
    · have := hp.single s hs
      simpa [hk] using this
  · intro d hd id hid
    rcases mem_append.mp hd with hd | hd
    · exact hp.timers d hd id hid
    · rw [mem_singleton.mp hd] at hid ⊢
      exact htimer id hid

/-- Entries of one signal leave, and its bit with the last of them. -/
theorem Consistent.remove (hp : Consistent timerSignum p) (ht : validSignum t) (hsub : q.Sublist p.rtQueue)
    (hkeep : ∀ e ∈ p.rtQueue, e.signum ≠ t → e ∈ q) : Consistent timerSignum ⟨settleBit p.pending q t, q⟩ := by
  refine ⟨?_, fun e he => hp.valid e (hsub.subset he), ?_, fun e he => hp.timers e (hsub.subset he)⟩
  · intro s hs
    rw [bit_settleBit hs ht]
    simp only [Bool.and_eq_true, hp.bits s hs, Bool.or_eq_true, decide_eq_true_eq, any_eq_true, beq_iff_eq]
    constructor
    · intro h
      obtain ⟨⟨e, he, hsig⟩, h⟩ := h
      by_cases hst : s = t
      · subst hst
        exact h.resolve_left (by simp)
      · exact ⟨e, hkeep e he (hsig ▸ hst), hsig⟩
    intro h
    obtain ⟨e, he, hsig⟩ := h
    refine ⟨⟨e, hsub.subset he, hsig⟩, ?_⟩
    by_cases hst : s = t
    · subst hst
      exact .inr ⟨e, he, hsig⟩
    · exact .inl hst
  · intro s hs
    exact Nat.le_trans ((hsub.map key).count_le _) (hp.single s hs)

/-! ## Each operation keeps it -/

theorem coalesce_key : ∀ {q q' : List RtSigEntry}, coalesce e q = some q' → q'.map key = q.map key ∧ ∃ d ∈ q, d.signum = e.signum
  | [], q', h => by simp [coalesce] at h
  | x :: xs, q', h => by
    simp only [coalesce] at h
    split at h
    · rename_i hx
      simp only [Option.some.injEq] at h
      subst h
      refine ⟨?_, x, by simp, hx.1⟩
      split <;> simp [key]
    · simp only [Option.map_eq_some_iff] at h
      obtain ⟨w, hw, rfl⟩ := h
      obtain ⟨hkey, d, hd, hsig⟩ := coalesce_key hw
      exact ⟨by simp [hkey], d, by simp [hd], hsig⟩

theorem coalesce_none : ∀ {q : List RtSigEntry}, coalesce e q = none → ∀ d ∈ q, d.signum = e.signum → d.timerId ≠ none
  | [], _, d, hd => by simp at hd
  | x :: xs, h, d, hd => by
    simp only [coalesce] at h
    split at h
    · simp at h
    rename_i hx
    simp only [Option.map_eq_none_iff] at h
    rcases mem_cons.mp hd with rfl | hd
    · intro hsig htimer
      exact hx ⟨hsig, htimer⟩
    · exact coalesce_none h d hd

theorem or_sigBit_of_bit (hs : validSignum s) (h : p.bit s) : p.pending ||| sigBit s = p.pending := by
  apply BitVec.eq_of_getLsbD_eq
  intro i _
  rw [BitVec.getLsbD_or, getLsbD_sigBit hs]
  by_cases hi : i = s - 1
  · subst hi
    rw [bit_eq hs] at h
    simp [h]
  · simp [hi]

section

variable (hp : Consistent timerSignum p)

include hp

theorem Consistent.queueSignal (hv : validSignum e.signum) (htimer : e.timerId = none) : Consistent timerSignum (p.queueSignal e) := by
  have hnotimer : ∀ id, e.timerId = some id → e.signum = timerSignum id := by simp [htimer]
  simp only [Pending.queueSignal]
  split_ifs with hrt
  · exact hp.append hv hnotimer fun hlt => absurd hlt (by omega)
  cases hc : coalesce e p.rtQueue with
  | none =>
    exact hp.append hv hnotimer fun _ _ => coalesce_none hc
  | some q =>
    -- the entry was there, so its bit was set already
    obtain ⟨hkey, d, hd, hsig⟩ := coalesce_key hc
    have hbit : p.bit e.signum := (hp.bits _ hv).mpr ⟨d, hd, hsig⟩
    exact hp.of_key (or_sigBit_of_bit hv hbit) hkey

/-- A set bit has its entry, so the timer never adds a placeholder. -/
theorem Consistent.queueTimer_eq {signum : Nat} (hv : validSignum signum) (value : UInt64) (id : UInt32) :
    p.queueTimer signum value id = ⟨p.pending ||| sigBit signum, p.rtQueue ++ [⟨signum, value, -2, 0, 0, some id⟩]⟩ := by
  have hno : ¬ (signum < sigrtmin ∧ p.bit signum ∧ ¬ (p.rtQueue.any fun e => e.signum == signum)) := by
    intro h
    obtain ⟨e, he, hsig⟩ := (hp.bits signum hv).mp h.2.1
    exact h.2.2 (by simpa using ⟨e, he, hsig⟩)
  simp only [queueTimer, if_neg hno]

theorem Consistent.queueTimer {id : UInt32} (hv : validSignum (timerSignum id)) (value : UInt64) :
    Consistent timerSignum (p.queueTimer (timerSignum id) value id) := by
  rw [hp.queueTimer_eq hv]
  refine hp.append (e := ⟨timerSignum id, value, -2, 0, 0, some id⟩) hv ?_ (by simp)
  intro id' hid
  simp only [Option.some.injEq] at hid
  rw [hid]

theorem Consistent.consumePendingInfo (signum : Nat) : Consistent timerSignum (p.consumePendingInfo signum).2 := by
  simp only [Pending.consumePendingInfo]
  split_ifs with hv
  · exact hp
  refine hp.remove (by simpa using hv) eraseP_sublist ?_
  intro e he hne
  exact (mem_eraseP_of_neg (by simpa using hne)).mpr he

end

theorem removeTimerInfo_rtQueue (p : Pending) (timerId : UInt32) :
    (p.removeTimerInfo timerId).2.rtQueue = p.rtQueue.filter fun e => e.timerId != some timerId := by
  simp only [removeTimerInfo]
  split
  · rename_i hnone
    refine (filter_eq_self.mpr fun e he => ?_).symm
    simpa using find?_eq_none.mp hnone e he
  · rfl

theorem Consistent.removeTimerInfo (hp : Consistent timerSignum p) (id : UInt32) : Consistent timerSignum (p.removeTimerInfo id).2 := by
  simp only [Pending.removeTimerInfo]
  split
  · exact hp
  rename_i d hd
  have hmem := mem_of_find?_eq_some hd
  have hid : d.timerId = some id := by simpa using find?_some hd
  refine hp.remove (hp.valid d hmem) filter_sublist ?_
  intro e he hne
  simp only [mem_filter, bne_iff_ne]
  -- a notification of the same timer would be of the same signal
  refine ⟨he, fun hsame => hne ?_⟩
  rw [hp.timers e he id hsame, hp.timers d hmem id hid]

theorem Consistent.clearPending (hp : Consistent timerSignum p) (signum : Nat) : Consistent timerSignum (p.clearPending signum) := by
  simp only [Pending.clearPending]
  split_ifs with hv
  · have hnone : (p.rtQueue.filter fun e => e.signum != signum).any (fun e => e.signum == signum) = false := by
      simp
    have := hp.remove hv (q := p.rtQueue.filter fun e => e.signum != signum) filter_sublist
      (fun e he hne => by simp [he, hne])
    rwa [settleBit, hnone] at this
  · exact hp

/-! ## One signal's entries -/

/-- The entries of one signal, oldest first. -/
def entriesOf (s : Nat) (q : List RtSigEntry) : List RtSigEntry := q.filter fun e => e.signum == s

/-- One entry of the signal left the queue: the oldest one, alone, and the bit
only if no other is left. -/
structure Taken (p p' : Pending) (s : Nat) (e : RtSigEntry) : Prop where
  signum : e.signum = s
  split : ∃ before after, p.rtQueue = before ++ e :: after ∧ (∀ d ∈ before, d.signum ≠ s) ∧ p'.rtQueue = before ++ after
  last : p'.bit s ↔ ∃ d ∈ p'.rtQueue, d.signum = s
  others : ∀ t, validSignum t → t ≠ s → p'.bit t = p.bit t

theorem find?_split (h : q.find? (fun e => e.signum == s) = some e) :
    ∃ before after, q = before ++ e :: after ∧ (∀ d ∈ before, d.signum ≠ s) ∧ q.eraseP (fun e => e.signum == s) = before ++ after := by
  obtain ⟨he, before, after, rfl, hbefore⟩ := find?_eq_some_iff_append.mp h
  refine ⟨before, after, rfl, ?_, ?_⟩
  · intro d hd
    simpa using hbefore d hd
  · rw [eraseP_append_right _ (fun d hd => by simpa using hbefore d hd)]
    simp [he]

/-- Consuming a pending signal takes its oldest entry and answers its metadata. -/
theorem Consistent.consume_taken (hp : Consistent timerSignum p) (hv : validSignum s)
    (hbit : p.bit s) : ∃ e, Taken p (p.consumePendingInfo s).2 s e ∧ (p.consumePendingInfo s).1 = e.info := by
  obtain ⟨d, hd, hsig⟩ := (hp.bits s hv).mp hbit
  cases hf : p.rtQueue.find? fun e => e.signum == s with
  | none => exact absurd (by simpa using hsig) (find?_eq_none.mp hf d hd)
  | some e =>
    have hcon := hp.consumePendingInfo s
    have hinfo : (p.consumePendingInfo s).1 = e.info := by simp [Pending.consumePendingInfo, hv, hf]
    have hqueue : (p.consumePendingInfo s).2.rtQueue = p.rtQueue.eraseP fun e => e.signum == s := by
      simp [Pending.consumePendingInfo, hv]
    obtain ⟨before, after, hq, hbefore, herase⟩ := find?_split hf
    refine ⟨e, ⟨by simpa using find?_some hf, ⟨before, after, hq, hbefore, hqueue.trans herase⟩, hcon.bits s hv, ?_⟩, hinfo⟩
    intro t ht hne
    simp only [Pending.consumePendingInfo, hv, Bool.not_true, Bool.false_eq_true, if_false]
    rw [bit_settleBit ht hv]
    simp [hne]

/-- Consuming a signal that is not pending changes nothing. -/
theorem Consistent.consume_idle (hp : Consistent timerSignum p) (hv : validSignum s)
    (hbit : p.bit s = false) : p.consumePendingInfo s = (PendingSignalInfo.default, p) := by
  have hnone : ∀ e ∈ p.rtQueue, e.signum ≠ s := by
    intro e he hsig
    have := (hp.bits s hv).mpr ⟨e, he, hsig⟩
    simp [hbit] at this
  have hf : p.rtQueue.find? (fun e => e.signum == s) = none := by
    rw [find?_eq_none]
    intro e he
    simpa using hnone e he
  have herase : p.rtQueue.eraseP (fun e => e.signum == s) = p.rtQueue :=
    eraseP_of_forall_not fun e he => by simpa using hnone e he
  have hany : (p.rtQueue.any fun e => e.signum == s) = false := by
    rw [any_eq_false]
    intro e he
    simpa using hnone e he
  have hmask : p.pending &&& ~~~sigBit s = p.pending := by
    apply BitVec.eq_of_getLsbD_eq
    intro i hi
    rw [BitVec.getLsbD_and, BitVec.getLsbD_not, getLsbD_sigBit hv]
    by_cases h : i = s - 1
    · subst h
      rw [bit_eq hv] at hbit
      simp [hbit]
    · simp [h, hi]
  simp [Pending.consumePendingInfo, hf, herase, settleBit, hmask]

/-! ## What one operation does to a signal's entries -/

/-- The operations of both signal states on the shared fields. -/
inductive Op
  | queue (e : RtSigEntry)
  | timer (signum : Nat) (value : UInt64) (id : UInt32)
  | consume (signum : Nat)
  | clear (signum : Nat)
  | removeTimer (id : UInt32)
  | idle

def step (p : Pending) : Op → Pending
  | .queue e => p.queueSignal e
  | .timer signum value id => p.queueTimer signum value id
  | .consume signum => (p.consumePendingInfo signum).2
  | .clear signum => p.clearPending signum
  | .removeTimer id => (p.removeTimerInfo id).2
  | .idle => p

/-- What the states promise about the operations they make. -/
def Op.Ok (timerSignum : UInt32 → Nat) : Op → Prop
  | .queue e => validSignum e.signum ∧ e.timerId = none
  | .timer signum _ id => validSignum signum ∧ signum = timerSignum id
  | _ => True

theorem Consistent.step (hp : Consistent timerSignum p) {op : Op} (hop : op.Ok timerSignum) : Consistent timerSignum (p.step op) := by
  cases op with
  | queue e => exact hp.queueSignal hop.1 hop.2
  | timer signum value id =>
    obtain ⟨hv, rfl⟩ := hop
    exact hp.queueTimer hv value
  | consume signum => exact hp.consumePendingInfo signum
  | clear signum => exact hp.clearPending signum
  | removeTimer id => exact hp.removeTimerInfo id
  | idle => exact hp

/-- The entries of one signal an operation accepts, hands out and discards. -/
def moves (p : Pending) (s : Nat) : Op → Fifo.Moves RtSigEntry
  | .queue e => ⟨entriesOf s [e], [], []⟩
  | .timer signum value id => ⟨entriesOf s [⟨signum, value, -2, 0, 0, some id⟩], [], []⟩
  | .consume signum => ⟨[], if signum = s ∧ validSignum s then (entriesOf s p.rtQueue).take 1 else [], []⟩
  | .clear signum => ⟨[], [], if signum = s ∧ validSignum s then entriesOf s p.rtQueue else []⟩
  | .removeTimer id => ⟨[], [], (entriesOf s p.rtQueue).filter fun e => e.timerId == some id⟩
  | .idle => Fifo.Moves.none

theorem entriesOf_append (s : Nat) (q r : List RtSigEntry) : entriesOf s (q ++ r) = entriesOf s q ++ entriesOf s r :=
  filter_append _ _

/-- Coalescing touches the entries of its own signal only. -/
theorem entriesOf_coalesce (hne : e.signum ≠ s) : ∀ {q q' : List RtSigEntry}, coalesce e q = some q' → entriesOf s q' = entriesOf s q
  | [], q', h => by simp [coalesce] at h
  | x :: xs, q', h => by
    simp only [coalesce] at h
    split at h
    · rename_i hx
      simp only [Option.some.injEq] at h
      subst h
      have hxs : x.signum ≠ s := hx.1 ▸ hne
      split <;> simp [entriesOf, hxs]
    simp only [Option.map_eq_some_iff] at h
    obtain ⟨w, hw, rfl⟩ := h
    have := entriesOf_coalesce hne hw
    simp only [entriesOf, filter_cons] at this ⊢
    rw [this]

theorem entriesOf_queueSignal (hs : sigrtmin ≤ s) :
    entriesOf s (p.queueSignal e).rtQueue = entriesOf s p.rtQueue ++ entriesOf s [e] := by
  simp only [queueSignal]
  split
  · exact entriesOf_append s _ _
  have hne : e.signum ≠ s := by omega
  have hnil : entriesOf s [e] = [] := by simp [entriesOf, hne]
  cases hc : coalesce e p.rtQueue with
  | none => exact entriesOf_append s _ _
  | some q => rw [hnil, append_nil, Option.getD_some, entriesOf_coalesce hne hc]

theorem entriesOf_eraseP (s : Nat) : ∀ q : List RtSigEntry, entriesOf s (q.eraseP fun e => e.signum == s) = (entriesOf s q).drop 1
  | [] => rfl
  | x :: xs => by
    by_cases hx : x.signum = s
    · simp [entriesOf, hx]
    have := entriesOf_eraseP s xs
    simp only [entriesOf] at this ⊢
    rw [eraseP_cons_of_neg (by simpa using hx), filter_cons_of_neg (by simpa using hx), filter_cons_of_neg (by simpa using hx), this]

theorem entriesOf_eraseP_ne (hne : t ≠ s) : ∀ q : List RtSigEntry, entriesOf s (q.eraseP fun e => e.signum == t) = entriesOf s q
  | [] => rfl
  | x :: xs => by
    by_cases hx : x.signum = t
    · simp [entriesOf, hx, hne]
    have := entriesOf_eraseP_ne hne xs
    simp only [entriesOf] at this ⊢
    rw [eraseP_cons_of_neg (by simpa using hx), filter_cons, filter_cons, this]

/-- One operation moves a real-time signal's entries through the queue in order. -/
theorem Consistent.step_balanced (hp : Consistent timerSignum p) {op : Op} (hop : op.Ok timerSignum) (hs : sigrtmin ≤ s) :
    Fifo.Balanced (entriesOf s p.rtQueue) (entriesOf s (p.step op).rtQueue) (p.moves s op) := by
  cases op with
  | queue e =>
    simp only [Pending.step, Pending.moves, entriesOf_queueSignal hs]
    constructor <;> simp
  | timer signum value id =>
    simp only [Pending.step, Pending.moves]
    rw [hp.queueTimer_eq hop.1, entriesOf_append]
    constructor <;> simp
  | consume signum =>
    simp only [Pending.step, Pending.moves, Pending.consumePendingInfo]
    by_cases hv : validSignum signum
    · simp only [hv, Bool.not_true, Bool.false_eq_true, if_false]
      by_cases heq : signum = s
      · subst heq
        simp only [hv, and_self, if_true, entriesOf_eraseP]
        have hsplit := take_append_drop 1 (entriesOf signum p.rtQueue)
        constructor
        · rw [hsplit, append_nil]
        · rw [append_nil, hsplit, append_nil]
      · simp only [heq, entriesOf_eraseP_ne heq]
        exact .refl _
    · have hno : ¬ (signum = s ∧ validSignum s) := fun h => hv (h.1 ▸ h.2)
      simp only [hv, if_neg hno]
      exact .refl _
  | clear signum =>
    simp only [Pending.step, Pending.moves, Pending.clearPending]
    by_cases hv : validSignum signum
    · simp only [hv, if_true]
      by_cases heq : signum = s
      · subst heq
        have hnil : entriesOf signum (p.rtQueue.filter fun e => e.signum != signum) = [] := by
          simp [entriesOf]
        simp only [hv, hnil]
        constructor <;> simp
      have hkeep : entriesOf s (p.rtQueue.filter fun e => e.signum != signum) = entriesOf s p.rtQueue := by
        simp only [entriesOf, filter_filter]
        refine filter_congr ?_
        intro e _
        by_cases he : e.signum = s
        · simp [he, Ne.symm heq]
        · simp [he]
      simp only [heq, hkeep]
      exact .refl _
    · have hno : ¬ (signum = s ∧ validSignum s) := fun h => hv (h.1 ▸ h.2)
      simp only [hv, if_neg hno]
      exact .refl _
  | removeTimer id =>
    simp only [Pending.step, Pending.moves, Pending.removeTimerInfo]
    have hrest : ∀ q : List RtSigEntry, entriesOf s (q.filter fun e => e.timerId != some id) =
        (entriesOf s q).filter fun e => !(e.timerId == some id) := by
      intro q
      simp only [entriesOf, filter_filter]
      refine filter_congr ?_
      intro e _
      rw [Bool.and_comm]
      rfl
    split
    · rename_i hf
      have hnil : (entriesOf s p.rtQueue).filter (fun e => e.timerId == some id) = [] := by
        rw [filter_eq_nil_iff]
        intro e he
        exact find?_eq_none.mp hf e (mem_of_mem_filter he)
      rw [hnil]
      exact .refl _
    · simp only [hrest]
      constructor
      · simp
      · simpa using filter_append_perm (fun e : RtSigEntry => e.timerId == some id) (entriesOf s p.rtQueue)
  | idle => exact .refl _

end Pending

end Kandelo.Signal

/-
Process-shared barriers (`PSharedTable::barrier_wait`). A waiter's entry stays in the
barrier's vector from its arrival until its owner calls again and collects the
release, and the length of that vector is what a new arrival compares with the count.

`Rounds` says what a barrier is for, over any assignment of the calls to rounds.
`rounds_of_collected` builds the assignment while every round is collected before
the next one completes; `mul_serials_le` counts the arrivals any assignment needs,
and a round completed over uncollected entries has had too few.
-/
import Kandelo.Errno
import Kandelo.Lib.OrdMap

namespace Kandelo.Pshared

open List

def pthreadBarrierSerialThread : Int32 := -1

structure BarrierWaiter where
  pid : UInt32
  isSerial : Bool
  released : Bool
  deriving DecidableEq, Repr

structure PSharedBarrier where
  count : UInt32
  waiters : List BarrierWaiter
  deriving DecidableEq, Repr

/-- `barrier_wait`, on the barrier it found. -/
def PSharedBarrier.wait (b : PSharedBarrier) (pid : UInt32) : Except Errno Int32 × PSharedBarrier :=
  match b.waiters.find? (·.pid = pid) with
  | some w =>
    if w.released then
      (.ok (if w.isSerial then pthreadBarrierSerialThread else 0), { b with waiters := b.waiters.eraseP (·.pid = pid) })
    else (.error .EAGAIN, b)
  | none =>
    let waiters := b.waiters ++ [⟨pid, false, false⟩]
    if UInt32.ofNat waiters.length = b.count then
      -- the last to arrive is the serial thread; its own entry, so marked, is consumed at once
      (.ok pthreadBarrierSerialThread, { b with waiters := (waiters.map ({ · with released := true })).dropLast })
    else (.error .EAGAIN, { b with waiters })

structure PSharedTable where
  barriers : OrdMap UInt32 PSharedBarrier
  nextId : UInt32

namespace PSharedTable

def allocId (t : PSharedTable) : UInt32 × PSharedTable :=
  (t.nextId, { t with nextId := if t.nextId + 1 = 0 then 1 else t.nextId + 1 })

def barrierInit (t : PSharedTable) (count : UInt32) : Except Errno UInt32 × PSharedTable :=
  if count = 0 then (.error .EINVAL, t)
  else
    let (id, t) := t.allocId
    (.ok id, { t with barriers := t.barriers.insert id ⟨count, []⟩ })

def barrierWait (t : PSharedTable) (id pid : UInt32) : Except Errno Int32 × PSharedTable :=
  match t.barriers.get? id with
  | none => (.error .EINVAL, t)
  | some b => ((b.wait pid).1, { t with barriers := t.barriers.insert id (b.wait pid).2 })

end PSharedTable

/-! ## Rounds -/

structure Call where
  pid : UInt32
  answer : Except Errno Int32

/-- The answer sends the caller back to call again. -/
def Call.again (c : Call) : Bool :=
  match c.answer with
  | .error e => e = .EAGAIN
  | .ok _ => false

def Call.serial (c : Call) : Bool :=
  match c.answer with
  | .error _ => false
  | .ok v => v = pthreadBarrierSerialThread

/-- Waits on one barrier, the callers and the answers the last first. -/
def PSharedTable.run (t : PSharedTable) (id : UInt32) : List UInt32 → PSharedTable × List Call
  | [] => (t, [])
  | pid :: earlier =>
    let s := t.run id earlier
    ((s.1.barrierWait id pid).2, ⟨pid, (s.1.barrierWait id pid).1⟩ :: s.2)

/-- The round of the wait a caller has to go on with, where its last call sent it back. -/
def pending (calls : List (Call × Nat)) (pid : UInt32) : Option Nat :=
  ((calls.find? (·.1.pid = pid)).filter (·.1.again)).map (·.2)

/-- The calls that are no retries: who arrived, in which round. -/
def arrivals : List (Call × Nat) → List (UInt32 × Nat)
  | [] => []
  | c :: earlier => if (pending earlier c.1.pid).isSome then arrivals earlier else (c.1.pid, c.2) :: arrivals earlier

/-- The callers that have arrived in a round. -/
def callers (calls : List (Call × Nat)) (round : Nat) : Finset UInt32 :=
  (((arrivals calls).filter (·.2 = round)).map (·.1)).toFinset

/-- The rounds of the serial threads. -/
def serials (calls : List (Call × Nat)) : List Nat := (calls.filter (·.1.serial)).map (·.2)

/-- A call and the calls before it, with their rounds: a retry stays in its wait's round,
nobody is released before `n` callers have arrived in the round, and whoever has an entry
when a round is released arrived in that round. -/
structure Fits (n : Nat) (c : Call × Nat) (earlier : List (Call × Nat)) : Prop where
  retried : ∀ r ∈ pending earlier c.1.pid, r = c.2
  released : ∀ v, c.1.answer = .ok v → n ≤ (callers (c :: earlier) c.2).card
  apart : c.1.serial → ∀ pid, ∀ r ∈ pending earlier pid, r = c.2

def Split (n : Nat) : List (Call × Nat) → Prop
  | [] => True
  | c :: earlier => Fits n c earlier ∧ Split n earlier

/-- The calls split into rounds of `n`; one caller of a full round is the serial thread,
and none of another. -/
def Rounds (n : Nat) (calls : List (Call × Nat)) : Prop :=
  Split n calls ∧ ∀ r, (serials calls).count r = if n ≤ (callers calls r).card then 1 else 0

/-- The call completes a round while a release of the one before has not been collected. -/
def PSharedTable.Overtakes (t : PSharedTable) (id pid : UInt32) : Prop :=
  ∃ b ∈ t.barriers.get? id, (∀ w ∈ b.waiters, w.pid ≠ pid) ∧ b.waiters.length + 1 = b.count.toNat ∧ ∃ w ∈ b.waiters, w.released

instance (t : PSharedTable) (id pid : UInt32) : Decidable (t.Overtakes id pid) := by
  unfold PSharedTable.Overtakes
  infer_instance

/-- No call of the run overtakes. -/
def PSharedTable.Collected (t : PSharedTable) (id : UInt32) : List UInt32 → Prop
  | [] => True
  | pid :: earlier => ¬(t.run id earlier).1.Overtakes id pid ∧ t.Collected id earlier

instance PSharedTable.decidableCollected (t : PSharedTable) (id : UInt32) : ∀ callers, Decidable (t.Collected id callers)
  | [] => .isTrue trivial
  | pid :: earlier =>
    have := t.decidableCollected id earlier
    inferInstanceAs (Decidable (¬(t.run id earlier).1.Overtakes id pid ∧ t.Collected id earlier))

section Cons

variable {c : Call} {r : Nat} {calls : List (Call × Nat)}

theorem pending_cons (pid : UInt32) : pending ((c, r) :: calls) pid =
    if c.pid = pid then if c.again then some r else none else pending calls pid := by
  by_cases hp : c.pid = pid
  · by_cases ha : c.again <;> simp [pending, hp, ha]
  · simp [pending, hp]

theorem arrivals_retry (h : (pending calls c.pid).isSome) : arrivals ((c, r) :: calls) = arrivals calls := if_pos h

theorem arrivals_new (h : pending calls c.pid = none) : arrivals ((c, r) :: calls) = (c.pid, r) :: arrivals calls := by
  rw [arrivals, h]
  rfl

theorem callers_retry (h : (pending calls c.pid).isSome) : callers ((c, r) :: calls) = callers calls := by
  funext r'
  rw [callers, arrivals_retry h, callers]

theorem callers_new (h : pending calls c.pid = none) (r' : Nat) :
    callers ((c, r) :: calls) r' = if r = r' then insert c.pid (callers calls r') else callers calls r' := by
  rw [callers, arrivals_new h]
  by_cases hr : r = r' <;> simp [callers, hr]

theorem callers_subset_cons (r' : Nat) : callers calls r' ⊆ callers ((c, r) :: calls) r' := by
  cases h : pending calls c.pid with
  | some x => rw [callers_retry (by rw [h]; rfl)]
  | none =>
    rw [callers_new h]
    split
    · exact Finset.subset_insert ..
    · rfl

end Cons

namespace PSharedBarrier

variable {b : PSharedBarrier} {pid : UInt32}

theorem eraseP_pid : ∀ {ws : List BarrierWaiter}, (ws.map (·.pid)).Nodup → ws.eraseP (·.pid = pid) = ws.filter (·.pid ≠ pid)
  | [], _ => rfl
  | w :: ws, h => by
    rw [map_cons, nodup_cons] at h
    by_cases hw : w.pid = pid
    · have hrest : ∀ x ∈ ws, x.pid ≠ pid := fun x hx hxp => h.1 (hw ▸ hxp ▸ mem_map_of_mem hx)
      rw [eraseP_cons_of_pos (by simpa using hw), filter_cons_of_neg (by simpa using hw)]
      exact (filter_eq_self.mpr (by simpa using hrest)).symm
    · simpa [hw] using eraseP_pid h.2

theorem wait_arrival (hfind : b.waiters.find? (·.pid = pid) = none) (hshort : b.waiters.length < b.count.toNat) :
    b.wait pid = if b.waiters.length + 1 = b.count.toNat then
        (.ok pthreadBarrierSerialThread, { b with waiters := b.waiters.map ({ · with released := true }) })
      else (.error .EAGAIN, { b with waiters := b.waiters ++ [⟨pid, false, false⟩] }) := by
  have hfull : UInt32.ofNat (b.waiters.length + 1) = b.count ↔ b.waiters.length + 1 = b.count.toNat := by
    have hlt := b.count.toNat_lt
    rw [← UInt32.toNat_inj, UInt32.toNat_ofNat_of_lt' (by change _ < 2 ^ 32; omega)]
  simp only [wait, hfind, length_append, length_singleton, hfull, map_append, map_singleton, dropLast_concat]

end PSharedBarrier

/-! ## While every round is collected before the next completes -/

/-- After `k` rounds an entry is of the round `k`, a released one of the round before. -/
def BarrierWaiter.round (k : Nat) (w : BarrierWaiter) : Nat := if w.released then k - 1 else k

/-- The entries are the waits to go on with, and `k` rounds are full. -/
structure Inv (n k : Nat) (b : PSharedBarrier) (calls : List (Call × Nat)) : Prop where
  count : b.count.toNat = n
  short : b.waiters.length < n
  nodup : (b.waiters.map (·.pid)).Nodup
  entry : ∀ w ∈ b.waiters, w.isSerial = false ∧ (w.released → 0 < k)
  entries : ∀ pid, pending calls pid = (b.waiters.find? (·.pid = pid)).map (·.round k)
  arrived : ∀ r, k ≤ r → ∀ pid, pid ∈ callers calls r ↔ pending calls pid = some r
  full : ∀ r < k, n ≤ (callers calls r).card
  total : (arrivals calls).length = n * k + b.waiters.countP (!·.released)
  serial : serials calls = (List.range k).reverse
  split : Split n calls

namespace Inv

variable {n k : Nat} {b : PSharedBarrier} {calls : List (Call × Nat)} {pid : UInt32} {w : BarrierWaiter}

theorem start (hn : b.count.toNat = n) (hpos : 0 < n) (hb : b.waiters = []) : Inv n 0 b [] := by
  refine ⟨hn, ?_, ?_, ?_, ?_, ?_, ?_, ?_, ?_, trivial⟩ <;> simp [hb, hpos, pending, callers, serials, arrivals]

section

variable (h : Inv n k b calls)

include h

theorem pending_le {r : Nat} (hr : r ∈ pending calls pid) : r ≤ k ∧ pid ∈ b.waiters.map (·.pid) := by
  rw [Option.mem_def, h.entries, Option.map_eq_some_iff] at hr
  obtain ⟨w, hw, rfl⟩ := hr
  have hp : w.pid = pid := by simpa using find?_some hw
  refine ⟨?_, hp ▸ mem_map_of_mem (mem_of_find?_eq_some hw)⟩
  rw [BarrierWaiter.round]
  split <;> omega

theorem rounds : Rounds n calls := by
  refine ⟨h.split, fun r => ?_⟩
  rw [h.serial, count_reverse, count_range]
  by_cases hr : r < k
  · rw [if_pos hr, if_pos (h.full r hr)]
  have hsub : callers calls r ⊆ (b.waiters.map (·.pid)).toFinset := fun p hp =>
    mem_toFinset.mpr (h.pending_le ((h.arrived r (by omega) p).mp hp)).2
  have hshort : (callers calls r).card < n :=
    calc _ ≤ (b.waiters.map (·.pid)).toFinset.card := Finset.card_le_card hsub
      _ ≤ (b.waiters.map (·.pid)).length := toFinset_card_le _
      _ < n := by rw [length_map]; exact h.short
  rw [if_neg hr, if_neg (by omega)]

/-- The caller goes on waiting. -/
theorem retry (hpending : pending calls pid = some k) : Inv n k b ((⟨pid, .error .EAGAIN⟩, k) :: calls) := by
  have hsome : (pending calls pid).isSome := by rw [hpending]; rfl
  have hsame : ∀ p, pending ((⟨pid, .error .EAGAIN⟩, k) :: calls) p = pending calls p := by
    intro p
    rw [pending_cons]
    split
    · rename_i hp
      rw [← hp, hpending]
      rfl
    · rfl
  refine ⟨h.count, h.short, h.nodup, h.entry, fun p => ?_, fun r hr p => ?_, ?_, ?_, h.serial, ?_⟩
  · rw [hsame, h.entries]
  · rw [hsame, callers_retry hsome, h.arrived r hr]
  · rw [callers_retry hsome]
    exact h.full
  · rw [arrivals_retry hsome, h.total]
  · exact ⟨⟨fun r hr => Option.some.inj (hr.symm.trans hpending), nofun, nofun⟩, h.split⟩

/-- The caller collects its release. -/
theorem collect (hw : b.waiters.find? (·.pid = pid) = some w) (hr : w.released) :
    Inv n k { b with waiters := b.waiters.filter (·.pid ≠ pid) } ((⟨pid, .ok 0⟩, k - 1) :: calls) := by
  have hmem := mem_of_find?_eq_some hw
  have hk := (h.entry w hmem).2 hr
  have hpending : pending calls pid = some (k - 1) := by
    rw [h.entries, hw]
    simp [BarrierWaiter.round, hr]
  have hsome : (pending calls pid).isSome := by rw [hpending]; rfl
  have hnext : ∀ p, pending ((⟨pid, .ok 0⟩, k - 1) :: calls) p = if pid = p then none else pending calls p :=
    fun p => pending_cons p
  have hcount : (b.waiters.filter (·.pid ≠ pid)).countP (!·.released) = b.waiters.countP (!·.released) := by
    have hwp : w.pid = pid := by simpa using find?_some hw
    rw [countP_filter]
    refine countP_congr fun x hx => ?_
    have hne : x.released = false → x.pid ≠ pid := by
      intro hx' hxp
      rw [inj_on_of_nodup_map h.nodup hx hmem (hxp.trans hwp.symm), hr] at hx'
      cases hx'
    simpa using hne
  refine ⟨h.count, ?_, ?_, ?_, fun p => ?_, fun r hr p => ?_, ?_, ?_, h.serial, ?_, h.split⟩
  · exact (length_filter_le ..).trans_lt h.short
  · exact h.nodup.sublist (filter_sublist.map _)
  · exact fun x hx => h.entry x (mem_of_mem_filter hx)
  · rw [hnext, find?_filter]
    split
    · simp_all
    rw [h.entries]
    congr 2
    grind
  · rw [callers_retry hsome, hnext, h.arrived r hr]
    split
    · rename_i hp
      rw [← hp, hpending]
      simp
      omega
    · rfl
  · rw [callers_retry hsome]
    exact h.full
  · rw [hcount, arrivals_retry hsome, h.total]
  · refine ⟨fun r hr => Option.some.inj (hr.symm.trans hpending), fun _ _ => ?_, nofun⟩
    rw [callers_retry hsome]
    exact h.full _ (by omega)

/-- The caller arrives, and waits. -/
theorem arrive (hnew : b.waiters.find? (·.pid = pid) = none) (hn : b.waiters.length + 1 < n) :
    Inv n k { b with waiters := b.waiters ++ [⟨pid, false, false⟩] } ((⟨pid, .error .EAGAIN⟩, k) :: calls) := by
  have hpending : pending calls pid = none := by rw [h.entries, hnew, Option.map_none]
  have hnext : ∀ p, pending ((⟨pid, .error .EAGAIN⟩, k) :: calls) p = if pid = p then some k else pending calls p :=
    fun p => pending_cons p
  refine ⟨h.count, ?_, ?_, ?_, fun p => ?_, fun r hr p => ?_, fun r hr => ?_, ?_, h.serial, ?_, h.split⟩
  · simpa using hn
  · rw [map_append]
    exact nodup_append.mpr ⟨h.nodup, nodup_singleton _, by simpa using hnew⟩
  · simpa [or_imp, forall_and] using h.entry
  · rw [hnext, h.entries, find?_append]
    by_cases hp : pid = p
    · rw [← hp, hnew]
      simp [BarrierWaiter.round]
    · simp [hp]
  · rw [callers_new hpending]
    have := h.arrived r hr p
    grind
  · exact (h.full r hr).trans (Finset.card_le_card (callers_subset_cons r))
  · rw [arrivals_new hpending, length_cons, h.total]
    simp
    omega
  · exact ⟨by rw [hpending]; nofun, nofun, nofun⟩

/-- The caller completes the round `k`. -/
theorem complete (hnew : b.waiters.find? (·.pid = pid) = none) (hn : b.waiters.length + 1 = n)
    (hall : ∀ w ∈ b.waiters, w.released = false) : Inv n (k + 1) { b with waiters := b.waiters.map ({ · with released := true }) }
      ((⟨pid, .ok pthreadBarrierSerialThread⟩, k) :: calls) := by
  have hround : ∀ p, pending calls p = (b.waiters.find? (·.pid = p)).map fun _ => k := by
    intro p
    rw [h.entries]
    refine Option.map_congr fun w hw => ?_
    rw [BarrierWaiter.round, hall w (mem_of_find?_eq_some hw)]
    rfl
  have hpending : pending calls pid = none := by rw [hround, hnew, Option.map_none]
  have hnext : ∀ p, pending ((⟨pid, .ok pthreadBarrierSerialThread⟩, k) :: calls) p = pending calls p := by
    intro p
    rw [pending_cons]
    split
    · rename_i hp
      rw [← hp, hpending]
      rfl
    · rfl
  have hcard : n ≤ (callers ((⟨pid, .ok pthreadBarrierSerialThread⟩, k) :: calls) k).card := by
    have hsub : (b.waiters.map (·.pid)).toFinset ⊆ callers calls k := by
      intro p hp
      obtain ⟨w, hw, rfl⟩ := mem_map.mp (mem_toFinset.mp hp)
      have hfound : (b.waiters.find? (·.pid = w.pid)).isSome := find?_isSome.mpr ⟨w, hw, decide_eq_true rfl⟩
      obtain ⟨x, hx⟩ := Option.isSome_iff_exists.mp hfound
      rw [h.arrived k le_rfl, hround, hx]
      rfl
    have hle := Finset.card_le_card hsub
    rw [toFinset_card_of_nodup h.nodup, length_map] at hle
    rw [callers_new hpending, if_pos rfl, Finset.card_insert_of_notMem]
    · omega
    · rw [h.arrived k le_rfl, hpending]
      nofun
  refine ⟨h.count, ?_, ?_, ?_, fun p => ?_, fun r hr p => ?_, fun r hr => ?_, ?_, ?_, ⟨?_, fun _ _ => hcard, ?_⟩, h.split⟩
  · rw [length_map]
    exact h.short
  · rw [map_map]
    exact h.nodup
  · simpa using fun w hw => (h.entry w hw).1
  · rw [hnext, hround, find?_map, Option.map_map]
    rfl
  · rw [callers_new hpending, if_neg (by omega), hnext, h.arrived r (by omega)]
  · rcases Nat.lt_succ_iff_lt_or_eq.mp hr with hr | rfl
    · exact (h.full r hr).trans (Finset.card_le_card (callers_subset_cons r))
    · exact hcard
  · have hall' : b.waiters.countP (!·.released) = b.waiters.length := by simpa [countP_eq_length] using hall
    have hzero : (b.waiters.map ({ · with released := true })).countP (!·.released) = 0 := by simp [countP_eq_zero]
    rw [hzero, arrivals_new hpending, length_cons, h.total, Nat.mul_succ]
    omega
  · rw [range_succ, reverse_append, ← h.serial]
    rfl
  · rw [hpending]
    nofun
  · intro _ p r hr
    rw [hround, Option.mem_def, Option.map_eq_some_iff] at hr
    exact hr.choose_spec.2.symm

/-- One call, unless it completes a round over uncollected entries. -/
theorem step (pid : UInt32)
    (hgood : b.waiters.find? (·.pid = pid) = none → b.waiters.length + 1 = n → ∀ w ∈ b.waiters, w.released = false) :
    ∃ k' r, Inv n k' (b.wait pid).2 ((⟨pid, (b.wait pid).1⟩, r) :: calls) := by
  cases hfind : b.waiters.find? (·.pid = pid) with
  | some w =>
    simp only [PSharedBarrier.wait, hfind, PSharedBarrier.eraseP_pid h.nodup]
    cases hr : w.released with
    | true =>
      rw [(h.entry w (mem_of_find?_eq_some hfind)).1]
      exact ⟨k, k - 1, h.collect hfind hr⟩
    | false =>
      refine ⟨k, k, h.retry ?_⟩
      rw [h.entries, hfind, Option.map_some, BarrierWaiter.round, hr]
      rfl
  | none =>
    rw [PSharedBarrier.wait_arrival hfind (h.count ▸ h.short), h.count]
    by_cases hn : b.waiters.length + 1 = n
    · rw [if_pos hn]
      exact ⟨k + 1, k, h.complete hfind hn (hgood hfind hn)⟩
    rw [if_neg hn]
    have := h.short
    exact ⟨k, k, h.arrive hfind (by omega)⟩

end

end Inv

/-! ## The arrivals a split into rounds needs -/

section Count

variable {n : Nat} {calls : List (Call × Nat)}

theorem Split.full : ∀ {calls : List (Call × Nat)}, Split n calls → ∀ c ∈ calls, c.1.serial → n ≤ (callers calls c.2).card
  | x :: earlier, h, c, hc, hs => by
    rcases mem_cons.mp hc with rfl | hc
    · cases hv : c.1.answer with
      | ok v => exact h.1.released v hv
      | error e => simp [Call.serial, hv] at hs
    · exact (h.2.full c hc hs).trans (Finset.card_le_card (callers_subset_cons _))

/-- The serial threads' rounds are apart, and each has had `n` arrivals. -/
theorem Split.mul_serials_le (h : Split n calls) (hserial : ∀ r, (serials calls).count r ≤ 1) :
    n * (serials calls).length ≤ (arrivals calls).length := by
  let arrived := (arrivals calls).map (·.2)
  have hfull : ∀ r ∈ (serials calls).toFinset, n ≤ arrived.count r := by
    intro r hr
    obtain ⟨c, hc, rfl⟩ := mem_map.mp (mem_toFinset.mp hr)
    obtain ⟨hc, hs⟩ := mem_filter.mp hc
    refine (h.full c hc hs).trans ((toFinset_card_le _).trans ?_)
    rw [length_map, ← countP_eq_length_filter, List.count, countP_map]
    exact le_of_eq (countP_congr fun _ _ => by simp)
  calc n * (serials calls).length = ∑ _r ∈ (serials calls).toFinset, n := by
        rw [Finset.sum_const, toFinset_card_of_nodup (nodup_iff_count_le_one.mpr hserial), smul_eq_mul, mul_comm]
    _ ≤ ∑ r ∈ (serials calls).toFinset, arrived.count r := Finset.sum_le_sum hfull
    _ ≤ ∑ r ∈ arrived.toFinset, arrived.count r :=
        Finset.sum_le_sum_of_ne_zero fun r _ hr => mem_toFinset.mpr (count_pos_iff.mp (pos_of_ne_zero hr))
    _ = arrived.length := sum_toFinset_count_eq_length _
    _ = (arrivals calls).length := length_map _

theorem isSome_pending (calls : List (Call × Nat)) (pid : UInt32) :
    (pending calls pid).isSome = ((calls.map (·.1)).find? (·.pid = pid)).any (·.again) := by
  have hfind : (calls.map (·.1)).find? (·.pid = pid) = (calls.find? (·.1.pid = pid)).map (·.1) := find?_map
  rw [pending, hfind]
  cases calls.find? (·.1.pid = pid) with
  | none => rfl
  | some c => cases hc : c.1.again <;> simp [hc]

/-- How many arrived does not depend on the rounds. -/
theorem length_arrivals_congr : ∀ {calls calls' : List (Call × Nat)}, calls.map (·.1) = calls'.map (·.1) →
    (arrivals calls).length = (arrivals calls').length
  | [], [], _ => rfl
  | c :: calls, c' :: calls', h => by
    simp only [map_cons, List.cons.injEq] at h
    rw [arrivals, arrivals, isSome_pending, isSome_pending, h.1, h.2]
    split
    · exact length_arrivals_congr h.2
    · exact congrArg Nat.succ (length_arrivals_congr h.2)

end Count

/-! ## Runs -/

namespace PSharedTable

variable {t t' : PSharedTable} {id count : UInt32} {n : Nat} {b : PSharedBarrier}

theorem barrierInit_fresh (h : t.barrierInit count = (.ok id, t')) : 0 < count.toNat ∧ t'.barriers.get? id = some ⟨count, []⟩ := by
  rw [barrierInit] at h
  split at h
  · cases h
  rename_i hcount
  cases h
  exact ⟨pos_of_ne_zero fun h0 => hcount (UInt32.toNat_inj.mp h0), (OrdMap.get?_insert ..).trans (if_pos rfl)⟩

theorem rounds_of_collected (hb : t.barriers.get? id = some b) (hstart : Inv n 0 b []) :
    ∀ callers, t.Collected id callers → ∃ b k calls, (t.run id callers).1.barriers.get? id = some b ∧
      calls.map (·.1) = (t.run id callers).2 ∧ Inv n k b calls
  | [], _ => ⟨b, 0, [], hb, rfl, hstart⟩
  | pid :: callers, h => by
    obtain ⟨b, k, calls, hget, hcalls, hinv⟩ := rounds_of_collected hb hstart callers h.2
    obtain ⟨k', r, hinv'⟩ := hinv.step pid fun hnew hn w hw => by
      by_contra hr
      exact h.1 ⟨b, hget, by simpa using hnew, by rw [hn, hinv.count], w, hw, Bool.not_eq_false _ ▸ hr⟩
    refine ⟨_, k', _, ?_, ?_, hinv'⟩
    · simp only [run, barrierWait, hget, OrdMap.get?_insert, if_pos]
    · simp only [run, barrierWait, hget, map_cons, hcalls]

/-- A release over uncollected entries had too few arrivals for any split into rounds. -/
theorem collected_of_split (hb : t.barriers.get? id = some b) (hstart : Inv n 0 b []) :
    ∀ {callers : List UInt32} {calls : List (Call × Nat)}, calls.map (·.1) = (t.run id callers).2 → Split n calls →
      (∀ r, (serials calls).count r ≤ 1) → t.Collected id callers
  | [], _, _, _, _ => trivial
  | pid :: callers, (c, r) :: calls, hcalls, hsplit, hserial => by
    simp only [map_cons, run, List.cons.injEq] at hcalls
    have hsub : (serials calls).Sublist (serials ((c, r) :: calls)) := (sublist_cons_self ..).filter _ |>.map _
    have hc := collected_of_split hb hstart hcalls.2 hsplit.2 fun r => (hsub.count_le r).trans (hserial r)
    refine ⟨?_, hc⟩
    rintro ⟨b', hget', hnew, hn, w, hw, hr⟩
    obtain ⟨b, k, canonical, hget, hcanonical, hinv⟩ := rounds_of_collected hb hstart callers hc
    obtain rfl : b' = b := Option.some.inj (hget'.symm.trans hget)
    have hfind : b'.waiters.find? (·.pid = pid) = none := by simpa using hnew
    have hanswer : c = ⟨pid, .ok pthreadBarrierSerialThread⟩ := by
      rw [hcalls.1, barrierWait, hget]
      simp only [PSharedBarrier.wait_arrival hfind (hinv.count ▸ hinv.short), if_pos hn]
    have hsame := hcalls.2.trans hcanonical.symm
    have harrives : (arrivals ((c, r) :: calls)).length = (arrivals canonical).length + 1 := by
      rw [← length_arrivals_congr hsame, arrivals, isSome_pending, hsame, ← isSome_pending, hinv.entries, hanswer, hfind]
      rfl
    have hlength : ∀ cs : List (Call × Nat), (serials cs).length = (cs.map (·.1)).countP Call.serial := by
      simp [serials, countP_eq_length_filter, filter_map, Function.comp_def]
    have hserials : (serials ((c, r) :: calls)).length = k + 1 := by
      rw [hlength, map_cons, hsame, countP_cons_of_pos (by rw [hanswer]; rfl), ← hlength, hinv.serial]
      simp
    have hless : b'.waiters.countP (!·.released) < b'.waiters.length := countP_lt_length_iff.mpr ⟨w, hw, by rw [hr]; rfl⟩
    have hmul := hsplit.mul_serials_le hserial
    rw [harrives, hinv.total, hserials, Nat.mul_succ] at hmul
    have := hinv.count
    omega

/-- A barrier's calls split into rounds exactly when no round completes over a release of
the one before that its owner has not collected. -/
theorem barrier_rounds_iff (h : t.barrierInit count = (.ok id, t')) (callers : List UInt32) :
    (∃ calls : List (Call × Nat), calls.map (·.1) = (t'.run id callers).2 ∧ Rounds count.toNat calls) ↔ t'.Collected id callers := by
  obtain ⟨hcount, hb⟩ := barrierInit_fresh h
  have hstart : Inv count.toNat 0 ⟨count, []⟩ [] := .start rfl hcount rfl
  constructor
  · rintro ⟨calls, hcalls, hsplit, hserial⟩
    refine collected_of_split hb hstart hcalls hsplit fun r => ?_
    rw [hserial]
    split <;> omega
  · intro hc
    obtain ⟨_, _, calls, _, hcalls, hinv⟩ := rounds_of_collected hb hstart callers hc
    exact ⟨calls, hcalls, hinv.rounds⟩

/-- The table after `barrier_init(2)`. -/
def pair : PSharedTable := ((⟨.empty, 1⟩ : PSharedTable).barrierInit 2).2

theorem barrier_rounds_iff_pair : ∃ calls : List (Call × Nat), calls.map (·.1) = (pair.run 1 [1, 2, 1]).2 ∧ Rounds 2 calls :=
  have h : (⟨.empty, 1⟩ : PSharedTable).barrierInit 2 = (.ok 1, pair) := rfl
  (barrier_rounds_iff h [1, 2, 1]).mpr (by decide)

/-- The serial thread of a round of two calls again at once, and is released alone. -/
theorem released_alone : (pair.run 1 [2, 2, 1]).2 = [⟨2, .ok (-1)⟩, ⟨2, .ok (-1)⟩, ⟨1, .error .EAGAIN⟩] ∧
      ¬∃ calls : List (Call × Nat), calls.map (·.1) = (pair.run 1 [2, 2, 1]).2 ∧ Rounds 2 calls := by
  refine ⟨rfl, ?_⟩
  rintro ⟨calls, hcalls, hsplit, hserial⟩
  have hc : pair.Collected 1 [2, 2, 1] := by
    refine collected_of_split (b := ⟨2, []⟩) rfl (.start rfl (by decide) rfl) hcalls hsplit fun r => ?_
    rw [hserial]
    split <;> omega
  exact absurd hc (by decide)

end PSharedTable

end Kandelo.Pshared

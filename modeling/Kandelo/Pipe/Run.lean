/-
Runs of a `PipeBuffer`: any sequence of its calls, from a new pipe or a new
FIFO. `Reachable.inv`: in every state the batches are marks of the buffered
bytes, so `batches_travel_with_their_bytes` can say what each call does to
them.
-/
import Kandelo.Lib.Machine
import Kandelo.Pipe.Stream

namespace Kandelo.Pipe

open PipeBuffer List

/-- The calls that only touch endpoints, flags and FIFO opens, or drop the
stream as a whole. -/
inductive EndOp
  | closeReadEnd
  | closeReadEndOrderly
  | closeWriteEnd
  | addReader
  | addWriter
  | collectUnreachableAncillary
  | shutdownRead
  | shutdownWrite
  | sealWrites
  | failReadsAfterBuffered (error : Errno)
  | finishWrites
  | resetStream (error : Errno)
  | takeStreamError
  | prepareFifoIo (alloc : Except Errno Unit)
  | releaseFifoBufferIfIdle
  | addFifoName
  | removeFifoName
  | inheritFifoReadOnly
  | closeFifoReadOnly
  | addReference (kind : InFlightPipeRefKind)
  | closeReference (kind : InFlightPipeRefKind)
  | retainInFlightReference (kind : InFlightPipeRefKind)
  | adoptInFlightReference (kind : InFlightPipeRefKind)
  | releaseInFlightReference (kind : InFlightPipeRefKind)
  | addFifoEndpointRef (side : FifoOpenSide)
  | reserveFifoOpen (alloc : Except Errno Unit) (owner : Nat) (side : FifoOpenSide) (path : List UInt8)
      (statusFlags fdFlags : UInt32) (reservedFd : Int32)
  | publishFifoOpen (side : FifoOpenSide)
  | publishFifoReadWriteOpen
  | releaseFifoOpenWaiters (side : FifoOpenSide)
  | takeReadyFifoOpen (owner : Nat)
  | cancelFifoOpen (owner : Nat)
  | cancelFifoOpensForProcess (pid : Nat)

inductive PipeOp (F : Type)
  | write (data : List UInt8)
  | writeWithAncillary (admitted : Bool) (data : List UInt8) (fds : List F)
  | recvMessage (clone : Except Errno Unit) (requested : Nat) (peek : Bool)
  | recvPlain (requested : Nat) (peek : Bool)
  | read (requested : Nat)
  | peek (requested : Nat)
  | ends (op : EndOp)

/-- What a call answers; the endpoint calls' own answers are left out. -/
inductive Answer (F : Type)
  | done
  | wrote (n : Nat)
  | refused (e : Errno)
  | received (bytes : List UInt8) (hitBarrier : Bool) (fds : Option (List F))

variable {F : Type}

def EndOp.apply (target : Target) (p : PipeBuffer F) : EndOp → PipeBuffer F
  | .closeReadEnd => p.closeReadEnd
  | .closeReadEndOrderly => p.closeReadEndOrderly
  | .closeWriteEnd => p.closeWriteEnd
  | .addReader => p.addReader
  | .addWriter => p.addWriter
  | .collectUnreachableAncillary => p.collectUnreachableAncillary
  | .shutdownRead => p.shutdownRead
  | .shutdownWrite => p.shutdownWrite
  | .sealWrites => p.sealWrites
  | .failReadsAfterBuffered error => p.failReadsAfterBuffered error
  | .finishWrites => p.finishWrites
  | .resetStream error => p.resetStream error
  | .takeStreamError => p.takeStreamError.2
  | .prepareFifoIo alloc => (p.prepareFifoIo target alloc).2
  | .releaseFifoBufferIfIdle => p.releaseFifoBufferIfIdle
  | .addFifoName => p.addFifoName
  | .removeFifoName => p.removeFifoName
  | .inheritFifoReadOnly => p.inheritFifoReadOnly
  | .closeFifoReadOnly => p.closeFifoReadOnly
  | .addReference kind => p.addReference kind
  | .closeReference kind => p.closeReference kind
  | .retainInFlightReference kind => p.retainInFlightReference kind
  | .adoptInFlightReference kind => p.adoptInFlightReference kind
  | .releaseInFlightReference kind => p.releaseInFlightReference kind
  | .addFifoEndpointRef side => p.addFifoEndpointRef side
  | .reserveFifoOpen alloc owner side path statusFlags fdFlags reservedFd =>
    (p.reserveFifoOpen alloc owner side path statusFlags fdFlags reservedFd).2
  | .publishFifoOpen side => p.publishFifoOpen side
  | .publishFifoReadWriteOpen => p.publishFifoReadWriteOpen
  | .releaseFifoOpenWaiters side => p.releaseFifoOpenWaiters side
  | .takeReadyFifoOpen owner => (p.takeReadyFifoOpen owner).2
  | .cancelFifoOpen owner => (p.cancelFifoOpen owner).2
  | .cancelFifoOpensForProcess pid => p.cancelFifoOpensForProcess pid

namespace PipeBuffer

/-- The answer and the state after; a call that panics changes nothing. -/
def settle (p : PipeBuffer F) : Except Panic (Answer F × PipeBuffer F) → Except Panic (Answer F) × PipeBuffer F
  | .ok (a, q) => (.ok a, q)
  | .error e => (.error e, p)

def call (target : Target) (p : PipeBuffer F) : PipeOp F → Except Panic (Answer F) × PipeBuffer F
  | .write data => p.settle ((p.write target data).map fun res => (.wrote res.1, res.2))
  | .writeWithAncillary admitted data fds =>
    p.settle ((p.writeWithAncillary target admitted data fds).map fun res =>
      (match res.1 with
        | .ok n => .wrote n
        | .error e => .refused e, res.2))
  | .recvMessage clone requested peek =>
    p.settle ((p.recvMessage target clone requested peek).map fun res =>
      (match res.1 with
        | .ok r => .received r.bytes r.hitAncillaryBarrier r.ancillaryFds
        | .error e => .refused e, res.2))
  | .recvPlain requested peek =>
    p.settle ((p.recvPlain target requested peek).map fun res =>
      (.received res.1.bytes res.1.hitAncillaryBarrier none, res.2))
  | .read requested => p.settle ((p.read target requested).map fun res => (.received res.1 false none, res.2))
  | .peek requested => p.settle ((p.peek target requested).map fun bytes => (.received bytes false none, p))
  | .ends op => (.ok .done, op.apply target p)

/-- A pipe as it is made: with its store, or a FIFO without one. -/
def Fresh (target : Target) (p : PipeBuffer F) : Prop :=
  (∃ alloc capacity, tryNew target alloc capacity = .ok p) ∨ ∃ capacity ≤ target.usizeMax, p = newFifo capacity

/-- The states any sequence of calls leads to. -/
abbrev Reachable (target : Target) (p : PipeBuffer F) : Prop := Machine.Reachable (Fresh target) (call target) p

end PipeBuffer

/-! ## Endpoint calls and the stream -/

/-- The stream of `q` is the stream of `p`, or it lost its batches, or it lost
everything. -/
structure Settles (p q : PipeBuffer F) : Prop where
  capacity : q.capacity = p.capacity
  isFifo : q.isFifo = p.isFifo
  store : p.isFifo = false → q.buf = p.buf
  stream : (q.ring = p.ring ∧ q.streamPosition = p.streamPosition ∧ q.ancillaryFds = p.ancillaryFds) ∨
    q.ancillaryFds = [] ∧ (q.ring = p.ring ∧ q.streamPosition = p.streamPosition ∨ q.ring.len = 0 ∧ q.streamPosition ≤ p.streamPosition)

namespace Settles

variable {p q r : PipeBuffer F}

theorem keep (hbuf : q.buf = p.buf) (hring : q.ring = p.ring) (hpos : q.streamPosition = p.streamPosition)
    (hrecords : q.ancillaryFds = p.ancillaryFds) (hfifo : q.isFifo = p.isFifo) : Settles p q :=
  ⟨congrArg RingIndex.capacity hring, hfifo, fun _ => hbuf, .inl ⟨hring, hpos, hrecords⟩⟩

theorem refl (p : PipeBuffer F) : Settles p p := .keep rfl rfl rfl rfl rfl

theorem trans (h1 : Settles p q) (h2 : Settles q r) : Settles p r := by
  refine ⟨h2.capacity.trans h1.capacity, h2.isFifo.trans h1.isFifo, fun hf => ?_, ?_⟩
  · rw [h2.store (h1.isFifo.trans hf), h1.store hf]
  rcases h2.stream with ⟨hring2, hpos2, hrec2⟩ | ⟨hrec2, ⟨hring2, hpos2⟩ | ⟨hlen2, hpos2⟩⟩
  · rw [hring2, hpos2, hrec2]
    exact h1.stream
  · rw [hring2, hpos2, hrec2]
    rcases h1.stream with ⟨hring1, hpos1, -⟩ | ⟨-, h1⟩
    · exact .inr ⟨rfl, .inl ⟨hring1, hpos1⟩⟩
    · exact .inr ⟨rfl, h1⟩
  · refine .inr ⟨hrec2, .inr ⟨hlen2, Nat.le_trans hpos2 ?_⟩⟩
    rcases h1.stream with ⟨-, hpos1, -⟩ | ⟨-, ⟨-, hpos1⟩ | ⟨-, hpos1⟩⟩
    · exact Nat.le_of_eq hpos1
    · exact Nat.le_of_eq hpos1
    · exact hpos1

theorem drop (hbuf : q.buf = p.buf) (hcap : q.capacity = p.capacity) (hlen : q.ring.len = 0)
    (hpos : q.streamPosition ≤ p.streamPosition) (hrecords : q.ancillaryFds = []) (hfifo : q.isFifo = p.isFifo) : Settles p q :=
  ⟨hcap, hfifo, fun _ => hbuf, .inr ⟨hrecords, .inr ⟨hlen, hpos⟩⟩⟩

section

variable (p : PipeBuffer F)

theorem releaseFifoBufferIfIdle : Settles p p.releaseFifoBufferIfIdle := by
  unfold PipeBuffer.releaseFifoBufferIfIdle
  split_ifs with hidle
  · refine ⟨rfl, rfl, fun hf => ?_, .inl ⟨rfl, rfl, rfl⟩⟩
    simp [hf] at hidle
  · exact refl p

theorem closeReadEnd : Settles p p.closeReadEnd := by
  refine trans ?_ (releaseFifoBufferIfIdle _)
  split
  · exact .drop rfl rfl rfl (Nat.zero_le _) rfl rfl
  · exact .keep rfl rfl rfl rfl rfl

theorem closeReadEndOrderly : Settles p p.closeReadEndOrderly := by
  refine trans ?_ (releaseFifoBufferIfIdle _)
  split
  · exact .drop rfl rfl rfl (Nat.zero_le _) rfl rfl
  · exact .keep rfl rfl rfl rfl rfl

theorem closeWriteEnd : Settles p p.closeWriteEnd := by
  refine trans ?_ (releaseFifoBufferIfIdle _)
  split
  · simp only [lastWriterGone]
    repeat' split
    all_goals exact .keep rfl rfl rfl rfl rfl
  · exact .keep rfl rfl rfl rfl rfl

theorem lastReadOnlyGone : Settles p p.lastReadOnlyGone := by
  unfold PipeBuffer.lastReadOnlyGone
  split
  · exact .keep rfl rfl rfl rfl rfl
  · exact refl p

theorem closeFifoReadOnly : Settles p p.closeFifoReadOnly := by
  refine trans (trans ?_ (closeReadEnd _)) (lastReadOnlyGone _)
  exact .keep rfl rfl rfl rfl rfl

section

variable (kind : InFlightPipeRefKind)

theorem addReference : Settles p (p.addReference kind) := by
  cases kind with
  | read fifoReadOnly => cases fifoReadOnly <;> exact .keep rfl rfl rfl rfl rfl
  | path | write | readWrite => exact .keep rfl rfl rfl rfl rfl

theorem closeReference : Settles p (p.closeReference kind) := by
  cases kind with
  | path => exact .keep rfl rfl rfl rfl rfl
  | read fifoReadOnly =>
    cases fifoReadOnly with
    | true => exact closeFifoReadOnly p
    | false => exact closeReadEnd p
  | write => exact closeWriteEnd p
  | readWrite => exact trans (closeReadEnd p) (closeWriteEnd _)

theorem retainInFlightReference : Settles p (p.retainInFlightReference kind) := by
  refine trans (addReference p kind) ?_
  cases kind <;> exact .keep rfl rfl rfl rfl rfl

theorem adoptInFlightReference : Settles p (p.adoptInFlightReference kind) := by
  cases kind <;> exact .keep rfl rfl rfl rfl rfl

end

theorem prepareFifoIo (target : Target) (alloc : Except Errno Unit) (p : PipeBuffer F) :
    Settles p (p.prepareFifoIo target alloc).2 := by
  unfold PipeBuffer.prepareFifoIo
  split_ifs with hfifo
  · exact refl p
  unfold prepareBuffer
  split
  · exact refl p
  split
  · exact refl p
  · refine ⟨rfl, rfl, fun hf => ?_, .inl ⟨rfl, rfl, rfl⟩⟩
    simp [hf] at hfifo

theorem reserveFifoOpen (alloc : Except Errno Unit) (owner : Nat) (side : FifoOpenSide)
    (path : List UInt8) (statusFlags fdFlags : UInt32) (reservedFd : Int32) :
    Settles p (p.reserveFifoOpen alloc owner side path statusFlags fdFlags reservedFd).2 := by
  unfold PipeBuffer.reserveFifoOpen
  split
  · exact refl p
  split
  · exact refl p
  · cases side <;> exact .keep rfl rfl rfl rfl rfl

theorem publishFifoOpen (side : FifoOpenSide) : Settles p (p.publishFifoOpen side) := by
  cases side with
  | reader =>
    simp only [PipeBuffer.publishFifoOpen]
    repeat' split
    all_goals exact .keep rfl rfl rfl rfl rfl
  | writer => exact .keep rfl rfl rfl rfl rfl

theorem takeReadyFifoOpen (owner : Nat) : Settles p (p.takeReadyFifoOpen owner).2 := by
  unfold PipeBuffer.takeReadyFifoOpen
  repeat' split
  all_goals exact .keep rfl rfl rfl rfl rfl

theorem cancelFifoOpen (owner : Nat) : Settles p (p.cancelFifoOpen owner).2 := by
  unfold PipeBuffer.cancelFifoOpen
  split
  · exact refl p
  split
  · refine trans (trans ?_ (closeReadEnd _)) (lastReadOnlyGone _)
    exact .keep rfl rfl rfl rfl rfl
  · refine trans ?_ (closeWriteEnd _)
    exact .keep rfl rfl rfl rfl rfl

end

theorem cancelFifoOpens : ∀ (owners : List Nat) (p : PipeBuffer F),
    Settles p (owners.foldl (fun p owner => (p.cancelFifoOpen owner).2) p)
  | [], p => refl p
  | owner :: owners, p => trans (cancelFifoOpen p owner) (cancelFifoOpens owners _)

/-- Every endpoint call leaves the stream alone, drops its batches, or drops
it. -/
theorem apply (target : Target) (p : PipeBuffer F) (op : EndOp) : Settles p (op.apply target p) := by
  cases op with
  | closeReadEnd => exact closeReadEnd p
  | closeReadEndOrderly => exact closeReadEndOrderly p
  | closeWriteEnd => exact closeWriteEnd p
  | collectUnreachableAncillary =>
    simp only [EndOp.apply, collectUnreachableAncillary]
    split
    · exact refl p
    · exact ⟨rfl, rfl, fun _ => rfl, .inr ⟨rfl, .inl ⟨rfl, rfl⟩⟩⟩
  | shutdownRead =>
    simp only [EndOp.apply, shutdownRead]
    split
    · exact refl p
    · exact .drop rfl rfl rfl (Nat.le_refl _) rfl rfl
  | resetStream error =>
    simp only [EndOp.apply, resetStream]
    split
    · exact refl p
    · exact .drop rfl rfl rfl (Nat.le_refl _) rfl rfl
  | prepareFifoIo alloc => exact prepareFifoIo target alloc p
  | releaseFifoBufferIfIdle => exact releaseFifoBufferIfIdle p
  | closeFifoReadOnly => exact closeFifoReadOnly p
  | addReference kind => exact addReference p kind
  | closeReference kind => exact closeReference p kind
  | retainInFlightReference kind => exact retainInFlightReference p kind
  | adoptInFlightReference kind => exact adoptInFlightReference p kind
  | releaseInFlightReference kind => exact trans (adoptInFlightReference p kind) (closeReference _ kind)
  | addFifoEndpointRef side => cases side <;> exact .keep rfl rfl rfl rfl rfl
  | reserveFifoOpen alloc owner side path statusFlags fdFlags reservedFd => exact reserveFifoOpen p ..
  | publishFifoOpen side => exact publishFifoOpen p side
  | takeReadyFifoOpen owner => exact takeReadyFifoOpen p owner
  | cancelFifoOpen owner => exact cancelFifoOpen p owner
  | cancelFifoOpensForProcess pid => exact cancelFifoOpens _ p
  | addReader | addWriter | shutdownWrite | sealWrites | failReadsAfterBuffered | finishWrites | takeStreamError
  | addFifoName | removeFifoName | inheritFifoReadOnly | publishFifoReadWriteOpen | releaseFifoOpenWaiters =>
    exact .keep rfl rfl rfl rfl rfl

/-- The marks after an endpoint call. -/
theorem marks (h : Settles p q) {m : Marks F} (hm : Represents p m) : ∃ m', Represents q m' ∧ (m' = m ∨ m'.batches = []) := by
  rcases h.stream with ⟨hring, hpos, hrecords⟩ | ⟨hrecords, ⟨hring, hpos⟩ | ⟨hlen, hpos⟩⟩
  · exact ⟨m, ⟨hring ▸ hm.len, by rw [hrecords, hpos, hm.records], hpos ▸ hm.fits⟩, .inl rfl⟩
  · exact ⟨m.unmark, ⟨hring ▸ hm.len, hrecords, hpos ▸ hm.fits⟩, .inr rfl⟩
  · have hfits := hm.fits
    exact ⟨.none, ⟨hlen, hrecords, by show q.streamPosition + 0 < 2 ^ 64; omega⟩, .inr rfl⟩

end Settles

/-! ## The invariant of a run -/

/-- What holds in every state of a run. -/
structure PipeBuffer.Inv (target : Target) (p : PipeBuffer F) : Prop where
  capacity_le : p.capacity ≤ target.usizeMax
  marks : ∃ m, Represents p m
  store : p.isFifo = false → p.buf.length = p.capacity

namespace PipeBuffer.Inv

variable {target : Target} {p q : PipeBuffer F}

theorem fresh (h : Fresh target p) : p.Inv target := by
  rcases h with ⟨alloc, capacity, hnew⟩ | ⟨capacity, hcap, rfl⟩
  · simp only [tryNew, prepareBuffer] at hnew
    split at hnew
    · rename_i hprep
      split_ifs at hprep with hcap
      · cases hprep
      split at hprep
      · cases hprep
      cases hprep
      cases hnew
      refine ⟨?_, ⟨.none, rfl, rfl, Nat.two_pow_pos 64⟩, fun _ => length_replicate⟩
      have hcap' : ¬ target.usizeMax < capacity * 2 := hcap
      show capacity ≤ target.usizeMax
      omega
    · cases hnew
  · exact ⟨hcap, ⟨.none, rfl, rfl, Nat.two_pow_pos 64⟩, fun hf => by cases hf⟩

variable (h : p.Inv target)

include h

theorem taken {m : Marks F} {n : Nat} (ht : Taken p q m n) : q.Inv target where
  capacity_le := ht.capacity ▸ h.capacity_le
  marks := ⟨_, ht.marks⟩
  store hf := by
    rw [ht.buf, ht.capacity]
    exact h.store ((congrArg isFifo ht.ends).symm.trans hf)

theorem put {m : Marks F} {bytes : List UInt8} (hp : Put p q m bytes) : q.Inv target where
  capacity_le := hp.capacity ▸ h.capacity_le
  marks := ⟨_, hp.marks⟩
  store hf := (hp.store (h.store ((congrArg isFifo hp.ends).symm.trans hf))).1

theorem ends (op : EndOp) : (op.apply target p).Inv target := by
  have hs := Settles.apply target p op
  obtain ⟨m, hm⟩ := h.marks
  obtain ⟨m', hm', -⟩ := hs.marks hm
  refine ⟨hs.capacity ▸ h.capacity_le, ⟨m', hm'⟩, fun hf => ?_⟩
  have hf' := hs.isFifo.symm.trans hf
  rw [hs.store hf', hs.capacity]
  exact h.store hf'

theorem settle {res : Except Panic (Answer F × PipeBuffer F)} (hres : Keeps p res fun x => x.2.Inv target) :
    (p.settle res).2.Inv target := by
  cases res with
  | ok x => exact hres
  | error e => exact h

theorem writes (data : List UInt8) : Keeps p (p.write target data) fun res => res.2.Inv target := by
  obtain ⟨m, hm⟩ := h.marks
  refine (writeWithoutWakeup_keeps hm h.capacity_le data).mono fun res hres => ?_
  split at hres
  · rw [hres]
    exact h
  · exact h.put hres.2

theorem writesWithAncillary (admitted : Bool) (data : List UInt8) (fds : List F) :
    Keeps p (p.writeWithAncillary target admitted data fds) fun res => res.2.Inv target := by
  obtain ⟨m, hm⟩ := h.marks
  refine (writeWithAncillary_keeps hm h.capacity_le admitted data fds).mono fun ⟨res, q⟩ hres => ?_
  cases res with
  | error e =>
    rw [hres.2.2.2.2]
    exact h
  | ok n =>
    simp only [AncillaryPut] at hres
    split at hres
    · rw [hres.2]
      exact h
    obtain ⟨-, hplain, hmarked⟩ := hres
    by_cases hn : n = 0 ∨ fds = []
    · exact h.put (hplain hn)
    · obtain ⟨hn, hfds⟩ := not_or.mp hn
      exact h.put (hmarked (Nat.pos_of_ne_zero hn) hfds)

theorem receives (req : Nat) (peek : Bool) : Keeps p (p.recvPlain target req peek) fun res => res.2.Inv target := by
  obtain ⟨m, hm⟩ := h.marks
  refine (recvPlain_keeps hm h.capacity_le req peek).mono fun res hres => ?_
  cases peek with
  | true =>
    rw [show res.2 = p from hres.2]
    exact h
  | false => exact h.taken hres.2

theorem receivesMessage (clone : Except Errno Unit) (req : Nat) (peek : Bool) :
    Keeps p (p.recvMessage target clone req peek) fun res => res.2.Inv target := by
  obtain ⟨m, hm⟩ := h.marks
  refine (recvMessage_keeps hm h.capacity_le clone req peek).mono fun ⟨res, q⟩ hres => ?_
  cases res with
  | error e =>
    rw [hres.2.2.2]
    exact h
  | ok r =>
    cases peek with
    | true =>
      rw [show q = p from hres.2.2]
      exact h
    | false => exact h.taken hres.2.2

/-- Every call keeps the invariant, and panics for want of a store at most. -/
theorem call_keeps (op : PipeOp F) : (p.call target op).2.Inv target ∧
      ∀ e, (p.call target op).1 = .error e → e.onSequence = false ∧ p.buf.length ≠ p.capacity := by
  have hsettle : ∀ {res : Except Panic (Answer F × PipeBuffer F)}, (Keeps p res fun x => x.2.Inv target) →
      (p.settle res).2.Inv target ∧ ∀ e, (p.settle res).1 = .error e → e.onSequence = false ∧ p.buf.length ≠ p.capacity := by
    intro res hres
    refine ⟨h.settle hres, fun e he => ?_⟩
    cases res with
    | ok x => cases he
    | error e' =>
      cases he
      exact hres
  cases op with
  | write data => exact hsettle (.map (h.writes data))
  | writeWithAncillary admitted data fds => exact hsettle (.map (h.writesWithAncillary admitted data fds))
  | recvMessage clone requested peek => exact hsettle (.map (h.receivesMessage clone requested peek))
  | recvPlain requested peek => exact hsettle (.map (h.receives requested peek))
  | read requested => exact hsettle (.map (.map (h.receives requested false)))
  | peek requested =>
    obtain ⟨m, hm⟩ := h.marks
    exact hsettle (.map ((peek_keeps hm h.capacity_le requested).mono fun _ _ => h))
  | ends op => exact ⟨h.ends op, fun e he => by cases he⟩

end PipeBuffer.Inv

theorem PipeBuffer.Reachable.inv {target : Target} {p : PipeBuffer F} (h : p.Reachable target) : p.Inv target :=
  Machine.Reachable.invariant (fun _ hp => .fresh hp) (fun _ op hi => (hi.call_keeps op).1) h

/-! ## Batches and their bytes -/

/-- The queued ranges: not empty, one after another, among the buffered
bytes. -/
structure RangesOk (p : PipeBuffer F) : Prop where
  nonempty : ∀ r ∈ p.ancillaryFds, r.start < r.stop
  ordered : p.ancillaryFds.Pairwise fun a b => a.stop ≤ b.start
  inside : ∀ r ∈ p.ancillaryFds, p.streamPosition ≤ r.start ∧ r.stop ≤ p.streamPosition + p.available

/-- The queued batches by distance from the head. -/
def PipeBuffer.ranges (p : PipeBuffer F) : List (Nat × Nat × List F) :=
  p.ancillaryFds.map fun r => (r.start - p.streamPosition, r.stop - p.streamPosition, r.fds)

/-- A read that takes `n` bytes takes along `batches`, at most one: those whose
first byte is among them. It ends within the batch it crosses, and the others
stay queued. -/
structure TakesBatches (p q : PipeBuffer F) (n : Nat) (batches : List (List F)) : Prop where
  first_bytes : (p.ancillaryFds.filter fun r => r.start < p.streamPosition + n).map (·.fds) = batches
  one : batches.length ≤ 1
  barrier : ∀ r ∈ p.ancillaryFds, r.start < p.streamPosition + n → p.streamPosition + n ≤ r.stop
  left : q.ancillaryFds = p.ancillaryFds.filter fun r => p.streamPosition + n ≤ r.start
  position : q.streamPosition = p.streamPosition + n
  available : q.available = p.available - n

variable {target : Target} {p q : PipeBuffer F} {m : Marks F}

section

variable (h : Represents p m)

include h

theorem Represents.rangesOk : RangesOk p := by
  have hlen := h.len
  refine ⟨fun r hr => ?_, ?_, fun r hr => ?_⟩
  · rw [h.records] at hr
    obtain ⟨b, hb, rfl⟩ := mem_map.mp hr
    exact Nat.lt_add_of_pos_right b.size_pos
  · rw [h.records, pairwise_map]
    refine m.ordered.imp fun {a b} hab => ?_
    simp only [Batch.record]
    omega
  · rw [h.records] at hr
    obtain ⟨b, hb, rfl⟩ := mem_map.mp hr
    have hin := m.inside b hb
    simp only [Batch.record, available]
    omega

theorem Represents.ranges_eq : p.ranges = m.batches.map fun b => (b.offset, b.offset + b.size, b.fds) := by
  rw [PipeBuffer.ranges, h.records, map_map]
  refine map_congr_left fun b _ => ?_
  simp only [Function.comp_apply, Batch.record, Nat.add_assoc, Nat.add_sub_cancel_left]

theorem Represents.takesBatches {req : Nat} (ht : Taken p q m (m.readLen req)) :
    TakesBatches p q (m.readLen req) ((m.crossed (m.readLen req)).map (·.fds)).toList := by
  have hcross := m.filter_crossed req
  have hbarrier := fun b => m.readLen_barrier req (b := b)
  generalize m.readLen req = n at *
  refine ⟨?_, ?_, fun r hr hlt => ?_, ?_, ht.position, ?_⟩
  · have hstart : ((fun r : StreamAncillary F => decide (r.start < p.streamPosition + n)) ∘ Batch.record p.streamPosition) =
        fun b => decide (b.offset < n) := funext fun b => decide_eq_decide.mpr Nat.add_lt_add_iff_left
    have hfilter : (p.ancillaryFds.filter fun r => r.start < p.streamPosition + n) =
        (m.crossed n).toList.map (Batch.record p.streamPosition) := by
      rw [h.records, filter_map, ← hcross, hstart]
    rw [hfilter]
    cases m.crossed n <;> rfl
  · cases m.crossed n <;> simp
  · rw [h.records] at hr
    obtain ⟨b, hb, rfl⟩ := mem_map.mp hr
    have := hbarrier b hb (Nat.add_lt_add_iff_left.mp hlt)
    simp only [Batch.record]
    omega
  · have hstart : ((fun r : StreamAncillary F => decide (p.streamPosition + n ≤ r.start)) ∘ Batch.record p.streamPosition) =
        fun b => decide (n ≤ b.offset) := funext fun b => decide_eq_decide.mpr Nat.add_le_add_iff_left
    rw [ht.marks.records, ht.position, h.records, filter_map, hstart]
    simp only [Marks.advance, map_map]
    exact map_congr_left fun b hb => Batch.record_shift (of_decide_eq_true (mem_filter.mp hb).2)
  · have hlen := h.len
    have hlen' : q.ring.len = m.len - n := ht.marks.len
    simp only [available]
    omega

theorem Represents.ranges_ancillaryPut {admitted : Bool} {data : List UInt8} {fds : List F}
    {n : Nat} (hput : AncillaryPut p m admitted data fds (.ok n, q)) : q.ranges = p.ranges ∨
      ∃ k, 0 < k ∧ (.ok n : Except Errno Nat) = .ok k ∧ q.ranges = p.ranges ++ [(p.available, p.available + k, fds)] := by
  simp only [AncillaryPut] at hput
  split at hput
  · exact .inl (by rw [hput.2])
  obtain ⟨-, hplain, hmarked⟩ := hput
  by_cases hnone : n = 0 ∨ fds = []
  · left
    rw [(hplain hnone).marks.ranges_eq, h.ranges_eq]
    rfl
  obtain ⟨hn, hfds⟩ := not_or.mp hnone
  refine .inr ⟨n, Nat.pos_of_ne_zero hn, rfl, ?_⟩
  rw [(hmarked (Nat.pos_of_ne_zero hn) hfds).marks.ranges_eq, h.ranges_eq, available, h.len]
  simp [Marks.attach]

end

/-- In every state of a run the batches lie on the buffered bytes in order. A
consuming read takes exactly the batches whose first byte it takes, one at
most, and stops within it; `recv_message` hands it over, `recv_plain` drops
it. A peek changes nothing. Writes leave the queued batches where they are and
endpoint calls leave them or drop them all. No `expect` on the sequence
fires. -/
theorem batches_travel_with_their_bytes (h : p.Reachable target) : RangesOk p ∧
    (∀ clone requested, Keeps p (p.recvMessage target clone requested false) fun res =>
      ∃ r, res.1 = .ok r ∧ TakesBatches p res.2 r.bytes.length r.ancillaryFds.toList) ∧
    (∀ requested, Keeps p (p.recvPlain target requested false) fun res => ∃ dropped, TakesBatches p res.2 res.1.bytes.length dropped) ∧
    (∀ clone requested, Keeps p (p.recvMessage target clone requested true) fun res => res.2 = p) ∧
    (∀ requested, Keeps p (p.recvPlain target requested true) fun res => res.2 = p) ∧
    (∀ data, Keeps p (p.write target data) fun res => res.2.ranges = p.ranges) ∧
    (∀ admitted data fds, Keeps p (p.writeWithAncillary target admitted data fds) fun res => res.2.ranges = p.ranges ∨
        ∃ n, 0 < n ∧ res.1 = .ok n ∧ res.2.ranges = p.ranges ++ [(p.available, p.available + n, fds)]) ∧
    (∀ op : EndOp, (op.apply target p).ranges = p.ranges ∨ (op.apply target p).ancillaryFds = []) ∧
    (∀ op e, (p.call target op).1 = .error e → e.onSequence = false ∧ p.buf.length ≠ p.capacity) ∧
    ∀ requested, ∃ crossed, p.ancillaryBarrierWithin requested = .ok crossed := by
  have hinv := PipeBuffer.Reachable.inv h
  have hcap := hinv.capacity_le
  obtain ⟨m, hm⟩ := hinv.marks
  refine ⟨hm.rangesOk, fun clone requested => ?_, fun requested => ?_, fun clone requested => ?_, fun requested => ?_,
    fun data => ?_, fun admitted data fds => ?_, fun op => ?_, fun op => (hinv.call_keeps op).2, fun requested => ?_⟩
  · refine (recvMessage_keeps hm hcap clone requested false).mono fun ⟨res, q⟩ hres => ?_
    cases res with
    | error e => cases hres.1
    | ok r =>
      obtain ⟨hgot, hfds, ht⟩ := hres
      refine ⟨r, rfl, ?_⟩
      rw [hgot.length, hfds]
      exact hm.takesBatches ht
  · refine (recvPlain_keeps hm hcap requested false).mono fun res hres => ?_
    rw [hres.1.length]
    exact ⟨_, hm.takesBatches hres.2⟩
  · refine (recvMessage_keeps hm hcap clone requested true).mono fun ⟨res, q⟩ hres => ?_
    cases res with
    | error e => exact hres.2.2.2
    | ok r => exact hres.2.2
  · exact (recvPlain_keeps hm hcap requested true).mono fun res hres => hres.2
  · refine (writeWithoutWakeup_keeps hm hcap data).mono fun res hres => ?_
    split at hres
    · rw [hres]
    · rw [hres.2.marks.ranges_eq, hm.ranges_eq]
      rfl
  · refine (writeWithAncillary_keeps hm hcap admitted data fds).mono fun ⟨res, q⟩ hres => ?_
    cases res with
    | error e => exact .inl (by rw [hres.2.2.2.2])
    | ok n => exact hm.ranges_ancillaryPut hres
  · obtain ⟨m', hm', hsame | hnone⟩ := (Settles.apply target p op).marks hm
    · exact .inl (by rw [hm'.ranges_eq, hm.ranges_eq, hsame])
    · exact .inr (by rw [hm'.records, hnone]; rfl)
  · have hfits := hm.fits
    have hlen := hm.len
    refine ⟨p.crosses (p.streamPosition + min requested p.ring.len), ?_⟩
    rw [ancillaryBarrierWithin, checkedAdd, if_pos (by omega)]
    rfl

def wasm32 : Target := ⟨2 ^ 32 - 1, by decide⟩

/-- A new pipe of eight bytes; descriptors in flight are numbers. -/
def eightBytes : PipeBuffer Nat := { PipeBuffer.empty 8 with buf := replicate 8 0, bufferReserved := true }

theorem eightBytes_fresh : eightBytes.Fresh wasm32 := .inl ⟨.ok (), 8, rfl⟩

/-- Two messages are sent: four bytes with one batch, two with another. -/
def twoMessages : PipeBuffer Nat :=
  Machine.run (PipeBuffer.call wasm32) eightBytes
    [.writeWithAncillary true [1, 1, 1, 1] [10], .writeWithAncillary true [2, 2] [20]]

/-- The first batch leaves with its first byte, so after a short read the rest
of its bytes is read together with the second batch's. -/
theorem leftover_joins_next_batch :
    let shortRead := twoMessages.call wasm32 (.recvMessage (.ok ()) 2 false)
    twoMessages.Reachable wasm32 ∧ twoMessages.ranges = [(0, 4, [10]), (4, 6, [20])] ∧
      shortRead.1 = .ok (.received [1, 1] true (some [10])) ∧
      (shortRead.2.call wasm32 (.recvMessage (.ok ()) 8 false)).1 = .ok (.received [1, 1, 2, 2] true (some [20])) :=
  ⟨.run _ (.start eightBytes_fresh), rfl, rfl, rfl⟩

theorem twoMessages_first_read : ∃ res, twoMessages.recvMessage wasm32 (.ok ()) 8 false = .ok res ∧
      ∃ r, res.1 = .ok r ∧ TakesBatches twoMessages res.2 r.bytes.length r.ancillaryFds.toList := by
  have hreach : twoMessages.Reachable wasm32 := .run _ (.start eightBytes_fresh)
  obtain ⟨-, hrecv, -⟩ := batches_travel_with_their_bytes hreach
  exact (hrecv (.ok ()) 8).answers rfl

end Kandelo.Pipe

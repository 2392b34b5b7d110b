/-
The bytes of a pipe over runs of writes and reads with a reader open: what was
read, then what is still buffered, is what writes accepted, in order
(`stream_conserves_bytes`). A write accepts as much as fits; only one whose
batch cannot be admitted is refused, and then nothing changes.
-/
import Kandelo.Pipe.Run

namespace Kandelo.Pipe

open List

variable {F : Type}

/-- Writes, reads and peeks. -/
def PipeOp.onStream : PipeOp F → Bool
  | .ends _ => false
  | _ => true

/-- The bytes a call accepted, by its answer. -/
def acceptedBy : PipeOp F → Except Panic (Answer F) → List UInt8
  | .write data, .ok (.wrote n) => data.take n
  | .writeWithAncillary _ data _, .ok (.wrote n) => data.take n
  | _, _ => []

/-- The bytes a call took out, by its answer. -/
def takenBy : PipeOp F → Except Panic (Answer F) → List UInt8
  | .recvMessage _ _ false, .ok (.received bytes _ _) => bytes
  | .recvPlain _ false, .ok (.received bytes _ _) => bytes
  | .read _, .ok (.received bytes _ _) => bytes
  | _, _ => []

def accepted (target : Target) (p : PipeBuffer F) : List (PipeOp F) → List UInt8
  | [] => []
  | op :: ops => acceptedBy op (p.call target op).1 ++ accepted target (p.call target op).2 ops

def taken (target : Target) (p : PipeBuffer F) : List (PipeOp F) → List UInt8
  | [] => []
  | op :: ops => takenBy op (p.call target op).1 ++ taken target (p.call target op).2 ops

/-- A pipe with its store and a reader, in a run. -/
structure Flowing (target : Target) (p : PipeBuffer F) : Prop where
  inv : p.Inv target
  reader : p.readCount ≠ 0
  store : p.buf.length = p.capacity

/-- One call: the bytes move from what it accepts to what it takes. -/
structure Conserves (target : Target) (p q : PipeBuffer F) (accepted taken : List UInt8) : Prop where
  bytes : p.buffered ++ accepted = taken ++ q.buffered
  flowing : Flowing target q

namespace Flowing

variable {target : Target} {p q : PipeBuffer F} {m : Marks F} (h : Flowing target p)

include h

theorem conserves_self : Conserves target p p [] [] := ⟨append_nil _, h⟩

theorem conserves_put {bytes : List UInt8} (hput : Put p q m bytes) : Conserves target p q bytes [] where
  bytes := (hput.store h.store).2.symm
  flowing := ⟨h.inv.put hput, (congrArg PipeBuffer.readCount hput.ends) ▸ h.reader, (hput.store h.store).1⟩

theorem conserves_taken {n : Nat} (ht : Taken p q m n) {bytes : List UInt8} (hbytes : bytes = p.buffered.take n) :
    Conserves target p q [] bytes where
  bytes := by rw [hbytes, ht.buffered h.store, append_nil, take_append_drop]
  flowing := ⟨h.inv.taken ht, (congrArg PipeBuffer.readCount ht.ends) ▸ h.reader, by rw [ht.buf, ht.capacity, h.store]⟩

theorem write (data : List UInt8) : ∃ q, p.write target data = .ok (min data.length p.freeSpace, q) ∧
      Conserves target p q (data.take (min data.length p.freeSpace)) [] := by
  obtain ⟨m, hm⟩ := h.inv.marks
  obtain ⟨⟨n, q⟩, hres, hpost⟩ := (writeWithoutWakeup_keeps hm h.inv.capacity_le data).answers h.store
  rw [if_neg h.reader] at hpost
  obtain ⟨hn, hput⟩ := hpost
  subst hn
  exact ⟨q, hres, h.conserves_put hput⟩

/-- A write with a batch accepts as much as fits, or is refused. -/
theorem writeWithAncillary (admitted : Bool) (data : List UInt8) (fds : List F) :
    (∃ q, p.writeWithAncillary target admitted data fds = .ok (.ok (min data.length p.freeSpace), q) ∧
      Conserves target p q (data.take (min data.length p.freeSpace)) []) ∨ admitted = false ∧ fds ≠ [] ∧ data ≠ [] ∧
      p.writeWithAncillary target admitted data fds = .ok (.error .ENOMEM, p) := by
  obtain ⟨m, hm⟩ := h.inv.marks
  obtain ⟨⟨res, q⟩, hres, hpost⟩ := (writeWithAncillary_keeps hm h.inv.capacity_le admitted data fds).answers h.store
  cases res with
  | error e =>
    obtain ⟨rfl, hadm, hfds, hdata, hq⟩ := hpost
    exact .inr ⟨hadm, hfds, hdata, by rw [hres, show q = p from hq]⟩
  | ok n =>
    simp only [AncillaryPut, if_neg h.reader] at hpost
    obtain ⟨rfl, hplain, hmarked⟩ := hpost
    refine .inl ⟨q, hres, ?_⟩
    by_cases hnone : min data.length p.freeSpace = 0 ∨ fds = []
    · exact h.conserves_put (hplain hnone)
    · obtain ⟨hn, hfds⟩ := not_or.mp hnone
      exact h.conserves_put (hmarked (Nat.pos_of_ne_zero hn) hfds)

theorem recvPlain (req : Nat) : ∃ r q, p.recvPlain target req false = .ok (r, q) ∧ Conserves target p q [] r.bytes := by
  obtain ⟨m, hm⟩ := h.inv.marks
  obtain ⟨⟨r, q⟩, hres, hgot, ht⟩ := (recvPlain_keeps hm h.inv.capacity_le req false).answers h.store
  exact ⟨r, q, hres, h.conserves_taken ht (hgot.bytes h.store)⟩

theorem recvMessage (clone : Except Errno Unit) (req : Nat) :
    ∃ r q, p.recvMessage target clone req false = .ok (.ok r, q) ∧ Conserves target p q [] r.bytes := by
  obtain ⟨m, hm⟩ := h.inv.marks
  obtain ⟨⟨res, q⟩, hres, hpost⟩ := (recvMessage_keeps hm h.inv.capacity_le clone req false).answers h.store
  cases res with
  | error e => cases hpost.1
  | ok r => exact ⟨r, q, hres, h.conserves_taken hpost.2.2 (hpost.1.bytes h.store)⟩

/-! A peek returns a beginning of what is buffered and changes nothing. -/

theorem peek (req : Nat) : ∃ bytes, p.peek target req = .ok bytes ∧ bytes <+: p.buffered := by
  obtain ⟨m, hm⟩ := h.inv.marks
  obtain ⟨bytes, hres, -, hbytes⟩ := (peek_keeps hm h.inv.capacity_le req).answers h.store
  exact ⟨bytes, hres, hbytes h.store ▸ take_prefix _ _⟩

theorem peekPlain (req : Nat) : ∃ r, p.recvPlain target req true = .ok (r, p) ∧ r.bytes <+: p.buffered := by
  obtain ⟨m, hm⟩ := h.inv.marks
  obtain ⟨⟨r, q⟩, hres, hgot, hq⟩ := (recvPlain_keeps hm h.inv.capacity_le req true).answers h.store
  refine ⟨r, ?_, hgot.bytes h.store ▸ take_prefix _ _⟩
  rw [hres, show q = p from hq]

theorem peekMessage (clone : Except Errno Unit) (req : Nat) :
    ∃ res, p.recvMessage target clone req true = .ok (res, p) ∧ ∀ r, res = .ok r → r.bytes <+: p.buffered := by
  obtain ⟨m, hm⟩ := h.inv.marks
  obtain ⟨⟨res, q⟩, hres, hpost⟩ := (recvMessage_keeps hm h.inv.capacity_le clone req true).answers h.store
  cases res with
  | error e =>
    refine ⟨.error e, ?_, fun r hr => by cases hr⟩
    rw [hres, show q = p from hpost.2.2.2]
  | ok r =>
    refine ⟨.ok r, ?_, fun r' hr => ?_⟩
    · rw [hres, show q = p from hpost.2.2]
    · cases hr
      exact hpost.1.bytes h.store ▸ take_prefix _ _

/-- The step of the conservation law. -/
theorem call {op : PipeOp F} (hop : op.onStream) :
    Conserves target p (p.call target op).2 (acceptedBy op (p.call target op).1) (takenBy op (p.call target op).1) := by
  cases op with
  | ends op => cases hop
  | write data =>
    obtain ⟨q, hres, hq⟩ := h.write data
    simp only [PipeBuffer.call, hres]
    exact hq
  | writeWithAncillary admitted data fds =>
    rcases h.writeWithAncillary admitted data fds with ⟨q, hres, hq⟩ | ⟨-, -, -, hres⟩ <;>
      simp only [PipeBuffer.call, hres]
    · exact hq
    · exact h.conserves_self
  | recvMessage clone requested peek =>
    cases peek with
    | false =>
      obtain ⟨r, q, hres, hq⟩ := h.recvMessage clone requested
      simp only [PipeBuffer.call, hres]
      exact hq
    | true =>
      obtain ⟨res, hres, -⟩ := h.peekMessage clone requested
      simp only [PipeBuffer.call, hres]
      exact h.conserves_self
  | recvPlain requested peek =>
    cases peek with
    | false =>
      obtain ⟨r, q, hres, hq⟩ := h.recvPlain requested
      simp only [PipeBuffer.call, hres]
      exact hq
    | true =>
      obtain ⟨r, hres, -⟩ := h.peekPlain requested
      simp only [PipeBuffer.call, hres]
      exact h.conserves_self
  | read requested =>
    obtain ⟨r, q, hres, hq⟩ := h.recvPlain requested
    simp only [PipeBuffer.call, PipeBuffer.read, hres]
    exact hq
  | peek requested =>
    obtain ⟨bytes, hres, -⟩ := h.peek requested
    simp only [PipeBuffer.call, hres]
    exact h.conserves_self

end Flowing

/-- The run of the conservation law. -/
theorem Flowing.run {target : Target} : ∀ {ops : List (PipeOp F)} {p : PipeBuffer F}, Flowing target p → (∀ op ∈ ops, op.onStream) →
    Conserves target p (Machine.run (PipeBuffer.call target) p ops) (accepted target p ops) (taken target p ops)
  | [], _, h, _ => h.conserves_self
  | op :: ops, p, h, hops => by
    have hstep := h.call (hops op (mem_cons_self ..))
    have hrest := hstep.flowing.run fun op' hop' => hops op' (mem_cons_of_mem _ hop')
    refine ⟨?_, hrest.flowing⟩
    simp only [accepted, taken, Machine.run]
    rw [← append_assoc, hstep.bytes, append_assoc, hrest.bytes, append_assoc]

/-- Over every run of writes, reads and peeks with a reader and a store: what
was buffered and accepted is what was read and is still buffered, in order. At
every point of it a write accepts as much as fits, unless its batch cannot be
admitted and nothing happens; a peek returns a beginning of the buffered bytes
and changes nothing. -/
theorem stream_conserves_bytes {target : Target} {p : PipeBuffer F} (h : p.Reachable target) (hreader : p.readCount ≠ 0)
    (hstore : p.isFifo = true → p.buf.length = p.capacity) {ops : List (PipeOp F)}
    (hops : ∀ op ∈ ops, op.onStream = true) :
    let q := Machine.run (PipeBuffer.call target) p ops
    p.buffered ++ accepted target p ops = taken target p ops ++ q.buffered ∧
    q.buffered.length + q.freeSpace = q.capacity ∧
    (∀ data, ∃ q', q.write target data = .ok (min data.length q.freeSpace, q')) ∧
    (∀ admitted data fds, if admitted = false ∧ fds ≠ [] ∧ data ≠ [] then
        q.writeWithAncillary target admitted data fds = .ok (.error .ENOMEM, q)
      else ∃ q', q.writeWithAncillary target admitted data fds = .ok (.ok (min data.length q.freeSpace), q')) ∧
    (∀ requested, ∃ bytes, q.peek target requested = .ok bytes ∧ bytes <+: q.buffered) ∧
    (∀ requested, ∃ r, q.recvPlain target requested true = .ok (r, q) ∧ r.bytes <+: q.buffered) ∧
    ∀ clone requested, ∃ res, q.recvMessage target clone requested true = .ok (res, q) ∧ ∀ r, res = .ok r → r.bytes <+: q.buffered := by
  have hinv := PipeBuffer.Reachable.inv h
  have hbuf : p.buf.length = p.capacity := by
    cases hf : p.isFifo with
    | false => exact hinv.store hf
    | true => exact hstore hf
  have hrun := Flowing.run ⟨hinv, hreader, hbuf⟩ hops
  have hq := hrun.flowing
  refine ⟨hrun.bytes, ?_, fun data => ?_, fun admitted data fds => ?_, hq.peek, hq.peekPlain, hq.peekMessage⟩
  · rw [PipeBuffer.buffered, RingIndex.length_contents hq.store]
    exact Nat.add_sub_cancel' (RingIndex.len_le _)
  · obtain ⟨q', hres, -⟩ := hq.write data
    exact ⟨q', hres⟩
  · split_ifs with hrefused
    · obtain ⟨rfl, hfds, hdata⟩ := hrefused
      simp [PipeBuffer.writeWithAncillary, hfds, hdata]
    · rcases hq.writeWithAncillary admitted data fds with ⟨q', hres, _⟩ | ⟨ha, hf, hd, _⟩
      · exact ⟨q', hres⟩
      · exact absurd ⟨ha, hf, hd⟩ hrefused

/-- A write around the end of the ring, read in two parts. -/
theorem eightBytes_conserves :
    let ops : List (PipeOp Nat) :=
      [.write [1, 2, 3, 4, 5, 6], .read 4, .write [7, 8, 9, 10, 11, 12, 13], .recvMessage (.ok ()) 5 false]
    accepted wasm32 eightBytes ops = [1, 2, 3, 4, 5, 6, 7, 8, 9, 10, 11, 12] ∧
      taken wasm32 eightBytes ops ++ (Machine.run (PipeBuffer.call wasm32) eightBytes ops).buffered =
        [1, 2, 3, 4, 5, 6, 7, 8, 9, 10, 11, 12] := by
  intro ops
  have hops : ∀ op ∈ ops, op.onStream := by
    intro op hop
    simp only [ops, mem_cons, not_mem_nil, or_false] at hop
    rcases hop with rfl | rfl | rfl | rfl <;> rfl
  have hbytes := (stream_conserves_bytes (.start eightBytes_fresh) (by decide) (fun hf => by cases hf) hops).1
  exact ⟨rfl, hbytes.symm⟩

/-- A batch that cannot be admitted is refused with its bytes, though there is
room for them. -/
theorem unadmitted_write_accepts_nothing : eightBytes.Reachable wasm32 ∧ eightBytes.freeSpace = 8 ∧
      (eightBytes.call wasm32 (.writeWithAncillary false [1] [10])).1 = .ok (.refused .ENOMEM) ∧
      (eightBytes.call wasm32 (.writeWithAncillary false [1] [10])).2.buffered = [] :=
  ⟨.start eightBytes_fresh, rfl, rfl, rfl⟩

end Kandelo.Pipe

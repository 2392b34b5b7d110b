/-
What the stream of a `PipeBuffer` stands for: a number of buffered bytes and
the batches attached to them, each by its distance from the read head
(`Marks`). Distances do not move when the sequence is rebased, so the absolute
positions of the source are a representation (`Represents`), and each stream
function is one operation on the marks: none of its `expect`s fires.
-/
import Kandelo.Pipe.Buffer

namespace Kandelo.Pipe

open List PipeBuffer

variable {F : Type}

/-- A batch over `size` of the buffered bytes, `offset` bytes after the head. -/
structure Batch (F : Type) where
  offset : Nat
  size : Nat
  size_pos : 0 < size
  fds : List F

def Batch.shift (n : Nat) (b : Batch F) : Batch F := { b with offset := b.offset - n }

/-- Buffered bytes, by number, and the batches attached to them. -/
structure Marks (F : Type) where
  len : Nat
  batches : List (Batch F)
  ordered : batches.Pairwise fun a b => a.offset + a.size ≤ b.offset
  inside : ∀ b ∈ batches, b.offset + b.size ≤ len

namespace Marks

def none : Marks F := ⟨0, [], List.Pairwise.nil, by simp⟩

/-- The batches are dropped, the bytes stay. -/
def unmark (m : Marks F) : Marks F := ⟨m.len, [], List.Pairwise.nil, by simp⟩

/-- `n` more bytes. -/
def extend (m : Marks F) (n : Nat) : Marks F :=
  { m with
    len := m.len + n
    inside := fun b hb => Nat.le_trans (m.inside b hb) (Nat.le_add_right _ _) }

/-- `n` more bytes, carrying a batch. -/
def attach (m : Marks F) (n : Nat) (hn : 0 < n) (fds : List F) : Marks F where
  len := m.len + n
  batches := m.batches ++ [⟨m.len, n, hn, fds⟩]
  ordered := by
    refine List.pairwise_append.mpr ⟨m.ordered, List.pairwise_singleton _ _, fun a ha b hb => ?_⟩
    rw [List.mem_singleton.mp hb]
    exact m.inside a ha
  inside := by
    intro b hb
    rcases List.mem_append.mp hb with hb | hb
    · exact Nat.le_trans (m.inside b hb) (Nat.le_add_right _ _)
    have hlast := List.mem_singleton.mp hb
    subst hlast
    exact Nat.le_refl _

/-- The first `n` bytes are taken, and with them the batches that begin there. -/
def advance (m : Marks F) (n : Nat) : Marks F where
  len := m.len - n
  batches := (m.batches.filter fun b => n ≤ b.offset).map (Batch.shift n)
  ordered := by
    rw [List.pairwise_map]
    refine (m.ordered.filter _).imp_of_mem fun {a b} ha hb hab => ?_
    have ha' := of_decide_eq_true (List.mem_filter.mp ha).2
    simp only [Batch.shift]
    omega
  inside := by
    intro b hb
    obtain ⟨a, ha, rfl⟩ := List.mem_map.mp hb
    obtain ⟨hmem, hle⟩ := List.mem_filter.mp ha
    have hin := m.inside a hmem
    have hle' := of_decide_eq_true hle
    simp only [Batch.shift]
    omega

/-- How many bytes one receive may take. -/
def readLen (m : Marks F) (requested : Nat) : Nat :=
  match m.batches with
  | [] => min requested m.len
  | b :: _ => if b.offset < min requested m.len then min (min requested m.len) (b.offset + b.size) else min requested m.len

/-- A receive does not pass the end of a batch it crosses. -/
theorem readLen_barrier (m : Marks F) (req : Nat) {b : Batch F} (hb : b ∈ m.batches)
    (hcross : b.offset < m.readLen req) : m.readLen req ≤ b.offset + b.size := by
  have hord := m.ordered
  unfold readLen at hcross ⊢
  split at hcross
  · rename_i hnil
    rw [hnil] at hb
    cases hb
  rename_i a rest hcons
  rw [hcons] at hb hord
  rcases mem_cons.mp hb with rfl | hb
  · split_ifs at hcross with hlt
    · rw [if_pos hlt]
      exact Nat.min_le_right _ _
    · exact absurd hcross hlt
  · -- A later batch begins where an earlier one ends, at or behind the barrier.
    have hle := (pairwise_cons.mp hord).1 b hb
    split at hcross <;> omega

/-- The first batch, when it begins within the first `n` bytes. -/
def crossed (m : Marks F) (n : Nat) : Option (Batch F) := m.batches.head?.filter fun b => b.offset < n

theorem readLen_le_later (m : Marks F) (req : Nat) {a b : Batch F} {rest : List (Batch F)}
    (hcons : m.batches = a :: rest) (hb : b ∈ rest) : m.readLen req ≤ b.offset := by
  have hord := m.ordered
  rw [hcons] at hord
  have hle := (pairwise_cons.mp hord).1 b hb
  have hbar := m.readLen_barrier req (b := a) (by simp [hcons])
  omega

/-- A receive crosses the first batch or none. -/
theorem filter_crossed (m : Marks F) (req : Nat) :
    (m.batches.filter fun b => b.offset < m.readLen req) = (m.crossed (m.readLen req)).toList := by
  cases hcons : m.batches with
  | nil =>
    rw [crossed, hcons]
    rfl
  | cons a rest =>
    have hrest : rest.filter (fun b => b.offset < m.readLen req) = [] :=
      filter_eq_nil_iff.mpr fun b hb => by simpa using m.readLen_le_later req hcons hb
    rw [filter_cons, hrest]
    simp only [crossed, hcons, head?_cons, Option.filter]
    split <;> rfl

/-- What a receive leaves is the queue without the first batch if it crosses
that one. -/
theorem filter_left (m : Marks F) (req : Nat) : (m.batches.filter fun b => m.readLen req ≤ b.offset) =
      if m.batches.head?.any (fun b => b.offset < m.readLen req) then m.batches.tail else m.batches := by
  cases hcons : m.batches with
  | nil => rfl
  | cons a rest =>
    have hrest : rest.filter (fun b => m.readLen req ≤ b.offset) = rest :=
      filter_eq_self.mpr fun b hb => by simpa using m.readLen_le_later req hcons hb
    rw [filter_cons, hrest]
    simp only [head?_cons, Option.any_some, tail_cons, decide_eq_true_eq]
    by_cases hlt : a.offset < m.readLen req
    · rw [if_pos hlt, if_neg (Nat.not_le_of_lt hlt)]
    · rw [if_neg hlt, if_pos (Nat.le_of_not_lt hlt)]

end Marks

/-! ## Calls that may panic -/

/-- The call answers with `post`, or panics for want of a store: never on the
sequence arithmetic. -/
def Keeps {α : Type} (p : PipeBuffer F) (res : Except Panic α) (post : α → Prop) : Prop :=
  match res with
  | .ok a => post a
  | .error e => e.onSequence = false ∧ p.buf.length ≠ p.capacity

namespace Keeps

variable {α β : Type} {p : PipeBuffer F}

variable {post : α → Prop}

theorem ok {a : α} (h : post a) : Keeps p (.ok a) post := h

variable {x : Except Panic α}

theorem bind {f : α → Except Panic β} {mid : α → Prop} {post : β → Prop} (hx : Keeps p x mid)
    (hf : ∀ a, mid a → Keeps p (f a) post) : Keeps p (x >>= f) post := by
  cases x with
  | ok a => exact hf a hx
  | error e => exact hx

theorem map {f : α → β} {post : β → Prop} (h : Keeps p x fun a => post (f a)) : Keeps p (x.map f) post := by
  cases x with
  | ok a => exact h
  | error e => exact h

theorem mono {post' : α → Prop} (h : Keeps p x post) (hpost : ∀ a, post a → post' a) : Keeps p x post' := by
  cases x with
  | ok a => exact hpost a h
  | error e => exact h

theorem expectAdd {panic : Panic} {a b : Nat} {post : Nat → Prop} (hfit : a + b < 2 ^ 64) (h : post (a + b)) :
    Keeps p (expect panic (checkedAdd a b)) post := by
  rw [checkedAdd, if_pos hfit]
  exact h

theorem expectSub {panic : Panic} {a b : Nat} {post : Nat → Prop} (hle : b ≤ a) (h : post (a - b)) :
    Keeps p (expect panic (checkedSub a b)) post := by
  rw [checkedSub, if_pos hle]
  exact h

/-- A call with its store answers. -/
theorem answers (h : Keeps p x post) (hbuf : p.buf.length = p.capacity) : ∃ a, x = .ok a ∧ post a := by
  cases x with
  | ok a => exact ⟨a, rfl, h⟩
  | error e => exact absurd hbuf h.2

end Keeps

/-! ## The marks of a buffer -/

/-- The record of a batch in a stream whose head is at `position`. -/
def Batch.record (position : Nat) (b : Batch F) : StreamAncillary F :=
  ⟨position + b.offset, position + b.offset + b.size, b.fds⟩

structure Represents (p : PipeBuffer F) (m : Marks F) : Prop where
  len : p.ring.len = m.len
  records : p.ancillaryFds = m.batches.map (Batch.record p.streamPosition)
  fits : p.streamPosition + m.len < 2 ^ 64

/-- `q` differs from `p` in its stream only. -/
def SameEnds (p q : PipeBuffer F) : Prop :=
  q = { p with buf := q.buf, ring := q.ring, streamPosition := q.streamPosition, ancillaryFds := q.ancillaryFds }

/-- The bytes in the ring. -/
def PipeBuffer.buffered (p : PipeBuffer F) : List UInt8 := p.ring.contents p.buf

variable {target : Target} {p : PipeBuffer F} {m : Marks F}

theorem wrappingSub_add {a b : Nat} (h : b < 2 ^ 64) : wrappingSub (a + b) a = b := by
  rw [wrappingSub, Nat.add_assoc, Nat.add_sub_cancel_left, Nat.add_mod_right, Nat.mod_eq_of_lt h]

theorem ensureStreamSequenceRoom_of_fits {additional : Nat} (hcap : p.ring.len + additional ≤ target.usizeMax)
    (hfit : p.streamPosition + (p.ring.len + additional) < 2 ^ 64) : p.ensureStreamSequenceRoom target additional = .ok p := by
  simp only [ensureStreamSequenceRoom, checkedAdd, if_neg (Nat.not_lt_of_le hcap), if_pos hfit]

/-- There is room afterwards; a rebase moves every position by the same
distance. -/
theorem ensureStreamSequenceRoom_spec (h : Represents p m) {additional : Nat}
    (hcap : p.ring.len + additional ≤ target.usizeMax) : ∃ position records, p.ensureStreamSequenceRoom target additional =
        .ok { p with ancillaryFds := records, streamPosition := position } ∧
      records = m.batches.map (Batch.record position) ∧ position + (m.len + additional) < 2 ^ 64 := by
  by_cases hfit : p.streamPosition + (p.ring.len + additional) < 2 ^ 64
  · exact ⟨p.streamPosition, p.ancillaryFds, ensureStreamSequenceRoom_of_fits hcap hfit, h.records, h.len ▸ hfit⟩
  refine ⟨0, m.batches.map (Batch.record 0), ?_, rfl, ?_⟩
  · simp only [ensureStreamSequenceRoom, checkedAdd, if_neg (Nat.not_lt_of_le hcap), if_neg hfit]
    rw [h.records, map_map]
    congr 2
    refine map_congr_left fun b hb => ?_
    have hin := m.inside b hb
    have hfits := h.fits
    simp only [Function.comp_apply, Batch.record, Nat.add_assoc, wrappingSub_add (show b.offset < 2 ^ 64 by omega),
      wrappingSub_add (show b.offset + b.size < 2 ^ 64 by omega), Nat.zero_add]
  · have := target.usizeMax_lt
    rw [← h.len]
    omega

theorem messageReadLen_keeps (h : Represents p m) (hcap : p.capacity ≤ target.usizeMax) (requested : Nat) :
    Keeps p (p.messageReadLen target requested) fun n => n.val = m.readLen requested := by
  have hlen := h.len
  have hfits := h.fits
  have hring : p.ring.len ≤ target.usizeMax := Nat.le_trans p.ring.len_le hcap
  have hrecords := h.records
  unfold messageReadLen Marks.readLen
  cases hb : m.batches with
  | nil =>
    rw [hb] at hrecords
    simp only [hrecords, hlen]
    exact .ok rfl
  | cons b rest =>
    have hin := m.inside b (by simp [hb])
    rw [hb] at hrecords
    simp only [hrecords]
    refine .bind (Keeps.expectAdd (by omega) rfl) fun requestedEnd hend => ?_
    subst hend
    have hiff : (Batch.record p.streamPosition b).start < p.streamPosition + min requested p.ring.len ↔
        b.offset < min requested m.len := by
      simp only [Batch.record]
      omega
    by_cases hcross : b.offset < min requested m.len
    · rw [if_pos (hiff.mpr hcross), if_pos hcross]
      refine .bind (.expectSub (by simp only [Batch.record]; omega) rfl) fun barrierLen hbar => ?_
      subst hbar
      refine .ok ?_
      have hsub : (Batch.record p.streamPosition b).stop - p.streamPosition = b.offset + b.size := by
        simp only [Batch.record]
        omega
      simp only [hsub, hlen]
      rw [Nat.mod_eq_of_lt (by omega)]
    · rw [if_neg (mt hiff.mp hcross), if_neg hcross]
      exact .ok (congrArg (min requested) hlen)

theorem SameEnds.setAncillary {q : PipeBuffer F} (h : SameEnds p q) (records : List (StreamAncillary F)) :
    SameEnds p { q with ancillaryFds := records } := by
  have hset := congrArg (fun r : PipeBuffer F => ({ r with ancillaryFds := records } : PipeBuffer F)) h
  exact hset

/-! ## Receives -/

variable {n : Nat}

theorem copyFromHead_keeps (hn : n ≤ p.ring.len) : Keeps p (p.copyFromHead n) fun bytes =>
      bytes.length = n ∧ (p.buf.length = p.capacity → bytes = p.buffered.take n) := by
  unfold copyFromHead
  by_cases hzero : n = 0
  · rw [if_pos hzero]
    exact .ok ⟨hzero.symm, fun _ => by rw [hzero, take_zero]⟩
  rw [if_neg hzero]
  have hlen := p.ring.len_le
  have hhead := RingIndex.head_lt_of_len (r := p.ring) (by omega)
  by_cases hbounds : p.ring.head + min (p.capacity - p.ring.head) n > p.buf.length ∨ n - min (p.capacity - p.ring.head) n > p.buf.length
  · simp only [if_pos hbounds]
    refine ⟨rfl, fun hbuf => ?_⟩
    unfold capacity at hbounds hbuf
    omega
  simp only [if_neg hbounds]
  refine .ok ⟨?_, fun hbuf => RingIndex.load_eq_take hbuf hn⟩
  unfold capacity at hbounds
  simp only [RingIndex.load, length_append, length_take, length_drop]
  omega

theorem crosses_eq (h : Represents p m) (n : Nat) : p.crosses (p.streamPosition + n) = m.batches.head?.any fun b => b.offset < n := by
  unfold crosses
  rw [h.records]
  cases m.batches with
  | nil => rfl
  | cons b rest =>
    exact decide_eq_decide.mpr Nat.add_lt_add_iff_left

theorem Batch.record_shift {position : Nat} {b : Batch F} (h : n ≤ b.offset) :
    Batch.record (position + n) (b.shift n) = Batch.record position b := by
  have hoffset : position + n + (b.offset - n) = position + b.offset := by omega
  simp [Batch.record, Batch.shift, hoffset]

/-- The queue after a receive of `n` bytes holds the batches that begin behind
them. -/
theorem popCrossed_records (h : Represents p m) (req : Nat) :
    (p.popCrossed (p.crosses (p.streamPosition + m.readLen req))).ancillaryFds =
      (m.advance (m.readLen req)).batches.map (Batch.record (p.streamPosition + m.readLen req)) := by
  simp only [popCrossed, crosses_eq h, Marks.advance, map_map]
  have hshift : ∀ b ∈ m.batches.filter (fun b => m.readLen req ≤ b.offset),
      (Batch.record (p.streamPosition + m.readLen req) ∘ Batch.shift (m.readLen req)) b = Batch.record p.streamPosition b := fun b hb =>
    Batch.record_shift (of_decide_eq_true (mem_filter.mp hb).2)
  rw [map_congr_left hshift, Marks.filter_left, h.records]
  split
  · rw [map_tail]
  · rfl

/-- What a consuming receive of `n` bytes leaves. -/
structure Taken (p q : PipeBuffer F) (m : Marks F) (n : Nat) : Prop where
  marks : Represents q (m.advance n)
  position : q.streamPosition = p.streamPosition + n
  ends : SameEnds p q
  buf : q.buf = p.buf
  capacity : q.capacity = p.capacity
  buffered : p.buf.length = p.capacity → q.buffered = p.buffered.drop n

theorem consumeFromHead_keeps (h : Represents p m) (hcap : p.capacity ≤ target.usizeMax) {req : Nat}
    (hn : m.readLen req ≤ p.ring.len) : Keeps p ((p.popCrossed (p.crosses (p.streamPosition + m.readLen req))).consumeFromHead target
      (m.readLen req) hn) fun q => Taken p q m (m.readLen req) := by
  have hrecords := popCrossed_records h req
  generalize hcrossed : p.crosses (p.streamPosition + m.readLen req) = crossed at hrecords ⊢
  generalize m.readLen req = n at *
  have hfits := h.fits
  have hlen := h.len
  unfold consumeFromHead
  split_ifs with hzero
  · subst hzero
    exact .ok
      { marks := ⟨hlen, hrecords, h.fits⟩
        position := rfl
        ends := rfl
        buf := rfl
        capacity := rfl
        buffered := fun _ => rfl }
  have hring : p.ring.len ≤ target.usizeMax := Nat.le_trans p.ring.len_le hcap
  have hroom : (p.popCrossed crossed).ensureStreamSequenceRoom target 0 = .ok (p.popCrossed crossed) :=
    ensureStreamSequenceRoom_of_fits hring (by
      show p.streamPosition + p.ring.len < 2 ^ 64
      omega)
  rw [hroom]
  refine .bind (.ok rfl) fun q hq => ?_
  subst hq
  refine .bind (.expectAdd (show p.streamPosition + n < 2 ^ 64 by omega) rfl) fun position hpos => ?_
  subst hpos
  exact .ok
    { marks := ⟨congrArg (· - n) hlen, hrecords, by
        show p.streamPosition + n + (m.len - n) < 2 ^ 64
        omega⟩
      position := rfl
      ends := rfl
      buf := rfl
      capacity := rfl
      buffered := fun hbuf => RingIndex.contents_consume hbuf hn }

/-- What a receive of `n` bytes answers. -/
structure Got (p : PipeBuffer F) (m : Marks F) (n : Nat) (bytes : List UInt8) (hitBarrier : Bool) : Prop where
  length : bytes.length = n
  bytes : p.buf.length = p.capacity → bytes = p.buffered.take n
  barrier : hitBarrier = (m.crossed n).isSome

theorem crosses_isSome (h : Represents p m) (n : Nat) : p.crosses (p.streamPosition + n) = (m.crossed n).isSome := by
  rw [crosses_eq h, Marks.crossed]
  cases m.batches.head? with
  | none => rfl
  | some b =>
    simp only [Option.any_some, Option.filter]
    split_ifs with hlt
    · rw [hlt]
      rfl
    · simpa using hlt

theorem crossed_fds (h : Represents p m) (n : Nat) :
    (if p.crosses (p.streamPosition + n) then p.ancillaryFds.head?.map (·.fds) else none) = (m.crossed n).map (·.fds) := by
  rw [crosses_eq h, h.records, Marks.crossed]
  cases m.batches with
  | nil => rfl
  | cons b rest =>
    simp only [map_cons, head?_cons, Option.any_some, Option.filter]
    split <;> rfl

theorem recvPlain_keeps (h : Represents p m) (hcap : p.capacity ≤ target.usizeMax) (req : Nat) (peek : Bool) :
    Keeps p (p.recvPlain target req peek) fun res => Got p m (m.readLen req) res.1.bytes res.1.hitAncillaryBarrier ∧
        if peek then res.2 = p else Taken p res.2 m (m.readLen req) := by
  have hfits := h.fits
  have hlen := h.len
  refine .bind (messageReadLen_keeps h hcap req) fun ⟨n, hn, _⟩ hread => ?_
  subst hread
  refine .bind (.expectAdd (show p.streamPosition + m.readLen req < 2 ^ 64 by omega) rfl)
    fun readEnd hend => ?_
  subst hend
  refine .bind (copyFromHead_keeps hn) fun bytes hbytes => ?_
  have hgot : Got p m (m.readLen req) bytes (p.crosses (p.streamPosition + m.readLen req)) :=
    ⟨hbytes.1, hbytes.2, crosses_isSome h _⟩
  cases peek with
  | true => exact .ok ⟨hgot, rfl⟩
  | false => exact .bind (consumeFromHead_keeps h hcap hn) fun q hq => .ok ⟨hgot, hq⟩

/-- What a receive with ancillary data answers: the batch it crosses. -/
def MessageGot (p : PipeBuffer F) (m : Marks F) (n : Nat) (clone : Except Errno Unit) (peek : Bool)
    (res : Except Errno (PipeMessageRead F) × PipeBuffer F) : Prop :=
  match res.1 with
  | .error e => peek ∧ (m.crossed n).isSome ∧ clone = .error e ∧ res.2 = p
  | .ok r => Got p m n r.bytes r.hitAncillaryBarrier ∧ r.ancillaryFds = (m.crossed n).map (·.fds) ∧
      if peek then res.2 = p else Taken p res.2 m n

theorem recvMessage_keeps (h : Represents p m) (hcap : p.capacity ≤ target.usizeMax) (clone : Except Errno Unit)
    (req : Nat) (peek : Bool) : Keeps p (p.recvMessage target clone req peek) (MessageGot p m (m.readLen req) clone peek) := by
  have hfits := h.fits
  have hlen := h.len
  refine .bind (messageReadLen_keeps h hcap req) fun ⟨n, hn, _⟩ hread => ?_
  subst hread
  refine .bind (.expectAdd (show p.streamPosition + m.readLen req < 2 ^ 64 by omega) rfl)
    fun readEnd hend => ?_
  subst hend
  have hcross := crosses_isSome h (m.readLen req)
  have hfds := crossed_fds h (m.readLen req)
  have hcopy := copyFromHead_keeps hn
  cases peek with
  | false =>
    simp only [Bool.and_false, Bool.false_eq_true]
    refine .bind hcopy fun bytes hbytes => ?_
    exact .bind (consumeFromHead_keeps h hcap hn) fun q hq => .ok ⟨⟨hbytes.1, hbytes.2, hcross⟩, hfds, hq⟩
  | true =>
    simp only [Bool.and_true]
    split
    · -- Only the clone of a peek can fail, before anything is copied.
      rename_i e he
      split at he
      · rename_i hc
        exact .ok ⟨rfl, hcross ▸ hc, he, rfl⟩
      · cases he
    · exact .bind hcopy fun bytes hbytes => .ok ⟨⟨hbytes.1, hbytes.2, hcross⟩, hfds, rfl⟩

theorem peek_keeps (h : Represents p m) (hcap : p.capacity ≤ target.usizeMax) (req : Nat) :
    Keeps p (p.peek target req) fun bytes => bytes.length = m.readLen req ∧
        (p.buf.length = p.capacity → bytes = p.buffered.take (m.readLen req)) := by
  refine .bind (messageReadLen_keeps h hcap req) fun ⟨n, hn, _⟩ hread => ?_
  subst hread
  exact copyFromHead_keeps hn

/-! ## Writes -/

/-- What a write leaves that buffered `bytes`. -/
structure Put (p q : PipeBuffer F) (m : Marks F) (bytes : List UInt8) : Prop where
  marks : Represents q m
  ends : SameEnds p q
  capacity : q.capacity = p.capacity
  store : p.buf.length = p.capacity → q.buf.length = q.capacity ∧ q.buffered = p.buffered ++ bytes

theorem Put.nothing (h : Represents p m) : Put p p (m.extend 0) [] where
  marks := h
  ends := rfl
  capacity := rfl
  store hbuf := ⟨hbuf, (append_nil _).symm⟩

/-- Without a reader nothing is buffered: the discard sink swallows all, a
closed pipe takes none. -/
def swallowed (p : PipeBuffer F) (data : List UInt8) : Nat := if p.orphanedRead then data.length else 0

theorem writeWithoutWakeup_keeps (h : Represents p m) (hcap : p.capacity ≤ target.usizeMax) (data : List UInt8) :
    Keeps p (p.writeWithoutWakeup target data) fun res => if p.readCount = 0 then res = (swallowed p data, p)
      else res.1 = min data.length p.freeSpace ∧ Put p res.2 (m.extend res.1) (data.take res.1) := by
  unfold writeWithoutWakeup
  by_cases hr : p.readCount = 0
  · rw [if_pos hr]
    exact .ok (if_pos hr ▸ rfl)
  simp only [if_neg hr]
  by_cases hzero : min data.length p.ring.free = 0
  · rw [if_pos hzero]
    exact .ok ⟨hzero.symm, by simpa using Put.nothing h⟩
  rw [if_neg hzero]
  by_cases hbuf : p.buf.length ≠ p.capacity
  · rw [if_pos hbuf]
    exact ⟨rfl, hbuf⟩
  rw [if_neg hbuf]
  have hbuf' : p.buf.length = p.ring.capacity := not_not.mp hbuf
  have hlen : (data.take (min data.length p.ring.free)).length = min data.length p.ring.free := by
    rw [length_take]
    omega
  have hroom : p.ring.len + min data.length p.ring.free ≤ target.usizeMax := by
    have hfree' : p.ring.free = p.ring.capacity - p.ring.len := rfl
    omega
  obtain ⟨position, records, hensure, hrecords, hfits⟩ := ensureStreamSequenceRoom_spec h hroom
  simp only [hensure]
  have hdata : (data.take (min data.length p.ring.free)).length ≤ p.ring.free := by omega
  refine Keeps.ok ⟨rfl, ⟨congrArg (· + _) h.len, hrecords, hfits⟩, rfl, rfl, fun _ => ⟨RingIndex.length_store hbuf' hdata, ?_⟩⟩
  have hcontents := RingIndex.contents_produce hbuf' hdata
  simp only [hlen] at hcontents
  exact hcontents

/-- What a write with a batch answers: `ENOMEM` when the record could not be
admitted, else the bytes taken, with the batch on them. -/
def AncillaryPut (p : PipeBuffer F) (m : Marks F) (admitted : Bool) (data : List UInt8) (fds : List F)
    (res : Except Errno Nat × PipeBuffer F) : Prop :=
  match res.1 with
  | .error e => e = .ENOMEM ∧ admitted = false ∧ fds ≠ [] ∧ data ≠ [] ∧ res.2 = p
  | .ok n =>
    if p.readCount = 0 then n = swallowed p data ∧ res.2 = p
    else n = min data.length p.freeSpace ∧ (n = 0 ∨ fds = [] → Put p res.2 (m.extend n) (data.take n)) ∧
      (∀ hn : 0 < n, fds ≠ [] → Put p res.2 (m.attach n hn fds) (data.take n))

theorem AncillaryPut.sink {admitted : Bool} {data : List UInt8} {fds : List F} (hr : p.readCount = 0)
    (hn : n = swallowed p data) : AncillaryPut p m admitted data fds (.ok n, p) := by
  show if p.readCount = 0 then n = swallowed p data ∧ p = p else _
  rw [if_pos hr]
  exact ⟨hn, rfl⟩

theorem AncillaryPut.put {q : PipeBuffer F} {admitted : Bool} {data : List UInt8} {fds : List F}
    (hr : p.readCount ≠ 0) (hn : n = min data.length p.freeSpace) (hplain : n = 0 ∨ fds = [] → Put p q (m.extend n) (data.take n))
    (hmarked : ∀ hn : 0 < n, fds ≠ [] → Put p q (m.attach n hn fds) (data.take n)) : AncillaryPut p m admitted data fds (.ok n, q) := by
  simp only [AncillaryPut, if_neg hr]
  exact ⟨hn, hplain, hmarked⟩

theorem writeWithAncillary_keeps (h : Represents p m) (hcap : p.capacity ≤ target.usizeMax) (admitted : Bool)
    (data : List UInt8) (fds : List F) :
    Keeps p (p.writeWithAncillary target admitted data fds) (AncillaryPut p m admitted data fds) := by
  have hwrite := writeWithoutWakeup_keeps h hcap data
  unfold writeWithAncillary
  by_cases hfds : fds = []
  · subst hfds
    refine .map (hwrite.mono fun ⟨n, q⟩ hres => ?_)
    by_cases hr : p.readCount = 0
    · rw [if_pos hr] at hres
      obtain ⟨rfl, rfl⟩ := hres
      exact .sink hr rfl
    · rw [if_neg hr] at hres
      exact .put hr hres.1 (fun _ => hres.2) fun _ hne => absurd rfl hne
  rw [if_neg (by simpa using hfds)]
  by_cases hdata : data = []
  · subst hdata
    by_cases hr : p.readCount = 0
    · exact .ok (.sink hr (ite_self _).symm)
    · exact .ok (.put hr (Nat.zero_min _).symm (fun _ => .nothing h) fun hn => absurd hn (Nat.lt_irrefl 0))
  rw [if_neg (by simpa using hdata)]
  cases admitted with
  | false => exact .ok ⟨rfl, rfl, hfds, hdata, rfl⟩
  | true =>
    refine .bind hwrite fun ⟨n, q⟩ hres => ?_
    simp only at hres ⊢
    by_cases hr : p.readCount = 0
    · -- The discard sink: no range to attach to.
      rw [if_pos hr, Prod.mk.injEq] at hres
      obtain ⟨hn, rfl⟩ := hres
      rw [if_pos rfl]
      split_ifs with hzero
      · exact .ok (.sink hr (hzero ▸ hn))
      · exact .ok (.sink hr hn)
    rw [if_neg hr] at hres
    obtain ⟨hn, hput⟩ := hres
    by_cases hzero : n = 0
    · subst hzero
      exact .ok (.put hr hn (fun _ => hput) fun hlt => absurd hlt (Nat.lt_irrefl 0))
    have hlen : q.ring.len = p.ring.len + n := hput.marks.len.trans (congrArg (· + n) h.len.symm)
    have hfits : q.streamPosition + (m.len + n) < 2 ^ 64 := hput.marks.fits
    rw [if_neg hzero, if_neg (by omega), h.len]
    refine .bind (.expectAdd (by omega) rfl) fun start hstart => ?_
    subst hstart
    refine .bind (.expectAdd (by omega) rfl) fun stop hstop => ?_
    subst hstop
    refine .ok (.put hr hn (fun hor => absurd hor (not_or.mpr ⟨hzero, hfds⟩)) fun _ _ => ?_)
    refine ⟨⟨hput.marks.len, ?_, hfits⟩, hput.ends.setAncillary _, hput.capacity, hput.store⟩
    simp [Marks.attach, hput.marks.records, Marks.extend, Batch.record]

end Kandelo.Pipe

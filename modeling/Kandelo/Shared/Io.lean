/-
The environment of the shared mappings (`SharedMappingIo`): the linear memories
of the processes, the files behind stable handles, and the SysV segments the
kernel owns.

What the host or the allocator may answer is an arbitrary stream: each question
takes the next answer, so a result for every `Io` holds whatever fails, comes up
short or is refused, at any point. A refused write may leave anything where it
was asked to write, and nothing elsewhere. A segment is the kernel's own: reading
or writing it fails only out of its bounds.
-/
import Kandelo.Errno

namespace Kandelo.Shared

def filePageSize : Nat := 4096

def u64Max : Nat := 2 ^ 64 - 1

/-- `a.saturating_add(b)`. -/
def satAdd (a b : Nat) : Nat := min (a + b) u64Max

/-- `a.saturating_mul(b)`. -/
def satMul (a b : Nat) : Nat := min (a * b) u64Max

/-- `a + b` of the release build, which wraps. -/
def wrapAdd (a b : Nat) : Nat := (a + b) % 2 ^ 64

structure SharedMappingStat where
  dev : UInt64
  ino : UInt64
  size : UInt64
  mode : UInt32

def SharedMappingStat.isRegularFile (s : SharedMappingStat) : Bool := s.mode &&& 0o170000 == 0o100000

/-- What the environment answers to one question, whichever it is. -/
structure Answer where
  /-- An allocation succeeds. -/
  room : Bool
  /-- What a positional read or write answers. -/
  transfer : Except Errno Nat
  stat : Except Errno SharedMappingStat
  identity : Option String
  /-- Whether a process's memory can be reached. -/
  access : Except Errno Unit
  /-- What a refused write leaves where it was asked to write. -/
  leaves : Nat → UInt8
  /-- How far a positional write moves the content generation. -/
  ticks : Nat

/-- A positional write the host was asked for, and how much it acknowledged. -/
structure Written where
  handle : Int
  offset : Nat
  len : Nat
  acked : Nat
  acked_le : acked ≤ len
  deriving DecidableEq, Repr

structure Io where
  file : Int → Nat → UInt8
  /-- `content_generation`, for a file whose every writer the kernel sees. -/
  generation : Int → Option Nat
  memory : UInt32 → Nat → UInt8
  memoryLen : UInt32 → Option Nat
  shm : Int → Option (List UInt8)
  answers : Nat → Answer
  used : Nat
  log : List Written

namespace Io

/-- `f` with the bytes `[start, start + len)` replaced. -/
def splice (f : Nat → UInt8) (start len : Nat) (bytes : Nat → UInt8) (i : Nat) : UInt8 :=
  if start ≤ i ∧ i < start + len then bytes (i - start) else f i

def next (io : Io) : Answer × Io := (io.answers io.used, { io with used := io.used + 1 })

def alloc (io : Io) : Bool × Io := (io.next.1.room, io.next.2)

/-- How many bytes were read, and the bytes. -/
def pread (io : Io) (handle : Int) (offset : Nat) : Except Errno (Nat × (Nat → UInt8)) × Io :=
  (io.next.1.transfer.map fun n => (n, fun k => io.file handle (offset + k)), io.next.2)

/-- How much of a positional write the host acknowledges; a count above the
request is no acknowledgement. -/
def acked (io : Io) (len : Nat) : Nat :=
  match io.next.1.transfer with
  | .ok n => if n ≤ len then n else 0
  | .error _ => 0

/-- How much of the file a positional write may have changed: past what it
acknowledged, a write that came up short changed nothing, and a refused one
anything. -/
def touched (io : Io) (len : Nat) : Nat :=
  match io.next.1.transfer with
  | .ok n => if n ≤ len then n else len
  | .error _ => len

theorem touched_le (io : Io) (len : Nat) : io.touched len ≤ len := by
  simp only [touched]
  split
  · split <;> omega
  · exact Nat.le_refl _

theorem acked_le_touched (io : Io) (len : Nat) : io.acked len ≤ io.touched len := by
  simp only [acked, touched]
  split
  · split <;> omega
  · exact Nat.zero_le _

theorem acked_le (io : Io) (len : Nat) : io.acked len ≤ len := Nat.le_trans (io.acked_le_touched len) (io.touched_le len)

def pwrite (io : Io) (handle : Int) (offset len : Nat) (bytes : Nat → UInt8) : Except Errno Nat × Io :=
  let a := io.next.1
  (a.transfer, { io.next.2 with
    file := fun h =>
      if h = handle then
        splice (io.file h) offset (io.touched len) fun k => if k < io.acked len then bytes k else a.leaves k
      else io.file h
    generation := fun h => if h = handle then (io.generation h).map (· + a.ticks) else io.generation h
    log := io.log ++ [⟨handle, offset, len, io.acked len, io.acked_le len⟩] })

/-- A descriptor has written the file behind `handle`: what it holds now, and how
far its content generation has moved. -/
def descriptorWrite (io : Io) (handle : Int) (contents : Nat → UInt8) (ticks : Nat) : Io :=
  { io with
    file := fun h => if h = handle then contents else io.file h
    generation := fun h => if h = handle then (io.generation h).map (· + ticks) else io.generation h }

def fstatHandle (io : Io) (_handle : Int) : Except Errno SharedMappingStat × Io := (io.next.1.stat, io.next.2)

def handleIdentity (io : Io) (_handle : Int) (_dev _ino : UInt64) : Option String × Io := (io.next.1.identity, io.next.2)

def readProcess (io : Io) (pid : UInt32) (addr : Nat) : Except Errno (Nat → UInt8) × Io :=
  (io.next.1.access.map fun _ k => io.memory pid (addr + k), io.next.2)

def writeProcess (io : Io) (pid : UInt32) (addr len : Nat) (bytes : Nat → UInt8) : Except Errno Unit × Io :=
  let a := io.next.1
  let written := match a.access with
    | .ok _ => bytes
    | .error _ => a.leaves
  (a.access, { io.next.2 with
    memory := fun p => if p = pid then splice (io.memory p) addr len written else io.memory p })

/-- A process stores into its own memory, of which the kernel sees nothing. -/
def store (io : Io) (pid : UInt32) (addr len : Nat) (bytes : Nat → UInt8) : Io :=
  { io with memory := fun p => if p = pid then splice (io.memory p) addr len bytes else io.memory p }

/-- `shm_read_chunk` and the check that it was not short. -/
def shmRead (io : Io) (segId : Int) (offset len : Nat) : Except Errno (Nat → UInt8) :=
  if len = 0 then .ok fun _ => 0
  else if 2 ^ 32 ≤ offset then .error .EINVAL
  else
    match io.shm segId with
    | none => .error .EINVAL
    | some data => if offset + len ≤ data.length then .ok fun k => data.getD (offset + k) 0 else .error .EINVAL

/-- `shm_write_chunk` and the check that it was not short; a short write has
written what fits. -/
def shmWrite (io : Io) (segId : Int) (offset len : Nat) (bytes : Nat → UInt8) : Except Errno Unit × Io :=
  if len = 0 then (.ok (), io)
  else if 2 ^ 32 ≤ offset then (.error .EINVAL, io)
  else
    match io.shm segId with
    | none => (.error .EINVAL, io)
    | some data =>
      (if offset + len ≤ data.length then .ok () else .error .EINVAL, { io with
        shm := fun s => if s = segId then
            some (data.mapIdx fun i b => if offset ≤ i ∧ i < offset + len then bytes (i - offset) else b)
          else io.shm s })

/-- Every process's memory can be reached. -/
def Reaches (io : Io) : Prop := ∀ n, (io.answers n).access = .ok ()

/-- Every allocation succeeds and every process's memory can be reached. -/
def Reliable (io : Io) : Prop := ∀ n, (io.answers n).room ∧ (io.answers n).access = .ok ()

/-! ## Questions

Most of what the code asks leaves the environment as it was, but for the answers
used up. -/

def Asked (io io' : Io) : Prop := ∃ n, io' = { io with used := n }

namespace Asked

variable {io io₁ io₂ : Io}

theorem refl (io : Io) : Asked io io := ⟨io.used, rfl⟩

theorem trans (h1 : Asked io io₁) (h2 : Asked io₁ io₂) : Asked io io₂ := by
  obtain ⟨_, rfl⟩ := h1
  obtain ⟨n, rfl⟩ := h2
  exact ⟨n, rfl⟩

section

variable (h : Asked io io₁)

include h

theorem file : io₁.file = io.file := by
  obtain ⟨_, rfl⟩ := h
  rfl

theorem generation : io₁.generation = io.generation := by
  obtain ⟨_, rfl⟩ := h
  rfl

theorem memory : io₁.memory = io.memory := by
  obtain ⟨_, rfl⟩ := h
  rfl

theorem memoryLen : io₁.memoryLen = io.memoryLen := by
  obtain ⟨_, rfl⟩ := h
  rfl

theorem shm : io₁.shm = io.shm := by
  obtain ⟨_, rfl⟩ := h
  rfl

theorem answers : io₁.answers = io.answers := by
  obtain ⟨_, rfl⟩ := h
  rfl

theorem log : io₁.log = io.log := by
  obtain ⟨_, rfl⟩ := h
  rfl

end

end Asked

theorem asked_alloc (io : Io) : Asked io io.alloc.2 := ⟨_, rfl⟩

theorem asked_pread (io : Io) (handle : Int) (offset : Nat) : Asked io (io.pread handle offset).2 := ⟨_, rfl⟩

theorem readProcess_ok {io : Io} {pid : UInt32} {addr : Nat} {bytes : Nat → UInt8}
    (h : (io.readProcess pid addr).1 = .ok bytes) : bytes = fun k => io.memory pid (addr + k) := by
  simp only [readProcess] at h
  cases ha : io.next.1.access with
  | error e => rw [ha] at h; cases h
  | ok _ => rw [ha] at h; cases h; rfl

/-! ## Writes to a process -/

section WriteProcess

variable (io : Io) (pid : UInt32) (addr len : Nat) (bytes : Nat → UInt8)

theorem writeProcess_rest : (io.writeProcess pid addr len bytes).2 =
    { io with used := io.used + 1, memory := (io.writeProcess pid addr len bytes).2.memory } := rfl

theorem writeProcess_outside {p : UInt32} {i : Nat} (h : ¬(p = pid ∧ addr ≤ i ∧ i < addr + len)) :
    (io.writeProcess pid addr len bytes).2.memory p i = io.memory p i := by
  simp only [writeProcess]
  split
  · rename_i hp
    rw [splice, if_neg fun hi => h ⟨hp, hi⟩]
  · rfl

theorem writeProcess_ok (h : (io.writeProcess pid addr len bytes).1 = .ok ()) {k : Nat} (hk : k < len) :
    (io.writeProcess pid addr len bytes).2.memory pid (addr + k) = bytes k := by
  simp only [writeProcess, if_true] at h ⊢
  rw [h, splice, if_pos (by omega), Nat.add_sub_cancel_left]

end WriteProcess

/-! ## Writes to a file -/

/-- The positional writes `ws` went to the file behind `handle`, and nothing else
happened. -/
structure Wrote (handle : Int) (io io' : Io) (ws : List Written) : Prop where
  log : io'.log = io.log ++ ws
  target : ∀ w ∈ ws, w.handle = handle
  file : ∀ h, h ≠ handle → io'.file h = io.file h
  generation : ∀ h, h ≠ handle → io'.generation h = io.generation h
  tracked : (io'.generation handle).isSome = (io.generation handle).isSome
  memory : io'.memory = io.memory
  memoryLen : io'.memoryLen = io.memoryLen
  shm : io'.shm = io.shm

theorem Asked.wrote {io io' : Io} (h : Asked io io') (handle : Int) : Wrote handle io io' [] where
  log := by rw [h.log, List.append_nil]
  target := fun _ h => nomatch h
  file := fun _ _ => by rw [h.file]
  generation := fun _ _ => by rw [h.generation]
  tracked := by rw [h.generation]
  memory := h.memory
  memoryLen := h.memoryLen
  shm := h.shm

theorem Wrote.trans {handle : Int} {io io₁ io₂ : Io} {ws ws' : List Written} (h1 : Wrote handle io io₁ ws)
    (h2 : Wrote handle io₁ io₂ ws') : Wrote handle io io₂ (ws ++ ws') where
  log := by rw [h2.log, h1.log, List.append_assoc]
  target := fun w hw => (List.mem_append.mp hw).elim (h1.target w) (h2.target w)
  file := fun h hne => (h2.file h hne).trans (h1.file h hne)
  generation := fun h hne => (h2.generation h hne).trans (h1.generation h hne)
  tracked := h2.tracked.trans h1.tracked
  memory := h2.memory.trans h1.memory
  memoryLen := h2.memoryLen.trans h1.memoryLen
  shm := h2.shm.trans h1.shm

section Pwrite

variable (io : Io) (handle : Int) (offset len : Nat) (bytes : Nat → UInt8)

theorem pwrite_wrote :
    Wrote handle io (io.pwrite handle offset len bytes).2 [⟨handle, offset, len, io.acked len, io.acked_le len⟩] where
  log := rfl
  target := by simp
  file := fun h hne => if_neg hne
  generation := fun h hne => if_neg hne
  tracked := by simp [pwrite]
  memory := rfl
  memoryLen := rfl
  shm := rfl

theorem pwrite_file_outside {i : Nat} (h : i < offset ∨ offset + len ≤ i) :
    (io.pwrite handle offset len bytes).2.file handle i = io.file handle i := by
  have := io.touched_le len
  simp only [pwrite, if_true, splice]
  rw [if_neg (by omega)]

theorem pwrite_file_acked {i : Nat} (h : offset ≤ i ∧ i < offset + io.acked len) :
    (io.pwrite handle offset len bytes).2.file handle i = bytes (i - offset) := by
  have := io.acked_le_touched len
  simp only [pwrite, if_true, splice]
  rw [if_pos (by omega), if_pos (by omega)]

/-- A count the code accepts is what was acknowledged. -/
theorem acked_of_pwrite_ok {n : Nat} (h : (io.pwrite handle offset len bytes).1 = .ok n) (hn : n ≤ len) : io.acked len = n := by
  simp only [acked]
  rw [show io.next.1.transfer = .ok n from h]
  exact if_pos hn

/-- A count the code refuses acknowledges nothing. -/
theorem acked_of_refused (h : ∀ n, (io.pwrite handle offset len bytes).1 = .ok n → ¬(0 < n ∧ n ≤ len)) : io.acked len = 0 := by
  simp only [acked]
  split
  · rename_i n hn
    have := h n hn
    split <;> omega
  · rfl

end Pwrite

end Io

end Kandelo.Shared

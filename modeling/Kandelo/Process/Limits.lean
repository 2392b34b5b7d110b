/-
Resource limits: what `getrlimit` reports (`rlimits`) against what the kernel holds a
process to (the maximum of its descriptor table, the data limit of its memory), through
`setrlimit`, `fork`, `posix_spawn` and `exec` (`syscalls.rs`, `fork.rs`,
`process_table.rs`).

A run follows one line of descent: `fork` and `spawn` go on with the child, whose parent
is left as it was. The limit of descriptors is handed on; the data limit is not, and
`limits_enforced` says which calls lose it.
-/
import Kandelo.Fd.Run
import Kandelo.Memory.Invariant

namespace Kandelo.Process

open Fd Memory MemoryManager

/-- The limits of the sixteen resources, soft and hard. -/
abbrev Rlimits := Vector (UInt64 × UInt64) 16

def rlimInfinity : UInt64 := UInt64.ofNat (2 ^ 64 - 1)

def rlimitData : UInt32 := 2
def rlimitNofile : UInt32 := 7
def fdClofork : UInt32 := 2

/-- `MAX_FDS` of the fork record. -/
def maxForkFds : Nat := 65536

/-- The mappings a fork record may have. -/
def maxForkMappings : Nat := 4096

/-- `as u32`. -/
def asU32 (n : Nat) : Nat := n % 2 ^ 32

/-- `FdTable::max_fds` for a soft limit, as `sys_setrlimit` computes it. -/
def nofileMax (U : Usize) (soft : UInt64) : Nat := if soft = rlimInfinity then 1024 * 1024 else soft.toNat % (U.max + 1)

structure LimitedProcess where
  rlimits : Rlimits
  fdTable : FdTable
  memory : MemoryManager

namespace LimitedProcess

def new : LimitedProcess where
  rlimits := ((Vector.replicate 16 (rlimInfinity, rlimInfinity)).setIfInBounds 7 (1024, 4096)).setIfInBounds 3
    (8 * 1024 * 1024, rlimInfinity)
  fdTable := FdTable.new
  memory := MemoryManager.new

/-! ## System calls -/

def sysSetrlimit (U : Usize) (p : LimitedProcess) (euid resource : UInt32) (soft hard : UInt64) : Except Errno Unit × LimitedProcess :=
  match p.rlimits[resource.toNat]? with
  | none => (.error .EINVAL, p)
  | some current =>
    if hard < soft then (.error .EINVAL, p)
    else if euid ≠ 0 ∧ current.2 < hard then (.error .EPERM, p)
    else
      (.ok (), {
        rlimits := p.rlimits.setIfInBounds resource.toNat (soft, hard)
        fdTable := if resource = rlimitNofile then p.fdTable.setMaxFds (nofileMax U soft) else p.fdTable
        memory := if resource = rlimitData then p.memory.setDataLimit soft.toNat else p.memory })

/-! ## Inheritance -/

/-- The descriptor table of a fork record, restored. -/
def forkFdTable (t : FdTable) (storage : Storage) : Except Errno FdTable :=
  let entries := t.iter.filter fun e => e.2.fdFlags &&& fdClofork = 0
  if maxForkFds < entries.length then .error .EINVAL
  else
    FdTable.restoreEntries storage (FdTable.withMax (asU32 t.maxFds))
      (entries.map fun e => (e.1, { e.2 with ofdRef := asU32 e.2.ofdRef }))

/-- The memory of a fork record, restored: the layout, the break, the mappings in
address order. -/
def forkMemory (U : Usize) (m : MemoryManager) : Except Errno MemoryManager :=
  let layout := { MemoryManager.new with
    initialBrk := asU32 m.initialBrk
    maxAddr := asU32 m.maxAddr
    brkLimit := asU32 m.brkLimit
    mmapBase := asU32 m.mmapBase
    reservedUntil := asU32 m.reservedUntil }
  let restored := (layout.setBrk U (asU32 m.programBreak)).2
  if maxForkMappings < m.mappings.length then .error .EINVAL
  else
    .ok { restored with mappings :=
      (m.mappings.map fun r => { r with addr := asU32 r.addr, len := asU32 r.len }).mergeSort fun a b => a.addr ≤ b.addr }

/-- The child of a fork. What the rest of the record costs is asked of the kernel. -/
def forkChild (U : Usize) (p : LimitedProcess) (storage : Storage) (others : Except Errno Unit) : Except Errno LimitedProcess := do
  let fdTable ← forkFdTable p.fdTable storage
  let memory ← forkMemory U p.memory
  others
  return ⟨p.rlimits, fdTable, memory⟩

/-- The child of a spawn has a memory of its own. -/
def spawnChild (p : LimitedProcess) (storage : Storage) (others : Except Errno Unit) : Except Errno LimitedProcess := do
  let fdTable ← p.fdTable.tryClone storage
  others
  return ⟨p.rlimits, fdTable, MemoryManager.new⟩

def fdCloexec : UInt32 := 1

/-- `commit_exec_state`: descriptors that do not outlive `exec` are closed, and the
memory is a new one. -/
def commitExecState (p : LimitedProcess) (checked : Except Errno Unit) : Except Errno Unit × LimitedProcess :=
  match checked with
  | .error e => (.error e, p)
  | .ok () =>
    let cloexec := (p.fdTable.iter.filter fun e => e.2.fdFlags &&& fdCloexec ≠ 0).map (·.1)
    (.ok (), { p with
      fdTable := cloexec.foldl (fun t fd => (t.free fd).2) p.fdTable
      memory := MemoryManager.new })

end LimitedProcess

inductive LimitCall
  | setrlimit (euid resource : UInt32) (soft hard : UInt64)
  | fork (storage : Storage) (others : Except Errno Unit)
  | spawn (storage : Storage) (others : Except Errno Unit)
  | exec (checked : Except Errno Unit)

namespace LimitedProcess

/-- The process goes on, or its child does. -/
def descend (p : LimitedProcess) : Except Errno LimitedProcess → Except Errno Unit × LimitedProcess
  | .error e => (.error e, p)
  | .ok child => (.ok (), child)

def call (U : Usize) (p : LimitedProcess) : LimitCall → Except Errno Unit × LimitedProcess
  | .setrlimit euid resource soft hard => p.sysSetrlimit U euid resource soft hard
  | .fork storage others => p.descend (p.forkChild U storage others)
  | .spawn storage others => p.descend (p.spawnChild storage others)
  | .exec checked => p.commitExecState checked

end LimitedProcess

/-- The highest break the layout allows. -/
def heapTop (m : MemoryManager) : Nat := min m.maxAddr m.brkLimit

variable {m : MemoryManager}

/-! ## The heap against a limit -/

variable {U : Usize}

variable {t : FdTable}

theorem closeAll_maxFds (fds : List Int32) (ht : t.Inv) :
    (fds.foldl (fun t fd => (t.free fd).2) t).Inv ∧ (fds.foldl (fun t fd => (t.free fd).2) t).maxFds = t.maxFds := by
  induction fds generalizing t with
  | nil => exact ⟨ht, rfl⟩
  | cons fd fds ih =>
    have hlimit : ∀ {d d' answer}, Descriptors.Step d (.free fd) answer d' → d'.limit = d.limit := by
      intro d d' answer h
      cases h <;> rfl
    obtain ⟨hfree, hstep⟩ := FdTable.call_refines ht (.free fd)
    obtain ⟨hinv, hmax⟩ := ih hfree
    exact ⟨hinv, hmax.trans (hlimit hstep)⟩

variable {storage : Storage}

/-- A fork record has 32 bits for the limit of the table. -/
theorem forkFdTable_maxFds {c : FdTable} (ht : t.Inv) (h : LimitedProcess.forkFdTable t storage = .ok c) :
    c.Inv ∧ c.maxFds = asU32 t.maxFds := by
  simp only [LimitedProcess.forkFdTable] at h
  split at h
  · cases h
  have hfds : ∀ e ∈ (t.iter.filter fun e => e.2.fdFlags &&& fdClofork = 0).map
      fun e => (e.1, { e.2 with ofdRef := asU32 e.2.ofdRef }), ∃ i, tryFrom e.1 = some i := by
    intro e he
    obtain ⟨e₀, he0, rfl⟩ := List.mem_map.mp he
    obtain ⟨i, hi, _⟩ := (FdTable.mem_iter_iff ht e₀.1 e₀.2).mp (List.mem_filter.mp he0).1
    exact ⟨i, hi⟩
  obtain ⟨hinv, hmax, _⟩ := FdTable.restoreEntries_ok hfds (FdTable.inv_withMax _) h
  exact ⟨hinv, hmax⟩

/-- A child's heap ends where its parent's does, or below. -/
theorem forkMemory_heapTop {m' : MemoryManager} (h : LimitedProcess.forkMemory U m = .ok m') : heapTop m' ≤ heapTop m := by
  simp only [LimitedProcess.forkMemory] at h
  split at h
  · cases h
  cases h
  have hkept : ∀ layout : MemoryManager, heapTop (layout.setBrk U (asU32 m.programBreak)).2 = heapTop layout := by
    intro layout
    rcases setBrk_cases U layout (asU32 m.programBreak) with ⟨_, h⟩ | ⟨_, h⟩ <;> rw [h]
    rfl
  exact le_trans (hkept _).le (min_le_min (Nat.mod_le _ _) (Nat.mod_le _ _))

/-! ## Runs -/

namespace LimitedProcess

def dataSoft (p : LimitedProcess) : Nat := (p.rlimits[2]).1.toNat

variable {p : LimitedProcess}

/-- The call loses a limit, unless the kernel refuses it: the child of a fork, a spawn
or an exec gets a memory without the data limit that is reported, whose heap could reach
past it; or the table limit of a fork does not fit. -/
def LosesLimit (p : LimitedProcess) : LimitCall → Prop
  | .fork _ others => others = .ok () ∧ (2 ^ 32 ≤ p.fdTable.maxFds ∨ p.dataSoft < heapTop p.memory)
  | .spawn _ others => others = .ok () ∧ p.dataSoft < defaultMaxAddr
  | .exec checked => checked = .ok () ∧ p.dataSoft < defaultMaxAddr
  | .setrlimit _ _ _ _ => False

/-- What a run without such a call keeps: the limits agree, and where the memory has
not the data limit that is reported its heap ends below it. -/
structure Kept (U : Usize) (p : LimitedProcess) : Prop where
  table : p.fdTable.Inv
  nofile : p.fdTable.maxFds = nofileMax U (p.rlimits[7]).1
  data : p.memory.dataLimit ≤ p.dataSoft ∨ heapTop p.memory ≤ p.dataSoft

theorem getElem_setLimit (limits : Rlimits) (resource : UInt32) (pair : UInt64 × UInt64) (i : Nat) (hi : i < 16) :
    (limits.setIfInBounds resource.toNat pair)[i] = if resource = UInt32.ofNat i then pair else limits[i] := by
  have hiff : resource.toNat = i ↔ resource = UInt32.ofNat i := by
    rw [← UInt32.toNat_inj, UInt32.toNat_ofNat_of_lt' (by simp only [UInt32.size]; omega)]
  rw [Vector.getElem_setIfInBounds]
  simp [hiff]

/-- `setrlimit` sets both copies of the limit. -/
theorem Kept.setrlimit (h : p.Kept U) (euid resource : UInt32) (soft hard : UInt64) :
    (p.sysSetrlimit U euid resource soft hard).2.Kept U := by
  simp only [sysSetrlimit]
  iterate 3 (split; · exact h)
  have h7 : (p.rlimits.setIfInBounds resource.toNat (soft, hard))[7] =
      if resource = rlimitNofile then (soft, hard) else p.rlimits[7] := getElem_setLimit _ _ _ 7 (by decide)
  have h2 : (p.rlimits.setIfInBounds resource.toNat (soft, hard))[2] =
      if resource = rlimitData then (soft, hard) else p.rlimits[2] := getElem_setLimit _ _ _ 2 (by decide)
  refine ⟨?_, ?_, ?_⟩
  · split
    · exact ⟨h.table.counted, h.table.small⟩
    · exact h.table
  · rw [h7]
    split
    · rfl
    · exact h.nofile
  · rw [dataSoft, h2]
    dsimp only
    split
    · exact .inl le_rfl
    · exact h.data

theorem bind_ok {α β : Type} {x : Except Errno α} {f : α → Except Errno β} {b : β} (h : (x >>= f) = .ok b) :
    ∃ a, x = .ok a ∧ f a = .ok b := by
  cases x with
  | error e => cases h
  | ok a => exact ⟨a, rfl, h⟩

theorem forkChild_cases {child : LimitedProcess} {others : Except Errno Unit} (h : p.forkChild U storage others = .ok child) :
    others = .ok () ∧ child.rlimits = p.rlimits ∧ forkFdTable p.fdTable storage = .ok child.fdTable ∧
      forkMemory U p.memory = .ok child.memory := by
  obtain ⟨t, ht, h⟩ := bind_ok h
  obtain ⟨m, hm, h⟩ := bind_ok h
  obtain ⟨_, hothers, h⟩ := bind_ok h
  cases h
  exact ⟨hothers, rfl, ht, hm⟩

theorem spawnChild_cases {child : LimitedProcess} {others : Except Errno Unit} (h : p.spawnChild storage others = .ok child) :
    others = .ok () ∧ child.rlimits = p.rlimits ∧ p.fdTable.tryClone storage = .ok child.fdTable ∧
      child.memory = MemoryManager.new := by
  obtain ⟨t, ht, h⟩ := bind_ok h
  obtain ⟨_, hothers, h⟩ := bind_ok h
  cases h
  exact ⟨hothers, rfl, ht, rfl⟩

/-- One call keeps the rules unless it loses a limit. -/
theorem Kept.call (h : p.Kept U) {c : LimitCall} (hc : ¬p.LosesLimit c) : (p.call U c).2.Kept U := by
  cases c with
  | setrlimit euid resource soft hard => exact h.setrlimit euid resource soft hard
  | fork storage others =>
    simp only [LimitedProcess.call]
    cases hchild : p.forkChild U storage others with
    | error e => exact h
    | ok child =>
      obtain ⟨hothers, hr, ht, hm⟩ := forkChild_cases hchild
      obtain ⟨hinv, hmax⟩ := forkFdTable_maxFds h.table ht
      have hkeeps : ¬(2 ^ 32 ≤ p.fdTable.maxFds ∨ p.dataSoft < heapTop p.memory) := fun hlost => hc ⟨hothers, hlost⟩
      have hfits : asU32 p.fdTable.maxFds = p.fdTable.maxFds := Nat.mod_eq_of_lt (by omega)
      have htop := forkMemory_heapTop hm
      refine ⟨hinv, ?_, .inr ?_⟩
      · rw [descend, hmax, hfits, hr]
        exact h.nofile
      · rw [descend, dataSoft, hr, ← dataSoft]
        exact htop.trans (by omega)
  | spawn storage others =>
    simp only [LimitedProcess.call]
    cases hchild : p.spawnChild storage others with
    | error e => exact h
    | ok child =>
      obtain ⟨hothers, hr, ht, hm⟩ := spawnChild_cases hchild
      obtain ⟨hinv, habs⟩ := FdTable.tryClone_ok h.table ht
      refine ⟨hinv, ?_, .inr ?_⟩
      · rw [descend, hr]
        exact (congrArg Descriptors.limit habs).trans h.nofile
      · rw [descend, hm, dataSoft, hr, ← dataSoft]
        exact not_lt.mp fun hlt => hc ⟨hothers, hlt⟩
  | exec checked =>
    cases checked with
    | error e => exact h
    | ok _ =>
      obtain ⟨hinv, hmax⟩ := closeAll_maxFds ((p.fdTable.iter.filter fun e => e.2.fdFlags &&& fdCloexec ≠ 0).map (·.1)) h.table
      exact ⟨hinv, hmax.trans h.nofile, .inr (not_lt.mp fun hlt => hc ⟨rfl, hlt⟩)⟩

end LimitedProcess

end Kandelo.Process

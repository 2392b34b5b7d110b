/-
The parts of a fork record, one writer and one reader at a time: what the reader makes of
what the writer wrote, and when it refuses it. Where the value that comes back is not the
one that went in (a handler's address, the device state a child does not get), it is
named here, next to the condition the reader puts on the part.
-/
import Kandelo.Fork.Decode

namespace Kandelo.Fork

open Fd Memory Signal Process Wire Carries Nat
open List hiding Vector

/-! ## Words, arrays, strings -/

theorem carries_bytes (data : Bytes) : Carries data.length (writeBytes data) (readBytes data.length) True True data :=
  ⟨data, le_rfl, emits_write Errno.ENOMEM data, fun _ => (decodes_take Errno.EINVAL data).reads⟩

/-- A number comes back reduced to its width. -/
theorem carries_nat (width n : Nat) :
    Carries width (writeBytes (leBytes width n)) (readNat .EINVAL width) True True (n % 256 ^ width) :=
  ⟨leBytes width n, le_of_eq (length_leBytes width n).symm, emits_write Errno.ENOMEM _,
    fun _ => (decodes_readNat Errno.EINVAL width n).reads⟩

theorem Carries.u8 (v : UInt8) : Carries 1 (writeU8 v) readU8 True True v := by
  have h := (carries_nat 1 v.toNat).last UInt8.ofNat
  rwa [mod_eq_of_lt (show v.toNat < 256 ^ 1 from v.toNat_lt), UInt8.ofNat_toNat] at h

open Carries

theorem Carries.u16 (v : UInt16) : Carries 2 (writeU16 v) readU16 True True v := by
  have h := (carries_nat 2 v.toNat).last UInt16.ofNat
  rwa [mod_eq_of_lt (show v.toNat < 256 ^ 2 from v.toNat_lt), UInt16.ofNat_toNat] at h

theorem Carries.u32 (v : UInt32) : Carries 4 (writeU32 v) readU32 True True v := by
  have h := (carries_nat 4 v.toNat).last UInt32.ofNat
  rwa [mod_eq_of_lt (show v.toNat < 256 ^ 4 from v.toNat_lt), UInt32.ofNat_toNat] at h

theorem Carries.u64 (v : UInt64) : Carries 8 (writeU64 v) readU64 True True v := by
  have h := (carries_nat 8 v.toNat).last UInt64.ofNat
  rwa [mod_eq_of_lt (show v.toNat < 256 ^ 8 from v.toNat_lt), UInt64.ofNat_toNat] at h

theorem Carries.i32 (v : Int32) : Carries 4 (writeI32 v) readI32 True True v := (u32 v.toUInt32).last UInt32.toInt32

theorem Carries.i64 (v : Int64) : Carries 8 (writeI64 v) readI64 True True v := (u64 v.toUInt64).last UInt64.toInt64

theorem Carries.usize (n : Nat) : Carries 4 (writeUsize n) readUsize True True (asU32 n) := carries_nat 4 n

variable {n : Nat}

theorem Carries.small (h : n < 2 ^ 32) : Carries 4 (writeUsize n) readUsize True True n := by
  have hn := usize n
  rwa [show asU32 n = n from mod_eq_of_lt h] at hn

theorem carries_bool (b : Bool) : Carries 4 (writeBool b) readBool True True b := by
  obtain ⟨bs, hlen, hw, hr⟩ := u32 (boolU32 b)
  refine ⟨bs, hlen, hw, fun _ => ⟨fun _ rest => ?_, fun h => absurd trivial h⟩⟩
  rw [readBool, ((hr trivial).ok trivial).run]
  cases b <;> rfl

theorem ofFn_getD {α : Type} (v : Vector α n) (default : α) : (Vector.ofFn fun i : Fin n => v.toList.getD i default) = v := by
  refine Vector.ext fun i hi => ?_
  have hi' : i < v.toList.length := by rwa [Vector.length_toList]
  rw [Vector.getElem_ofFn, getD_eq_getElem?_getD, getElem?_eq_getElem hi', Option.getD_some, Vector.getElem_toList]

theorem carries_array (v : Vector UInt8 n) : Carries n (writeBytes v.toList) (readArray n) True True v := by
  have h := (carries_bytes v.toList).last fun data => Vector.ofFn fun i : Fin n => data.getD i 0
  rwa [Vector.length_toList, ofFn_getD] at h

theorem carries_boundedBytes (data : Bytes) (max : Nat) :
    Carries data.length (writeBytes data) (readBoundedBytes data.length max) True (data.length ≤ max) data :=
  (carries_bytes data).require.congr Iff.rfl fun _ => by simp

/-- A string comes back if the reader's bound lets it through. -/
theorem carries_string {s : Bytes} (hs : s.length < 2 ^ 32) (max : Nat) :
    Carries 4 (writeString s) (readString max) True (s.length ≤ max) s := by
  exact (small hs).next (((carries_boundedBytes s max).finish (done s).allocate).least (zero_le _))

theorem Carries.boundedCount (hn : n < 2 ^ 32) (max : Nat) : Carries 4 (writeUsize n) (readBoundedCount max) True (n ≤ max) n :=
  ((small hn).tail (done n).require).congr Iff.rfl fun _ => by simp

theorem carries_eachString {strings : List Bytes} (hlens : ∀ s ∈ strings, s.length < 2 ^ 32) :
    Carries (strings.length * 4) (putEach writeString strings) (readMany (readString maxStringLen) strings.length) True
      (∀ s ∈ strings, s.length ≤ maxStringLen) strings := by
  have hmany := many fun s hs => carries_string (hlens s hs) maxStringLen
  rw [map_id'] at hmany
  exact hmany.written

theorem carries_strings {strings : List Bytes} (hcount : strings.length < 2 ^ 32) (hlens : ∀ s ∈ strings, s.length < 2 ^ 32)
    (max : Nat) : Carries 4 (writeStrings strings) (readStrings max) True
      (strings.length ≤ max ∧ ∀ s ∈ strings, s.length ≤ maxStringLen) strings :=
  (boundedCount hcount max).after ((carries_eachString hlens).allocate.least (zero_le _))

variable {α : Type}

/-- A list the encoder does not check against the decoder's bound. -/
theorem carries_list {put : α → Encoder} {get : Decoder α} {xs : List α} (hcount : xs.length < 2 ^ 32)
    (h : ∀ x ∈ xs, Carries n (put x) get True True x) (max : Nat) :
    Carries 0 (writeUsize xs.length >>= fun _ => putEach put xs) (readBoundedList get n max) True (xs.length ≤ max) xs := by
  refine .least (n := 4 + xs.length * n) ?_ (zero_le _)
  refine .congr ((boundedCount hcount max).after (.ensure ?_ (by omega))) Iff.rfl fun _ =>
    iff_of_eq (and_true _)
  exact (same h).written.allocate.least (by omega)

/-! ## Credentials, signals -/

/-- What the record of a process says of its image. -/
def imageFacts (p : ProcessRecord) : Credentials × Bool × UInt8 := (p.credentials, p.secureExec, p.pointerWidth)

theorem carries_credentials (p : ProcessRecord) :
    Carries 0 (writeCredentialsAndImageFacts p) readCredentialsAndImageFacts True (p.pointerWidth = 4 ∨ p.pointerWidth = 8)
      (imageFacts p) := by
  have hgroups := p.credentials.supplementaryGroups.length_le
  have hwidth : ∀ v : UInt8, (v.toUInt32 = 4 ∨ v.toUInt32 = 8 ↔ v = 4 ∨ v = 8) ∧ v.toUInt32.toUInt8 = v := by
    intro v
    refine ⟨or_congr ⟨fun h => ?_, fun h => by rw [h]; rfl⟩ ⟨fun h => ?_, fun h => by rw [h]; rfl⟩, UInt8.toUInt8_toUInt32 v⟩
    · rw [← UInt8.toUInt8_toUInt32 v, h]; rfl
    · rw [← UInt8.toUInt8_toUInt32 v, h]; rfl
  have hfits : p.credentials.supplementaryGroups.values.length < 2 ^ 32 := by
    simp only [ngroupsMax] at hgroups
    omega
  have hcopy : SupplementaryGroups.copyFrom p.credentials.supplementaryGroups.values = .ok p.credentials.supplementaryGroups := by
    rw [SupplementaryGroups.copyFrom, dif_pos hgroups]
  refine .congr (.check fun _ => ?_) ⟨fun _ => trivial, fun h => ⟨decide_eq_true hgroups, h⟩⟩ fun _ => Iff.rfl
  refine .least (n := 36 + p.credentials.supplementaryGroups.values.length * 4) ?_ (zero_le _)
  refine (u32 _).next ((u32 _).next ((u32 _).next ?_))
  refine (u32 _).next ((u32 _).next ((u32 _).next ?_))
  refine ((boundedCount hfits ngroupsMax).after ?_).congr Iff.rfl fun _ => and_iff_right hgroups
  refine .ensure ?_ (by omega)
  refine (same fun v _ => u32 v).written.next ?_
  rw [hcopy]
  refine (carries_bool _).next ?_
  have hvalue : imageFacts p = (p.credentials, p.secureExec, p.pointerWidth.toUInt32.toUInt8) := by
    rw [(hwidth p.pointerWidth).2]
    rfl
  rw [hvalue]
  refine (((u32 _).tail (done (p.credentials, p.secureExec, _)).require).congr Iff.rfl fun _ => ?_).least
    (by omega)
  rw [true_and, and_true, decide_eq_true_iff, (hwidth p.pointerWidth).1]

/-- The handler a child has for the parent's. -/
def childHandler (handler : SignalHandler) : SignalHandler := u32ToHandler (handlerToU32 handler)

def childAction (action : SignalAction) : SignalAction := { action with handler := childHandler action.handler }

/-- The two last addresses are written as the default action and as no action. -/
theorem childHandler_eq_iff (handler : SignalHandler) :
    childHandler handler = handler ↔ ∀ function, handler = .handler function → function < 0xFFFFFFFE := by
  cases handler with
  | default | ignore => exact ⟨fun _ => nofun, fun _ => rfl⟩
  | handler function =>
    have hword : handlerToU32 (.handler function) = 2 + function := rfl
    rw [childHandler, hword, u32ToHandler]
    by_cases h0 : 2 + function = 0
    · rw [if_pos h0]
      exact ⟨nofun, fun hlt => absurd hlt (by grind)⟩
    rw [if_neg h0]
    by_cases h1 : 2 + function = 1
    · rw [if_pos h1]
      exact ⟨nofun, fun hlt => absurd hlt (by grind)⟩
    · rw [if_neg h1, SignalHandler.handler.injEq]
      exact ⟨fun _ => by grind, fun _ => by grind⟩

def childActions (s : SignalState) : Vector SignalAction 65 :=
  (nonDefaultActions s).foldl (fun actions e => actions.setIfInBounds e.1 (childAction e.2))
    (Vector.replicate 65 SignalAction.default)

theorem carries_action (e : Fin 65 × SignalAction) (actions : Vector SignalAction 65) :
    Carries 0 (writeAction e) (readAction actions) True True (actions.setIfInBounds e.1 (childAction e.2)) :=
  (small (by omega)).next ((u32 _).next ((u32 _).next (((u64 _).last _).least (zero_le _))))

theorem length_nonDefaultActions (s : SignalState) : (nonDefaultActions s).length ≤ 64 :=
  le_trans (length_filterMap_le _ _) (by rw [length_drop, length_finRange])

theorem carries_signals (s : SignalState) :
    Carries 0 (writeSignals s) readSignals True True (fromActions (childActions s) s.blocked) := by
  have hlen := length_nonDefaultActions s
  have hloop : Carries 0 (putEach writeAction (nonDefaultActions s))
      (loop readAction (nonDefaultActions s).length (Vector.replicate 65 .default)) True True (childActions s) := by
    have h := loop (fun actions e => actions.setIfInBounds e.1 (childAction e.2)) (nonDefaultActions s)
      (I := fun _ _ => True) (fun actions e _ _ => ⟨carries_action e actions, trivial⟩)
      (s := Vector.replicate 65 .default) trivial
    exact h.written.read.least (zero_le _)
  refine (u64 _).next ?_
  refine ((boundedCount (by omega) 64).after (hloop.last _)).congr Iff.rfl fun _ => ?_
  rw [and_true]
  exact iff_of_true hlen trivial

/-! ## Descriptors -/

/-- A descriptor's number is not negative. -/
theorem carries_fdNumber {fd : Int32} (h : 0 ≤ fd) : Carries 4 (writeI32 fd) readUsize True True fd.toNatClampNeg := by
  have hn := carries_nat 4 fd.toUInt32.toNat
  have hword : fd.toUInt32.toNat % 256 ^ 4 = fd.toNatClampNeg := by
    rw [mod_eq_of_lt (show fd.toUInt32.toNat < 256 ^ 4 from fd.toUInt32.toNat_lt), Int32.toNat_toUInt32_of_le h]
  rwa [hword] at hn

/-- The table with one more of the parent's descriptors. -/
def restoreFd (storage : Storage) (t : FdTable) (e : Int32 × FdEntry) : FdTable :=
  (t.restoreEntry storage e.1.toNatClampNeg e.2).2

def childFds (storage : Storage) (p : ProcessRecord) : FdTable :=
  (inheritedFds p.fdTable).foldl (restoreFd storage) (FdTable.withMax (asU32 p.fdTable.maxFds))

theorem carries_fd {storage : Storage} (hs : FdTable.Provides storage) {e : Int32 × FdEntry} (hfd : 0 ≤ e.1)
    (href : e.2.ofdRef < 2 ^ 32) (hflags : e.2.fdFlags &&& fdClofork = 0) (t : FdTable) :
    Carries 0 (writeFd e) (readFd storage t) True True (restoreFd storage t e) := by
  have hok := FdTable.restoreEntry_provided hs (t := t) (le_sub_one_of_lt e.1.toNatClampNeg_lt) e.2
  refine (carries_fdNumber hfd).next ((small href).next ?_)
  refine ((u32 _).finish ?_).least (zero_le _)
  rw [if_neg (not_not_intro hflags)]
  split
  · rename_i heq
    rw [show t.restoreEntry storage e.1.toNatClampNeg e.2 = _ from heq] at hok
    cases hok
  rename_i t' heq
  have hvalue : restoreFd storage t e = t' := congrArg Prod.snd heq
  rw [hvalue]
  exact done t'

theorem carries_fds {storage : Storage} (hs : FdTable.Provides storage) {fds : List (Int32 × FdEntry)}
    (hfds : ∀ e ∈ fds, 0 ≤ e.1 ∧ e.2.ofdRef < 2 ^ 32 ∧ e.2.fdFlags &&& fdClofork = 0) (hcount : fds.length < 2 ^ 32) (maxFds : Nat) :
    Carries 0 (writeFds fds) (readFdTable storage maxFds) True
      (fds.length ≤ maxForkFds) (fds.foldl (restoreFd storage) (FdTable.withMax maxFds)) := by
  have h := loop (restoreFd storage) fds (I := fun _ rest => ∀ e ∈ rest, e ∈ fds) (s := FdTable.withMax maxFds)
    (fun t e rest hin => ⟨carries_fd hs (hfds e (hin e mem_cons_self)).1 (hfds e (hin e mem_cons_self)).2.1
      (hfds e (hin e mem_cons_self)).2.2 t, fun y hy => hin y (mem_cons_of_mem e hy)⟩) fun e he => he
  exact ((boundedCount hcount maxForkFds).after (h.written.read.least (zero_le _))).congr Iff.rfl fun _ =>
    iff_of_eq (and_true _)

/-! ## Limits, terminal, memory -/

theorem carries_rlimit (pair : UInt64 × UInt64) : Carries 0 (writeRlimit pair) readRlimit True True pair :=
  (u64 _).next (((u64 _).last _).least (zero_le _))

theorem carries_rlimits (rlimits : Rlimits) : Carries 0 (putEach writeRlimit rlimits.toList) readRlimits True True rlimits := by
  have h := (same fun pair (_ : pair ∈ rlimits.toList) => carries_rlimit pair).written
  rw [Vector.length_toList] at h
  have hlast := h.last fun pairs => (Vector.ofFn fun i : Fin 16 => pairs.getD i (0, 0) : Rlimits)
  rw [ofFn_getD] at hlast
  exact hlast.least (zero_le _)

/-- The input a terminal has buffered is not inherited. -/
def childTerminal (t : TerminalState) : TerminalState := { t with lineBuffer := [], cookedBuffer := [], eofPending := false }

theorem carries_terminal (t : TerminalState) : Carries 0 (writeTerminal t) readTerminal True True (childTerminal t) := by
  refine (u32 _).next ((u32 _).next ((u32 _).next ((u32 _).next ?_)))
  refine (carries_array _).next ?_
  refine (u16 _).next ((u16 _).next ((u16 _).next ((u16 _).next ?_)))
  refine (u8 _).next ((u32 _).next ((u32 _).next ((i32 _).next ?_)))
  exact ((i32 _).last _).least (zero_le _)

/-- Every number of a memory fits the word it is written as. -/
structure MemoryNarrow (m : MemoryManager) : Prop where
  programBreak : m.programBreak < 2 ^ 32
  initialBrk : m.initialBrk < 2 ^ 32
  maxAddr : m.maxAddr < 2 ^ 32
  brkLimit : m.brkLimit < 2 ^ 32
  mmapBase : m.mmapBase < 2 ^ 32
  reservedUntil : m.reservedUntil < 2 ^ 32
  count : m.mappings.length < 2 ^ 32
  mappings : ∀ r ∈ m.mappings, r.addr < 2 ^ 32 ∧ r.len < 2 ^ 32

/-- A new memory under the parent's layout, with as much of its break as `brk` grants. -/
def childLayout (m : MemoryManager) : MemoryManager :=
  ({ MemoryManager.new with
    initialBrk := m.initialBrk
    maxAddr := m.maxAddr
    brkLimit := m.brkLimit
    mmapBase := m.mmapBase
    reservedUntil := m.reservedUntil }.setBrk Usize.wasm32 m.programBreak).2

def childMemory (m : MemoryManager) : MemoryManager :=
  { childLayout m with mappings := m.mappings.mergeSort fun a b => a.addr ≤ b.addr }

theorem carries_mapping {r : MappedRegion} (h : r.addr < 2 ^ 32 ∧ r.len < 2 ^ 32) :
    Carries 16 (writeMapping r) readMapping True True r := by
  refine (small h.1).next ((small h.2).next ((u32 _).next ?_))
  exact ((u32 _).last _).least (by omega)

theorem carries_memory {m : MemoryManager} (h : MemoryNarrow m) :
    Carries 0 (writeMemory m) readMemory True (m.mappings.length ≤ maxForkMappings) (childMemory m) := by
  refine (small h.programBreak).next ((small h.initialBrk).next ((small h.maxAddr).next ?_))
  refine (small h.brkLimit).next ((small h.mmapBase).next ((small h.reservedUntil).next ?_))
  exact ((carries_list h.count (fun r hr => carries_mapping (h.mappings r hr)) maxForkMappings).last _).least (zero_le _)

/-! ## A prepared exec -/

/-- An empty path is no path, and no arguments are none. -/
def childExec {α : Type} (written : List α) : Option (List α) := if written.length = 0 then none else some written

theorem carries_nothing (a : α) : Carries 0 (writeBytes []) (pure a : Decoder α) True True a :=
  ⟨[], le_refl 0, emits_write Errno.ENOMEM [], fun _ => reads_pure a⟩

theorem carries_forkExecPath {path : Bytes} (h : path.length < 2 ^ 32) :
    Carries 0 (writeString path) readForkExecPath True (path.length ≤ maxPathLen) (childExec path) := by
  refine (small h).next ?_
  cases path with
  | nil => exact (carries_nothing none).congr Iff.rfl fun _ => iff_of_true trivial (zero_le _)
  | cons b path =>
    exact ((carries_boundedBytes (b :: path) maxPathLen).finish (done (some (b :: path))).allocate).least
      (zero_le _)

theorem carries_forkExecArgv {argv : List Bytes} (hcount : argv.length < 2 ^ 32) (hlens : ∀ s ∈ argv, s.length < 2 ^ 32) :
    Carries 0 (writeStrings argv) readForkExecArgv True (argv.length ≤ maxArgv ∧ ∀ s ∈ argv, s.length ≤ maxStringLen)
      (childExec argv) := by
  refine (small hcount).next ?_
  cases argv with
  | nil => exact (done none).congr Iff.rfl fun _ => iff_of_true trivial ⟨zero_le _, nofun⟩
  | cons arg argv =>
    exact (((carries_eachString hlens).last some).allocate.require.congr Iff.rfl fun _ =>
      and_congr_left fun _ => decide_eq_true_iff).least (zero_le _)

/-- An `open` action is not restored. -/
def childFdAction : FdAction → Option FdAction
  | .dup2 oldFd newFd => some (.dup2 oldFd newFd)
  | .close fd => some (.close fd)
  | .open _ _ _ _ => none

theorem carries_fdAction (action : FdAction) : Carries 12 (writeFdAction action) readFdAction True True (childFdAction action) := by
  cases action with
  | dup2 oldFd newFd => exact (u32 0).next ((i32 oldFd).next (((i32 newFd).last _).least (by omega)))
  | close fd => exact (u32 1).next ((i32 fd).next (((i32 0).last _).least (by omega)))
  | «open» fd path flags mode =>
    exact (u32 2).next ((i32 fd).next (((i32 0).last _).least (by omega)))

theorem carries_fdActions {actions : List FdAction} (h : actions.length * 12 ≤ Usize.wasm32.max) :
    Carries 0 (writeFdActions actions) readFdActions True True (actions.filterMap childFdAction) := by
  have hmany := many fun action (_ : action ∈ actions) => carries_fdAction action
  have hlast := hmany.written.read.last fun restored => restored.filterMap id
  rw [filterMap_map, Function.id_comp] at hlast
  have hfits : actions.length < 2 ^ 32 := by
    have hmax : Usize.wasm32.max = 2 ^ 32 - 1 := rfl
    omega
  refine .least (n := 4 + actions.length * 12) ?_ (zero_le _)
  refine (small hfits).next (.required (ensure ?_ (by omega)) fun _ => decide_eq_true h)
  exact hlast.allocate.least (by omega)

/-! ## Slots -/

variable {β : Type} {f : α × Nat → Option (Nat × β)}

section

variable (hf : ∀ e y, f e = some y → y.1 = e.2)

include hf

/-- What is listed slot by slot is listed by increasing slots, each once. -/
theorem slots_sublist (slots : List α) : ((slots.zipIdx.filterMap f).map (·.1)).Sublist (List.range slots.length) := by
  have hmap : (slots.zipIdx.filterMap f).map (·.1) = (slots.zipIdx.filter fun e => (f e).isSome).map (·.2) := by
    rw [map_filterMap, ← filterMap_eq_map', ← filterMap_eq_filter, filterMap_filterMap]
    refine filterMap_congr fun e _ => ?_
    cases h : f e with
    | none => simp [Option.guard, h]
    | some y => simp [Option.guard, h, hf e y h]
  rw [hmap]
  have hrange : slots.zipIdx.map (·.2) = List.range slots.length := by rw [zipIdx_map_snd, range_eq_range']
  rw [← hrange]
  exact filter_sublist.map _

theorem slots_nodup (slots : List α) : ((slots.zipIdx.filterMap f).map (·.1)).Nodup := nodup_range.sublist (slots_sublist hf slots)

theorem slots_lt {slots : List α} {y : Nat × β} (hy : y ∈ slots.zipIdx.filterMap f) : y.1 < slots.length :=
  mem_range.mp ((slots_sublist hf slots).subset (mem_map_of_mem hy))

end

end Kandelo.Fork

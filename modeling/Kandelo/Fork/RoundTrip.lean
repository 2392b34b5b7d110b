/-
A fork record and the child made of it. `inherits_iff` says, for every process a record
was written of, when the record makes a child and the child has what a fork hands on: the
decoder has bounds the encoder does not know of, and three things come back changed (a
handler at one of the last two addresses, a program break `brk` would refuse, the device
state that stays with the parent).
-/
import Kandelo.Fork.References
import Kandelo.Fork.Sockets

namespace Kandelo.Fork

open Fd Memory Signal Process Wire Carries OfdTable OpenFileDesc
open List hiding Vector

/-! ## A process of the kernel's -/

def StringsNarrow (strings : List Bytes) : Prop := strings.length < 2 ^ 32 ∧ ∀ s ∈ strings, s.length < 2 ^ 32

/-- A process as the kernel has it: its tables are in order, and every length and address
is a `usize` of the 32-bit target. An action takes more than the 12 bytes of its record. -/
structure LiveProcess extends ProcessRecord where
  fds : fdTable.Inv
  memoryInv : MemoryManager.Inv memory
  memoryNarrow : MemoryNarrow memory
  ofdCount : ofdTable.entries.values.length < 2 ^ 32
  ofdsNarrow : ∀ e ∈ ofdTable.iter, e.2.Narrow
  environNarrow : StringsNarrow environ
  argvNarrow : StringsNarrow argv
  cwdNarrow : cwd.length < 2 ^ 32
  execPathNarrow : (forkExecPath.getD []).length < 2 ^ 32
  execArgvNarrow : StringsNarrow (forkExecArgv.getD [])
  actionsNarrow : forkFdActions.length * 12 ≤ Usize.wasm32.max

/-! ## The body of a record -/

/-- The bounds of the decoder. -/
structure Readable (p : ProcessRecord) : Prop where
  pointerWidth : p.pointerWidth = 4 ∨ p.pointerWidth = 8
  descriptors : (inheritedFds p.fdTable).length ≤ maxForkFds
  descriptions : (heldOfds p).length ≤ maxOfds
  readable : ∀ e ∈ heldOfds p, e.2.Readable
  environ : p.environ.length ≤ maxEnvVars ∧ ∀ s ∈ p.environ, s.length ≤ maxStringLen
  argv : p.argv.length ≤ maxArgv ∧ ∀ s ∈ p.argv, s.length ≤ maxStringLen
  cwd : p.cwd.length ≤ maxPathLen
  mappings : p.memory.mappings.length ≤ maxForkMappings
  execPath : (p.forkExecPath.getD []).length ≤ maxPathLen
  execArgv : (p.forkExecArgv.getD []).length ≤ maxArgv ∧ ∀ s ∈ p.forkExecArgv.getD [], s.length ≤ maxStringLen

def childOfds (pid : UInt32) (storage : Storage) (p : ProcessRecord) (refs : List (Nat × UInt32)) : OfdTable :=
  (heldOfds p).foldl (restoreOfd pid storage refs) OfdTable.new

/-- The child that comes back. -/
def child (alloc : Allocator) (pid : UInt32) (p : ProcessRecord) (refs : List (Nat × UInt32)) (sockets : SocketTable) : ProcessRecord :=
  { pid
    ppid := p.pid
    credentials := p.credentials
    secureExec := p.secureExec
    pointerWidth := p.pointerWidth
    pgid := p.pgid
    sid := p.sid
    umask := p.umask
    nice := p.nice
    isSessionLeader := false
    signals := fromActions (childActions p.signals) p.signals.blocked
    fdTable := childFds alloc.fds p
    ofdTable := childOfds pid alloc.ofds p refs
    exe := p.exe
    environ := p.environ
    argv := p.argv
    cwd := p.cwd
    rlimits := p.rlimits
    terminal := childTerminal p.terminal
    memory := childMemory p.memory
    forkExecPath := childExec (p.forkExecPath.getD [])
    forkExecArgv := childExec (p.forkExecArgv.getD [])
    forkFdActions := p.forkFdActions.filterMap childFdAction
    sockets := childSockets sockets }

/-- Storage permitting. -/
structure Allocator.Grants (alloc : Allocator) : Prop where
  fds : FdTable.Provides alloc.fds
  ofds : FdTable.Provides alloc.ofds
  others : alloc.others = granted

section Body

variable {p : LiveProcess} {alloc : Allocator} {pid : UInt32} {refs : List (Nat × UInt32)}

theorem held_index (e : Nat × OpenFileDesc) (he : e ∈ heldOfds p.toProcessRecord) : e.1 + 1 ≤ Usize.wasm32.max := by
  have hlt := iter_lt (mem_filter.mp he).1
  have hcount := p.ofdCount
  have hmax : Usize.wasm32.max = 2 ^ 32 - 1 := rfl
  omega

theorem get_childOfds (p : LiveProcess) (pid : UInt32) (ha : alloc.Grants) (refs : List (Nat × UInt32)) (i : Nat) :
    (childOfds pid alloc.ofds p.toProcessRecord refs).get i =
      if i ∈ references p.toProcessRecord then (p.ofdTable.get i).map (·.child pid (refsOf refs i)) else none := by
  have hempty : ∀ index, OfdTable.new.Vacant index := fun _ _ h => nomatch h
  obtain ⟨hin, hout⟩ := get_restoredOfds ha.ofds refs (t := OfdTable.new)
    (fun e he => ⟨held_index e he, hempty e.1⟩) (heldOfds_nodup p.toProcessRecord)
  by_cases hi : i ∈ references p.toProcessRecord
  · rw [if_pos hi]
    cases hget : p.ofdTable.get i with
    | none =>
      refine hout i fun hmem => ?_
      obtain ⟨e, he, rfl⟩ := mem_map.mp hmem
      have := mem_iter_iff.mp (mem_filter.mp he).1
      rw [hget] at this
      cases this
    | some ofd =>
      exact hin (i, ofd) (mem_filter.mpr ⟨mem_iter_iff.mpr hget, decide_eq_true hi⟩)
  · rw [if_neg hi]
    refine hout i fun hmem => ?_
    obtain ⟨e, he, rfl⟩ := mem_map.mp hmem
    exact hi (of_decide_eq_true (mem_filter.mp he).2)

theorem inherited_fd (hc : Counted p.toProcessRecord refs) (e : Int32 × FdEntry) (he : e ∈ inheritedFds p.fdTable) :
    0 ≤ e.1 ∧ e.2.ofdRef < 2 ^ 32 ∧ e.2.fdFlags &&& fdClofork = 0 := by
  obtain ⟨hiter, hflags⟩ := mem_filter.mp he
  obtain ⟨i, htry, _⟩ := (FdTable.mem_iter_iff p.fds e.1 e.2).mp hiter
  have hnonneg : 0 ≤ e.1 := by
    unfold tryFrom at htry
    split at htry
    · cases htry
    · rename_i h
      exact Int32.not_lt.mp h
  obtain ⟨ofd, hofd⟩ := Option.isSome_iff_exists.mp
    (hc.held e.2.ofdRef (mem_append_left _ (mem_map.mpr ⟨e, he, rfl⟩)))
  exact ⟨hnonneg, lt_trans (iter_lt (mem_iter_iff.mpr hofd)) p.ofdCount, of_decide_eq_true hflags⟩

theorem inherited_count : (inheritedFds p.fdTable).length < 2 ^ 32 := by
  have hfilter : (inheritedFds p.fdTable).length ≤ p.fdTable.iter.length := length_filter_le _ _
  have hiter : p.fdTable.iter.length ≤ p.fdTable.slotCount := by
    rw [FdTable.slotCount, ← length_append]
    exact le_trans (length_filterMap_le _ _) (le_of_eq length_zipIdx)
  have hsmall := p.fds.small
  have hmax : i32Max = 2 ^ 31 - 1 := rfl
  omega

theorem carries_exe (ha : alloc.Grants) (hc : Counted p.toProcessRecord refs) : Carries 0 (writeUsize (match p.exe with
      | some exe => exe + 1
      | none => 0)) (readExe (childOfds pid alloc.ofds p.toProcessRecord refs)) True True p.exe := by
  cases hexe : p.exe with
  | none => exact ((small (n := 0) (by decide)).finish (.done none)).least (Nat.zero_le _)
  | some exe =>
    have href : exe ∈ references p.toProcessRecord := mem_append_right _ (by rw [hexe]; exact mem_singleton_self exe)
    obtain ⟨ofd, hofd⟩ := Option.isSome_iff_exists.mp (hc.held exe href)
    have hlt := iter_lt (mem_iter_iff.mpr hofd)
    have hcount := p.ofdCount
    have hget := get_childOfds p pid ha refs exe
    rw [if_pos href, hofd] at hget
    refine ((small (n := exe + 1) (by omega)).finish ?_).least (Nat.zero_le _)
    rw [Nat.add_sub_cancel, hget]
    exact .required (.done (some exe)) fun _ => rfl

variable {scratch : Scratch}

theorem carries_body (ha : alloc.Grants) (hrefs : prepareInheritedOfdRefs scratch p.toProcessRecord = .ok refs) {sockets : SocketTable}
    (hsockets : inheritedSockets scratch p.toProcessRecord (inheritedOfds p.toProcessRecord refs) = .ok sockets) (pid : UInt32) :
    Carries 0 (writeBody scratch p.toProcessRecord) (readBody alloc pid)
      (sockets.entries.length ≤ maxSocketSlots ∧ ∀ e ∈ sockets.iter, e.2.Bounded) (Readable p.toProcessRecord)
      (child alloc pid p.toProcessRecord refs sockets) := by
  have hc := counted_of_prepare hrefs
  have hheld : (heldOfds p.toProcessRecord).length < 2 ^ 32 := by
    have hfilter : (heldOfds p.toProcessRecord).length ≤ p.ofdTable.iter.length := length_filter_le _ _
    have hiter : p.ofdTable.iter.length ≤ p.ofdTable.entries.values.length := by
      exact le_trans (length_filterMap_le _ _) (le_of_eq length_zipIdx)
    have hcount := p.ofdCount
    omega
  have hofds := carries_ofds pid ha.ofds refs held_index (fun e he => p.ofdsNarrow e (mem_filter.mp he).1)
    (heldOfds_nodup p.toProcessRecord) hheld hc.length
  refine .congr (d := (p.pointerWidth = 4 ∨ p.pointerWidth = 8) ∧ (inheritedFds p.fdTable).length ≤ maxForkFds ∧
      ((heldOfds p.toProcessRecord).length ≤ maxOfds ∧ ∀ e ∈ heldOfds p.toProcessRecord, e.2.Readable) ∧
      (p.environ.length ≤ maxEnvVars ∧ ∀ s ∈ p.environ, s.length ≤ maxStringLen) ∧
      (p.argv.length ≤ maxArgv ∧ ∀ s ∈ p.argv, s.length ≤ maxStringLen) ∧ p.cwd.length ≤ maxPathLen ∧
      p.memory.mappings.length ≤ maxForkMappings ∧ (p.forkExecPath.getD []).length ≤ maxPathLen ∧
      ((p.forkExecArgv.getD []).length ≤ maxArgv ∧ ∀ s ∈ p.forkExecArgv.getD [], s.length ≤ maxStringLen) ∧ True) ?_ Iff.rfl
    fun _ => ⟨fun ⟨h1, h2, ⟨h3, h4⟩, h5, h6, h7, h8, h9, h10, _⟩ => ⟨h1, h2, h3, h4, h5, h6, h7, h8, h9, h10⟩,
      fun ⟨h1, h2, h3, h4, h5, h6, h7, h8, h9, h10⟩ => ⟨h1, h2, ⟨h3, h4⟩, h5, h6, h7, h8, h9, h10, trivial⟩⟩
  refine (u32 _).next ((carries_credentials _).after ?_)
  refine (u32 _).next ((u32 _).next ((u32 _).next ((i32 _).next ((u32 _).next ?_))))
  refine (carries_signals _).next ((usize _).next ?_)
  rw [hrefs, prepared, hsockets, hc.ofds]
  refine (carries_fds ha.fds (inherited_fd hc) inherited_count _).after (hofds.after ((carries_exe ha hc).next ?_))
  refine (carries_strings p.environNarrow.1 p.environNarrow.2 _).after ?_
  refine (carries_strings p.argvNarrow.1 p.argvNarrow.2 _).after ((carries_string p.cwdNarrow _).after ?_)
  refine (carries_rlimits _).next ((carries_terminal _).next ((carries_memory p.memoryNarrow).after ?_))
  refine (carries_forkExecPath p.execPathNarrow).after ?_
  refine (carries_forkExecArgv p.execArgvNarrow.1 p.execArgvNarrow.2).after ((carries_fdActions p.actionsNarrow).next ?_)
  exact ((carries_sockets sockets).last _).least (Nat.zero_le _)

end Body

/-! ## The record -/

/-- A record around its body. -/
def record (body : Bytes) : Bytes :=
  leBytes 4 forkMagic.toNat ++ (leBytes 4 forkVersion.toNat ++ (leBytes 4 (12 + body.length) ++ body))

theorem emits_header : Emits writeHeader True (leBytes 4 forkMagic.toNat ++ (leBytes 4 forkVersion.toNat ++ leBytes 4 0)) :=
  ((emits_write Errno.ENOMEM _).seq ((emits_write Errno.ENOMEM _).seq (emits_write Errno.ENOMEM _))).congr (by simp)

theorem serialize_eq_ok_iff {p : ProcessRecord} {capacity : Nat} {checks : Prop} {body bytes : Bytes}
    (h : Emits (writeBody scratch p) checks body) : serializeForkState scratch p capacity = .ok bytes ↔
      checks ∧ 12 + body.length ≤ capacity ∧ 12 + body.length < 2 ^ 32 ∧ bytes = record body := by
  have hall := emits_header.seq (q := fun _ => writeBody scratch p) h
  have hlen : ((leBytes 4 forkMagic.toNat ++ (leBytes 4 forkVersion.toNat ++ leBytes 4 0)) ++ body).length = 12 + body.length := by
    simp only [length_append, length_leBytes]
  have hpatch : ((leBytes 4 forkMagic.toNat ++ (leBytes 4 forkVersion.toNat ++ leBytes 4 0)) ++ body).take 8 ++
      leBytes 4 (12 + body.length) ++
      ((leBytes 4 forkMagic.toNat ++ (leBytes 4 forkVersion.toNat ++ leBytes 4 0)) ++ body).drop 12 = record body := rfl
  have hwriter := fun w' => hall ⟨capacity, []⟩ w' (Nat.zero_le _)
  rw [serializeForkState]
  cases hw : (writeHeader >>= fun _ => writeBody scratch p) ⟨capacity, []⟩ with
  | error e =>
    refine ⟨nofun, fun ⟨hc, hcap, _, _⟩ => ?_⟩
    have hok := (hwriter _).mpr ⟨⟨trivial, hc⟩, by rw [hlen]; exact hcap.trans_eq' (zero_add _).symm, rfl⟩
    rw [hw] at hok
    cases hok
  | ok r =>
    obtain ⟨u, w⟩ := r
    obtain ⟨⟨_, hc⟩, hcap, rfl⟩ := (hwriter w).mp hw
    rw [hlen, length_nil, zero_add] at hcap
    dsimp only
    rw [nil_append, hlen]
    by_cases hsize : 2 ^ 32 ≤ 12 + body.length
    · rw [if_pos hsize]
      exact ⟨nofun, fun h' => absurd h'.2.2.1 (Nat.not_lt.mpr hsize)⟩
    · rw [if_neg hsize, Except.ok.injEq]
      exact ⟨fun h' => ⟨hc, hcap, Nat.lt_of_not_le hsize, h'.symm⟩, fun h' => h'.2.2.2.symm⟩

/-- The encoder has its counts and its sockets when it succeeds. -/
theorem prepared_of_serialize {p : ProcessRecord} {capacity : Nat} {bytes : Bytes}
    (h : serializeForkState scratch p capacity = .ok bytes) :
    ∃ refs sockets, prepareInheritedOfdRefs scratch p = .ok refs ∧ inheritedSockets scratch p (inheritedOfds p refs) = .ok sockets := by
  have hnot : ¬Stops (writeBody scratch p) := by
    intro hstop
    obtain ⟨e, he⟩ := Stops.after (p := writeHeader) (q := fun _ => writeBody scratch p) hstop ⟨capacity, []⟩
    rw [serializeForkState, he] at h
    cases h
  have herror : ∀ {α : Type} (e : Errno) (k : α → Encoder), Stops (prepared (.error e) k) := fun e _ _ => ⟨e, rfl⟩
  cases hrefs : prepareInheritedOfdRefs scratch p with
  | error e =>
    refine absurd ?_ hnot
    unfold writeBody
    rw [hrefs]
    repeat refine .after ?_
    exact herror e _
  | ok refs =>
    cases hsockets : inheritedSockets scratch p (inheritedOfds p refs) with
    | error e =>
      refine absurd ?_ hnot
      unfold writeBody
      rw [hrefs, prepared, hsockets]
      repeat refine .after ?_
      exact herror e _
    | ok sockets => exact ⟨refs, sockets, rfl, hsockets⟩

/-- A record whose body is readable makes the child it says, and no other makes one. -/
theorem deserialize_record {alloc : Allocator} (ha : alloc.Grants) {pid : UInt32} {body : Bytes} {holds : Prop} {c : ProcessRecord}
    (hsize : 12 + body.length < 2 ^ 32) (h : Reads (readBody alloc pid) body holds c) :
    (holds → deserializeAllocatedForkState alloc pid (record body) = .ok c) ∧
      (¬holds → ∀ c', deserializeAllocatedForkState alloc pid (record body) ≠ .ok c') := by
  have hlen : (record body).length = 12 + body.length := by
    simp only [record, length_append, length_leBytes]
    omega
  have hword : ∀ v : UInt32, Decodes readU32 (leBytes 4 v.toNat) v := by
    intro v rest
    rw [readU32, (decodes_readNat Errno.EINVAL 4 v.toNat).run,
      Nat.mod_eq_of_lt (show v.toNat < 256 ^ 4 from v.toNat_lt), UInt32.ofNat_toNat]
    rfl
  have hsizeWord : Decodes readUsize (leBytes 4 (12 + body.length)) (12 + body.length) := by
    have hn := decodes_readNat Errno.EINVAL 4 (12 + body.length)
    rwa [Nat.mod_eq_of_lt (show 12 + body.length < 256 ^ 4 from hsize)] at hn
  have hrun : (readHeader (record body).length >>= fun _ => readBody alloc pid) ⟨record body, alloc.others⟩ =
      readBody alloc pid ⟨body ++ [], granted⟩ := by
    rw [hlen, ha.others, readHeader, record, append_nil]
    simp only [bind_assoc]
    rw [(hword forkMagic).run, require_bind_apply, if_pos (decide_eq_true rfl), (hword forkVersion).run, require_bind_apply,
      if_pos (decide_eq_true rfl), hsizeWord.run, require_bind_apply, if_pos (decide_eq_true rfl)]
  constructor
  · intro hh
    rw [deserializeAllocatedForkState, hrun, h.ok hh []]
    rfl
  intro hh c' hc'
  obtain ⟨e, he⟩ := h.bad hh []
  rw [deserializeAllocatedForkState, hrun, he] at hc'
  cases hc'

/-! ## What a child inherits -/

/-- A description but for what is a process's own: the references to it and the iterator
of a directory; and but for its owner, which a record does not carry. -/
def OpenFileDesc.contents (ofd : OpenFileDesc) : OpenFileDesc :=
  { ofd with
    ownerPid := 0
    refCount := 0
    dirHostHandle := -1
    dirSynthState := 0
    dirEntryOffset := 0
    dirPositionGeneration := 0
    dirPendingEntry := none }

/-- What a fork hands on. -/
structure Inherits (p c : ProcessRecord) : Prop where
  credentials : c.credentials = p.credentials
  pgid : c.pgid = p.pgid
  sid : c.sid = p.sid
  umask : c.umask = p.umask
  nice : c.nice = p.nice
  blocked : c.signals.blocked = p.signals.blocked
  actions : ∀ signum, c.signals.getAction signum = p.signals.getAction signum
  environ : c.environ = p.environ
  argv : c.argv = p.argv
  cwd : c.cwd = p.cwd
  rlimits : c.rlimits = p.rlimits
  terminal : childTerminal c.terminal = childTerminal p.terminal
  programBreak : c.memory.programBreak = p.memory.programBreak
  layout : (c.memory.initialBrk, c.memory.maxAddr, c.memory.brkLimit, c.memory.mmapBase, c.memory.reservedUntil) =
    (p.memory.initialBrk, p.memory.maxAddr, p.memory.brkLimit, p.memory.mmapBase, p.memory.reservedUntil)
  mappings : c.memory.mappings = p.memory.mappings
  descriptors : ∀ e, e ∈ c.fdTable.iter ↔ e ∈ p.fdTable.iter ∧ e.2.fdFlags &&& fdClofork = 0
  descriptions : ∀ e ∈ c.fdTable.iter, (c.ofdTable.get e.2.ofdRef).map contents = (p.ofdTable.get e.2.ofdRef).map contents
  refCounts : ∀ index ofd, c.ofdTable.get index = some ofd → ofd.refCount.toNat =
    (c.fdTable.iter.filter fun e => e.2.ofdRef = index).length + if c.exe = some index then 1 else 0

/-- The break a new memory with the same layout takes: the default one, or one `brk` grants. -/
def BreakRestored (m : MemoryManager) : Prop :=
  m.programBreak = initialBrkDefault ∨
    m.programBreak ≠ 0 ∧ m.initialBrk ≤ m.programBreak ∧ m.programBreak ≤ m.maxAddr ∧ m.programBreak ≤ m.brkLimit

/-- Nothing of the device state stays with the parent. -/
def DriOfdState.Inherited : DriOfdState → Prop
  | .primeBo _ _ => True
  | .renderNode dri => dri.gl.isNone
  | .card dri kms => dri.gl.isNone ∧ kms.holdsMaster = false ∧ kms.cursorBo = none ∧ kms.eventRing = []

/-- When a fork works as a fork: the record is within the decoder's bounds, no handler is
at one of the last two addresses, the break is one that is restored, and no inherited
descriptor has device state of the parent's own. -/
structure Forkable (p : ProcessRecord) : Prop extends Readable p where
  handlers : ∀ signum function, (p.signals.getAction signum).handler = .handler function → function < 0xFFFFFFFE
  programBreak : BreakRestored p.memory
  devices : ∀ e ∈ inheritedFds p.fdTable, ∀ ofd, p.ofdTable.get e.2.ofdRef = some ofd → ∀ dri ∈ ofd.driState, dri.Inherited

theorem getElem_childActions (s : SignalState) {signum : Nat} (hpos : signum ≠ 0) (h : signum < 65) :
    (childActions s)[signum] = childAction s.actions[signum] := by
  -- whoever writes this signal writes that, and if nobody does the action was the default one
  have hfold : ∀ (l : List (Fin 65 × SignalAction)) (v : Vector SignalAction 65),
      (∀ e ∈ l, e.1 = signum → childAction e.2 = childAction s.actions[signum]) →
      (v[signum] = childAction s.actions[signum] ∨ ∃ e ∈ l, e.1 = signum) →
      (l.foldl (fun actions e => actions.setIfInBounds e.1 (childAction e.2)) v)[signum] = childAction s.actions[signum] := by
    intro l
    induction l with
    | nil => exact fun v _ hv => hv.resolve_right fun ⟨e, he, _⟩ => absurd he not_mem_nil
    | cons e l ih =>
      intro v hwrites hv
      refine ih _ (fun e' he' => hwrites e' (mem_cons_of_mem e he')) ?_
      by_cases he : e.1 = signum
      · refine .inl ?_
        rw [Vector.getElem_setIfInBounds, if_pos he]
        exact hwrites e mem_cons_self he
      rw [Vector.getElem_setIfInBounds, if_neg he]
      rcases hv with hv | ⟨e', he', heq⟩
      · exact .inl hv
      rcases mem_cons.mp he' with rfl | he'
      · exact absurd heq he
      · exact .inr ⟨e', he', heq⟩
  have hmem : ∀ e, e ∈ nonDefaultActions s ↔ e.1 ≠ 0 ∧ e.2 = s.actions[e.1] ∧
      (e.2.handler ≠ .default ∨ e.2.flags ≠ 0 ∨ e.2.mask ≠ 0) := by
    intro e
    have hdrop : ∀ i : Fin 65, i ∈ (List.finRange 65).drop 1 ↔ i ≠ 0 := by decide
    rw [nonDefaultActions, mem_filterMap]
    constructor
    · rintro ⟨i, hi, hsome⟩
      rw [Option.ite_none_right_eq_some, Option.some.injEq] at hsome
      obtain ⟨hdefault, rfl⟩ := hsome
      exact ⟨(hdrop i).mp hi, rfl, hdefault⟩
    rintro ⟨hi, hact, hdefault⟩
    refine ⟨e.1, (hdrop e.1).mpr hi, ?_⟩
    rw [hact] at hdefault
    rw [Option.ite_none_right_eq_some, Option.some.injEq]
    exact ⟨hdefault, Prod.ext rfl hact.symm⟩
  refine hfold _ _ (fun e he heq => ?_) ?_
  · obtain ⟨_, hact, _⟩ := (hmem e).mp he
    subst heq
    rw [hact]
    rfl
  by_cases hdefault : s.actions[signum].handler ≠ .default ∨ s.actions[signum].flags ≠ 0 ∨ s.actions[signum].mask ≠ 0
  · refine .inr ⟨(⟨signum, h⟩, s.actions[signum]), (hmem _).mpr ⟨?_, rfl, hdefault⟩, rfl⟩
    exact fun h0 => hpos (congrArg Fin.val h0)
  refine .inl ?_
  simp only [not_or, not_not] at hdefault
  obtain ⟨hh, hf, hm⟩ := hdefault
  rw [Vector.getElem_replicate, childAction, hh, hf, hm]
  rfl

theorem childActions_iff (s : SignalState) :
    (∀ signum, (fromActions (childActions s) s.blocked).getAction signum = s.getAction signum) ↔
      ∀ signum function, (s.getAction signum).handler = .handler function → function < 0xFFFFFFFE := by
  refine forall_congr' fun signum => ?_
  rw [← childHandler_eq_iff]
  by_cases hvalid : validSignum signum
  · obtain ⟨hpos, hlt⟩ := validSignum_iff.mp hvalid
    have hparent : s.getAction signum = s.actions[signum] := by
      rw [SignalState.getAction, hvalid, Bool.not_true, if_neg Bool.false_ne_true, Vector.getElem?_eq_getElem hlt, Option.getD_some]
    have hchild : (fromActions (childActions s) s.blocked).getAction signum = childAction s.actions[signum] := by
      rw [SignalState.getAction, hvalid, Bool.not_true]
      change ((childActions s)[signum]?).getD SignalAction.default = _
      rw [Vector.getElem?_eq_getElem hlt, Option.getD_some, getElem_childActions s hpos hlt]
    rw [hparent, hchild]
    generalize s.actions[signum] = action
    obtain ⟨handler, flags, mask⟩ := action
    exact ⟨fun h => congrArg SignalAction.handler h, fun h => congrArg (SignalAction.mk · flags mask) h⟩
  · have hinvalid : ∀ s : SignalState, s.getAction signum = .default := by
      intro s
      rw [SignalState.getAction, Bool.eq_false_iff.mpr hvalid, Bool.not_false, if_pos rfl]
    rw [hinvalid, hinvalid]
    exact ⟨fun _ => rfl, fun _ => rfl⟩

variable {m : MemoryManager}

/-- In an empty memory only the layout's bounds refuse a break. -/
theorem setBrk_empty {newBrk : Nat} (hmaps : m.mappings = []) (hreserved : m.reservedRegions = [])
    (hlimit : m.dataLimit = 2 ^ 64 - 1) (hnew : newBrk < 2 ^ 32) : (m.setBrk Usize.wasm32 newBrk).2 =
      if newBrk ≠ 0 ∧ m.initialBrk ≤ newBrk ∧ newBrk ≤ m.maxAddr ∧ newBrk ≤ m.brkLimit then { m with programBreak := newBrk }
      else m := by
  have hmax : Usize.wasm32.max = 2 ^ 32 - 1 := rfl
  have hspans : ∀ {α : Type} [Spanned α], m.programBreak < newBrk →
      MemoryManager.overlapsSpans Usize.wasm32 ([] : List α) m.programBreak (newBrk - m.programBreak) = false :=
    fun hlt => by
      simp only [MemoryManager.overlapsSpans, Usize.checkedAdd]
      rw [if_pos (by omega)]
      rfl
  rcases MemoryManager.setBrk_cases Usize.wasm32 m newBrk with ⟨g, heq⟩ | ⟨hno, heq⟩
  · rw [heq, if_pos ⟨g.nonzero, g.base, g.ceiling, g.limit⟩]
  rw [heq, if_neg]
  rintro ⟨h0, h1, h2, h3⟩
  refine hno ⟨h0, h1, h2, h3, fun hlt => ?_, fun hlt => ?_, fun _ => by omega⟩
  · rw [MemoryManager.overlapsMappings, hmaps, hspans hlt]
  · rw [MemoryManager.overlapsReservedRegions, hreserved, hspans hlt]

theorem childMemory_break_iff (h : MemoryNarrow m) : (childMemory m).programBreak = m.programBreak ↔ BreakRestored m := by
  change (childLayout m).programBreak = _ ↔ _
  rw [childLayout, setBrk_empty rfl rfl rfl h.programBreak]
  split_ifs with hgranted
  · exact ⟨fun _ => .inr hgranted, fun _ => rfl⟩
  · exact ⟨fun heq => .inl heq.symm, fun hr => (hr.resolve_right hgranted).symm⟩

theorem childMemory_layout (h : MemoryNarrow m) :
    ((childMemory m).initialBrk, (childMemory m).maxAddr, (childMemory m).brkLimit, (childMemory m).mmapBase,
      (childMemory m).reservedUntil) = (m.initialBrk, m.maxAddr, m.brkLimit, m.mmapBase, m.reservedUntil) := by
  change ((childLayout m).initialBrk, (childLayout m).maxAddr, (childLayout m).brkLimit, (childLayout m).mmapBase,
      (childLayout m).reservedUntil) = _
  rw [childLayout, setBrk_empty rfl rfl rfl h.programBreak]
  split <;> rfl

theorem childMemory_mappings (h : MemoryManager.Inv m) : (childMemory m).mappings = m.mappings :=
  mergeSort_of_pairwise (h.maps.sorted.imp fun hlt => decide_eq_true (le_of_lt hlt))

theorem DriOfdState.child_eq_iff (dri : DriOfdState) : dri.child = dri ↔ dri.Inherited := by
  have hdri : ∀ d : DriFdState, d.child = d ↔ d.gl.isNone := by
    intro d
    rw [DriFdState.mk.injEq, Option.isNone_iff_eq_none]
    exact ⟨fun h => h.2.2.symm, fun h => ⟨rfl, rfl, h.symm⟩⟩
  cases dri with
  | primeBo boId cookie => exact ⟨fun _ => trivial, fun _ => rfl⟩
  | renderNode d => rw [DriOfdState.child, DriOfdState.renderNode.injEq, hdri, DriOfdState.Inherited]
  | card d k =>
    rw [DriOfdState.child, DriOfdState.card.injEq, hdri, KmsFdState.mk.injEq]
    refine and_congr_right fun _ => ⟨?_, ?_⟩
    · rintro ⟨h1, h2, _, _, _, h3⟩
      exact ⟨h1.symm, h2.symm, h3.symm⟩
    · rintro ⟨h1, h2, h3⟩
      exact ⟨h1.symm, h2.symm, rfl, rfl, rfl, h3.symm⟩

theorem OpenFileDesc.child_contents_iff (ofd : OpenFileDesc) (pid refCount : UInt32) :
    (ofd.child pid refCount).contents = ofd.contents ↔ ∀ dri ∈ ofd.driState, dri.Inherited := by
  have hcontents : (ofd.child pid refCount).contents = { ofd.contents with driState := ofd.driState.map .child } := by
    rw [child, resetDirectoryIteratorForReopen]
    split <;> rfl
  have hdri : ({ ofd.contents with driState := ofd.driState.map .child } = ofd.contents) ↔ ofd.driState.map .child = ofd.driState :=
    ⟨fun h => congrArg driState h, fun h => by rw [h]; rfl⟩
  rw [hcontents, hdri]
  cases ofd.driState with
  | none => exact iff_of_true rfl fun _ h => absurd h (Option.not_mem_none _)
  | some dri =>
    rw [Option.map_some, Option.some.injEq, DriOfdState.child_eq_iff]
    simp

section Child

variable {p : LiveProcess} {alloc : Allocator} {pid : UInt32} {refs : List (Nat × UInt32)}

/-- The references a child's description counts are those of the child. -/
theorem child_refCount (ha : alloc.Grants) (hc : Counted p.toProcessRecord refs) {index : Nat} {ofd : OpenFileDesc}
    (h : (childOfds pid alloc.ofds p.toProcessRecord refs).get index = some ofd) :
    ofd.refCount.toNat = ((childFds alloc.fds p.toProcessRecord).iter.filter fun e => e.2.ofdRef = index).length +
      if p.exe = some index then 1 else 0 := by
  obtain ⟨hinv, hmem⟩ := mem_childFds_iff ha.fds p.fds
  have hnodup : (inheritedFds p.fdTable).Nodup := (fdTable_iter_nodup p.fds).sublist filter_sublist
  have hperm := (perm_ext_iff_of_nodup (fdTable_iter_nodup hinv) hnodup).mpr hmem
  have hfds : ((childFds alloc.fds p.toProcessRecord).iter.filter fun e => e.2.ofdRef = index).length =
      ((inheritedFds p.fdTable).map (·.2.ofdRef)).count index := by
    rw [(hperm.filter _).length_eq, List.count, countP_map, countP_eq_length_filter]
    refine congrArg List.length (filter_congr fun e _ => ?_)
    rfl
  have hexe : p.exe.toList.count index = if p.exe = some index then 1 else 0 := by
    cases p.exe with
    | none => rfl
    | some exe => simp only [Option.toList_some, count_singleton, Option.some.injEq, beq_iff_eq]
  rw [get_childOfds p pid ha refs index] at h
  split at h
  · obtain ⟨parent, _, rfl⟩ := Option.map_eq_some_iff.mp h
    have hcount : (parent.child pid (refsOf refs index)).refCount = refsOf refs index := by
      rw [OpenFileDesc.child, OpenFileDesc.resetDirectoryIteratorForReopen]
      split <;> rfl
    rw [hcount, hc.count, references, count_append, hfds, hexe]
  · cases h

theorem inherits_child_iff (ha : alloc.Grants) (hc : Counted p.toProcessRecord refs) (sockets : SocketTable) (pid : UInt32) :
    Inherits p.toProcessRecord (child alloc pid p.toProcessRecord refs sockets) ↔
      (∀ signum function, (p.signals.getAction signum).handler = .handler function → function < 0xFFFFFFFE) ∧
        BreakRestored p.memory ∧ ∀ e ∈ inheritedFds p.fdTable, ∀ ofd, p.ofdTable.get e.2.ofdRef = some ofd →
          ∀ dri ∈ ofd.driState, dri.Inherited := by
  obtain ⟨_, hmem⟩ := mem_childFds_iff ha.fds p.fds
  have hdescription : ∀ e ∈ inheritedFds p.fdTable, ∀ ofd, p.ofdTable.get e.2.ofdRef = some ofd →
      ((childOfds pid alloc.ofds p.toProcessRecord refs).get e.2.ofdRef).map .contents =
        some (ofd.child pid (refsOf refs e.2.ofdRef)).contents := by
    intro e he ofd hofd
    have href : e.2.ofdRef ∈ references p.toProcessRecord := mem_append_left _ (mem_map.mpr ⟨e, he, rfl⟩)
    rw [get_childOfds p pid ha refs, if_pos href, hofd]
    rfl
  constructor
  · intro h
    refine ⟨(childActions_iff p.signals).mp h.actions, (childMemory_break_iff p.memoryNarrow).mp h.programBreak, ?_⟩
    intro e he ofd hofd
    have heq := h.descriptions e ((hmem e).mpr he)
    rw [hofd] at heq
    exact (child_contents_iff ofd _ _).mp (Option.some.inj ((hdescription e he ofd hofd).symm.trans heq))
  rintro ⟨hactions, hbreak, hdevices⟩
  refine { credentials := rfl, pgid := rfl, sid := rfl, umask := rfl, nice := rfl, blocked := rfl, environ := rfl, argv := rfl,
           cwd := rfl, rlimits := rfl, terminal := rfl, actions := (childActions_iff p.signals).mpr hactions,
           programBreak := (childMemory_break_iff p.memoryNarrow).mpr hbreak, layout := childMemory_layout p.memoryNarrow,
           mappings := childMemory_mappings p.memoryInv, descriptors := fun e => ?_, descriptions := fun e he => ?_,
           refCounts := fun index ofd hofd => child_refCount ha hc hofd }
  · exact (hmem e).trans (mem_filter.trans (and_congr_right fun _ => decide_eq_true_iff))
  have he' := (hmem e).mp he
  obtain ⟨ofd, hofd⟩ := Option.isSome_iff_exists.mp
    (hc.held e.2.ofdRef (mem_append_left _ (mem_map.mpr ⟨e, he', rfl⟩)))
  rw [hofd]
  exact (hdescription e he' ofd hofd).trans
    (congrArg some ((child_contents_iff ofd _ _).mpr (hdevices e he' ofd hofd)))

end Child

/-- Of a process whose record was written, storage permitting, a child with all a fork
hands on is made exactly if the process is forkable. -/
theorem inherits_iff (p : LiveProcess) (scratch : Scratch) (capacity : Nat) (bytes : Bytes)
    (h : serializeForkState scratch p.toProcessRecord capacity = .ok bytes) (alloc : Allocator) (ha : alloc.Grants) (pid : UInt32) :
    (∃ c, deserializeAllocatedForkState alloc pid bytes = .ok c ∧ Inherits p.toProcessRecord c) ↔ Forkable p.toProcessRecord := by
  obtain ⟨refs, sockets, hrefs, hsockets⟩ := prepared_of_serialize h
  obtain ⟨body, _, hemits, hreads⟩ := carries_body ha hrefs hsockets pid
  obtain ⟨hchecks, _, hsize, rfl⟩ := (serialize_eq_ok_iff hemits).mp h
  obtain ⟨hok, hbad⟩ := deserialize_record ha hsize (hreads hchecks)
  have hchild := inherits_child_iff ha (counted_of_prepare hrefs) sockets pid
  constructor
  · rintro ⟨c, hc, hinherits⟩
    by_cases hreadable : Readable p.toProcessRecord
    · rw [hok hreadable] at hc
      cases hc
      obtain ⟨hactions, hbreak, hdevices⟩ := hchild.mp hinherits
      exact { toReadable := hreadable, handlers := hactions, programBreak := hbreak, devices := hdevices }
    · exact absurd hc (hbad hreadable c)
  · intro hforkable
    exact ⟨_, hok hforkable.toReadable, hchild.mpr ⟨hforkable.handlers, hforkable.programBreak, hforkable.devices⟩⟩

/-- A process with nothing open, at the start of its memory. -/
def idle : ProcessRecord where
  pid := 7
  ppid := 1
  credentials := ⟨⟨0, 0, 0⟩, ⟨0, 0, 0⟩, SupplementaryGroups.new⟩
  secureExec := false
  pointerWidth := 4
  pgid := 7
  sid := 7
  umask := 0o022
  nice := 0
  isSessionLeader := true
  signals := SignalState.new
  fdTable := FdTable.new
  ofdTable := OfdTable.new
  exe := none
  environ := []
  argv := []
  cwd := [47]
  rlimits := LimitedProcess.new.rlimits
  terminal :=
    { cIflag := 0, cOflag := 0, cCflag := 0, cLflag := 0, cLine := 0, cCc := Vector.replicate 32 0, cIspeed := 0, cOspeed := 0
      winsize := ⟨24, 80, 0, 0⟩, foregroundPgid := 7, sessionId := 7, lineBuffer := [], cookedBuffer := [], eofPending := false }
  memory := MemoryManager.new
  forkExecPath := none
  forkExecArgv := none
  forkFdActions := []
  sockets := SocketTable.new

/-- `idle` as the kernel has it. -/
def idleProcess : LiveProcess where
  toProcessRecord := idle
  fds := FdTable.inv_withMax _
  memoryInv := MemoryManager.Inv.new
  memoryNarrow := by constructor <;> decide
  ofdCount := by decide
  ofdsNarrow := fun _ he => absurd (show _ ∈ [] from he) List.not_mem_nil
  environNarrow := ⟨by decide, nofun⟩
  argvNarrow := ⟨by decide, nofun⟩
  cwdNarrow := by decide
  execPathNarrow := by decide
  execArgvNarrow := ⟨by decide, nofun⟩
  actionsNarrow := by decide

def generous : Allocator := ⟨.ok, .ok, granted⟩

theorem generous_grants : generous.Grants where
  fds := fun capacity => ⟨capacity, rfl, le_rfl⟩
  ofds := fun capacity => ⟨capacity, rfl, le_rfl⟩
  others := rfl

def ample : Scratch := ⟨true, true, true, true⟩

/-- A memory of `n` mappings, each of a page, with a page between. -/
def spacedMemory (n : Nat) : MemoryManager :=
  { MemoryManager.new with
    mappings := (List.range n).map fun i => ⟨mmapBaseDefault + i * 0x20000, 0x10000, 3, 0x22⟩ }

theorem length_spacedMemory (n : Nat) : (spacedMemory n).mappings.length = n := by
  rw [spacedMemory, length_map, length_range]

section Spaced

variable {n : Nat} (hn : n ≤ maxForkMappings + 1)

include hn

theorem mem_spacedMemory {m : MappedRegion} (h : m ∈ (spacedMemory n).mappings) :
    m.len = 0x10000 ∧ m.addr + m.len < defaultMaxAddr := by
  obtain ⟨i, hi, rfl⟩ := mem_map.mp h
  have hlt : i < n := mem_range.mp hi
  have hmax : maxForkMappings = 4096 := rfl
  refine ⟨rfl, ?_⟩
  change 0x04000000 + i * 0x20000 + 0x10000 < 0x40000000
  omega

theorem spacedMemory_inv : MemoryManager.Inv (spacedMemory n) where
  maps := by
    refine ⟨pairwise_map.mpr (pairwise_lt_range.imp fun {i j} hij => ?_), fun m hm => ?_⟩
    · change mmapBaseDefault + i * 0x20000 + 0x10000 ≤ mmapBaseDefault + j * 0x20000
      omega
    change 0 < m.len
    rw [(mem_spacedMemory hn hm).1]
    decide
  reserved := .nil
  apart := fun _ _ => Spanned.mapped_nil
  heap := fun h => absurd rfl h
  ceiling := le_rfl
  mapsBelow := by
    rintro x ⟨m, hm, _, hx⟩
    exact lt_trans hx (mem_spacedMemory hn hm).2
  reservedBelow := fun _ hx => absurd hx Spanned.mapped_nil

theorem spacedMemory_narrow : MemoryNarrow (spacedMemory n) := by
  have hmax : maxForkMappings = 4096 := rfl
  have h := idleProcess.memoryNarrow
  refine ⟨h.programBreak, h.initialBrk, h.maxAddr, h.brkLimit, h.mmapBase, h.reservedUntil, ?_, fun m hm => ?_⟩
  · rw [length_spacedMemory]
    omega
  obtain ⟨hlen, hstop⟩ := mem_spacedMemory hn hm
  have hceiling : defaultMaxAddr = 2 ^ 30 := rfl
  omega

end Spaced

/-- `idle` with that memory. -/
def spaced (n : Nat) : ProcessRecord := { idle with memory := spacedMemory n }

def spacedProcess (n : Nat) (hn : n ≤ maxForkMappings + 1) : LiveProcess :=
  { idleProcess with toProcessRecord := spaced n, memoryInv := spacedMemory_inv hn, memoryNarrow := spacedMemory_narrow hn }

theorem fits_u32 (v : UInt32) : Fits 4 (writeU32 v) := fits_write (le_of_eq (length_leBytes 4 _))

theorem fits_usize (v : Nat) : Fits 4 (writeUsize v) := fits_write (le_of_eq (length_leBytes 4 _))

theorem fits_u64 (v : UInt64) : Fits 8 (writeU64 v) := fits_write (le_of_eq (length_leBytes 8 _))

theorem fits_string (s : Bytes) : Fits (4 + s.length) (writeString s) := (fits_usize _).next (by omega) (fits_write (by omega))

theorem fits_none {α : Type} (f : α → Encoder) {n : Nat} : Fits n (putEach f []) := ⟨[], emits_pure, Nat.zero_le n⟩

theorem fits_strings_nil : Fits 4 (writeStrings []) := (fits_usize _).next (le_rfl) (fits_none _)

theorem fits_mapping (m : MappedRegion) : Fits 16 (writeMapping m) := by
  iterate 2 refine (fits_usize _).next (by decide) ?_
  exact (fits_u32 _).next (by decide) (fits_u32 _)

theorem fits_credentials (n : Nat) : Fits 36 (writeCredentialsAndImageFacts (spaced n)) := by
  refine (fits_check rfl 0).next (by decide) ?_
  iterate 6 refine (fits_u32 _).next (by decide) ?_
  refine (fits_usize _).next (by decide) ?_
  refine .next (m := 0) (fits_none _) (by decide) ?_
  exact (fits_u32 _).next (by decide) (fits_u32 _)

theorem fits_signals_new : Fits 12 (writeSignals SignalState.new) := by
  exact (fits_u64 _).next (by decide) ((fits_usize _).next (by decide) (fits_none _))

theorem fits_terminal (t : TerminalState) : Fits 73 (writeTerminal t) := by
  have hu16 : ∀ v, Fits 2 (writeU16 v) := fun v => fits_write (le_of_eq (length_leBytes 2 _))
  iterate 4 refine (fits_u32 _).next (by decide) ?_
  refine .next (fits_write (le_of_eq (Vector.length_toList : t.cCc.toList.length = 32))) (by decide) ?_
  iterate 4 refine (hu16 _).next (by decide) ?_
  refine .next (fits_write (le_of_eq (length_leBytes 1 _))) (by decide) ?_
  iterate 3 refine (fits_u32 _).next (by decide) ?_
  exact fits_u32 _

theorem fits_memory (m : MemoryManager) : Fits (28 + 16 * m.mappings.length) (writeMemory m) := by
  iterate 7 refine (fits_usize _).next (by omega) ?_
  exact (fits_each fun x _ => fits_mapping x).le (by omega)

theorem spaced_refs (n : Nat) : prepareInheritedOfdRefs ample (spaced n) = .ok [] :=
  show prepareInheritedOfdRefs ample idle = .ok [] by decide +kernel

theorem spaced_fits (n : Nat) : Fits (512 + 16 * n) (writeBody ample (spaced n)) := by
  have hmemory : Fits (28 + 16 * n) (writeMemory (spaced n).memory) := by
    have h := fits_memory (spacedMemory n)
    rwa [length_spacedMemory] at h
  have hlimits : Fits 256 (putEach writeRlimit (spaced n).rlimits.toList) :=
    fits_each (n := 16) fun x _ => (fits_u64 x.1).next (by decide) (fits_u64 x.2)
  unfold writeBody
  rw [spaced_refs, prepared]
  refine (fits_u32 _).next (by omega) ?_
  refine (fits_credentials n).next (by omega) ?_
  iterate 5 refine (fits_u32 _).next (by omega) ?_
  refine fits_signals_new.next (by omega) ?_
  refine (fits_usize _).next (by omega) ?_
  iterate 2 refine .next (m := 4) ((fits_usize _).next (by decide) (fits_none _)) (by omega) ?_
  refine (fits_usize _).next (by omega) ?_
  iterate 2 refine fits_strings_nil.next (by omega) ?_
  refine .next (m := 5) (fits_string [47]) (by omega) ?_
  refine hlimits.next (by omega) ?_
  refine (fits_terminal _).next (by omega) ?_
  refine hmemory.next (by omega) ?_
  refine .next (m := 4) (fits_string []) (by omega) ?_
  refine fits_strings_nil.next (by omega) ?_
  refine .next (m := 4) ((fits_usize _).next (by decide) (fits_none _)) (by omega) ?_
  refine (fits_check rfl 0).next (by omega) ?_
  iterate 2 refine (fits_usize _).next (by omega) ?_
  exact fits_none _

/-- With a file open as descriptor 0, two mappings, an argument and a variable. -/
def busy : LiveProcess :=
  { spacedProcess 2 (by decide) with
    fdTable := FdTable.new.replaceSlot 0 (.opened ⟨0, 0⟩) (by decide)
    ofdTable := ⟨⟨[.opened
      { ofdId := 5, fileId := none, fileType := .regular, statusFlags := 2, offset := 9, ownerPid := 7, hostHandle := 4, refCount := 1
        path := [47, 97]
        dirHostHandle := -1, dirSynthState := 0, dirEntryOffset := 0, dirPositionGeneration := 0, dirPendingEntry := none
        driState := none, inputState := none }], 1, le_rfl⟩⟩
    environ := [[72, 61, 47]]
    argv := [[115, 104]]
    fds := (FdTable.inv_withMax _).replaceSlot 0 _ _
    ofdCount := by decide
    ofdsNarrow := by
      intro e he
      obtain rfl := mem_singleton.mp (show e ∈ [_] from he)
      exact ⟨by decide, nofun, nofun⟩
    environNarrow := ⟨by decide, by decide⟩
    argvNarrow := ⟨by decide, by decide⟩ }

theorem inherits_iff_busy : ∃ bytes, serializeForkState ample busy.toProcessRecord 2048 = .ok bytes ∧
    ((∃ c, deserializeAllocatedForkState generous 8 bytes = .ok c ∧ Inherits busy.toProcessRecord c) ↔
      Forkable busy.toProcessRecord) := by
  have hok : (serializeForkState ample busy.toProcessRecord 2048).toOption.isSome := by decide +kernel
  cases h : serializeForkState ample busy.toProcessRecord 2048 with
  | error e =>
    rw [h] at hok
    cases hok
  | ok bytes => exact ⟨bytes, rfl, inherits_iff busy ample 2048 bytes h generous generous_grants 8⟩

/-- A process with one mapping more than the decoder reads: its record is written, and
makes no child. -/
theorem crowded_record_unreadable : ∃ bytes,
    serializeForkState ample (spacedProcess 4097 (by decide)).toProcessRecord 131072 = .ok bytes ∧
      ∀ c, deserializeAllocatedForkState generous 8 bytes ≠ .ok c := by
  obtain ⟨body, _, hemits, hreads⟩ := carries_body (p := spacedProcess 4097 (by decide)) generous_grants
    (spaced_refs 4097) rfl 8
  obtain ⟨bs, hbs, hfits⟩ := spaced_fits 4097
  have hlen : body.length ≤ 512 + 16 * 4097 := by
    have hsame : bs = body := hbs.unique hemits trivial
    rwa [← hsame]
  have hchecks : SocketTable.new.entries.length ≤ maxSocketSlots ∧ ∀ e ∈ SocketTable.new.iter, e.2.Bounded :=
    ⟨Nat.zero_le _, fun e he => absurd (show e ∈ [] from he) not_mem_nil⟩
  refine ⟨record body, (serialize_eq_ok_iff hemits).mpr ⟨hchecks, by omega, by omega, rfl⟩, ?_⟩
  refine (deserialize_record generous_grants (by omega) (hreads hchecks)).2 fun hreadable => ?_
  have hmappings : (spacedMemory 4097).mappings.length ≤ maxForkMappings := hreadable.mappings
  rw [length_spacedMemory] at hmappings
  exact absurd hmappings (by decide)

end Kandelo.Fork

/-
Pseudo-terminals: the line discipline (`terminal.rs`), a pair with its queues (`pty.rs`)
and the ways a reference to one end goes away.

Input waits in the raw queue, in the cooked lines, in the line being edited and in the
pending end of file. A flush by `tcflush` or `tcsetattr` forgets the last
(`flush_discards_iff`). Between flushes what was read and what waits is what the
discipline makes of the input (`reads_are_image`). The end of one side wakes the other
only out of `sys_close` (`hangup_wakes_iff`).
-/
import Kandelo.Fork.Record
import Kandelo.Lib.Machine

namespace Kandelo.Pty

open Fork (Bytes TerminalState)

/-! ## The line discipline -/

def echo : UInt32 := 0o10
def echoe : UInt32 := 0o20
def echok : UInt32 := 0o40
def echonl : UInt32 := 0o100
def icanon : UInt32 := 0o2
def isig : UInt32 := 0o1
def noflsh : UInt32 := 0o200
def echoctl : UInt32 := 0o1000
def icrnl : UInt32 := 0o400
def inlcr : UInt32 := 0o100
def igncr : UInt32 := 0o200
def opost : UInt32 := 0o1
def onlcr : UInt32 := 0o4

def has (flags bit : UInt32) : Bool := flags &&& bit != 0

section Discipline

variable (t : TerminalState) (byte : UInt8)

def isCanonical : Bool := has t.cLflag icanon

/-- A control character of zero is off. -/
def controlCharMatches (index : Fin 32) : Bool := t.cCc[index] != 0 && t.cCc[index] == byte

def translateInputByte : Option UInt8 :=
  if byte = 13 ∧ has t.cIflag igncr then none
  else if byte = 13 ∧ has t.cIflag icrnl then some 10
  else if byte = 10 ∧ has t.cIflag inlcr then some 13
  else some byte

/-- The signal of VINTR, VQUIT and VSUSP. -/
def signal : Option UInt32 :=
  if !has t.cLflag isig then none
  else if controlCharMatches t byte 0 then some 2
  else if controlCharMatches t byte 1 then some 3
  else if controlCharMatches t byte 10 then some 20
  else none

/-- `^X`, but a tab stays one. -/
def echoctlRendersAsCaret : Bool := (byte < 0x20 || byte == 0x7F) && byte != 9

/-- The terminal, the echo and the signal. The control characters are VERASE, VKILL, VEOF
and VEOL. -/
def processTranslatedInputByte : TerminalState × Bytes × Option UInt32 :=
  let doEcho := has t.cLflag echo
  if (signal t byte).isSome then
    (if has t.cLflag noflsh then t else { t with lineBuffer := [], cookedBuffer := [], eofPending := false },
      if doEcho then [94, byte ^^^ 0x40, 10] else [], signal t byte)
  else if !isCanonical t then (t, [], none)
  else if controlCharMatches t byte 2 then
    ({ t with lineBuffer := t.lineBuffer.dropLast }, if t.lineBuffer ≠ [] ∧ doEcho ∧ has t.cLflag echoe then [8, 32, 8] else [], none)
  else if controlCharMatches t byte 3 then
    ({ t with lineBuffer := [] }, if doEcho ∧ has t.cLflag echok then t.lineBuffer.flatMap fun _ => [8, 32, 8] else [], none)
  else if controlCharMatches t byte 4 then
    (if t.lineBuffer = [] then { t with eofPending := true }
      else { t with cookedBuffer := t.cookedBuffer ++ t.lineBuffer, lineBuffer := [] }, [], none)
  else if byte = 10 ∨ controlCharMatches t byte 11 then
    ({ t with eofPending := false, cookedBuffer := t.cookedBuffer ++ (t.lineBuffer ++ [byte]), lineBuffer := [] },
      if doEcho ∨ has t.cLflag echonl ∧ byte = 10 then [byte] else [], none)
  else
    ({ t with eofPending := false, lineBuffer := t.lineBuffer ++ [byte] }, if !doEcho then []
      else if has t.cLflag echoctl && echoctlRendersAsCaret byte then [94, byte ^^^ 0x40]
      else [byte], none)

end Discipline

/-! ## The pair -/

structure PtyPair where
  index : UInt32
  terminal : TerminalState
  inputBuf : Bytes
  outputBuf : Bytes
  masterRefs : Nat
  slaveRefs : Nat

section Pair

variable (p : PtyPair)

/-- `ONLCR`, for what the master reads. -/
def processOutput (bytes : Bytes) : Bytes :=
  if has p.terminal.cOflag opost && has p.terminal.cOflag onlcr then
    bytes.flatMap fun b => if b = 10 then [13, 10] else [b]
  else bytes

def processMasterInput (byte : UInt8) : Option UInt32 × PtyPair :=
  match translateInputByte p.terminal byte with
  | none => (none, p)
  | some byte =>
    let (t, echoed, sig) := processTranslatedInputByte p.terminal byte
    let inputBuf := if sig.isSome && !has t.cLflag noflsh then [] else p.inputBuf
    let outputBuf := p.outputBuf ++ processOutput p echoed
    if sig.isSome || isCanonical t then (sig, { p with terminal := t, inputBuf, outputBuf })
    else
      (none, { p with
        terminal := t, inputBuf := inputBuf ++ [byte]
        outputBuf := outputBuf ++ if has t.cLflag echo then processOutput p [byte] else [] })

def flushInput : PtyPair :=
  { p with inputBuf := [], terminal := { p.terminal with lineBuffer := [], cookedBuffer := [] } }

def prepareTermiosChange (nextLflag : UInt32) (discardInput : Bool) : PtyPair :=
  if discardInput then flushInput p
  else if isCanonical p.terminal && !has nextLflag icanon then
    { p with
      inputBuf := p.inputBuf ++ (p.terminal.cookedBuffer ++ p.terminal.lineBuffer)
      terminal := { p.terminal with cookedBuffer := [], lineBuffer := [] } }
  else if !isCanonical p.terminal && has nextLflag icanon then
    { p with inputBuf := [], terminal := { p.terminal with cookedBuffer := p.terminal.cookedBuffer ++ p.inputBuf } }
  else p

/-- `tcsetattr` to the attributes of `next`. -/
def tcsetattr (next : TerminalState) (discardInput : Bool) : PtyPair :=
  let p := prepareTermiosChange p next.cLflag discardInput
  let t := p.terminal
  { p with terminal := { next with
      winsize := t.winsize, foregroundPgid := t.foregroundPgid, sessionId := t.sessionId
      lineBuffer := t.lineBuffer, cookedBuffer := t.cookedBuffer, eofPending := t.eofPending } }

def slaveRead (len : Nat) : Bytes × PtyPair :=
  if isCanonical p.terminal then
    (p.terminal.cookedBuffer.take len, { p with terminal := { p.terminal with cookedBuffer := p.terminal.cookedBuffer.drop len } })
  else (p.inputBuf.take len, { p with inputBuf := p.inputBuf.drop len })

def slaveHasData : Bool :=
  if isCanonical p.terminal then !p.terminal.cookedBuffer.isEmpty || p.terminal.eofPending else !p.inputBuf.isEmpty

/-- A read that finds no bytes takes this for its end of file. -/
def slaveTakeEof : Bool × PtyPair := (p.terminal.eofPending, { p with terminal := { p.terminal with eofPending := false } })

inductive Call
  | masterInput (byte : UInt8)
  | slaveRead (len : Nat)
  | slaveTakeEof
  | tcsetattr (next : TerminalState) (discardInput : Bool)
  | tciflush

/-- A call, and the bytes the slave has read by it. -/
def call : Call → Bytes × PtyPair
  | .masterInput byte => ([], (processMasterInput p byte).2)
  | .slaveRead len => slaveRead p len
  | .slaveTakeEof => ([], (slaveTakeEof p).2)
  | .tcsetattr next discardInput => ([], tcsetattr p next discardInput)
  | .tciflush => ([], flushInput p)

/-- The call discards what waits. -/
def flushes : Call → Bool
  | .masterInput byte =>
    !has p.terminal.cLflag noflsh && (translateInputByte p.terminal byte).any fun b => (signal p.terminal b).isSome
  | .tcsetattr _ discardInput => discardInput
  | .tciflush => true
  | _ => false

end Pair

/-- `PtyPair::new`. -/
def new : PtyPair where
  index := 0xFFFFFFFF
  terminal :=
    { cIflag := 0o26400, cOflag := opost ||| onlcr, cCflag := 0o2277
      cLflag := echo ||| echoe ||| echok ||| echoctl ||| icanon ||| isig ||| 0o100000
      cLine := 0, cCc := ⟨#[3, 0x1C, 0x7F, 0x15, 4, 0, 1, 0, 0x11, 0x13, 0x1A] ++ Array.replicate 21 0, rfl⟩
      cIspeed := 0o17, cOspeed := 0o17, winsize := ⟨24, 80, 0, 0⟩, foregroundPgid := 0, sessionId := 0
      lineBuffer := [], cookedBuffer := [], eofPending := false }
  inputBuf := []
  outputBuf := []
  masterRefs := 0
  slaveRefs := 0

section Runs

variable {t : TerminalState} {byte : UInt8} {p : PtyPair} {c : Call}

theorem process_signal : (processTranslatedInputByte t byte).2.2 = signal t byte := by
  unfold processTranslatedInputByte
  split_ifs with h <;> first | rfl | exact (Option.not_isSome_iff_eq_none.mp h).symm

theorem process_cLflag : (processTranslatedInputByte t byte).1.cLflag = t.cLflag := by
  unfold processTranslatedInputByte
  split_ifs <;> rfl

theorem process_isCanonical : isCanonical (processTranslatedInputByte t byte).1 = isCanonical t := by
  rw [isCanonical, process_cLflag, isCanonical]

theorem masterInput_terminal {b : UInt8} (hb : translateInputByte p.terminal byte = some b) :
    let p' := (processMasterInput p byte).2
    p'.terminal = (processTranslatedInputByte p.terminal b).1 ∧
      p'.inputBuf = if (signal p.terminal b).isSome then if has p.terminal.cLflag noflsh then p.inputBuf else []
        else if isCanonical p.terminal then p.inputBuf else p.inputBuf ++ [b] := by
  simp only [processMasterInput, hb, process_signal, process_cLflag, process_isCanonical]
  cases (signal p.terminal b).isSome <;> cases isCanonical p.terminal <;> cases has p.terminal.cLflag noflsh <;>
    exact ⟨rfl, rfl⟩

/-! ## Flushes -/

/-- The flush of a signal takes the end of file along, the others leave it. -/
theorem empty_of_flushes (h : flushes p c) :
    let p' := (call p c).2
    p'.inputBuf = [] ∧ p'.terminal.cookedBuffer = [] ∧ p'.terminal.lineBuffer = [] ∧
      (p'.terminal.eofPending = false ↔ p.terminal.eofPending = false ∨ ∃ byte, c = .masterInput byte) := by
  cases c with
  | masterInput byte =>
    simp only [flushes, Bool.and_eq_true, Bool.not_eq_true', Option.any_eq_true] at h
    obtain ⟨hflush, b, hb, hsig⟩ := h
    obtain ⟨hterm, hinput⟩ := masterInput_terminal hb
    simp [call, hterm, hinput, processTranslatedInputByte, hsig, hflush]
  | tcsetattr next discardInput =>
    cases show discardInput from h
    simp [call, tcsetattr, prepareTermiosChange, flushInput]
  | tciflush => simp [call, flushInput]
  | _ => cases h

/-- A flush leaves nothing to read exactly if no end of file was pending, or a signal
character makes it. -/
theorem flush_discards_iff (cs : List Call) (c : Call) (len : Nat) (h : flushes (Machine.run call new cs) c = true) :
    let p := Machine.run call new cs
    let p' := (call p c).2
    (slaveHasData p' = false ∧ (slaveRead p' len).1 = [] ∧ (slaveTakeEof p').1 = false ∧ p'.terminal.lineBuffer = []) ↔
      p.terminal.eofPending = false ∨ ∃ byte, c = .masterInput byte := by
  intro p p'
  obtain ⟨hinput, hcooked, hline, heof⟩ := empty_of_flushes h
  refine Iff.trans ⟨fun h => h.2.2.1, fun h => ⟨?_, ?_, h, hline⟩⟩ heof
  · simp [slaveHasData, p', p, hinput, hcooked, show (call p c).2.terminal.eofPending = false from h]
  · unfold slaveRead
    split <;> simp [p', p, hinput, hcooked]

/-- A line is discarded by an interrupt. -/
theorem flush_discards_iff_interrupt :
    slaveHasData (call (Machine.run call new [.masterInput 97, .masterInput 10]) (.masterInput 3)).2 = false :=
  ((flush_discards_iff [.masterInput 97, .masterInput 10] (.masterInput 3) 1 (by decide +kernel)).mpr (.inr ⟨3, rfl⟩)).1

/-- An end of file that nobody has read outlives the flush. -/
theorem flush_keeps_eof : slaveHasData (Machine.run call new [.masterInput 4, .tciflush]) = true ∧
      (slaveTakeEof (Machine.run call new [.masterInput 4, .tciflush])).1 = true := by
  decide +kernel

/-! ## The order of the input -/

/-- What editing makes of a byte: the bytes it has let through, and the line. -/
def edit (t : TerminalState) (byte : UInt8) (x : Bytes × Bytes) : Bytes × Bytes :=
  if controlCharMatches t byte 2 then (x.1, x.2.dropLast)
  else if controlCharMatches t byte 3 then (x.1, [])
  else if controlCharMatches t byte 4 then (x.1 ++ x.2, [])
  else if byte = 10 ∨ controlCharMatches t byte 11 then (x.1 ++ (x.2 ++ [byte]), [])
  else (x.1, x.2 ++ [byte])

/-- The image of the input, call by call. Leaving canonical mode lets the line through. -/
def image (x : Bytes × Bytes) (s : PtyPair × Call) : Bytes × Bytes :=
  let t := s.1.terminal
  match s.2 with
  | .masterInput byte =>
    match translateInputByte t byte with
    | none => x
    | some byte =>
      if (signal t byte).isSome then x
      else if isCanonical t then edit t byte x
      else (x.1 ++ [byte], x.2)
  | .tcsetattr next _ => if isCanonical t && !isCanonical next then (x.1 ++ x.2, []) else x
  | _ => x

/-- Each mode has its queues. -/
structure Sorted (p : PtyPair) : Prop where
  raw : isCanonical p.terminal → p.inputBuf = []
  cooked : isCanonical p.terminal = false → p.terminal.cookedBuffer = [] ∧ p.terminal.lineBuffer = []

/-- The bytes that have been read and those that may be, and the line. -/
def account (sent : Bytes) (p : PtyPair) : Bytes × Bytes :=
  (sent ++ (p.inputBuf ++ p.terminal.cookedBuffer), p.terminal.lineBuffer)

theorem process_edits (hsig : (signal t byte).isSome = false) (hc : isCanonical t) (sent : Bytes) :
    let t' := (processTranslatedInputByte t byte).1
    edit t byte (sent ++ t.cookedBuffer, t.lineBuffer) = (sent ++ t'.cookedBuffer, t'.lineBuffer) := by
  simp only [processTranslatedInputByte, hsig, hc, edit]
  split_ifs <;> simp_all

theorem masterInput_step (h : Sorted p) (hc : flushes p (.masterInput byte) = false) (sent : Bytes) :
    let p' := (processMasterInput p byte).2
    Sorted p' ∧ image (account sent p) (p, .masterInput byte) = account sent p' := by
  cases hb : translateInputByte p.terminal byte with
  | none =>
    simp only [processMasterInput, image, hb]
    exact ⟨h, trivial⟩
  | some b =>
    obtain ⟨hterm, hinput⟩ := masterInput_terminal hb
    have hmode := congrArg isCanonical hterm
    rw [process_isCanonical] at hmode
    simp only [image, hb, account]
    generalize (processMasterInput p byte).2 = p' at hterm hinput hmode ⊢
    cases hsig : (signal p.terminal b).isSome with
    | true =>
      have hkept : has p.terminal.cLflag noflsh := by
        by_contra hno
        simp [flushes, hno, hb, hsig] at hc
      have hsame : p'.terminal = p.terminal := by simp [hterm, processTranslatedInputByte, hsig, hkept]
      rw [hsig, if_pos rfl, if_pos hkept] at hinput
      rw [hsame, hinput]
      exact ⟨⟨by rw [hsame, hinput]; exact h.raw, by rw [hsame]; exact h.cooked⟩, rfl⟩
    | false =>
      rw [hsig, if_neg Bool.false_ne_true] at hinput
      cases hcanon : isCanonical p.terminal with
      | true =>
        have hraw := h.raw hcanon
        rw [if_pos hcanon, hraw] at hinput
        refine ⟨⟨fun _ => hinput, fun hno => nomatch hcanon.symm.trans (hmode.symm.trans hno)⟩, ?_⟩
        simpa [hraw, hinput, hterm] using process_edits hsig hcanon sent
      | false =>
        obtain ⟨hcooked, hline⟩ := h.cooked hcanon
        have hsame : p'.terminal = p.terminal := by simp [hterm, processTranslatedInputByte, hsig, hcanon]
        rw [hcanon, if_neg Bool.false_ne_true] at hinput
        refine ⟨⟨fun hyes => (nomatch hcanon.symm.trans (hmode.symm.trans hyes)), fun _ => hsame ▸ ⟨hcooked, hline⟩⟩, ?_⟩
        simp [hinput, hsame, hcooked, hline]

theorem tcsetattr_step (h : Sorted p) (next : TerminalState) (sent : Bytes) :
    let p' := tcsetattr p next false
    Sorted p' ∧ image (account sent p) (p, .tcsetattr next false) = account sent p' := by
  have hnext : isCanonical (tcsetattr p next false).terminal = isCanonical next := rfl
  have hflag : has next.cLflag icanon = isCanonical next := rfl
  constructor
  · constructor
    · intro hyes
      rw [hnext] at hyes
      cases hcanon : isCanonical p.terminal with
      | true => simp [tcsetattr, prepareTermiosChange, hcanon, hflag, hyes, h.raw hcanon]
      | false => simp [tcsetattr, prepareTermiosChange, hcanon, hflag, hyes]
    intro hno
    rw [hnext] at hno
    cases hcanon : isCanonical p.terminal with
    | true => simp [tcsetattr, prepareTermiosChange, hcanon, hflag, hno]
    | false => simp [tcsetattr, prepareTermiosChange, hcanon, hflag, hno, h.cooked hcanon]
  · cases hcanon : isCanonical p.terminal <;> cases hn : isCanonical next <;>
      simp [image, account, tcsetattr, prepareTermiosChange, hcanon, hflag, hn, h.raw, h.cooked]

/-- One call that flushes nothing. -/
theorem call_step (h : Sorted p) (hc : flushes p c = false) (sent : Bytes) :
    Sorted (call p c).2 ∧ image (account sent p) (p, c) = account (sent ++ (call p c).1) (call p c).2 := by
  cases c with
  | masterInput byte =>
    simp only [call, List.append_nil]
    exact masterInput_step h hc sent
  | slaveRead len =>
    simp only [call, slaveRead]
    cases hcanon : isCanonical p.terminal with
    | true =>
      have hraw := h.raw hcanon
      refine ⟨⟨fun _ => hraw, fun hno => (nomatch hcanon.symm.trans hno)⟩, ?_⟩
      simp [image, account, hraw]
    | false =>
      obtain ⟨hcooked, hline⟩ := h.cooked hcanon
      refine ⟨⟨fun hyes => (nomatch hcanon.symm.trans hyes), fun _ => ⟨hcooked, hline⟩⟩, ?_⟩
      simp [image, account, hcooked]
  | slaveTakeEof => exact ⟨⟨h.raw, h.cooked⟩, by simp [call, image, account, slaveTakeEof]⟩
  | tcsetattr next discardInput =>
    cases show discardInput = false from hc
    simpa [call] using tcsetattr_step h next sent
  | tciflush => cases hc

theorem run_step (cs : List Call) (h : Sorted p) (hc : ∀ x ∈ Machine.steps call p cs, flushes x.1 x.2 = false) (sent : Bytes) :
    let p' := Machine.run call p cs
    Sorted p' ∧ (Machine.steps call p cs).foldl image (account sent p) =
      account (sent ++ Machine.moved call (fun p c => (call p c).1) p cs) p' := by
  induction cs generalizing p sent with
  | nil => exact ⟨h, by simp [Machine.steps, Machine.run]⟩
  | cons c cs ih =>
    obtain ⟨hfirst, hrest⟩ := List.forall_mem_cons.mp hc
    obtain ⟨hsorted, hstep⟩ := call_step h hfirst sent
    have hlast := ih hsorted hrest (sent ++ (call p c).1)
    simp only [Machine.steps, List.foldl_cons, Machine.run, Machine.moved_cons]
    rw [hstep, ← List.append_assoc]
    exact hlast

/-- Without a flush each mode has its queues, and the bytes read with those that wait are
the image of the input. -/
theorem reads_are_image (cs : List Call) (h : ∀ x ∈ Machine.steps call new cs, flushes x.1 x.2 = false) :
    let p := Machine.run call new cs
    let x := (Machine.steps call new cs).foldl image ([], [])
    Sorted p ∧ Machine.moved call (fun p c => (call p c).1) new cs ++ p.inputBuf ++ p.terminal.cookedBuffer ++
      p.terminal.lineBuffer = x.1 ++ x.2 := by
  obtain ⟨hsorted, hx⟩ := run_step cs ⟨fun _ => rfl, fun _ => ⟨rfl, rfl⟩⟩ h []
  refine ⟨hsorted, ?_⟩
  rw [show ([], []) = account [] new from rfl, hx]
  simp [account]

/-- A line, an unfinished one, and the switch to raw mode. -/
theorem reads_are_image_switched :
    let cs : List Call := [.masterInput 97, .masterInput 13, .masterInput 98, .slaveRead 1,
      .tcsetattr { new.terminal with cLflag := 0 } false, .masterInput 99]
    let p := Machine.run call new cs
    Sorted p ∧ Machine.moved call (fun p c => (call p c).1) new cs ++ p.inputBuf = [97, 10, 98, 99] := by
  exact ⟨(reads_are_image _ (by decide +kernel)).1, by decide +kernel⟩

end Runs

/-! ## The end of one side -/

/-- The pairs, what `epoll` was told, and the wakeup the host takes. -/
structure Ptys where
  table : Vector (Option PtyPair) 64
  notified : List (UInt32 × Bool × UInt32)
  ptyReadinessChanged : Bool

namespace Ptys

def getPty (k : Ptys) (idx : Nat) : Option PtyPair := k.table[idx]?.join

def sideRefs (p : PtyPair) (master : Bool) : Nat := if master then p.masterRefs else p.slaveRefs

/-- A reference to one side goes: `hangs` says of the count before it whether the other
side is told, and `wakes` whether the host is. -/
def dropRef (hangs : Nat → Bool) (wakes : Bool) (k : Ptys) (master : Bool) (idx : Nat) : Ptys :=
  match k.getPty idx with
  | none => k
  | some pty =>
    let told := hangs (sideRefs pty master)
    let pty := if master then { pty with masterRefs := pty.masterRefs - 1 } else { pty with slaveRefs := pty.slaveRefs - 1 }
    { table := k.table.setIfInBounds idx (if pty.masterRefs = 0 ∧ pty.slaveRefs = 0 then none else some pty)
      notified := k.notified ++ if told then [(pty.index, !master, 0x10)] else []
      ptyReadinessChanged := k.ptyReadinessChanged || told && wakes }

def sysClose : Ptys → Bool → Nat → Ptys := dropRef (fun n => 0 < n && n - 1 == 0) true

/-- The descriptions of the process, in the order of its table. -/
def removeProcess (k : Ptys) (ofds : List (Bool × Nat)) : Ptys :=
  ofds.foldl (fun k ofd => dropRef (fun n => 0 < n && n - 1 == 0) false k ofd.1 ofd.2) k

/-- A count of zero stays, and the other side is told again. -/
def releaseDeferredInFlightResource : Ptys → Bool → Nat → Ptys := dropRef (fun n => n - 1 == 0) false

inductive Teardown
  | close (master : Bool) (idx : Nat)
  | exit (ofds : List (Bool × Nat))
  | discard (master : Bool) (idx : Nat)

def teardown (k : Ptys) : Teardown → Ptys
  | .close master idx => k.sysClose master idx
  | .exit ofds => k.removeProcess ofds
  | .discard master idx => k.releaseDeferredInFlightResource master idx

/-- The references to a side of a pair. -/
def refs (k : Ptys) (idx : Nat) (master : Bool) : Nat := (k.getPty idx).elim 0 (sideRefs · master)

theorem dropRef_quiet (hangs : Nat → Bool) (k : Ptys) (master : Bool) (idx : Nat) :
    (dropRef hangs false k master idx).ptyReadinessChanged = k.ptyReadinessChanged := by
  unfold dropRef
  split <;> simp

theorem refs_dropRef (hangs : Nat → Bool) (wakes : Bool) (k : Ptys) (m : Bool) (i idx : Nat) (master : Bool) :
    (dropRef hangs wakes k m i).refs idx master = k.refs idx master - if i = idx ∧ m = master then 1 else 0 := by
  unfold dropRef
  cases hget : k.getPty i with
  | none =>
    by_cases hself : i = idx ∧ m = master
    · simp [refs, ← hself.1, hget]
    · simp [hself]
  | some pty =>
    have hi : i < 64 := by
      by_contra hno
      simp [getPty, hno] at hget
    by_cases heq : i = idx
    · subst heq
      simp only [refs, hget]
      simp only [getPty, Vector.getElem?_setIfInBounds, hi]
      cases m <;> cases master <;> simp [sideRefs] <;> split_ifs <;> simp_all
    · simp [refs, getPty, heq]

/-- When a side loses its last reference the readiness wakeup is queued exactly if the
reference was closed, or it was queued before. -/
theorem hangup_wakes_iff (k : Ptys) (d : Teardown) (idx : Nat) (master : Bool) (h : k.refs idx master ≠ 0)
    (hlast : (k.teardown d).refs idx master = 0) :
    (k.teardown d).ptyReadinessChanged = true ↔ k.ptyReadinessChanged = true ∨ ∃ m i, d = .close m i := by
  cases d with
  | exit ofds =>
    have hquiet : (k.removeProcess ofds).ptyReadinessChanged = k.ptyReadinessChanged :=
      List.foldlRecOn (motive := fun k' => k'.ptyReadinessChanged = k.ptyReadinessChanged) ofds _ rfl
        fun k' hk ofd _ => (dropRef_quiet _ k' ofd.1 ofd.2).trans hk
    simp [teardown, hquiet]
  | discard m i => simp [teardown, releaseDeferredInFlightResource, dropRef_quiet]
  | close m i =>
    refine iff_of_true ?_ (.inr ⟨m, i, rfl⟩)
    rw [teardown, sysClose, refs_dropRef] at hlast
    split_ifs at hlast with hself
    · obtain ⟨rfl, rfl⟩ := hself
      cases hget : k.getPty i with
      | none => simp [refs, hget] at h
      | some pty =>
        have hone : sideRefs pty m = 1 := by
          simp only [refs, hget, Option.elim] at h hlast
          omega
        simp [teardown, sysClose, dropRef, hget, hone]
    · exact absurd hlast h

def onePair : Ptys :=
  ⟨(Vector.replicate 64 none).set 0 (some { new with index := 0, masterRefs := 1, slaveRefs := 1 }), [], false⟩

theorem hangup_wakes_iff_close : (onePair.teardown (.close true 0)).ptyReadinessChanged = true :=
  (hangup_wakes_iff onePair (.close true 0) 0 true (by decide) (by decide)).mpr (.inr ⟨true, 0, rfl⟩)

/-- The last master goes with its process, and nothing wakes the reader of the slave. -/
theorem exit_wakes_nobody :
    let k := onePair.teardown (.exit [(true, 0)])
    k.refs 0 true = 0 ∧ k.refs 0 false = 1 ∧ k.ptyReadinessChanged = false := by
  decide +kernel

end Ptys

end Kandelo.Pty

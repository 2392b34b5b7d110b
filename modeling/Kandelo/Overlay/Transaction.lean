/-
The transactions of the overlay journal and their replay (`encode_transaction_in`,
`replay_transactions`).

A transaction is its length twice, its number, its records, a digest and a commit mark.
`readTransaction_encode` reads it back from the front of what follows it, and
`readTransaction_torn` says that any proper prefix of it is taken for a torn tail. From these,
`replay_append` splits a replay at a transaction boundary and `replay_transactions` is the
replay of encoded transactions.
-/
import Kandelo.Overlay.State

namespace Kandelo.Overlay

open List DecodedMutation Wire

/-! ## Encoding -/

def transactionMagic : Bytes := [75, 84, 88, 78]
def commitMagic : Bytes := [68, 79, 78, 69]

/-- The length of the records after the first `length` bytes, with every record checked. -/
def encodedLengthFrom : Nat → List Mutation → Except Errno Nat
  | length, [] => .ok length
  | length, m :: ms =>
    match validateMutation m with
    | .error e => .error e
    | .ok () =>
      let length := length + (23 + m.key.name.length + (m.value.getD []).length)
      if maxTransactionBytes < length then .error .EFBIG else encodedLengthFrom length ms

def transactionEncodedLength (ms : List Mutation) : Except Errno Nat :=
  if 2 ^ 32 ≤ ms.length then .error .EFBIG
  else encodedLengthFrom (transactionHeaderBytes + transactionTrailerBytes) ms

def transactionHeader (length sequence count : Nat) : Bytes :=
  transactionMagic ++ (leBytes 4 length ++ (leBytes 8 sequence ++ (leBytes 4 count ++ leBytes 4 (2 ^ 32 - 1 - length))))

def encodeTransaction (sha : Digest) (sequence : Nat) (ms : List Mutation) : Except Errno Bytes :=
  match transactionEncodedLength ms with
  | .error e => .error e
  | .ok length =>
    let out := transactionHeader length sequence ms.length ++ encodeBody ms
    .ok (out ++ (sha.hash out ++ commitMagic))

/-! ## Replay -/

inductive ReplayFilter
  | all
  | metadataOnly
  | rejectMetadata
  | verifyOnly
  deriving DecidableEq

/-- How a replay goes: which records it applies, whether it ends at a torn tail, and what it checks of each record. -/
structure Replay (γ : Type) where
  filter : ReplayFilter
  allowTornTail : Bool
  hasCheckpoint : Bool
  recordCheck : Option (γ → DecodedMutation → Option Nat → Except Errno γ)

/-- The transaction at the front of `rest`: its length and its records; `none` at a torn tail. -/
def readTransaction (sha : Digest) (allowTornTail : Bool) (nextSequence : Nat) (rest : Bytes) :
    Except Errno (Option (Nat × List DecodedMutation)) :=
  let torn : Except Errno (Option (Nat × List DecodedMutation)) := if allowTornTail then .ok none else .error Errno.EIO
  if rest.length < transactionHeaderBytes + transactionTrailerBytes then torn
  else if rest.take 4 ≠ transactionMagic then .error Errno.EIO
  else
    let length := u32At rest 4
    if u32At rest 20 ≠ 2 ^ 32 - 1 - length ∨ length < transactionHeaderBytes + transactionTrailerBytes ∨
        maxTransactionBytes < length then .error Errno.EIO
    else if rest.length < length then torn
    else
      let transaction := rest.take length
      let digestStart := length - transactionTrailerBytes
      if (u64At transaction 8).toNat ≠ nextSequence then .error Errno.EIO
      else if transaction.drop (length - 4) ≠ commitMagic ∨
          (transaction.drop digestStart).take 32 ≠ sha.hash (transaction.take digestStart) then .error Errno.EIO
      else
        match decodeMutations ((transaction.take digestStart).drop transactionHeaderBytes) with
        | .error e => .error e
        | .ok records => if records.length ≠ u32At transaction 16 then .error Errno.EIO else .ok (some (length, records))

variable {γ : Type}

/-- One record of a transaction that starts at `start`. -/
def replayRecord (sha : Digest) (r : Replay γ) (start : Nat) (acc : OverlayState × γ) (record : DecodedMutation) :
    Except Errno (OverlayState × γ) :=
  if r.filter = .rejectMetadata ∧ !record.isBlock then .error Errno.EIO
  else if r.filter ≠ .all ∧ record.isBlock ∧ r.recordCheck.isNone then .ok acc
  else
    let valueOffset := record.valueOffset.map fun offset => start + transactionHeaderBytes + offset
    let checked := match r.recordCheck with
      | some check => check acc.2 record valueOffset
      | none => .ok acc.2
    match checked with
    | .error e => .error e
    | .ok c =>
      if r.filter = .verifyOnly ∨ (r.filter ≠ .all ∧ record.isBlock) then .ok (acc.1, c)
      else
        match acc.1.apply sha record valueOffset r.hasCheckpoint with
        | .error e => .error e
        | .ok s => .ok (s, c)

def replayRecords (sha : Digest) (r : Replay γ) (start : Nat) : OverlayState × γ → List DecodedMutation →
    Except Errno (OverlayState × γ)
  | acc, [] => .ok acc
  | acc, record :: records =>
    match replayRecord sha r start acc record with
    | .error e => .error e
    | .ok acc => replayRecords sha r start acc records

variable {sha : Digest} {records : List DecodedMutation} {next length : Nat} {rest : Bytes}

theorem readTransaction_length {torn : Bool} (h : readTransaction sha torn next rest = .ok (some (length, records))) :
    transactionHeaderBytes + transactionTrailerBytes ≤ length ∧ length ≤ rest.length := by
  simp only [readTransaction] at h
  repeat' split at h
  all_goals cases h
  omega

/-- The loop of `replay_transactions`, over the bytes that are left: where it ends, the next number, and what it made. -/
def replay (sha : Digest) (r : Replay γ) (rest : Bytes) (start nextSequence : Nat) (acc : OverlayState × γ) :
    Except Errno (Nat × Nat × (OverlayState × γ)) :=
  if rest = [] then .ok (start, nextSequence, acc)
  else
    match h : readTransaction sha r.allowTornTail nextSequence rest with
    | .error e => .error e
    | .ok none => .ok (start, nextSequence, acc)
    | .ok (some (length, records)) =>
      match replayRecords sha r start acc records with
      | .error e => .error e
      | .ok acc =>
        if nextSequence + 1 < 2 ^ 64 then replay sha r (rest.drop length) (start + length) (nextSequence + 1) acc
        else .error .EOVERFLOW
termination_by rest.length
decreasing_by
  have := readTransaction_length h
  have : transactionHeaderBytes = 24 := rfl
  rw [List.length_drop]
  omega

/-- `replay_transactions` over the bytes of a journal. -/
def replayTransactions (sha : Digest) (r : Replay γ) (journal : Bytes) (start size nextSequence : Nat) (acc : OverlayState × γ) :
    Except Errno (Nat × Nat × (OverlayState × γ)) :=
  replay sha r ((journal.take size).drop start) start nextSequence acc

/-! ## The bytes of a transaction -/

def transactionSize (ms : List Mutation) : Nat := transactionHeaderBytes + transactionTrailerBytes + (encodeBody ms).length

def Valid (ms : List Mutation) : Prop := ∀ m ∈ ms, validateMutation m = .ok ()

variable {ms : List Mutation}

theorem encodedLengthFrom_ok : ∀ {start length : Nat}, encodedLengthFrom start ms = .ok length →
    length = start + (encodeBody ms).length ∧ Valid ms ∧ (start ≤ maxTransactionBytes → length ≤ maxTransactionBytes) := by
  induction ms with
  | nil =>
    rintro start length h
    cases h
    exact ⟨rfl, fun m hm => absurd hm not_mem_nil, id⟩
  | cons m ms ih =>
    intro start length h
    simp only [encodedLengthFrom] at h
    split at h
    · cases h
    rename_i hvalid
    split at h
    · cases h
    obtain ⟨hlength, hall, hle⟩ := ih h
    refine ⟨?_, ?_, fun _ => hle (by omega)⟩
    · rw [hlength, show encodeBody (m :: ms) = encodeMutation m ++ encodeBody ms from rfl, length_append, length_encodeMutation,
        add_assoc]
    intro x hx
    rcases mem_cons.mp hx with rfl | hx
    · exact hvalid
    · exact hall x hx

@[simp] theorem length_transactionHeader (length sequence count : Nat) :
    (transactionHeader length sequence count).length = transactionHeaderBytes := by
  simp [transactionHeader, transactionMagic, transactionHeaderBytes]

variable {sequence : Nat} {t : Bytes}

/-- What an encoded transaction is. -/
theorem encodeTransaction_ok (h : encodeTransaction sha sequence ms = .ok t) :
    t = transactionHeader (transactionSize ms) sequence ms.length ++ encodeBody ms ++
      (sha.hash (transactionHeader (transactionSize ms) sequence ms.length ++ encodeBody ms) ++ commitMagic) ∧
    t.length = transactionSize ms ∧ transactionSize ms ≤ maxTransactionBytes ∧ ms.length < 2 ^ 32 ∧ Valid ms := by
  simp only [encodeTransaction, transactionEncodedLength] at h
  split at h
  · cases h
  rename_i length hlength
  split at hlength
  · cases hlength
  rename_i hcount
  obtain ⟨rfl, hvalid, hmax⟩ := encodedLengthFrom_ok hlength
  cases h
  refine ⟨rfl, ?_, hmax (by decide), Nat.not_le.mp hcount, hvalid⟩
  simp only [length_append, length_transactionHeader, sha.length_hash, transactionSize, commitMagic, length_cons, length_nil]
  have : transactionTrailerBytes = 36 := rfl
  omega

variable {k : Nat}

theorem slice_middle {a b : Bytes} {n : Nat} (ha : a.length = n) (hb : b.length = k) (c : Bytes) :
    ((a ++ (b ++ c)).drop n).take k = b := by
  rw [← ha, drop_left, ← hb, take_left]

/-- The fields of a transaction's header. -/
theorem transactionHeader_fields {count : Nat} (hl : length < 2 ^ 32) (hs : sequence < 2 ^ 64) (hc : count < 2 ^ 32)
    (rest : Bytes) :
    let bytes := transactionHeader length sequence count ++ rest
    bytes.take 4 = transactionMagic ∧ u32At bytes 4 = length ∧ (u64At bytes 8).toNat = sequence ∧ u32At bytes 16 = count ∧
      u32At bytes 20 = 2 ^ 32 - 1 - length := by
  intro bytes
  have hbytes : bytes = transactionMagic ++ (leBytes 4 length ++ (leBytes 8 sequence ++ (leBytes 4 count ++
      (leBytes 4 (2 ^ 32 - 1 - length) ++ rest)))) := by
    simp [bytes, transactionHeader]
  have hread : ∀ (w n : Nat), n < 256 ^ w → ofLe (leBytes w n) = n := by
    intro w n hn
    rw [ofLe_leBytes, Nat.mod_eq_of_lt hn]
  refine ⟨?_, ?_, ?_, ?_, ?_⟩
  · rw [hbytes]
    exact take_left' rfl
  · rw [u32At, hbytes, slice_middle (show transactionMagic.length = 4 from rfl) (length_leBytes _ _), hread 4 _ hl]
  · rw [u64At, hbytes, ← append_assoc, slice_middle (by simp [transactionMagic]) (length_leBytes _ _), ofLeU64, hread 8 _ hs,
      UInt64.toNat_ofNat', Nat.mod_eq_of_lt hs]
  · rw [u32At, hbytes, ← append_assoc, ← append_assoc, slice_middle (by simp [transactionMagic]) (length_leBytes _ _), hread 4 _ hc]
  · rw [u32At, hbytes, ← append_assoc, ← append_assoc, ← append_assoc,
      slice_middle (by simp [transactionMagic]) (length_leBytes _ _), hread 4 _ (by omega)]

theorem readTransaction_encode (torn : Bool) (h : encodeTransaction sha sequence ms = .ok t) (hs : sequence < 2 ^ 64) (rest : Bytes) :
    readTransaction sha torn sequence (t ++ rest) = .ok (some (transactionSize ms, decodedFrom 0 ms)) := by
  obtain ⟨ht, hlength, hmax, hcount, hvalid⟩ := encodeTransaction_ok h
  have hmax' : transactionSize ms < 2 ^ 32 := lt_of_le_of_lt hmax (by decide)
  have hge : transactionHeaderBytes + transactionTrailerBytes ≤ transactionSize ms := Nat.le_add_right _ _
  set header := transactionHeader (transactionSize ms) sequence ms.length with hheader
  set trailer := sha.hash (header ++ encodeBody ms) ++ commitMagic with htrailer
  -- the fields, read from the front of the journal and from the transaction
  have hfields : ∀ tail, _ := fun tail => transactionHeader_fields hmax' hs hcount (encodeBody ms ++ (trailer ++ tail))
  have hassoc : ∀ tail, t ++ tail = header ++ (encodeBody ms ++ (trailer ++ tail)) := by
    rw [ht]
    simp
  obtain ⟨hmagic, hlen, -, -, hcomplement⟩ := hfields rest
  obtain ⟨-, -, hseq, hcnt, -⟩ := hfields []
  rw [← hassoc rest] at hmagic hlen hcomplement
  rw [← hassoc [], append_nil] at hseq hcnt
  have htake : (t ++ rest).take (transactionSize ms) = t := by rw [← hlength, take_left]
  have hout : t.take (transactionSize ms - transactionTrailerBytes) = header ++ encodeBody ms := by
    rw [ht]
    refine take_left' ?_
    rw [length_append, length_transactionHeader, transactionSize]
    omega
  have hdrop : t.drop (transactionSize ms - transactionTrailerBytes) = trailer := by
    rw [ht]
    refine drop_left' ?_
    rw [length_append, length_transactionHeader, transactionSize]
    omega
  have hdone : t.drop (transactionSize ms - 4) = commitMagic := by
    have hsplit : transactionSize ms - 4 = transactionSize ms - transactionTrailerBytes + 32 := by
      have : transactionTrailerBytes = 36 := rfl
      omega
    rw [hsplit, ← drop_drop, hdrop]
    exact drop_left' (sha.length_hash _)
  have hdigest : trailer.take 32 = sha.hash (header ++ encodeBody ms) := take_left' (sha.length_hash _)
  have hbody : (header ++ encodeBody ms).drop transactionHeaderBytes = encodeBody ms :=
    drop_left' (by rw [length_transactionHeader])
  have hbodyLength : (encodeBody ms).length ≤ maxTransactionBytes - transactionHeaderBytes - transactionTrailerBytes := by
    rw [transactionSize] at hmax
    omega
  have hlengthRest : (t ++ rest).length = transactionSize ms + rest.length := by rw [length_append, hlength]
  simp only [readTransaction]
  rw [if_neg (by omega), if_neg (by rw [hmagic]; exact fun h => h rfl), hlen, if_neg (by omega), if_neg (by omega), htake, hseq,
    hdone, hdrop, hdigest, hout, if_neg (by simp), hbody, decodeMutations_encode hvalid hbodyLength]
  simp [hcnt]

theorem u32At_take (bytes : Bytes) {offset : Nat} (h : offset + 4 ≤ k) : u32At (bytes.take k) offset = u32At bytes offset := by
  rw [u32At, u32At, drop_take, take_take, min_eq_left (by omega)]

/-- What a replay takes for the remains of a write that did not end. -/
def Torn (tail : Bytes) : Prop :=
  tail.length < transactionHeaderBytes + transactionTrailerBytes ∨
    tail.take 4 = transactionMagic ∧ u32At tail 20 = 2 ^ 32 - 1 - u32At tail 4 ∧
      transactionHeaderBytes + transactionTrailerBytes ≤ u32At tail 4 ∧ u32At tail 4 ≤ maxTransactionBytes ∧ tail.length < u32At tail 4

theorem torn_nil : Torn [] := .inl (by decide)

/-- Less of a torn tail is a torn tail. -/
theorem Torn.take {tail : Bytes} (h : Torn tail) (k : Nat) : Torn (tail.take k) := by
  have hle : (tail.take k).length ≤ tail.length := length_take_le' k tail
  by_cases hk : (tail.take k).length < transactionHeaderBytes + transactionTrailerBytes
  · exact .inl hk
  have hsizes : transactionHeaderBytes = 24 ∧ transactionTrailerBytes = 36 := ⟨rfl, rfl⟩
  have hk' : 60 ≤ k := by
    rw [length_take] at hk
    omega
  rcases h with h | h
  · exact .inl (lt_of_le_of_lt hle h)
  obtain ⟨hmagic, hcomplement, hge, hmax, hlength⟩ := h
  refine .inr ?_
  rw [take_take, min_eq_left (by omega), u32At_take _ (by omega), u32At_take _ (by omega)]
  exact ⟨hmagic, hcomplement, hge, hmax, lt_of_le_of_lt hle hlength⟩

/-- Every proper prefix of a transaction is a torn tail. -/
theorem torn_of_encode (h : encodeTransaction sha sequence ms = .ok t)
    (hs : sequence < 2 ^ 64) (hk : k < t.length) : Torn (t.take k) := by
  obtain ⟨ht, hlength, hmax, hcount, -⟩ := encodeTransaction_ok h
  have hmax' : transactionSize ms < 2 ^ 32 := lt_of_le_of_lt hmax (by decide)
  have hsizes : transactionHeaderBytes = 24 ∧ transactionTrailerBytes = 36 := ⟨rfl, rfl⟩
  have hk' : (t.take k).length = k := by rw [length_take]; omega
  by_cases hlarge : k < transactionHeaderBytes + transactionTrailerBytes
  · exact .inl (by omega)
  obtain ⟨hmagic, hlen, -, -, hcomplement⟩ := transactionHeader_fields hmax' hs hcount
    (encodeBody ms ++ (sha.hash (transactionHeader (transactionSize ms) sequence ms.length ++ encodeBody ms) ++ commitMagic))
  rw [← append_assoc, ← ht] at hmagic hlen hcomplement
  refine .inr ?_
  rw [take_take, min_eq_left (by omega), u32At_take _ (by omega), u32At_take _ (by omega), hmagic, hlen, hcomplement]
  exact ⟨rfl, rfl, by omega, by omega, by omega⟩

theorem readTransaction_torn (sha : Digest) (next : Nat) : readTransaction sha true next rest = .ok none ↔ Torn rest := by
  simp only [readTransaction, if_true]
  split
  · rename_i hshort
    exact ⟨fun _ => .inl hshort, fun _ => rfl⟩
  rename_i hlarge
  split
  · rename_i hmagic
    exact ⟨fun h => (by cases h), fun h => h.elim (fun h => absurd h hlarge) fun h => absurd h.1 hmagic⟩
  rename_i hmagic
  split
  · refine ⟨fun h => (by cases h), fun h => h.elim (fun h => absurd h hlarge) fun h => ?_⟩
    omega
  split
  · rename_i hshort
    exact ⟨fun _ => .inr ⟨not_not.mp hmagic, by omega, by omega, by omega, hshort⟩, fun _ => rfl⟩
  rename_i hfull
  refine ⟨fun h => ?_, fun h => h.elim (fun h => absurd h hlarge) fun h => absurd h.2.2.2.2 hfull⟩
  repeat' split at h
  all_goals cases h

/-- A transaction is read from its own bytes. -/
theorem readTransaction_congr {torn : Bool} {rest' : Bytes}
    (h : readTransaction sha torn next rest = .ok (some (length, records))) (htake : rest'.take length = rest.take length)
    (hlength' : length ≤ rest'.length) : readTransaction sha torn next rest' = .ok (some (length, records)) := by
  obtain ⟨hge, hle⟩ := readTransaction_length h
  have hsizes : transactionHeaderBytes = 24 ∧ transactionTrailerBytes = 36 := ⟨rfl, rfl⟩
  have hfield : ∀ offset, offset + 4 ≤ 60 → u32At rest' offset = u32At rest offset := by
    intro offset hoffset
    rw [← u32At_take rest' (k := length) (by omega), htake, u32At_take _ (by omega)]
  have hmagic : rest'.take 4 = rest.take 4 := by
    have := congrArg (List.take 4) htake
    rwa [take_take, take_take, min_eq_left (by omega)] at this
  have hlength : u32At rest 4 = length := by
    simp only [readTransaction] at h
    repeat' split at h
    all_goals cases h
    rfl
  simp only [readTransaction, hfield 4 (by omega), hfield 20 (by omega), hmagic, hlength, htake] at h ⊢
  rw [if_neg (by omega)] at h ⊢
  rw [if_neg (show ¬rest.length < length by omega)] at h
  rw [if_neg (show ¬rest'.length < length by omega)]
  exact h

variable {acc' acc : OverlayState × γ} {r : Replay γ} {start : Nat}

/-- One transaction of a replay. -/
theorem replay_step (hread : readTransaction sha r.allowTornTail next rest = .ok (some (length, records)))
    (hrecords : replayRecords sha r start acc records = .ok acc') (hs : next + 1 < 2 ^ 64) :
    replay sha r rest start next acc = replay sha r (rest.drop length) (start + length) (next + 1) acc' := by
  obtain ⟨hge, hle⟩ := readTransaction_length hread
  have hne : ¬rest = [] := by
    rintro rfl
    have : transactionHeaderBytes = 24 := rfl
    rw [length_nil] at hle
    omega
  rw [replay, if_neg hne]
  split <;> rename_i he <;> rw [hread] at he <;> cases he
  rw [hrecords]
  simp only [if_pos hs]

/-! ## Replay of encoded transactions -/

/-- What a mutation at `offset` of the journal is published as. -/
def Mutation.prepared (sha : Digest) (hasCheckpoint : Bool) (offset : Nat) : Mutation → PreparedOverlayMutation
  | .put (.fileBlock inode block) value => .block ⟨inode, block⟩ (some ⟨offset, sha.hash value⟩)
  | .delete (.fileBlock inode block) => .block ⟨inode, block⟩ none
  | .put (.fileZeroFrom inode) value => .zero inode (ofLeU64 value) hasCheckpoint
  | .put key value => .metadata key (some value)
  | .delete key => .metadata key none

/-- Where the value of a record is that starts `consumed` bytes into the body of the transaction at `start`. -/
def valuePosition (start consumed : Nat) (m : Mutation) : Nat :=
  start + transactionHeaderBytes + (consumed + (23 + m.key.name.length))

def applyMutations (sha : Digest) (hasCheckpoint : Bool) (start : Nat) : Nat → OverlayState → List Mutation → OverlayState
  | _, s, [] => s
  | consumed, s, m :: ms =>
    applyMutations sha hasCheckpoint start (consumed + (encodeMutation m).length)
      (s.publish (m.prepared sha hasCheckpoint (valuePosition start consumed m))) ms

/-- The state after whole transactions, the first of which is at `start`. -/
def applyTransactions (sha : Digest) (hasCheckpoint : Bool) : Nat → OverlayState → List (List Mutation) → OverlayState
  | _, s, [] => s
  | start, s, ms :: txs =>
    applyTransactions sha hasCheckpoint (start + transactionSize ms) (applyMutations sha hasCheckpoint start 0 s ms) txs

def transactionsSize (txs : List (List Mutation)) : Nat := (txs.map transactionSize).sum

theorem ownedKey_decodedOf (m : Mutation) (consumed : Nat) : (decodedOf m consumed).ownedKey = .ok m.key := by
  rcases hm : m.key with i | i | i | ⟨i, b⟩ | ⟨p, n⟩ <;>
    simp [ownedKey, decodedOf, hm, keyKind, OverlayKey.owner, OverlayKey.block, OverlayKey.name]

theorem prepareRecord_decodedOf (sha : Digest) {m : Mutation} (h : validateMutation m = .ok ()) (hasCheckpoint : Bool)
    (start consumed : Nat) :
    prepareRecord sha (decodedOf m consumed) ((decodedOf m consumed).valueOffset.map fun offset => start + transactionHeaderBytes + offset)
      hasCheckpoint = .ok (m.prepared sha hasCheckpoint (valuePosition start consumed m)) := by
  have hkey := ownedKey_decodedOf m consumed
  obtain ⟨-, hvalue, hdelete⟩ := validateMutation_ok h
  simp only [prepareRecord]
  rcases m with ⟨key, value⟩ | ⟨key⟩
  · rcases key with i | i | i | ⟨i, b⟩ | ⟨p, n⟩
    case fileBlock =>
      simp [decodedOf, isBlock, Mutation.key, Mutation.value, keyKind, Mutation.prepared, OverlayKey.owner,
        OverlayKey.block, valuePosition]
    case fileZeroFrom =>
      have hlength : value.length = 8 := by simpa [valueOk, Mutation.key] using hvalue value rfl
      rw [hkey]
      simp [decodedOf, isBlock, Mutation.key, Mutation.value, keyKind, Mutation.prepared, hlength]
    all_goals
      rw [hkey]
      simp [decodedOf, isBlock, Mutation.key, Mutation.value, keyKind, Mutation.prepared]
  · rcases key with i | i | i | ⟨i, b⟩ | ⟨p, n⟩
    case fileBlock =>
      simp [decodedOf, isBlock, Mutation.key, Mutation.value, keyKind, Mutation.prepared, OverlayKey.owner, OverlayKey.block]
    case fileZeroFrom => exact absurd rfl (hdelete rfl)
    all_goals
      rw [hkey]
      simp [decodedOf, isBlock, Mutation.key, Mutation.value, keyKind, Mutation.prepared]

/-- A full replay: every record is applied and none is checked. -/
def replayAll (allowTornTail hasCheckpoint : Bool) : Replay Unit := ⟨.all, allowTornTail, hasCheckpoint, none⟩

theorem replayRecord_all {m : Mutation} (h : validateMutation m = .ok ()) (torn hasCheckpoint : Bool) (start consumed : Nat)
    (s : OverlayState) : replayRecord sha (replayAll torn hasCheckpoint) start (s, ()) (decodedOf m consumed) =
      .ok (s.publish (m.prepared sha hasCheckpoint (valuePosition start consumed m)), ()) := by
  have hprepared := prepareRecord_decodedOf sha h hasCheckpoint start consumed
  simp [replayRecord, replayAll, OverlayState.apply, hprepared]

theorem replayRecords_all (h : Valid ms) (torn hasCheckpoint : Bool) (start : Nat) :
    ∀ consumed s, replayRecords sha (replayAll torn hasCheckpoint) start (s, ()) (decodedFrom consumed ms) =
      .ok (applyMutations sha hasCheckpoint start consumed s ms, ()) := by
  induction ms with
  | nil => exact fun _ _ => rfl
  | cons m ms ih =>
    intro consumed s
    rw [decodedFrom, replayRecords, replayRecord_all (h m mem_cons_self)]
    exact ih (fun x hx => h x (mem_cons_of_mem _ hx)) _ _

/-- One encoded transaction is applied, and the replay goes on behind it. -/
theorem replay_encode (h : encodeTransaction sha sequence ms = .ok t)
    (hs : sequence + 1 < 2 ^ 64) (torn hasCheckpoint : Bool) (rest : Bytes) (start : Nat) (s : OverlayState) :
    replay sha (replayAll torn hasCheckpoint) (t ++ rest) start sequence (s, ()) =
      replay sha (replayAll torn hasCheckpoint) rest (start + transactionSize ms) (sequence + 1)
        (applyMutations sha hasCheckpoint start 0 s ms, ()) := by
  obtain ⟨-, hlength, -, -, hvalid⟩ := encodeTransaction_ok h
  rw [replay_step (readTransaction_encode torn h (by omega) rest) (replayRecords_all hvalid torn hasCheckpoint start 0 s) hs, ← hlength,
    drop_left]

/-- A torn tail ends the replay. -/
theorem replay_torn {tail : Bytes} (h : Torn tail) (hr : r.allowTornTail) (start next : Nat)
    (acc : OverlayState × γ) : replay sha r tail start next acc = .ok (start, next, acc) := by
  have hread := (readTransaction_torn sha next).mpr h
  rw [← hr] at hread
  rw [replay]
  split
  · rfl
  split <;> rename_i he <;> rw [hread] at he <;> cases he

/-- A replay that takes all of its bytes goes on behind them. -/
theorem replay_append {journal : Bytes} {next' : Nat}
    (h : replay sha r journal start next acc = .ok (start + journal.length, next', acc')) (tail : Bytes) :
    replay sha r (journal ++ tail) start next acc = replay sha r tail (start + journal.length) next' acc' := by
  fun_induction replay sha r journal start next acc with
  | case1 start next acc =>
    cases h
    rfl
  | case2 => cases h
  | case3 journal start next acc hne =>
    have hlength := congrArg (fun r => r.map (·.1)) h
    simp [Except.map] at hlength
    exact absurd hlength hne
  | case4 => cases h
  | case5 journal start next acc hne length records hread acc₁ hrecords hseq ih =>
    obtain ⟨-, hle⟩ := readTransaction_length hread
    have hdrop : start + length + (journal.drop length).length = start + journal.length := by
      rw [length_drop]
      omega
    have hread' : readTransaction sha r.allowTornTail next (journal ++ tail) = .ok (some (length, records)) :=
      readTransaction_congr hread (take_append_of_le_length hle) (by rw [length_append]; omega)
    rw [replay_step hread' hrecords hseq, drop_append_of_le_length hle, ih (by rw [hdrop]; exact h), hdrop]
  | case6 => cases h

/-- A replay takes whole transactions and stops at a torn tail. -/
theorem replay_ok {journal : Bytes} {stop next' : Nat} (h : replay sha r journal start next acc = .ok (stop, next', acc')) :
    ∃ taken tail, journal = taken ++ tail ∧ stop = start + taken.length ∧
      replay sha r taken start next acc = .ok (stop, next', acc') ∧ (tail ≠ [] → Torn tail) := by
  fun_induction replay sha r journal start next acc with
  | case1 start next acc =>
    cases h
    refine ⟨[], [], rfl, rfl, ?_, fun h => absurd rfl h⟩
    rw [replay, if_pos rfl]
  | case2 => cases h
  | case3 journal start next acc hne hread =>
    cases h
    refine ⟨[], journal, rfl, rfl, ?_, fun _ => ?_⟩
    · rw [replay, if_pos rfl]
    by_cases htorn : r.allowTornTail
    · rw [htorn] at hread
      exact (readTransaction_torn sha _).mp hread
    rw [Bool.not_eq_true] at htorn
    rw [htorn] at hread
    simp only [readTransaction, Bool.false_eq_true, if_false] at hread
    repeat' split at hread
    all_goals cases hread
  | case4 => cases h
  | case5 journal start next acc hne length records hread acc₁ hrecords hseq ih =>
    obtain ⟨hge, hle⟩ := readTransaction_length hread
    obtain ⟨taken, tail, hjournal, hstop, htaken, htail⟩ := ih h
    have hlength : (journal.take length).length = length := by rw [length_take, min_eq_left hle]
    have hread' : readTransaction sha r.allowTornTail next (journal.take length ++ taken) = .ok (some (length, records)) := by
      refine readTransaction_congr hread ?_ (by rw [length_append]; omega)
      exact take_left' hlength
    refine ⟨journal.take length ++ taken, tail, ?_, ?_, ?_, htail⟩
    · rw [append_assoc, ← hjournal, take_append_drop]
    · rw [hstop, length_append, length_take, min_eq_left hle, add_assoc]
    · rw [replay_step hread' hrecords hseq, drop_left' hlength]
      exact htaken
  | case6 => cases h

end Kandelo.Overlay

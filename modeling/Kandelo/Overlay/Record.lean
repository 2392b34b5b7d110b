/-
The records of the overlay journal: the keys of what an overlay replaces, the mutations of a
transaction, and their bytes (`encode_key`, `decode_mutation`).

`decodeMutation_encode` is the round trip of one record; `decodeMutations_encode` that of the
body of a transaction, with the place of every value in it.
-/
import Kandelo.Errno
import Kandelo.Lib.OrdMap
import Kandelo.Lib.Wire

namespace Kandelo.Overlay

open List Wire

abbrev Bytes := List UInt8

def fileBlockBytes : Nat := 4096
def headerBytes : Nat := 72
def transactionHeaderBytes : Nat := 24
def transactionTrailerBytes : Nat := 36
def maxTransactionBytes : Nat := 1024 * 1024

/-! ## Keys -/

inductive OverlayKey
  | inode (inode : UInt64)
  | fileSize (inode : UInt64)
  | fileZeroFrom (inode : UInt64)
  | fileBlock (inode block : UInt64)
  | dirent (parent : UInt64) (name : Bytes)
  deriving DecidableEq

namespace OverlayKey

def rank : OverlayKey → Nat
  | .inode _ => 0
  | .fileSize _ => 1
  | .fileZeroFrom _ => 2
  | .fileBlock _ _ => 3
  | .dirent _ _ => 4

/-- The first field of every kind of key. -/
def owner : OverlayKey → UInt64
  | .inode i | .fileSize i | .fileZeroFrom i | .fileBlock i _ | .dirent i _ => i

def block : OverlayKey → UInt64
  | .fileBlock _ b => b
  | _ => 0

def name : OverlayKey → Bytes
  | .dirent _ n => n
  | _ => []

/-- The derived order: by kind, then by the fields. -/
instance : Ord OverlayKey :=
  ⟨compareLex (compareOn rank) (compareLex (compareOn owner) (compareLex (compareOn block) (compareOn name)))⟩

instance : Std.TransOrd OverlayKey :=
  inferInstanceAs (Std.TransCmp
    (compareLex (compareOn rank) (compareLex (compareOn owner) (compareLex (compareOn block) (compareOn name)))))

def isBlock : OverlayKey → Bool
  | .fileBlock _ _ => true
  | _ => false

end OverlayKey

inductive Mutation
  | put (key : OverlayKey) (value : Bytes)
  | delete (key : OverlayKey)
  deriving DecidableEq

namespace Mutation

def key : Mutation → OverlayKey
  | put key _ | delete key => key

def value : Mutation → Option Bytes
  | put _ value => some value
  | delete _ => none

end Mutation

/-! ## Numbers -/

def leU64 (n : UInt64) : Bytes := leBytes 8 n.toNat

def ofLeU64 (bs : Bytes) : UInt64 := UInt64.ofNat (ofLe bs)

@[simp] theorem length_leU64 (n : UInt64) : (leU64 n).length = 8 := length_leBytes 8 n.toNat

theorem ofLeU64_leU64 (n : UInt64) : ofLeU64 (leU64 n) = n := by
  have hlt : n.toNat % 256 ^ 8 = n.toNat := Nat.mod_eq_of_lt n.toNat_lt
  rw [ofLeU64, leU64, ofLe_leBytes, hlt, UInt64.ofNat_toNat]

/-- `from_le_bytes` of a slice. -/
def u64At (bytes : Bytes) (offset : Nat) : UInt64 := ofLeU64 ((bytes.drop offset).take 8)

def u32At (bytes : Bytes) (offset : Nat) : Nat := ofLe ((bytes.drop offset).take 4)

def byteAt (bytes : Bytes) (offset : Nat) : UInt8 := bytes.getD offset 0

/-! ## What a key and a value may be -/

def dot : Bytes := [46]
def dotDot : Bytes := [46, 46]
def slash : UInt8 := 47

def direntNameOk (name : Bytes) : Bool :=
  !name.isEmpty && name != dot && name != dotDot && !name.any fun byte => byte == 0 || byte == slash

def validateDirentName (parent : UInt64) (name : Bytes) : Except Errno Unit :=
  if parent ≠ 0 ∧ name.length ≤ 255 ∧ direntNameOk name then .ok () else .error .EINVAL

def validateKey : OverlayKey → Except Errno Unit
  | .inode i | .fileSize i | .fileZeroFrom i | .fileBlock i _ => if i ≠ 0 then .ok () else .error .EINVAL
  | .dirent parent name => validateDirentName parent name

def valueOk : OverlayKey → Bytes → Bool
  | .inode _, value => !value.isEmpty && decide (value.length ≤ 4096)
  | .fileSize _, value | .fileZeroFrom _, value => value.length == 8
  | .fileBlock _ _, value => value.length == fileBlockBytes
  | .dirent _ _, value => value.length == 8 && ofLeU64 value != 0

def validateMutation : Mutation → Except Errno Unit
  | .put key value =>
    match validateKey key with
    | .error e => .error e
    | .ok () => if valueOk key value then .ok () else .error .EINVAL
  | .delete (.fileZeroFrom _) => .error .EINVAL
  | .delete key => validateKey key

/-! ## Bytes of a record -/

def keyKind : OverlayKey → UInt8
  | .inode _ => 1
  | .fileSize _ => 4
  | .fileZeroFrom _ => 5
  | .fileBlock _ _ => 2
  | .dirent _ _ => 3

def encodeKey (key : OverlayKey) : Bytes :=
  keyKind key :: leU64 key.owner ++ leU64 key.block ++ [UInt8.ofNat key.name.length] ++ key.name

def encodeMutation : Mutation → Bytes
  | .put key value => 1 :: encodeKey key ++ leBytes 4 value.length ++ value
  | .delete key => 2 :: encodeKey key ++ leBytes 4 0

structure DecodedMutation where
  kind : UInt8
  inode : UInt64
  block : UInt64
  name : Bytes
  value : Option Bytes
  valueOffset : Option Nat
  deriving DecidableEq

namespace DecodedMutation

def isBlock (m : DecodedMutation) : Bool := m.kind == 2

def ownedKey (m : DecodedMutation) : Except Errno OverlayKey :=
  if m.kind = 1 then .ok (.inode m.inode)
  else if m.kind = 2 then .ok (.fileBlock m.inode m.block)
  else if m.kind = 3 then .ok (.dirent m.inode m.name)
  else if m.kind = 4 then .ok (.fileSize m.inode)
  else if m.kind = 5 then .ok (.fileZeroFrom m.inode)
  else .error Errno.EIO

end DecodedMutation

/-- The key part of `decode_mutation`'s check. -/
def decodedKeyOk (kind : UInt8) (inode block : UInt64) (name : Bytes) : Bool :=
  inode != 0 &&
    if kind = 1 ∨ kind = 4 ∨ kind = 5 then block == 0 && name.isEmpty
    else if kind = 2 then name.isEmpty
    else if kind = 3 then block == 0 && direntNameOk name
    else false

/-- The value part, for a put. -/
def decodedValueOk (kind : UInt8) (value : Bytes) : Bool :=
  if kind = 1 then !value.isEmpty && decide (value.length ≤ 4096)
  else if kind = 2 then value.length == fileBlockBytes
  else if kind = 3 then value.length == 8 && value != List.replicate 8 0
  else if kind = 4 ∨ kind = 5 then value.length == 8
  else false

/-- One record at the front of `bytes`, `consumed` bytes into the body; and where the next starts. -/
def decodeMutation (bytes : Bytes) (consumed : Nat) : Except Errno (DecodedMutation × Nat) :=
  if bytes.length < 23 then .error Errno.EIO
  else
    let operation := byteAt bytes 0
    let kind := byteAt bytes 1
    let inode := u64At bytes 2
    let block := u64At bytes 10
    let nameLength := (byteAt bytes 18).toNat
    let rest := bytes.drop 19
    if rest.length < nameLength + 4 then .error Errno.EIO
    else
      let name := rest.take nameLength
      let rest := rest.drop nameLength
      let valueLength := u32At rest 0
      let rest := rest.drop 4
      if rest.length < valueLength then .error Errno.EIO
      else if !decodedKeyOk kind inode block name then .error Errno.EIO
      else
        let valueStart := consumed + (23 + nameLength)
        let next := valueStart + valueLength
        if operation = 1 then
          if decodedValueOk kind (rest.take valueLength) then
            .ok (⟨kind, inode, block, name, some (rest.take valueLength), some valueStart⟩, next)
          else .error Errno.EIO
        else if operation = 2 ∧ valueLength = 0 ∧ kind ≠ 5 then .ok (⟨kind, inode, block, name, none, none⟩, next)
        else .error Errno.EIO

/-! ## The round trip of one record -/

/-- What a mutation is decoded to, `consumed` bytes into the body. -/
def decodedOf (m : Mutation) (consumed : Nat) : DecodedMutation :=
  ⟨keyKind m.key, m.key.owner, m.key.block, m.key.name, m.value, m.value.map fun _ => consumed + (23 + m.key.name.length)⟩

def operationOf : Mutation → UInt8
  | .put _ _ => 1
  | .delete _ => 2

/-- The fields in their order. -/
theorem encodeMutation_eq (m : Mutation) (rest : Bytes) :
    encodeMutation m ++ rest = operationOf m :: keyKind m.key :: (leU64 m.key.owner ++ (leU64 m.key.block ++
      (UInt8.ofNat m.key.name.length :: (m.key.name ++ (leBytes 4 (m.value.getD []).length ++ (m.value.getD [] ++ rest)))))) := by
  cases m <;>
    simp [encodeMutation, encodeKey, operationOf, Mutation.key, Mutation.value]

theorem length_encodeMutation (m : Mutation) : (encodeMutation m).length = 23 + m.key.name.length + (m.value.getD []).length := by
  have h := congrArg List.length (encodeMutation_eq m [])
  simp only [length_cons, length_append, length_leU64, length_leBytes] at h
  omega

theorem validateMutation_ok {m : Mutation} (h : validateMutation m = .ok ()) :
    validateKey m.key = .ok () ∧ (∀ v, m.value = some v → valueOk m.key v) ∧ (m.value = none → keyKind m.key ≠ 5) := by
  cases m with
  | put key value =>
    simp only [validateMutation] at h
    split at h
    · cases h
    rename_i hkey
    split at h
    · rename_i hvalue
      refine ⟨hkey, fun v hv => ?_, nofun⟩
      cases hv
      exact hvalue
    · cases h
  | delete key =>
    cases key with
    | fileZeroFrom i => cases h
    | _ => exact ⟨h, nofun, fun _ => by simp [keyKind, Mutation.key]⟩

theorem decodedKeyOk_of_valid {key : OverlayKey} (h : validateKey key = .ok ()) :
    decodedKeyOk (keyKind key) key.owner key.block key.name ∧ key.name.length ≤ 255 := by
  have howner : ∀ {i : UInt64}, (if i ≠ 0 then (.ok () : Except Errno Unit) else .error .EINVAL) = .ok () → i ≠ 0 := by
    intro i hi
    split at hi
    · rename_i hne
      exact hne
    · cases hi
  cases key with
  | dirent parent name =>
    obtain ⟨hparent, hlength, hname⟩ : parent ≠ 0 ∧ name.length ≤ 255 ∧ direntNameOk name := by
      by_contra hnot
      simp [validateKey, validateDirentName, hnot] at h
    refine ⟨?_, hlength⟩
    simp [decodedKeyOk, keyKind, OverlayKey.owner, OverlayKey.block, OverlayKey.name, hparent, hname]
  | _ => simp [decodedKeyOk, keyKind, OverlayKey.owner, OverlayKey.block, OverlayKey.name, howner h]

theorem decodedValueOk_of_valid {key : OverlayKey} {value : Bytes} (h : valueOk key value) :
    decodedValueOk (keyKind key) value ∧ value.length ≤ 4096 := by
  cases key with
  | inode i =>
    simp only [valueOk, Bool.and_eq_true, decide_eq_true_eq] at h
    exact ⟨by simpa [decodedValueOk, keyKind] using h, h.2⟩
  | fileSize | fileZeroFrom =>
    simp only [valueOk, beq_iff_eq] at h
    exact ⟨by simp [decodedValueOk, keyKind, h], by omega⟩
  | fileBlock i b =>
    simp only [valueOk, beq_iff_eq] at h
    exact ⟨by simp [decodedValueOk, keyKind, h], by rw [h]; decide⟩
  | dirent p n =>
    simp only [valueOk, Bool.and_eq_true, beq_iff_eq, bne_iff_ne] at h
    refine ⟨?_, by omega⟩
    have hne : value ≠ List.replicate 8 0 := by
      rintro rfl
      exact h.2 (by decide)
    simpa [decodedValueOk, keyKind, h.1] using hne

/-- The fixed part of a record. -/
theorem fixed_fields (operation kind nameLength : UInt8) {owner block : Bytes} (ho : owner.length = 8) (hb : block.length = 8)
    (rest : Bytes) :
    let bytes := operation :: kind :: (owner ++ (block ++ (nameLength :: rest)))
    u64At bytes 2 = ofLeU64 owner ∧ u64At bytes 10 = ofLeU64 block ∧ byteAt bytes 18 = nameLength ∧ bytes.drop 19 = rest := by
  have hdrop : ∀ t : Bytes, (operation :: kind :: (owner ++ t)).drop 10 = t := by
    intro t
    rw [drop_succ_cons, drop_succ_cons, ← ho, drop_left]
  have hdrop' : ∀ t : Bytes, (operation :: kind :: (owner ++ (block ++ t))).drop 18 = t := by
    intro t
    rw [show (18 : Nat) = 10 + 8 from rfl, ← drop_drop, hdrop, ← hb, drop_left]
  refine ⟨?_, ?_, ?_, ?_⟩
  · rw [u64At, drop_succ_cons, drop_succ_cons, drop_zero, ← ho, take_left]
  · rw [u64At, hdrop, ← hb, take_left]
  · have := hdrop' (nameLength :: rest)
    rw [byteAt, getD_eq_getElem?_getD, ← add_zero 18, ← getElem?_drop, this]
    rfl
  · rw [show (19 : Nat) = 18 + 1 from rfl, ← drop_drop, hdrop']
    rfl

theorem decodeMutation_encode {m : Mutation} (h : validateMutation m = .ok ()) (rest : Bytes) (consumed : Nat) :
    decodeMutation (encodeMutation m ++ rest) consumed = .ok (decodedOf m consumed, consumed + (encodeMutation m).length) := by
  obtain ⟨hkey, hvalue, hdelete⟩ := validateMutation_ok h
  obtain ⟨hkeyOk, hname⟩ := decodedKeyOk_of_valid hkey
  have hlength : (m.value.getD []).length ≤ 4096 := by
    cases hv : m.value with
    | none => exact Nat.zero_le _
    | some v => exact (decodedValueOk_of_valid (hvalue v hv)).2
  have hnl : (UInt8.ofNat m.key.name.length).toNat = m.key.name.length := by
    exact Nat.mod_eq_of_lt (by omega)
  have hvl : ofLe (leBytes 4 (m.value.getD []).length) = (m.value.getD []).length := by
    rw [ofLe_leBytes]
    exact Nat.mod_eq_of_lt (by omega)
  rw [length_encodeMutation, encodeMutation_eq]
  set tail := m.key.name ++ (leBytes 4 (m.value.getD []).length ++ (m.value.getD [] ++ rest)) with htail
  obtain ⟨hinode, hblock, hnameByte, hdrop⟩ := fixed_fields (operationOf m) (keyKind m.key)
    (UInt8.ofNat m.key.name.length) (length_leU64 m.key.owner) (length_leU64 m.key.block) tail
  have hnameTake : tail.take m.key.name.length = m.key.name := take_left
  have hnameDrop : tail.drop m.key.name.length = leBytes 4 (m.value.getD []).length ++ (m.value.getD [] ++ rest) := drop_left
  have hvalueLength : u32At (tail.drop m.key.name.length) 0 = (m.value.getD []).length := by
    rw [hnameDrop, u32At, drop_zero, take_append_of_le_length (by rw [length_leBytes]), take_of_length_le (by rw [length_leBytes]), hvl]
  have hvalueDrop : (tail.drop m.key.name.length).drop 4 = m.value.getD [] ++ rest := by
    rw [hnameDrop]
    exact drop_left' (length_leBytes 4 _)
  have htailLength : m.key.name.length + 4 + (m.value.getD []).length ≤ tail.length := by
    rw [htail]
    simp only [length_append, length_leBytes]
    omega
  have htotal : ¬(operationOf m :: keyKind m.key :: (leU64 m.key.owner ++ (leU64 m.key.block ++
      (UInt8.ofNat m.key.name.length :: tail)))).length < 23 := by
    simp only [length_cons, length_append, length_leU64]
    omega
  rw [decodeMutation, if_neg htotal]
  simp only [hinode, hblock, hnameByte, hdrop, hnl, hnameTake, hvalueLength, hvalueDrop, ofLeU64_leU64]
  rw [if_neg (by omega), if_neg (by rw [length_append]; omega), show byteAt _ 0 = operationOf m from rfl,
    show byteAt _ 1 = keyKind m.key from rfl, hkeyOk]
  simp only [Bool.not_true, Bool.false_eq_true, if_false, take_left]
  cases hm : m.value with
  | some v =>
    have hop : operationOf m = 1 := by cases m <;> simp_all [operationOf, Mutation.value]
    rw [if_pos hop, Option.getD_some, if_pos (decodedValueOk_of_valid (hvalue v hm)).1]
    simp only [decodedOf, hm, Option.map_some]
    rw [add_assoc]
  | none =>
    have hop : operationOf m = 2 := by cases m <;> simp_all [operationOf, Mutation.value]
    rw [if_neg (by rw [hop]; decide), if_pos ⟨hop, rfl, hdelete hm⟩]
    simp only [decodedOf, hm, Option.map_none, Option.getD_none]
    rw [add_assoc]

/-! ## The body of a transaction -/

/-- A record takes at least its fixed part. -/
theorem decodeMutation_next {bytes : Bytes} {consumed next : Nat} {m : DecodedMutation}
    (h : decodeMutation bytes consumed = .ok (m, next)) : consumed + 23 ≤ next := by
  simp only [decodeMutation] at h
  repeat' split at h
  all_goals cases h
  all_goals omega

/-- `decode_mutations`, from a record on. -/
def decodeRecords (bytes : Bytes) (consumed : Nat) : Except Errno (List DecodedMutation) :=
  if bytes = [] then .ok []
  else
    match h : decodeMutation bytes consumed with
    | .error e => .error e
    | .ok (m, next) =>
      match decodeRecords (bytes.drop (next - consumed)) next with
      | .error e => .error e
      | .ok ms => .ok (m :: ms)
termination_by bytes.length
decreasing_by
  have hnext := decodeMutation_next h
  have : 0 < bytes.length := List.length_pos_iff.mpr ‹_›
  rw [List.length_drop]
  omega

def decodeMutations (body : Bytes) : Except Errno (List DecodedMutation) :=
  if maxTransactionBytes - transactionHeaderBytes - transactionTrailerBytes < body.length then .error Errno.EIO
  else decodeRecords body 0

def encodeBody (ms : List Mutation) : Bytes := ms.flatMap encodeMutation

/-- What a body is decoded to, record by record. -/
def decodedFrom : Nat → List Mutation → List DecodedMutation
  | _, [] => []
  | consumed, m :: ms => decodedOf m consumed :: decodedFrom (consumed + (encodeMutation m).length) ms

@[simp] theorem length_decodedFrom (ms : List Mutation) : ∀ consumed, (decodedFrom consumed ms).length = ms.length := by
  induction ms with
  | nil => exact fun _ => rfl
  | cons m ms ih => exact fun consumed => congrArg (· + 1) (ih _)

theorem decodeRecords_encode {ms : List Mutation} (h : ∀ m ∈ ms, validateMutation m = .ok ()) :
    ∀ consumed, decodeRecords (encodeBody ms) consumed = .ok (decodedFrom consumed ms) := by
  induction ms with
  | nil =>
    intro consumed
    rw [decodeRecords]
    rfl
  | cons m ms ih =>
    intro consumed
    have hbody : encodeBody (m :: ms) = encodeMutation m ++ encodeBody ms := rfl
    have hne : ¬encodeMutation m ++ encodeBody ms = [] := by
      intro he
      have := congrArg List.length he
      rw [length_append, length_encodeMutation] at this
      simp at this
    have hone := decodeMutation_encode (h m mem_cons_self) (encodeBody ms) consumed
    rw [hbody, decodeRecords, if_neg hne]
    split
    · rename_i e he
      rw [hone] at he
      cases he
    rename_i m' next he
    rw [hone] at he
    cases he
    rw [Nat.add_sub_cancel_left, drop_left, ih fun x hx => h x (mem_cons_of_mem _ hx)]
    rfl

theorem decodeMutations_encode {ms : List Mutation} (h : ∀ m ∈ ms, validateMutation m = .ok ())
    (hlength : (encodeBody ms).length ≤ maxTransactionBytes - transactionHeaderBytes - transactionTrailerBytes) :
    decodeMutations (encodeBody ms) = .ok (decodedFrom 0 ms) := by
  rw [decodeMutations, if_neg (Nat.not_lt.mpr hlength), decodeRecords_encode h]

end Kandelo.Overlay

/-
Ids of exchange items (`exchange/ids.rs`): the time, a counter and the nonce of the mount in 128
bits, kept here as two halves whose order is that of the 16 bytes (`bytes_lt_iff`).

Only the counter tells the ids of a mount apart, and `validate` does not look at the time. The time
is clamped before it is cut to 48 bits, so past that range the order of the ids is lost.
-/
import Kandelo.Errno

namespace Kandelo.Exchange

abbrev ExchangeId := Nat ×ₗ Nat

/-- `to_be_bytes` of an integer of `n` bytes, before `rest`. -/
def beBytes : Nat → Nat → List UInt8 → List UInt8
  | 0, _, rest => rest
  | n + 1, v, rest => UInt8.ofNat (v / 256 ^ n) :: beBytes n (v % 256 ^ n) rest

/-- The 16 bytes of an id. -/
def bytes (id : ExchangeId) : List UInt8 := beBytes 8 (ofLex id).1 (beBytes 8 (ofLex id).2 [])

theorem beBytes_lt_iff {rest rest' : List UInt8} : ∀ {n v v' : Nat}, v < 256 ^ n → v' < 256 ^ n →
    (beBytes n v rest < beBytes n v' rest' ↔ v < v' ∨ v = v' ∧ rest < rest')
  | 0, v, v', h, h' => by
    obtain ⟨rfl, rfl⟩ : v = 0 ∧ v' = 0 := by omega
    simp [beBytes]
  | n + 1, v, v', h, h' => by
    have hmod : ∀ x, x % 256 ^ n < 256 ^ n := fun x => Nat.mod_lt x (by positivity)
    have hdigit : ∀ {x}, x < 256 ^ (n + 1) → (UInt8.ofNat (x / 256 ^ n)).toNat = x / 256 ^ n := fun hx => by
      rw [UInt8.toNat_ofNat', Nat.mod_eq_of_lt (Nat.div_lt_of_lt_mul (by rwa [pow_succ] at hx))]
    have hv := Nat.div_add_mod v (256 ^ n)
    have hv' := Nat.div_add_mod v' (256 ^ n)
    rw [beBytes, beBytes, List.cons_lt_cons_iff, beBytes_lt_iff (hmod v) (hmod v'), UInt8.lt_iff_toNat_lt,
      ← UInt8.toNat_inj, hdigit h, hdigit h']
    rcases Nat.lt_trichotomy (v / 256 ^ n) (v' / 256 ^ n) with hlt | heq | hgt
    · simp [hlt, Nat.lt_of_div_lt_div hlt]
    · have hlt : v < v' ↔ v % 256 ^ n < v' % 256 ^ n := by rw [heq] at hv; omega
      have hsame : v = v' ↔ v % 256 ^ n = v' % 256 ^ n := by rw [heq] at hv; omega
      simp [heq, hlt, hsame]
    · have hback := Nat.lt_of_div_lt_div hgt
      simp [hgt.not_gt, hgt.ne', hback.not_gt, hback.ne']

theorem bytes_lt_iff {id id' : ExchangeId} (h : (ofLex id).1 < 2 ^ 64 ∧ (ofLex id).2 < 2 ^ 64)
    (h' : (ofLex id').1 < 2 ^ 64 ∧ (ofLex id').2 < 2 ^ 64) : bytes id < bytes id' ↔ id < id' := by
  rw [bytes, bytes, beBytes_lt_iff h.1 h'.1, beBytes_lt_iff h.2 h'.2, Prod.Lex.lt_iff]
  simp

structure IdIssuer where
  nonce : Nat
  nextCounter : Nat
  lastMs : Nat

def encode (ms counter nonce : Nat) : ExchangeId :=
  toLex (ms <<< 16 ||| 8 <<< 12 ||| counter >>> 20, 2 <<< 62 ||| (counter &&& 2 ^ 20 - 1) <<< 42 ||| nonce)

/-- The counter and the nonce. -/
def decode (id : ExchangeId) : Option (Nat × Nat) :=
  let (high, low) := ofLex id
  if high >>> 12 &&& 2 ^ 4 - 1 ≠ 8 ∨ low >>> 62 ≠ 2 then none
  else some ((high &&& 2 ^ 12 - 1) <<< 20 ||| (low >>> 42 &&& 2 ^ 20 - 1), low &&& 2 ^ 42 - 1)

section

variable {ms ms' counter counter' nonce : Nat}

/-- The fields do not overlap. -/
theorem encode_eq (hc : counter < 2 ^ 32) (hn : nonce < 2 ^ 42) : encode ms counter nonce =
    toLex (ms * 2 ^ 16 + (8 * 2 ^ 12 + counter / 2 ^ 20), 2 * 2 ^ 62 + (counter % 2 ^ 20 * 2 ^ 42 + nonce)) := by
  rw [encode, Nat.or_assoc, Nat.or_assoc]
  simp (disch := omega) only [Nat.shiftRight_eq_div_pow, Nat.and_two_pow_sub_one_eq_mod, ← Nat.shiftLeft_add_eq_or_of_lt]
  simp only [Nat.shiftLeft_eq]

theorem decode_encode (hc : counter < 2 ^ 32) (hn : nonce < 2 ^ 42) : decode (encode ms counter nonce) = some (counter, nonce) := by
  simp only [encode_eq hc hn, decode, ofLex_toLex, Nat.shiftRight_eq_div_pow, Nat.and_two_pow_sub_one_eq_mod]
  rw [if_neg (by omega), ← Nat.shiftLeft_add_eq_or_of_lt (by omega), Nat.shiftLeft_eq]
  congr 2 <;> omega

theorem encode_lt (hms : ms ≤ ms') (hms' : ms' < 2 ^ 48) (hlt : counter < counter') (hc : counter' < 2 ^ 32)
    (hn : nonce < 2 ^ 42) : bytes (encode ms counter nonce) < bytes (encode ms' counter' nonce) := by
  rw [encode_eq (by omega) hn, encode_eq hc hn, bytes_lt_iff (by simp only [ofLex_toLex]; omega)
    (by simp only [ofLex_toLex]; omega), Prod.Lex.toLex_lt_toLex]
  dsimp only
  omega

end

namespace IdIssuer

open List

def new (nonce : Nat) : IdIssuer := ⟨nonce &&& 2 ^ 42 - 1, 0, 0⟩

def issue (s : IdIssuer) (nowMs : Nat) : Except Errno ExchangeId × IdIssuer :=
  if 2 ^ 32 - 1 < s.nextCounter then (.error .ENOSPC, s)
  else
    let ms := max nowMs s.lastMs &&& 2 ^ 48 - 1
    (.ok (encode ms s.nextCounter s.nonce), { s with lastMs := ms, nextCounter := s.nextCounter + 1 })

def validate (s : IdIssuer) (id : ExchangeId) : Except Errno Unit :=
  match decode id with
  | none => .error .EINVAL
  | some (counter, nonce) => if nonce ≠ s.nonce ∨ s.nextCounter ≤ counter then .error .EINVAL else .ok ()

/-- The calls at these times, the first of them last, and the ids they issued. -/
def issued (s : IdIssuer) : List Nat → List ExchangeId × IdIssuer
  | [] => ([], s)
  | nowMs :: nows =>
    let r := issued s nows
    ((r.2.issue nowMs).1.toOption.toList ++ r.1, (r.2.issue nowMs).2)

variable (nonce : Nat) (nows : List Nat)

/-- The counters issued are all those below the next one. -/
theorem issued_decode : ∀ nows : List Nat, let r := (new nonce).issued nows
    r.2.nonce < 2 ^ 42 ∧ r.2.nextCounter ≤ 2 ^ 32 ∧ r.1.map decode = (range r.2.nextCounter).reverse.map fun c => some (c, r.2.nonce)
  | [] => ⟨Nat.and_lt_two_pow _ (by decide), Nat.zero_le _, rfl⟩
  | _ :: nows => by
    obtain ⟨hn, hnext, hids⟩ := issued_decode nows
    simp only [issued, issue]
    split_ifs with hfull
    · exact ⟨hn, hnext, hids⟩
    have hc : ((new nonce).issued nows).2.nextCounter < 2 ^ 32 := by omega
    refine ⟨hn, hc, ?_⟩
    rw [map_append, hids, range_succ, reverse_append]
    exact congrArg (· :: _) (decode_encode hc hn)

/-- At whatever times they are issued, no two ids are the same, and an id is valid exactly if it is
one of those issued but for its time. -/
theorem ids_unique : ((new nonce).issued nows).1.Nodup ∧ ∀ id,
    ((new nonce).issued nows).2.validate id = .ok () ↔ ∃ i ∈ ((new nonce).issued nows).1, decode i = decode id := by
  obtain ⟨-, -, hids⟩ := issued_decode nonce nows
  generalize (new nonce).issued nows = r at hids ⊢
  refine ⟨.of_map decode (hids ▸ (nodup_reverse.mpr nodup_range).map fun _ _ h => by simpa using h), fun id => ?_⟩
  rw [← mem_map, hids]
  simp only [mem_map, mem_reverse, mem_range, validate]
  cases decode id <;> simp [Prod.ext_iff, and_comm, eq_comm]

/-- Below 48 bits of time the ids sort as they were issued, also when the clock goes back. -/
theorem ids_in_order (hnows : ∀ nowMs ∈ nows, nowMs < 2 ^ 48) : (((new nonce).issued nows).1.map bytes).Pairwise (· > ·) := by
  have hinv : let r := (new nonce).issued nows
      r.2.lastMs < 2 ^ 48 ∧ (∀ id ∈ r.1, ∃ ms ≤ r.2.lastMs, ∃ c < r.2.nextCounter, id = encode ms c r.2.nonce) ∧
        (r.1.map bytes).Pairwise (· > ·) := by
    induction nows with
    | nil => exact ⟨Nat.two_pow_pos 48, by simp [issued], .nil⟩
    | cons nowMs nows ih =>
      obtain ⟨hnow, hnows⟩ := forall_mem_cons.mp hnows
      obtain ⟨hlast, hmem, hsorted⟩ := ih hnows
      obtain ⟨hn, hnext, -⟩ := issued_decode nonce nows
      simp only [issued, issue]
      split_ifs with hfull
      · exact ⟨hlast, hmem, hsorted⟩
      rw [Nat.and_two_pow_sub_one_eq_mod, Nat.mod_eq_of_lt (by omega)]
      refine ⟨max_lt hnow hlast, forall_mem_cons.mpr ⟨⟨_, le_rfl, _, Nat.lt_succ_self _, rfl⟩, fun id hid => ?_⟩,
        pairwise_cons.mpr ⟨forall_mem_map.mpr fun id hid => ?_, hsorted⟩⟩ <;> obtain ⟨ms, hms, c, hc, rfl⟩ := hmem id hid
      · exact ⟨ms, le_max_of_le_right hms, c, Nat.lt_succ_of_lt hc, rfl⟩
      · exact encode_lt (le_max_of_le_right hms) (max_lt hnow hlast) hc (by omega) hn
  exact hinv.2.2

theorem ids_in_order_backwards : (((new 7).issued [900, 1000]).1.map bytes).Pairwise (· > ·) :=
  ids_in_order 7 [900, 1000] (by decide)

end IdIssuer

end Kandelo.Exchange

/-
Objects behind reusable public ids, and pins on their generations. The code of
`ipc.rs` is the same twice, for message queues and for semaphore sets; here it
is once, over any object with an id, a generation, a pin count and a removal
mark.

A pin names the generation it captured. Removing an object takes it out of
public sight at once; while pins name it, it stays as a tombstone under its
generation, so that a reused public id never receives a pinned operation.

`Registry.Inv`: every object's pin count is the number of pins that name it,
and there are tombstones exactly for removed generations that are named.
-/
import Kandelo.Ipc.Object
import Kandelo.Lib.OrdMap

namespace Kandelo.Ipc

open OrdMap List

/-- Objects that can be pinned. -/
class PinObject (α : Type) where
  publicId : α → Int32
  generation : α → Nat
  activePins : α → Nat
  isRemoved : α → Bool
  setActivePins : α → Nat → α
  markRemoved : α → α
  publicId_setActivePins : ∀ o n, publicId (setActivePins o n) = publicId o := by intros; rfl
  generation_setActivePins : ∀ o n, generation (setActivePins o n) = generation o := by intros; rfl
  activePins_setActivePins : ∀ o n, activePins (setActivePins o n) = n := by intros; rfl
  isRemoved_setActivePins : ∀ o n, isRemoved (setActivePins o n) = isRemoved o := by intros; rfl
  publicId_markRemoved : ∀ o, publicId (markRemoved o) = publicId o := by intros; rfl
  generation_markRemoved : ∀ o, generation (markRemoved o) = generation o := by intros; rfl
  activePins_markRemoved : ∀ o, activePins (markRemoved o) = activePins o := by intros; rfl
  isRemoved_markRemoved : ∀ o, isRemoved (markRemoved o) := by intros; rfl

open PinObject in
attribute [simp] publicId_setActivePins generation_setActivePins activePins_setActivePins isRemoved_setActivePins
  publicId_markRemoved generation_markRemoved activePins_markRemoved isRemoved_markRemoved

instance : PinObject MsgQueue where
  publicId q := q.id
  generation q := q.generation
  activePins q := q.activePins
  isRemoved q := q.removed
  setActivePins q n := { q with activePins := n }
  markRemoved q := { q with removed := true }

instance : PinObject SemSet where
  publicId s := s.id
  generation s := s.generation
  activePins s := s.activePins
  isRemoved s := s.removed
  setActivePins s n := { s with activePins := n }
  markRemoved s := { s with removed := true }

/-- `PinnedMsgQueue` and `PinnedSemSet`: what a blocked operation keeps. -/
structure Pin where
  pinId : Nat
  publicId : Int32
  generation : Nat
  deriving DecidableEq

/-- `id as u32 as u64`, the key of a public id. -/
def publicKey (id : Int32) : Nat := id.toUInt32.toNat

theorem publicKey_inj {a b : Int32} (h : publicKey a = publicKey b) : a = b := by
  have := UInt32.toNat_inj.mp h
  simpa using congrArg UInt32.toInt32 this

/-- Live objects by public id, tombstones by generation, generations by pin. -/
structure Registry (α : Type) where
  live : OrdMap Nat α
  removed : OrdMap Nat α
  pins : OrdMap Nat Nat

namespace Registry

variable {α β : Type}

def empty : Registry α := ⟨.empty, .empty, .empty⟩

/-- `get_mut` of a live object, then `f` on it. -/
def withLive (r : Registry α) (id : Int32) (f : α → Except Errno β × α) : Except Errno β × Registry α :=
  match r.live.get? (publicKey id) with
  | none => (.error .EINVAL, r)
  | some o => ((f o).1, { r with live := r.live.insert (publicKey id) (f o).2 })

/-- `publish_io` of a new live object. -/
def publish (r : Registry α) (key : Nat) (o : α) : Registry α := { r with live := r.live.insert key o }

/-- No key becomes live. -/
def NoNewKeys (r r' : Registry α) : Prop := ∀ k, r.live.get? k = none → r'.live.get? k = none

variable [PinObject α]

open PinObject

/-- `pin_msg_queue`, `pin_sem_set`, given the next free pin id. -/
def pin (r : Registry α) (env : Env) (id : Int32) (freshPin : Except Errno (Nat × Option Nat)) :
    Except Errno (Pin × Option Nat) × Registry α :=
  match r.live.get? (publicKey id) with
  | none => (.error .EINVAL, r)
  | some o =>
    match freshPin with
    | .error e => (.error e, r)
    | .ok (pinId, nextPinId) =>
      -- `prepare_io`
      if r.pins.contains pinId then (.error .EEXIST, r)
      else
        match env.alloc 0 with
        | .error e => (.error e, r)
        | .ok () =>
          if activePins o + 1 > env.usizeMax then (.error .EOVERFLOW, r)
          else
            (.ok (⟨pinId, id, generation o⟩, nextPinId), { r with
              live := r.live.insert (publicKey id) (setActivePins o (activePins o + 1))
              pins := r.pins.insert pinId (generation o) })

/-- The live object of the pin's public id, if it is of the pin's generation. -/
def liveOf (r : Registry α) (p : Pin) : Option α :=
  (r.live.get? (publicKey p.publicId)).filter fun o => generation o == p.generation

/-- `release_msg_queue_pin`, `release_sem_set_pin`. -/
def release (r : Registry α) (p : Pin) : Except Errno Unit × Registry α :=
  if r.pins.get? p.pinId ≠ some p.generation then (.error .EINVAL, r)
  else
    match r.liveOf p with
    | some o =>
      if activePins o = 0 then (.error .EINVAL, r)
      else
        (.ok (), { r with
          live := r.live.insert (publicKey p.publicId) (setActivePins o (activePins o - 1))
          pins := r.pins.erase p.pinId })
    | none =>
      match r.removed.get? p.generation with
      | none => (.error .EINVAL, r)
      | some o =>
        if publicId o ≠ p.publicId ∨ isRemoved o = false then (.error .EINVAL, r)
        else if activePins o = 0 then (.error .EINVAL, r)
        else
          let left := activePins o - 1
          (.ok (), { r with
            removed := if left = 0 then r.removed.erase p.generation
              else r.removed.insert p.generation (setActivePins o left)
            pins := r.pins.erase p.pinId })

/-- `live_msg_queue_for_pin_mut`, `live_sem_set_for_pin_mut`, then `f` on the
object. -/
def withPinned (r : Registry α) (p : Pin) (f : α → Except Errno β × α) : Except Errno β × Registry α :=
  if r.pins.get? p.pinId ≠ some p.generation then (.error .EIDRM, r)
  else
    match r.liveOf p with
    | none => (.error .EIDRM, r)
    | some o => ((f o).1, { r with live := r.live.insert (publicKey p.publicId) (f o).2 })

/-- `IPC_RMID`, after the owner check `check`. -/
def rmid (r : Registry α) (id : Int32) (check : α → Except Errno Unit) : Except Errno Unit × Registry α :=
  match r.live.get? (publicKey id) with
  | none => (.error .EINVAL, r)
  | some o =>
    match check o with
    | .error e => (.error e, r)
    | .ok () =>
      let r := { r with live := r.live.erase (publicKey id) }
      let o := markRemoved o
      (.ok (), if activePins o ≠ 0 then { r with removed := r.removed.insert (generation o) o } else r)

/-- The number of pins that name a generation. -/
def pinsNaming (pins : OrdMap Nat Nat) (g : Nat) : Nat := pins.values.count g

/-! ## The invariant -/

/-- The invariant of a registry whose generations are below `next`. -/
structure Inv (r : Registry α) (next : Nat) : Prop where
  live_key : ∀ {k o}, r.live.get? k = some o → k = publicKey (publicId o)
  live_lt : ∀ {k o}, r.live.get? k = some o → generation o < next
  live_inj : ∀ {k k' o o'}, r.live.get? k = some o → r.live.get? k' = some o' → generation o = generation o' → k = k'
  tomb : ∀ {g o}, r.removed.get? g = some o → generation o = g ∧ g < next ∧ isRemoved o ∧ activePins o ≠ 0
  apart : ∀ {k o}, r.live.get? k = some o → r.removed.get? (generation o) = none
  live_pins : ∀ {k o}, r.live.get? k = some o → activePins o = pinsNaming r.pins (generation o)
  tomb_pins : ∀ {g o}, r.removed.get? g = some o → activePins o = pinsNaming r.pins g
  named : ∀ {p g}, r.pins.get? p = some g → (∃ k o, r.live.get? k = some o ∧ generation o = g) ∨ ∃ o, r.removed.get? g = some o

theorem Inv.empty (next : Nat) : Inv (.empty : Registry α) next where
  live_key h := by cases h
  live_lt h := by cases h
  live_inj h := by cases h
  tomb h := by cases h
  apart h := by cases h
  live_pins h := by cases h
  tomb_pins h := by cases h
  named h := by cases h

variable {pins : OrdMap Nat Nat}

theorem pinsNaming_insert {p : Nat} (h : pins.get? p = none) (g g' : Nat) :
    pinsNaming (pins.insert p g) g' = pinsNaming pins g' + if g' = g then 1 else 0 := by
  have hperm := (insert_perm h g).map Prod.snd
  rw [pinsNaming, pinsNaming, OrdMap.values, OrdMap.values, hperm.count_eq, map_cons, count_cons]
  simp [eq_comm (a := g)]

theorem pinsNaming_erase {p g : Nat} (h : pins.get? p = some g) (g' : Nat) :
    pinsNaming (pins.erase p) g' + (if g' = g then 1 else 0) = pinsNaming pins g' := by
  have hperm := (erase_perm h).map Prod.snd
  rw [pinsNaming, pinsNaming, OrdMap.values, OrdMap.values, hperm.count_eq, map_cons, count_cons]
  simp [eq_comm (a := g)]

theorem pinsNaming_eq_zero {g : Nat} : pinsNaming pins g = 0 ↔ ∀ p, pins.get? p ≠ some g := by
  rw [pinsNaming, count_eq_zero, mem_values]
  simp

variable {r : Registry α} {next : Nat}

/-- The invariant speaks of generations no registry has reached. -/
theorem Inv.mono {next' : Nat} (h : r.Inv next) (hle : next ≤ next') : r.Inv next' :=
  { h with
    live_lt := fun ho => Nat.lt_of_lt_of_le (h.live_lt ho) hle
    tomb := fun ho => by
      obtain ⟨h1, h2, h3⟩ := h.tomb ho
      exact ⟨h1, Nat.lt_of_lt_of_le h2 hle, h3⟩ }

/-- What the registry needs of an operation on one object. -/
def KeepsHeader (o o' : α) : Prop :=
  publicId o' = publicId o ∧ generation o' = generation o ∧ activePins o' = activePins o ∧ isRemoved o' = isRemoved o

variable {k k' : Nat} {o x : α} {m : OrdMap Nat α}

omit [PinObject α] in
theorem get?_insert_cases (h : (m.insert k o).get? k' = some x) : k' = k ∧ x = o ∨ k' ≠ k ∧ m.get? k' = some x := by
  rw [get?_insert] at h
  split_ifs at h with hk
  · cases h
    exact .inl ⟨hk, rfl⟩
  · exact .inr ⟨hk, h⟩

omit [PinObject α] in
theorem get?_erase_cases (h : (m.erase k).get? k' = some x) : k' ≠ k ∧ m.get? k' = some x := by
  rw [get?_erase] at h
  split at h
  · cases h
  · rename_i hk
    exact ⟨hk, h⟩

omit [PinObject α] in
theorem forall_insert {P : Nat → α → Prop} (hself : P k o) (hrest : ∀ {k' x}, k' ≠ k → m.get? k' = some x → P k' x) {k' x}
    (hx : (m.insert k o).get? k' = some x) : P k' x := by
  rcases get?_insert_cases hx with ⟨rfl, rfl⟩ | ⟨hne, hx⟩
  · exact hself
  · exact hrest hne hx

variable {o' : α}

/-- A live object is replaced under its id and generation, and the pins with its pin
count. -/
theorem Inv.replace (h : r.Inv next) (hk : r.live.get? k = some o) (hid : publicId o' = publicId o)
    (hgen : generation o' = generation o) (hn : activePins o' = pinsNaming pins (generation o))
    (hsame : ∀ g, g ≠ generation o → pinsNaming pins g = pinsNaming r.pins g)
    (hnamed : ∀ p g, pins.get? p = some g → g = generation o ∨ r.pins.get? p = some g) :
    Inv { r with live := r.live.insert k o', pins } next where
  live_key := forall_insert (hid ▸ h.live_key hk) fun _ => h.live_key
  live_lt := forall_insert (hgen ▸ h.live_lt hk) fun _ => h.live_lt
  live_inj {k₁ k₂ x₁ x₂} h1 h2 he := by
    rcases get?_insert_cases h1 with ⟨hk1, rfl⟩ | ⟨-, h₁'⟩ <;> rcases get?_insert_cases h2 with ⟨hk2, rfl⟩ | ⟨-, h₂'⟩
    · rw [hk1, hk2]
    · rw [hk1]
      exact h.live_inj hk h₂' (hgen.symm.trans he)
    · rw [hk2]
      exact h.live_inj h₁' hk (he.trans hgen)
    · exact h.live_inj h₁' h₂' he
  tomb := h.tomb
  apart := forall_insert (hgen ▸ h.apart hk) fun _ => h.apart
  live_pins := forall_insert (hgen ▸ hn) fun hne hx =>
    (h.live_pins hx).trans (hsame _ fun he => hne (h.live_inj hx hk he)).symm
  tomb_pins {g x} hx := by
    rw [h.tomb_pins hx]
    refine (hsame g ?_).symm
    rintro rfl
    rw [h.apart hk] at hx
    cases hx
  named {p g} hp := by
    have hlive : ∃ k' x, (r.live.insert k o').get? k' = some x ∧ generation x = generation o :=
      ⟨k, _, get?_insert_self .., hgen⟩
    rcases hnamed p g hp with rfl | hp
    · exact .inl hlive
    rcases h.named hp with ⟨k', x, hx, rfl⟩ | hx
    · by_cases hkk : k' = k
      · subst hkk
        rw [hk] at hx
        cases hx
        exact .inl hlive
      · exact .inl ⟨k', x, by rw [get?_insert, if_neg hkk]; exact hx, rfl⟩
    · exact .inr hx

/-- A new object takes the next generation. -/
theorem Inv.publish (h : r.Inv next)
    (hkey : k = publicKey (publicId o)) (hg : generation o = next) (hp : activePins o = 0) (hk : r.live.get? k = none) :
    Inv (r.publish k o) (next + 1) := by
  subst hg
  have hother : ∀ {k' x}, r.live.get? k' = some x → generation x ≠ generation o := fun hx => Nat.ne_of_lt (h.live_lt hx)
  have hnone : ∀ p, r.pins.get? p ≠ some (generation o) := by
    intro p hp
    rcases h.named hp with ⟨k', x, hx, hgx⟩ | ⟨x, hx⟩
    · exact hother hx hgx
    · exact Nat.lt_irrefl _ (h.tomb hx).2.1
  have hm := h.mono (Nat.le_succ (generation o))
  unfold publish
  refine ⟨forall_insert (by exact hkey) fun _ => h.live_key, forall_insert (by omega) fun _ => hm.live_lt, ?_, hm.tomb,
    forall_insert ?_ fun _ => h.apart, forall_insert ?_ fun _ => h.live_pins, h.tomb_pins, ?_⟩
  · intro k₁ k₂ x₁ x₂ h1 h2 he
    rcases get?_insert_cases h1 with ⟨hk1, rfl⟩ | ⟨-, h₁'⟩ <;> rcases get?_insert_cases h2 with ⟨hk2, rfl⟩ | ⟨-, h₂'⟩
    · rw [hk1, hk2]
    · exact absurd he.symm (hother h₂')
    · exact absurd he (hother h₁')
    · exact h.live_inj h₁' h₂' he
  · exact Option.eq_none_iff_forall_ne_some.mpr fun y hy => Nat.lt_irrefl _ (h.tomb hy).2.1
  · rw [hp]
    exact (pinsNaming_eq_zero.mpr hnone).symm
  intro p g hpg
  refine (h.named hpg).imp_left ?_
  rintro ⟨k', x, hx, hgx⟩
  refine ⟨k', x, ?_, hgx⟩
  have hne : k' ≠ k := by
    rintro rfl
    rw [hk] at hx
    cases hx
  rw [get?_insert, if_neg hne]
  exact hx

variable {p : Pin}

theorem liveOf_eq_some : r.liveOf p = some o ↔ r.live.get? (publicKey p.publicId) = some o ∧ generation o = p.generation := by
  simp [liveOf]

/-- Releasing the last pin of a tombstone reclaims it. -/
theorem Inv.releaseTomb (h : r.Inv next) (hp : r.pins.get? p.pinId = some p.generation) (ho : r.removed.get? p.generation = some o) :
    Inv { r with
      removed := if activePins o - 1 = 0 then r.removed.erase p.generation
        else r.removed.insert p.generation (setActivePins o (activePins o - 1))
      pins := r.pins.erase p.pinId } next := by
  obtain ⟨hgen, hlt, hrem, hne⟩ := h.tomb ho
  have hcount := h.tomb_pins ho
  have hself := pinsNaming_erase hp p.generation
  rw [if_pos rfl] at hself
  have hother : ∀ g, g ≠ p.generation → pinsNaming (r.pins.erase p.pinId) g = pinsNaming r.pins g := by
    intro g hg
    have := pinsNaming_erase hp g
    rwa [if_neg hg, Nat.add_zero] at this
  have hlive : ∀ {k x}, r.live.get? k = some x → generation x ≠ p.generation := by
    intro k x hx he
    have := h.apart hx
    rw [he, ho] at this
    cases this
  have htomb : ∀ {g x}, (if activePins o - 1 = 0 then r.removed.erase p.generation
      else r.removed.insert p.generation (setActivePins o (activePins o - 1))).get? g = some x →
      (g = p.generation ∧ activePins o - 1 ≠ 0 ∧ x = setActivePins o (activePins o - 1)) ∨
        (g ≠ p.generation ∧ r.removed.get? g = some x) := by
    intro g x hx
    split_ifs at hx with hleft
    · exact .inr (get?_erase_cases hx)
    rcases get?_insert_cases hx with ⟨rfl, rfl⟩ | hx
    · exact .inl ⟨rfl, hleft, rfl⟩
    · exact .inr hx
  refine ⟨h.live_key, h.live_lt, h.live_inj, ?_, ?_, ?_, ?_, ?_⟩
  · intro g x hx
    rcases htomb hx with ⟨rfl, hleft, rfl⟩ | ⟨-, hx⟩
    · simpa using ⟨hgen, hlt, hrem, hleft⟩
    · exact h.tomb hx
  · intro k x hx
    refine Option.eq_none_iff_forall_ne_some.mpr fun y hy => ?_
    rcases htomb hy with ⟨hg, -⟩ | ⟨-, hy⟩
    · exact hlive hx hg
    · rw [h.apart hx] at hy
      cases hy
  · intro k x hx
    rw [hother _ (hlive hx)]
    exact h.live_pins hx
  · intro g x hx
    rcases htomb hx with ⟨rfl, -, rfl⟩ | ⟨hg, hx⟩
    · rw [activePins_setActivePins]
      show activePins o - 1 = pinsNaming (r.pins.erase p.pinId) p.generation
      omega
    · rw [hother g hg]
      exact h.tomb_pins hx
  · intro p' g hp'
    obtain ⟨-, hold⟩ := get?_erase_cases hp'
    rcases h.named hold with hl | ⟨x, hx⟩
    · exact .inl hl
    right
    by_cases hg : g = p.generation
    · subst hg
      -- Another pin names the tombstone, so this was not the last one.
      have hpos : pinsNaming (r.pins.erase p.pinId) p.generation ≠ 0 := fun hz => pinsNaming_eq_zero.mp hz p' hp'
      rw [if_neg (by omega)]
      exact ⟨_, get?_insert_self ..⟩
    refine ⟨x, ?_⟩
    split
    · rw [get?_erase, if_neg hg]
      exact hx
    · rw [get?_insert, if_neg hg]
      exact hx

/-! ## Pins in the hands of callers -/

/-- The object is live or a tombstone. -/
def Stored (r : Registry α) (o : α) : Prop := (∃ k, r.live.get? k = some o) ∨ ∃ g, r.removed.get? g = some o

/-- Nothing appears in `r'` but objects of `r`, under their id and generation. -/
def Descends (r r' : Registry α) : Prop :=
  ∀ o', r'.Stored o' → ∃ o, r.Stored o ∧ generation o = generation o' ∧ publicId o = publicId o'

/-- The pins handed out and not released are those entered, and each names its object. -/
structure Held (r : Registry α) (held : List Pin) : Prop where
  distinct : (held.map Pin.pinId).Nodup
  entered : ∀ p ∈ held, r.pins.get? p.pinId = some p.generation
  known : ∀ i g, r.pins.get? i = some g → ∃ p ∈ held, p.pinId = i
  names : ∀ p ∈ held, ∀ o, r.Stored o → generation o = p.generation → publicId o = p.publicId

theorem Held.nil (h : ∀ i, r.pins.get? i = none) : r.Held [] :=
  ⟨nodup_nil, nofun, fun i _ hi => (nomatch (h i).symm.trans hi), nofun⟩

variable {held : List Pin}

theorem Held.descends {r' : Registry α} (h : r.Held held) (hpins : r'.pins = r.pins) (hd : Descends r r') : r'.Held held := by
  refine ⟨h.distinct, fun p hp => hpins ▸ h.entered p hp, hpins ▸ h.known, fun p hp o' ho' hg => ?_⟩
  obtain ⟨o, ho, hgo, hio⟩ := hd o' ho'
  rw [← hio]
  exact h.names p hp o ho (hgo.trans hg)

theorem descends_update (hk : r.live.get? k = some o)
    (hg : generation o' = generation o) (hi : publicId o' = publicId o) (pins : OrdMap Nat Nat) :
    Descends r { r with live := r.live.insert k o', pins } := by
  rintro x (⟨k', hx⟩ | ⟨g, hx⟩)
  · rcases get?_insert_cases hx with ⟨rfl, rfl⟩ | ⟨-, hx⟩
    · exact ⟨o, .inl ⟨_, hk⟩, hg.symm, hi.symm⟩
    · exact ⟨x, .inl ⟨_, hx⟩, rfl, rfl⟩
  · exact ⟨x, .inr ⟨_, hx⟩, rfl, rfl⟩

/-- A new object is of a generation no pin in use names. -/
theorem Held.publish (h : r.Held held) (hinv : r.Inv next) (hg : generation o = next) : (r.publish k o).Held held := by
  refine ⟨h.distinct, h.entered, h.known, fun p hp x hx he => ?_⟩
  have hlt : p.generation < next := by
    rcases hinv.named (h.entered p hp) with ⟨k', y, hy, hgy⟩ | ⟨y, hy⟩
    · rw [← hgy]
      exact hinv.live_lt hy
    · exact (hinv.tomb hy).2.1
  rcases hx with ⟨k', hx⟩ | hx
  · rcases get?_insert_cases hx with ⟨-, rfl⟩ | ⟨-, hx⟩
    · omega
    · exact h.names p hp x (.inl ⟨k', hx⟩) he
  · exact h.names p hp x (.inr hx) he

/-- A pin on a live object, entered under a free id. -/
theorem Held.enter {id : Int32} {pinId : Nat} (h : r.Held held) (hinv : r.Inv next)
    (ho : r.live.get? (publicKey id) = some o) (hfree : r.pins.get? pinId = none) (n : Nat) :
    Held { r with live := r.live.insert (publicKey id) (setActivePins o n), pins := r.pins.insert pinId (generation o) }
      (⟨pinId, id, generation o⟩ :: held) := by
  have hne : ∀ q ∈ held, q.pinId ≠ pinId := by
    rintro q hq rfl
    rw [h.entered q hq] at hfree
    cases hfree
  have hd := descends_update ho (generation_setActivePins o n) (publicId_setActivePins o n)
    (r.pins.insert pinId (generation o))
  have hnodup : ((⟨pinId, id, generation o⟩ :: held).map Pin.pinId).Nodup := by
    refine nodup_cons.mpr ⟨fun hin => ?_, h.distinct⟩
    obtain ⟨q, hq, he⟩ := mem_map.mp hin
    exact hne q hq he
  refine ⟨hnodup, fun q hq => ?_, fun i g hi => ?_, fun q hq x' hx' hg => ?_⟩
  · rcases mem_cons.mp hq with rfl | hq
    · exact get?_insert_self ..
    · rw [get?_insert, if_neg (hne q hq)]
      exact h.entered q hq
  · rcases get?_insert_cases hi with ⟨rfl, -⟩ | ⟨-, hi⟩
    · exact ⟨_, mem_cons_self, rfl⟩
    · obtain ⟨q, hq, he⟩ := h.known i g hi
      exact ⟨q, mem_cons_of_mem _ hq, he⟩
  obtain ⟨x, hx, hgx, hix⟩ := hd x' hx'
  rw [← hix]
  rcases mem_cons.mp hq with rfl | hq
  · -- The only object of the captured generation is the one just pinned.
    have hkey := hinv.live_key ho
    have hg' : generation x = generation o := hgx.trans hg
    rcases hx with ⟨k, hx⟩ | ⟨g, hx⟩
    · have := hinv.live_inj hx ho hg'
      rw [this, ho] at hx
      cases hx
      exact publicKey_inj hkey.symm
    · have := hinv.apart ho
      rw [← hg', (hinv.tomb hx).1, hx] at this
      cases this
  · exact h.names q hq x hx (hgx.trans hg)

/-- Taking a pin back leaves the others entered. -/
theorem Held.erase {r' : Registry α} (h : r.Held held) (hp : p ∈ held)
    (hpins : r'.pins = r.pins.erase p.pinId) (hd : Descends r r') : r'.Held (held.erase p) := by
  have hmem : ∀ q, q ∈ held.erase p ↔ q ≠ p ∧ q ∈ held := fun q => List.Nodup.mem_erase_iff (List.Nodup.of_map _ h.distinct)
  refine ⟨h.distinct.sublist (erase_sublist.map _), fun q hq => ?_, fun i g hi => ?_, fun q hq o' ho' hg => ?_⟩
  · obtain ⟨hqp, hq⟩ := (hmem q).mp hq
    rw [hpins, get?_erase, if_neg fun he => hqp (inj_on_of_nodup_map h.distinct hq hp he)]
    exact h.entered q hq
  · obtain ⟨hne, hi⟩ := get?_erase_cases (hpins ▸ hi)
    obtain ⟨q, hq, rfl⟩ := h.known i g hi
    exact ⟨q, (hmem q).mpr ⟨fun he => hne (he ▸ rfl), hq⟩, rfl⟩
  · obtain ⟨o, ho, hgo, hio⟩ := hd o' ho'
    rw [← hio]
    exact h.names q (mem_of_mem_erase hq) o ho (hgo.trans hg)

/-- The pins in use after `pin` answered `res`. -/
def pinned (held : List Pin) : Except Errno (Pin × Option Nat) → List Pin
  | .ok (p, _) => p :: held
  | .error _ => held

/-! ## The operations -/

/-- What an operation leaves, for the pins then in hand. -/
structure Kept (r r' : Registry α) (next : Nat) (held : List Pin) : Prop where
  inv : r'.Inv next
  held : r'.Held held
  keys : NoNewKeys r r'

theorem Kept.refl (h : r.Inv next) (hheld : r.Held held) : Kept r r next held := ⟨h, hheld, fun _ hk => hk⟩

omit [PinObject α] in
theorem noNewKeys_insert (hk : r.live.get? k = some o) (removed : OrdMap Nat α) (pins : OrdMap Nat Nat) :
    NoNewKeys r ⟨r.live.insert k o', removed, pins⟩ := by
  intro k' h
  have hne : k' ≠ k := by
    rintro rfl
    rw [hk] at h
    cases h
  rw [get?_insert, if_neg hne]
  exact h

section Kept

variable {f : α → Except Errno β × α} (h : r.Inv next) (hheld : r.Held held)
include h hheld

theorem kept_update (hk : r.live.get? k = some o) (hf : KeepsHeader o o') : Kept r { r with live := r.live.insert k o' } next held where
  inv := h.replace hk hf.1 hf.2.1 (hf.2.2.1.trans (h.live_pins hk)) (fun _ _ => rfl) fun _ _ => .inr
  held := hheld.descends rfl (descends_update hk hf.2.1 hf.1 _)
  keys := noNewKeys_insert hk _ _

theorem kept_withLive (id : Int32) (hf : ∀ o, KeepsHeader o (f o).2) : Kept r (r.withLive id f).2 next held := by
  unfold withLive
  split
  · exact .refl h hheld
  · rename_i o ho
    exact kept_update h hheld ho (hf o)

theorem kept_withPinned (p : Pin) (hf : ∀ o, KeepsHeader o (f o).2) : Kept r (r.withPinned p f).2 next held := by
  unfold withPinned
  split
  · exact .refl h hheld
  split
  · exact .refl h hheld
  · rename_i o ho
    exact kept_update h hheld (liveOf_eq_some.mp ho).1 (hf o)

theorem kept_pin (env : Env) (id : Int32) (freshPin : Except Errno (Nat × Option Nat)) :
    Kept r (r.pin env id freshPin).2 next (pinned held (r.pin env id freshPin).1) := by
  unfold pin
  split
  · exact .refl h hheld
  rename_i o ho
  split
  · exact .refl h hheld
  rename_i pinId nextPinId
  split
  · exact .refl h hheld
  rename_i hfree
  have hfree : r.pins.get? pinId = none := by simpa [OrdMap.contains] using hfree
  split
  · exact .refl h hheld
  split
  · exact .refl h hheld
  refine ⟨h.replace ho (by simp) (by simp) ?_ (fun g hg => ?_) (fun p g hp => ?_), hheld.enter h ho hfree _, noNewKeys_insert ho _ _⟩
  · rw [pinsNaming_insert hfree, if_pos rfl, activePins_setActivePins, h.live_pins ho]
  · rw [pinsNaming_insert hfree, if_neg hg, Nat.add_zero]
  rw [get?_insert] at hp
  split at hp
  · exact .inl (Option.some.inj hp).symm
  · exact .inr hp

/-- A pin that is held is entered, so its release finds what it names. -/
theorem kept_release (hp : p ∈ held) : Kept r (r.release p).2 next (held.erase p) := by
  have hentry := hheld.entered p hp
  have hpos : pinsNaming r.pins p.generation ≠ 0 := fun h0 => pinsNaming_eq_zero.mp h0 _ hentry
  unfold release
  rw [if_neg (not_not.mpr hentry)]
  split
  · rename_i o ho
    obtain ⟨ho, hg⟩ := liveOf_eq_some.mp ho
    rw [if_neg (by rwa [h.live_pins ho, hg])]
    rw [← hg] at hentry
    refine ⟨h.replace ho (by simp) (by simp) ?_ (fun g hne => ?_) (fun p' g hp' => .inr (get?_erase_cases hp').2),
      hheld.erase hp rfl (descends_update ho (by simp) (by simp) _), noNewKeys_insert ho _ _⟩
    · have := pinsNaming_erase hentry (generation o)
      rw [if_pos rfl, ← h.live_pins ho] at this
      rw [activePins_setActivePins]
      omega
    · have := pinsNaming_erase hentry g
      rwa [if_neg hne, Nat.add_zero] at this
  rename_i hdead
  rcases h.named hentry with ⟨k, o, ho, hg⟩ | ⟨o, ho⟩
  · have hid := hheld.names p hp o (.inl ⟨k, ho⟩) hg
    rw [h.live_key ho, hid] at ho
    cases hdead.symm.trans (liveOf_eq_some.mpr ⟨ho, hg⟩)
  obtain ⟨hg, -, hremoved, hpins⟩ := h.tomb ho
  simp only [ho]
  rw [if_neg (by simp [hheld.names p hp o (.inr ⟨_, ho⟩) hg, hremoved]), if_neg hpins]
  refine ⟨h.releaseTomb hentry ho, hheld.erase hp rfl ?_, fun _ hk => hk⟩
  rintro x (⟨k, hx⟩ | ⟨g, hx⟩)
  · exact ⟨x, .inl ⟨k, hx⟩, rfl, rfl⟩
  simp only at hx
  split at hx
  · exact ⟨x, .inr ⟨g, (get?_erase_cases hx).2⟩, rfl, rfl⟩
  rcases get?_insert_cases hx with ⟨-, rfl⟩ | ⟨-, hx⟩
  · exact ⟨o, .inr ⟨_, ho⟩, by simp, by simp⟩
  · exact ⟨x, .inr ⟨g, hx⟩, rfl, rfl⟩

/-- Removal leaves no object behind that no pin names. -/
theorem kept_rmid (id : Int32) (check : α → Except Errno Unit) : Kept r (r.rmid id check).2 next held := by
  unfold rmid
  split
  · exact .refl h hheld
  rename_i o ho
  split
  · exact .refl h hheld
  have hgone : ∀ {k x}, (r.live.erase (publicKey id)).get? k = some x → r.live.get? k = some x ∧ generation x ≠ generation o := by
    intro k x hx
    obtain ⟨hk, hx⟩ := get?_erase_cases hx
    exact ⟨hx, fun he => hk (h.live_inj hx ho he)⟩
  have hstay : ∀ {k x}, r.live.get? k = some x → generation x ≠ generation o → (r.live.erase (publicKey id)).get? k = some x := by
    intro k x hx hg
    have hk : k ≠ publicKey id := by
      rintro rfl
      rw [ho] at hx
      cases hx
      exact hg rfl
    rw [get?_erase, if_neg hk]
    exact hx
  suffices hsuff : ∀ removed : OrdMap Nat α,
      (∀ g, removed.get? g = if g = generation o ∧ activePins o ≠ 0 then some (markRemoved o) else r.removed.get? g) →
      Kept r ⟨r.live.erase (publicKey id), removed, r.pins⟩ next held by
    simp only [activePins_markRemoved, generation_markRemoved]
    split_ifs with hpins
    · exact hsuff _ fun g => by simp [get?_insert, hpins]
    · exact hsuff _ fun g => by simp [hpins]
  intro removed hremoved
  have htomb : ∀ {g x}, removed.get? g = some x →
      g = generation o ∧ activePins o ≠ 0 ∧ x = markRemoved o ∨ r.removed.get? g = some x := by
    intro g x hx
    rw [hremoved] at hx
    split_ifs at hx with hg
    · exact .inl ⟨hg.1, hg.2, (Option.some.inj hx).symm⟩
    · exact .inr hx
  refine ⟨⟨fun hx => h.live_key (hgone hx).1, fun hx => h.live_lt (hgone hx).1,
    fun hx hx' => h.live_inj (hgone hx).1 (hgone hx').1, ?_, fun hx => ?_, fun hx => h.live_pins (hgone hx).1, ?_, ?_⟩,
    hheld.descends rfl ?_, ?_⟩
  · intro g x hx
    rcases htomb hx with ⟨rfl, hpins, rfl⟩ | hx
    · simpa using ⟨h.live_lt ho, hpins⟩
    · exact h.tomb hx
  · rw [hremoved, if_neg fun hg => (hgone hx).2 hg.1]
    exact h.apart (hgone hx).1
  · intro g x hx
    rcases htomb hx with ⟨rfl, -, rfl⟩ | hx
    · rw [activePins_markRemoved]
      exact h.live_pins ho
    · exact h.tomb_pins hx
  · intro p g hp
    by_cases hg : g = generation o
    · refine .inr ⟨_, (hremoved g).trans (if_pos ⟨hg, fun hz => ?_⟩)⟩
      exact pinsNaming_eq_zero.mp ((h.live_pins ho).symm.trans hz) p (hg ▸ hp)
    rcases h.named hp with ⟨k, x, hx, rfl⟩ | ⟨x, hx⟩
    · exact .inl ⟨k, x, hstay hx hg, rfl⟩
    · exact .inr ⟨x, (hremoved g).trans ((if_neg fun h => hg h.1).trans hx)⟩
  · rintro x (⟨k, hx⟩ | ⟨g, hx⟩)
    · exact ⟨x, .inl ⟨_, (hgone hx).1⟩, rfl, rfl⟩
    rcases htomb hx with ⟨-, -, rfl⟩ | hx
    · exact ⟨o, .inl ⟨_, ho⟩, by simp, by simp⟩
    · exact ⟨x, .inr ⟨g, hx⟩, rfl, rfl⟩
  · intro k hk
    rw [get?_erase, hk, ite_self]

end Kept

/-- A pinned operation in use acts on the object it captured while that is
live, and on nothing afterwards. -/
theorem Held.withPinned_eq (h : r.Held held) (hinv : r.Inv next) (hp : p ∈ held) (f : α → Except Errno β × α) :
    (∀ k o, r.live.get? k = some o → generation o = p.generation →
      r.withPinned p f = ((f o).1, { r with live := r.live.insert k (f o).2 })) ∧
    ((∀ k o, r.live.get? k = some o → generation o ≠ p.generation) → r.withPinned p f = (.error .EIDRM, r)) := by
  have hentry := h.entered p hp
  unfold withPinned
  rw [if_neg (by simp [hentry])]
  constructor
  · intro k o ho hg
    have hk : k = publicKey p.publicId := by
      rw [hinv.live_key ho, h.names p hp o (.inl ⟨k, ho⟩) hg]
    subst hk
    rw [liveOf_eq_some.mpr ⟨ho, hg⟩]
  intro hnone
  have : r.liveOf p = none := Option.eq_none_iff_forall_ne_some.mpr fun o ho => by
    obtain ⟨ho, hg⟩ := liveOf_eq_some.mp ho
    exact hnone _ o ho hg
  rw [this]

end Registry

end Kandelo.Ipc

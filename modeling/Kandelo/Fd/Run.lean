/-
Runs of a descriptor table: any sequence of its calls, from a new table.
`Descriptors.Step` says what each call is for, on the numbers and the limit
alone, and `call_refines` that every call of the table is such a step. In every
reachable state `lowest_first` then reads off what a caller may rely on.
-/
import Kandelo.Lib.Machine
import Kandelo.Fd.Refinement

namespace Kandelo.Fd

/-- The calls of a table. `tryClone` goes on with the clone: the table of the
process it is made for. -/
inductive FdOp
  | alloc (storage : Storage) (ofdRef : Nat) (fdFlags : UInt32)
  | allocAtMin (storage : Storage) (ofdRef : Nat) (fdFlags : UInt32) (minFd : Int32)
  | preopenStdio (storage : Storage)
  | reserve (storage : Storage)
  | reservePair (storage : Storage)
  | installReserved (fd : Int32) (ofdRef : Nat) (fdFlags : UInt32)
  | releaseReserved (fd : Int32)
  | free (fd : Int32)
  | getMut (fd : Int32) (write : FdEntry → FdEntry)
  | restoreEntry (storage : Storage) (fd : Nat) (entry : FdEntry)
  | tryClone (storage : Storage)
  | setMaxFds (max : Nat)
  | setAt (storage : Storage) (fd : Int32) (ofdRef : Nat) (fdFlags : UInt32)

inductive FdAnswer
  | done
  | fd (fd : Int32)
  | pair (first second : Int32)
  | released (held : Bool)
  | closed (ofdRef : Nat)
  | replaced (old : Option Nat)
  deriving DecidableEq

/-- An answer and the state it leaves, with the answer read by `f`. -/
def answered {α : Type} (f : α → FdAnswer) (r : Except Errno α × FdTable) : Except Errno FdAnswer × FdTable := (r.1.map f, r.2)

namespace FdTable

def call (t : FdTable) : FdOp → Except Errno FdAnswer × FdTable
  | .alloc storage ofdRef fdFlags => answered .fd (t.alloc storage ofdRef fdFlags)
  | .allocAtMin storage ofdRef fdFlags minFd => answered .fd (t.allocAtMin storage ofdRef fdFlags minFd)
  | .preopenStdio storage => (.ok .done, t.preopenStdio storage)
  | .reserve storage => answered .fd (t.reserve storage)
  | .reservePair storage => answered (fun p => .pair p.1 p.2) (t.reservePair storage)
  | .installReserved fd ofdRef fdFlags => answered (fun _ => .done) (t.installReserved fd ofdRef fdFlags)
  | .releaseReserved fd => (.ok (.released (t.releaseReserved fd).1), (t.releaseReserved fd).2)
  | .free fd => answered .closed (t.free fd)
  | .getMut fd write => answered (fun _ => .done) (t.getMut fd write)
  | .restoreEntry storage fd entry => answered (fun _ => .done) (t.restoreEntry storage fd entry)
  | .tryClone storage =>
    match t.tryClone storage with
    | .error e => (.error e, t)
    | .ok c => (.ok .done, c)
  | .setMaxFds max => (.ok .done, t.setMaxFds max)
  | .setAt storage fd ofdRef fdFlags => answered .replaced (t.setAt storage fd ofdRef fdFlags)

def Reachable : FdTable → Prop := Machine.Reachable (fun t => ∃ maxFds, t = withMax maxFds) call

end FdTable

/-! ## What the calls are for -/

/-- The number from which a call claims a descriptor, and the slot it stores there. -/
def FdOp.claims : FdOp → Option (Nat × FdSlot)
  | .alloc _ ofdRef fdFlags => some (0, .opened ⟨ofdRef, fdFlags⟩)
  | .allocAtMin _ ofdRef fdFlags minFd => some (minFd.toNatClampNeg, .opened ⟨ofdRef, fdFlags⟩)
  | .reserve _ => some (0, .reserved)
  | _ => none

def FdOp.storage : FdOp → Option Storage
  | .alloc storage _ _ | .allocAtMin storage _ _ _ | .preopenStdio storage | .reserve storage
  | .reservePair storage | .restoreEntry storage _ _ | .tryClone storage | .setAt storage _ _ _ => some storage
  | _ => none

/-- The numbers a call stores at. -/
def FdOp.Stores (op : FdOp) (d : Descriptors) (i : Nat) : Prop :=
  match op with
  | .restoreEntry _ fd _ => fd = i
  | .tryClone _ => ∃ fd entry, fd.toNatClampNeg = i ∧ d.OpenAt fd entry
  | .setAt _ fd _ _ => fd.toNatClampNeg = i
  | _ => ∃ min s, op.claims = some (min, s) ∧ d.Lowest min i

namespace Descriptors

/-- What a call may answer and do to the descriptors. -/
inductive Step : Descriptors → FdOp → Except Errno FdAnswer → Descriptors → Prop
  | claimed {d op min s i} : op.claims = some (min, s) → d.Lowest min i →
      Step d op (.ok (.fd (Int32.ofNat i))) (d.put i s)
  | full {d op min s} : op.claims = some (min, s) → (∀ i, ¬ d.Available min i) → Step d op (.error .EMFILE) d
  /-- Only a call that is refused storage for a slot behind the inline ones fails for want of it. -/
  | noStorage {d op storage i e} : op.storage = some storage → op.Stores d i → 3 ≤ i → FdTable.Refuses storage e → Step d op (.error e) d
  | preopened {d d₁ d₂ d₃ storage a₁ a₂ a₃} : Step d (.alloc storage 0 0) a₁ d₁ → Step d₁ (.alloc storage 1 0) a₂ d₂ →
      Step d₂ (.alloc storage 2 0) a₃ d₃ → Step d (.preopenStdio storage) (.ok .done) d₃
  | pair {d d₁ d₂ storage first second} : Step d (.reserve storage) (.ok (.fd first)) d₁ →
      Step d₁ (.reserve storage) (.ok (.fd second)) d₂ → Step d (.reservePair storage) (.ok (.pair first second)) d₂
  | noFirst {d storage e} : Step d (.reserve storage) (.error e) d → Step d (.reservePair storage) (.error e) d
  /-- The first of the two numbers is given back. -/
  | noSecond {d d₁ storage first e} : Step d (.reserve storage) (.ok (.fd first)) d₁ →
      Step d₁ (.reserve storage) (.error e) d₁ → Step d (.reservePair storage) (.error e) d
  | installed {d fd i ofdRef fdFlags} : tryFrom fd = some i → d.slotOf i = .reserved →
      Step d (.installReserved fd ofdRef fdFlags) (.ok .done) (d.put i (.opened ⟨ofdRef, fdFlags⟩))
  | notReserved {d fd ofdRef fdFlags} : (∀ i, tryFrom fd = some i → d.slotOf i ≠ .reserved) →
      Step d (.installReserved fd ofdRef fdFlags) (.error .EBADF) d
  | released {d fd i} : tryFrom fd = some i → d.slotOf i = .reserved →
      Step d (.releaseReserved fd) (.ok (.released true)) (d.put i .free)
  | notHeld {d fd} : (∀ i, tryFrom fd = some i → d.slotOf i ≠ .reserved) →
      Step d (.releaseReserved fd) (.ok (.released false)) d
  | closed {d fd i entry} : tryFrom fd = some i → d.slotOf i = .opened entry →
      Step d (.free fd) (.ok (.closed entry.ofdRef)) (d.put i .free)
  | notOpen {d fd} : (∀ entry, ¬ d.OpenAt fd entry) → Step d (.free fd) (.error .EBADF) d
  | written {d fd i entry write} : tryFrom fd = some i → d.slotOf i = .opened entry →
      Step d (.getMut fd write) (.ok .done) (d.put i (.opened (write entry)))
  | notWritten {d fd write} : (∀ entry, ¬ d.OpenAt fd entry) → Step d (.getMut fd write) (.error .EBADF) d
  | restored {d storage fd entry} : fd ≤ i32Max →
      Step d (.restoreEntry storage fd entry) (.ok .done) (d.put fd (.opened entry))
  | noNumber {d storage fd entry} : i32Max < fd → Step d (.restoreEntry storage fd entry) (.error .EINVAL) d
  | cloned {d storage} : Step d (.tryClone storage) (.ok .done) d.visible
  | limited {d max} : Step d (.setMaxFds max) (.ok .done) { d with limit := max }
  | placed {d storage fd i ofdRef fdFlags} : tryFrom fd = some i → i < d.limit → d.slotOf i ≠ .reserved →
      Step d (.setAt storage fd ofdRef fdFlags)
        (.ok (.replaced (d.slotOf i).ofdRef)) (d.put i (.opened ⟨ofdRef, fdFlags⟩))
  | outOfRange {d storage fd ofdRef fdFlags} : (∀ i, tryFrom fd = some i → d.limit ≤ i) →
      Step d (.setAt storage fd ofdRef fdFlags) (.error .EBADF) d
  | busy {d storage fd i ofdRef fdFlags} : tryFrom fd = some i → d.slotOf i = .reserved →
      Step d (.setAt storage fd ofdRef fdFlags) (.error .EBUSY) d

variable {op : FdOp}

theorem Step.error_unchanged {d d' : Descriptors} {e : Errno} (h : Step d op (.error e) d') : d' = d := by
  cases h <;> rfl

/-- Calls one after another, with their answers. -/
inductive Run : Descriptors → List FdOp → List (Except Errno FdAnswer) → Descriptors → Prop
  | nil {d} : Run d [] [] d
  | cons {d d₁ d₂ op answer ops answers} : Step d op answer d₁ → Run d₁ ops answers d₂ →
      Run d (op :: ops) (answer :: answers) d₂

end Descriptors

namespace FdTable

open Descriptors (Step)

/-! ## The calls refine their steps -/

/-- A call keeps the invariant and is a step of the descriptors. -/
def Refines (t : FdTable) (op : FdOp) (r : Except Errno FdAnswer × FdTable) : Prop := r.2.Inv ∧ Step t.abs op r.1 r.2.abs

variable {t : FdTable}

theorem refines_of_abs {t' : FdTable} {answer : Except Errno FdAnswer} {d : Descriptors} (hinv : t'.Inv)
    (habs : t'.abs = d) (h : Step t.abs op answer d) : Refines t op (answer, t') :=
  ⟨hinv, habs ▸ h⟩

/-- A call that fails leaves the table as it was, down to its storage. -/
def Atomic {α : Type} (t : FdTable) (r : Except Errno α × FdTable) : Prop := ∀ e, r.1 = .error e → r.2 = t

structure Lawful (t : FdTable) (op : FdOp) (r : Except Errno FdAnswer × FdTable) : Prop where
  refines : Refines t op r
  atomic : Atomic t r

theorem lawful_ok {t' : FdTable} {answer : FdAnswer} {d : Descriptors} (hinv : t'.Inv) (habs : t'.abs = d)
    (h : Step t.abs op (.ok answer) d) : Lawful t op (.ok answer, t') :=
  ⟨refines_of_abs hinv habs h, nofun⟩

section

variable (ht : t.Inv)

include ht

theorem lawful_error {e : Errno} (h : Step t.abs op (.error e) t.abs) : Lawful t op (.error e, t) := ⟨⟨ht, h⟩, fun _ _ => rfl⟩

theorem lawful_claim {storage : Storage} {min : Nat} {s : FdSlot}
    (hclaims : op.claims = some (min, s)) (hstorage : op.storage = some storage) :
    Lawful t op (answered .fd (t.claim storage min s)) := by
  obtain ⟨hinv, hlowest, hunchanged, -, hrefused⟩ := claim_claims ht storage min s
  unfold answered
  cases hr : (t.claim storage min s).1 with
  | ok fd =>
    obtain ⟨i, hi, rfl, habs⟩ := hlowest fd hr
    exact lawful_ok hinv habs (.claimed hclaims hi)
  | error e =>
    rw [hunchanged e hr]
    rcases hrefused e hr with ⟨rfl, hnone⟩ | ⟨i, hi, hthree, hrefused⟩
    · exact lawful_error ht (.full hclaims hnone)
    · refine lawful_error ht (.noStorage hstorage ?_ hthree hrefused)
      cases op <;> first | exact ⟨_, _, hclaims, hi⟩ | cases hclaims

section

variable (storage : Storage)

theorem refines_alloc (ofdRef : Nat) (fdFlags : UInt32) :
    Refines t (.alloc storage ofdRef fdFlags) (answered .fd (t.alloc storage ofdRef fdFlags)) :=
  (lawful_claim ht rfl rfl).refines

theorem refines_reserve : Refines t (.reserve storage) (answered .fd (t.reserve storage)) := (lawful_claim ht rfl rfl).refines

theorem lawful_preopenStdio : Lawful t (.preopenStdio storage) (.ok .done, t.preopenStdio storage) := by
  obtain ⟨hinv1, hstep1⟩ := refines_alloc ht storage 0 0
  obtain ⟨hinv2, hstep2⟩ := refines_alloc hinv1 storage 1 0
  obtain ⟨hinv3, hstep3⟩ := refines_alloc hinv2 storage 2 0
  exact ⟨⟨hinv3, .preopened hstep1 hstep2 hstep3⟩, nofun⟩

/-- Freeing a slot, with the storage given back when no slot in it is in use any more. -/
theorem free_slot {i : Nat} (hi : i < t.slotCount) : (t.replaceSlot i .free hi).reclaimEmptySlots.Inv ∧
      (t.replaceSlot i .free hi).reclaimEmptySlots.abs = t.abs.put i .free := by
  have hinv := ht.replaceSlot i .free hi
  exact ⟨hinv.reclaimEmptySlots, by rw [abs_reclaimEmptySlots hinv, abs_replaceSlot]⟩

theorem releaseReserved_held {fd : Int32} {i : Nat} (hfd : tryFrom fd = some i) (hi : t.abs.slotOf i = .reserved) :
    (t.releaseReserved fd).1 ∧ (t.releaseReserved fd).2.Inv ∧ (t.releaseReserved fd).2.abs = t.abs.put i .free := by
  have hslot := (slot_eq_some_iff t (by simp)).2 hi
  simp only [releaseReserved, hfd, hslot, dif_pos, true_and]
  exact free_slot ht (slot_lt hslot)

theorem lawful_releaseReserved (fd : Int32) :
    Lawful t (.releaseReserved fd) (.ok (.released (t.releaseReserved fd).1), (t.releaseReserved fd).2) := by
  by_cases h : ∃ i, tryFrom fd = some i ∧ t.abs.slotOf i = .reserved
  · obtain ⟨i, hfd, hi⟩ := h
    obtain ⟨hheld, hinv, habs⟩ := releaseReserved_held ht hfd hi
    rw [hheld]
    exact lawful_ok hinv habs (.released hfd hi)
  have hnot : ∀ i, tryFrom fd = some i → t.abs.slotOf i ≠ .reserved := fun i hfd hi => h ⟨i, hfd, hi⟩
  have heq : t.releaseReserved fd = (false, t) := by
    unfold releaseReserved
    split
    · rfl
    · rename_i i hfd
      rw [dif_neg (fun hslot => hnot i hfd ((slot_eq_some_iff t (by simp)).1 hslot))]
  rw [heq]
  exact lawful_ok ht rfl (.notHeld hnot)

theorem reserve_cases : (∃ e, t.reserve storage = (.error e, t)) ∨
      ∃ i t', t.reserve storage = (.ok (Int32.ofNat i), t') ∧ i ≤ i32Max ∧ t.abs.slotOf i = .free ∧
        t'.Inv ∧ t'.abs = t.abs.put i .reserved := by
  obtain ⟨hinv, hlowest, hunchanged, -, -⟩ := claim_claims ht storage 0 .reserved
  cases hr : t.reserve storage with
  | mk answer t' =>
    cases answer with
    | error e =>
      have heq : (t.reserve storage).2 = t := hunchanged e (congrArg Prod.fst hr)
      rw [hr] at heq
      exact .inl ⟨e, by rw [← heq]⟩
    | ok fd =>
      obtain ⟨i, hi, rfl, habs⟩ := hlowest fd (congrArg Prod.fst hr)
      have hput : (t.reserve storage).2.Inv ∧ (t.reserve storage).2.abs = t.abs.put i .reserved := ⟨hinv, habs⟩
      rw [hr] at hput
      exact .inr ⟨i, t', rfl, hi.1.2.2.2, hi.1.2.1, hput⟩

theorem refines_reservePair : Refines t (.reservePair storage) (answered (fun p => .pair p.1 p.2) (t.reservePair storage)) := by
  have hstep1 := (refines_reserve ht storage).2
  rcases reserve_cases ht storage with ⟨e, hr⟩ | ⟨i, t₁, hr, hi, hfree, hinv1, hput1⟩
  · rw [hr] at hstep1
    simp only [reservePair, hr]
    exact ⟨ht, .noFirst hstep1⟩
  have hstep2 := (refines_reserve hinv1 storage).2
  rw [hr] at hstep1
  rcases reserve_cases hinv1 storage with ⟨e, hr2⟩ | ⟨j, t₂, hr2, -, -, hinv2, -⟩
  · -- giving the first number back undoes the first reservation
    have hheld : t₁.abs.slotOf i = .reserved := by rw [hput1]; simp [Descriptors.put]
    obtain ⟨-, hinv, habs⟩ := releaseReserved_held hinv1 (tryFrom_ofNat hi) hheld
    rw [hput1, Descriptors.put_put, Descriptors.put_self _ hfree] at habs
    rw [hr2] at hstep2
    simp only [reservePair, hr, hr2]
    exact refines_of_abs hinv habs (.noSecond hstep1 hstep2)
  · rw [hr2] at hstep2
    simp only [reservePair, hr, hr2]
    exact ⟨hinv2, .pair hstep1 hstep2⟩

end

theorem lawful_installReserved (fd : Int32) (ofdRef : Nat) (fdFlags : UInt32) : Lawful t (.installReserved fd ofdRef fdFlags)
      (answered (fun _ => .done) (t.installReserved fd ofdRef fdFlags)) := by
  unfold installReserved
  split
  · rename_i hfd
    exact lawful_error ht (.notReserved (by simp [hfd]))
  rename_i i hfd
  have hres := slot_eq_some_iff t (i := i) (s := .reserved) (by simp)
  split_ifs with hslot
  · exact lawful_ok (ht.replaceSlot i _ (slot_lt hslot)) (abs_replaceSlot t i _ (slot_lt hslot))
      (.installed hfd (hres.1 hslot))
  · exact lawful_error ht (.notReserved (by simpa [hfd, ← hres] using hslot))

end

/-- `fd` is open exactly when the slot of its index is. -/
theorem not_openAt {fd : Int32} (h : ∀ i, tryFrom fd = some i → ∀ entry, t.slot i ≠ some (.opened entry))
    (entry : FdEntry) : ¬ t.abs.OpenAt fd entry := by
  intro ⟨i, hfd, hi⟩
  exact h i hfd entry ((slot_eq_some_iff t (by simp)).2 hi)

section

variable (ht : t.Inv)

include ht

theorem lawful_free (fd : Int32) : Lawful t (.free fd) (answered .closed (t.free fd)) := by
  unfold free
  split
  · rename_i hfd
    exact lawful_error ht (.notOpen (not_openAt (by simp [hfd])))
  rename_i i hfd
  split
  · rename_i entry hslot
    obtain ⟨hinv, habs⟩ := free_slot ht (slot_lt hslot)
    exact lawful_ok hinv habs (.closed hfd ((slot_eq_some_iff t (by simp)).1 hslot))
  · rename_i hslot
    exact lawful_error ht (.notOpen (not_openAt (by simpa [hfd] using hslot)))

theorem lawful_getMut (fd : Int32) (write : FdEntry → FdEntry) :
    Lawful t (.getMut fd write) (answered (fun _ => .done) (t.getMut fd write)) := by
  unfold getMut
  split
  · rename_i hfd
    exact lawful_error ht (.notWritten (not_openAt (by simp [hfd])))
  rename_i i hfd
  split
  · rename_i entry hslot
    exact lawful_ok (ht.replaceSlot i _ (slot_lt hslot)) (abs_replaceSlot t i _ (slot_lt hslot))
      (.written hfd ((slot_eq_some_iff t (by simp)).1 hslot))
  · rename_i hslot
    exact lawful_error ht (.notWritten (not_openAt (by simpa [hfd] using hslot)))

theorem lawful_restoreEntry (storage : Storage) (fd : Nat) (entry : FdEntry) :
    Lawful t (.restoreEntry storage fd entry) (answered (fun _ => .done) (t.restoreEntry storage fd entry)) := by
  unfold restoreEntry
  split_ifs with hfd
  · exact lawful_error ht (.noNumber ‹_›)
  split
  · rename_i herr
    obtain ⟨hthree, hrefused⟩ := ensureSlot_refused herr
    exact lawful_error ht (.noStorage rfl rfl hthree hrefused)
  rename_i hok
  obtain ⟨hinv, habs⟩ := store_ensured ht (Nat.le_of_not_lt hfd) hok (.opened entry)
  exact lawful_ok hinv habs (.restored (Nat.le_of_not_lt hfd))

theorem lawful_tryClone (storage : Storage) : Lawful t (.tryClone storage) (t.call (.tryClone storage)) := by
  unfold call
  dsimp only
  split
  · rename_i herr
    obtain ⟨p, hp, hthree, hrefused⟩ := restoreEntries_refused herr
    exact lawful_error ht (.noStorage rfl ⟨p.1, p.2, rfl, (mem_iter_iff ht _ _).1 hp⟩ hthree hrefused)
  · rename_i hok
    obtain ⟨hinv, habs⟩ := tryClone_ok ht hok
    exact lawful_ok hinv habs .cloned

theorem lawful_setAt (storage : Storage) (fd : Int32) (ofdRef : Nat) (fdFlags : UInt32) :
    Lawful t (.setAt storage fd ofdRef fdFlags) (answered .replaced (t.setAt storage fd ofdRef fdFlags)) := by
  unfold setAt
  dsimp only
  split
  · rename_i hbad
    refine lawful_error ht (.outOfRange fun i hfd => ?_)
    unfold tryFrom at hfd
    rcases hbad with hneg | hle
    · simp [hneg] at hfd
    split at hfd
    · cases hfd
    · cases hfd
      exact hle
  rename_i hgood
  have hfd : tryFrom fd = some fd.toNatClampNeg := by rw [tryFrom, if_neg fun h => hgood (.inl h)]
  have hlt : fd.toNatClampNeg < t.abs.limit := Nat.lt_of_not_le fun h => hgood (.inr h)
  have hres := slot_eq_some_iff t (i := fd.toNatClampNeg) (s := .reserved) (by simp)
  split_ifs with hnot
  · exact lawful_error ht (.busy hfd (hres.1 ‹_›))
  split
  · rename_i herr
    obtain ⟨hthree, hrefused⟩ := ensureSlot_refused herr
    exact lawful_error ht (.noStorage rfl rfl hthree hrefused)
  rename_i t' ht' hok
  obtain ⟨hinv, habs⟩ := store_ensured ht (tryFrom_some hfd).2 hok (.opened ⟨ofdRef, fdFlags⟩)
  have hold : (t'.slot fd.toNatClampNeg).bind FdSlot.ofdRef = (t.abs.slotOf fd.toNatClampNeg).ofdRef := by
    rw [← (ensureSlot_ok hok).1.abs, abs_slotOf]
    cases t'.slot fd.toNatClampNeg <;> rfl
  rw [hold]
  exact lawful_ok hinv habs (.placed hfd hlt fun h => hnot (hres.2 h))

/-- Only `reserve_pair` may fail with the storage grown. -/
theorem call_lawful : ∀ {op : FdOp}, (∀ storage, op ≠ .reservePair storage) → Lawful t op (t.call op)
  | .alloc _ _ _, _ => lawful_claim ht rfl rfl
  | .allocAtMin _ _ _ _, _ => lawful_claim ht rfl rfl
  | .preopenStdio storage, _ => lawful_preopenStdio ht storage
  | .reserve _, _ => lawful_claim ht rfl rfl
  | .reservePair storage, hop => absurd rfl (hop storage)
  | .installReserved fd ofdRef fdFlags, _ => lawful_installReserved ht fd ofdRef fdFlags
  | .releaseReserved fd, _ => lawful_releaseReserved ht fd
  | .free fd, _ => lawful_free ht fd
  | .getMut fd write, _ => lawful_getMut ht fd write
  | .restoreEntry storage fd entry, _ => lawful_restoreEntry ht storage fd entry
  | .tryClone storage, _ => lawful_tryClone ht storage
  | .setMaxFds _, _ => lawful_ok ⟨ht.counted, ht.small⟩ rfl .limited
  | .setAt storage fd ofdRef fdFlags, _ => lawful_setAt ht storage fd ofdRef fdFlags

theorem call_refines (op : FdOp) : Refines t op (t.call op) := by
  by_cases h : ∃ storage, op = .reservePair storage
  · obtain ⟨storage, rfl⟩ := h
    exact refines_reservePair ht storage
  · exact (call_lawful ht fun storage heq => h ⟨storage, heq⟩).refines

end

theorem Reachable.inv (h : Reachable t) : t.Inv :=
  Machine.Reachable.invariant (I := Inv) (fun _ ⟨maxFds, ht⟩ => ht ▸ inv_withMax maxFds)
    (fun _ op ht => (call_refines ht op).1) h

/-- What a sequence of calls answers, call by call. -/
def answers (t : FdTable) : List FdOp → List (Except Errno FdAnswer)
  | [] => []
  | op :: ops => (t.call op).1 :: answers (t.call op).2 ops

/-- A whole run of the table is a run of the descriptors, with the same answers. -/
theorem run_refines : ∀ {t : FdTable} (ops : List FdOp), t.Inv → t.abs.Run ops (t.answers ops) (Machine.run call t ops).abs
  | _, [], _ => .nil
  | _, op :: ops, ht =>
    let ⟨hinv, hstep⟩ := call_refines ht op
    .cons hstep (run_refines ops hinv)

/-- Descriptor 0 is open and 1 claimed. -/
def opening : FdTable := (((withMax 5).call (.alloc .ok 7 0)).2.call (.reserve .ok)).2

theorem run_refines_opening : let ops : List FdOp := [.installReserved 1 8 0, .reserve (fun _ => .error .ENOMEM), .free 0]
    opening.abs.Run ops (opening.answers ops) (Machine.run call opening ops).abs :=
  run_refines _ (call_refines (call_refines (inv_withMax 5) _).1 _).1

/-! ## What callers rely on -/

/-- Lists of slots that read alike past their ends have the same slots in use. -/
theorem countP_eq_of_getD : ∀ (l l' : List FdSlot), (∀ i : Nat, (l[i]?).getD FdSlot.free = (l'[i]?).getD FdSlot.free) →
    l.countP (· ≠ FdSlot.free) = l'.countP (· ≠ FdSlot.free)
  | [], [], _ => rfl
  | [], s :: l', h => by
    have hs : .free = s := h 0
    have ih := countP_eq_of_getD [] l' fun i => h (i + 1)
    rw [List.countP_cons, ← hs, ← ih]
    simp
  | s :: l, [], h => by
    have hs : s = .free := h 0
    have ih := countP_eq_of_getD l [] fun i => h (i + 1)
    rw [List.countP_cons, hs, ih]
    simp
  | s :: l, s' :: l', h => by
    have hs : s = s' := h 0
    rw [List.countP_cons, List.countP_cons, hs, countP_eq_of_getD l l' fun i => h (i + 1)]

theorem occupiedSlots_eq_of_abs {t' : FdTable} (ht : t.Inv) (ht' : t'.Inv) (h : t'.abs = t.abs) :
    t'.occupiedSlots = t.occupiedSlots := by
  rw [ht.counted, ht'.counted]
  refine countP_eq_of_getD _ _ fun i => ?_
  have hi := congrFun (congrArg Descriptors.slotOf h) (i + 3)
  have hbehind : ¬ i + 3 < 3 := by omega
  simpa [abs_slotOf, slot, t.inline_len, t'.inline_len, hbehind] using hi

/-- In every reachable state: `alloc_at_min` and `reserve` give out the lowest available number, and fail with
`EMFILE` exactly when there is none; the counter is the number of slots in use from descriptor 3 on; lookups,
iteration and clones see the open descriptors and no reservation; and a call that fails leaves every descriptor,
the limit and the counter as they were. -/
theorem lowest_first {t : FdTable} (h : Reachable t) :
    (∀ storage ofdRef fdFlags minFd, Claims t storage minFd.toNatClampNeg (.opened ⟨ofdRef, fdFlags⟩)
      (t.allocAtMin storage ofdRef fdFlags minFd)) ∧ (∀ storage, Claims t storage 0 .reserved (t.reserve storage)) ∧
    t.occupiedSlots = t.slots.values.countP (· ≠ .free) ∧ (∀ fd entry, t.get fd = .ok entry ↔ t.abs.OpenAt fd entry) ∧
    (∀ fd entry, (fd, entry) ∈ t.iter ↔ t.abs.OpenAt fd entry) ∧ (∀ storage, (∀ c, t.tryClone storage = .ok c → c.abs = t.abs.visible) ∧
      (Provides storage → ∃ c, t.tryClone storage = .ok c)) ∧ ∀ op e, (t.call op).1 = .error e →
      (t.call op).2.abs = t.abs ∧ (t.call op).2.occupiedSlots = t.occupiedSlots ∧
        ((∀ storage, op ≠ .reservePair storage) → (t.call op).2 = t) := by
  have ht := h.inv
  refine ⟨fun storage _ _ _ => (claim_claims ht storage _ _).2, fun storage => (claim_claims ht storage _ _).2,
    ht.counted, get_eq_ok_iff t, mem_iter_iff ht,
    fun storage => ⟨fun c hc => (tryClone_ok ht hc).2, tryClone_provided t⟩, fun op e he => ?_⟩
  obtain ⟨hinv, hstep⟩ := call_refines ht op
  rw [he] at hstep
  have habs := hstep.error_unchanged
  exact ⟨habs, occupiedSlots_eq_of_abs ht hinv habs, fun hop => (call_lawful ht hop).atomic e he⟩

/-- Storage that is always to be had, as much as was asked for. -/
def enough : Storage := fun capacity => .ok capacity

/-- A table with room for five and the standard streams open. -/
def stdioOpen : FdTable := Machine.run call (withMax 5) [.preopenStdio enough]

theorem stdioOpen_reachable : stdioOpen.Reachable := .run _ (.start ⟨5, rfl⟩)

theorem stdioOpen_lowest : (stdioOpen.reserve enough).1 = .ok 3 ∧ (∃ i, stdioOpen.abs.Lowest 0 i ∧ 3 = Int32.ofNat i ∧
      (stdioOpen.reserve enough).2.abs = stdioOpen.abs.put i .reserved) ∧ stdioOpen.occupiedSlots = 0 := by
  have hall := lowest_first stdioOpen_reachable
  have hok : (stdioOpen.reserve enough).1 = .ok 3 := by decide +kernel
  exact ⟨hok, (hall.2.1 enough).lowest 3 hok, hall.2.2.1⟩

/-- The counter leaves the inline slots out: with the three standard streams open it is 0. And a `reserve_pair` that
fails may keep storage it grew: here from four slots, the fourth reserved, to five. -/
theorem inline_not_counted : (stdioOpen.Reachable ∧ (stdioOpen.inline ++ stdioOpen.slots.values).countP (· ≠ .free) = 3 ∧
      stdioOpen.occupiedSlots = 0) ∧
    let oneReserved := (stdioOpen.call (.reserve enough)).2
    oneReserved.Reachable ∧ (oneReserved.reservePair enough).1 = .error .EMFILE ∧
      oneReserved.slotCount = 4 ∧ (oneReserved.reservePair enough).2.slotCount = 5 :=
  ⟨⟨stdioOpen_reachable, by decide +kernel⟩, stdioOpen_reachable.next _, by decide +kernel⟩

end FdTable

end Kandelo.Fd

/-
Advisory-lock byte ranges and the identities a lock record carries
(`lock.rs`, the types before `AdvisoryLockManager`).

A `LockRange` is "normalized, absolute, non-empty": here the fields say so
(`wf`), and every range the code builds (a fragment of a record, a union) is
built with that proof. Offsets are `i64`s, so they are
integers up to `i64Max`. Reading `Eof` as one past the last offset
(`LockRangeEnd.bound`) turns each test of the source into a comparison of
integers, and that is how the proofs use them.
-/
import Kandelo.Errno
import Kandelo.Lib.SortedVec

namespace Kandelo.Lock

/-- `i64::MAX`. -/
def i64Max : Int := 2 ^ 63 - 1

/-- Stable identity of an open file description. -/
structure OfdId where
  id : Nat
  deriving DecidableEq, Repr

inductive KernelFileKind
  | memFd
  | syntheticRegular
  | procFsRegular
  deriving DecidableEq, Repr

/-- The file object a lock applies to. -/
inductive FileId
  | host (dev ino : Nat)
  | kernel (kind : KernelFileKind) (objectId : Nat)
  deriving DecidableEq, Repr

inductive LockOwner
  | process (pid : Nat)
  | openFileDescription (id : OfdId)
  | flock (id : OfdId)
  deriving DecidableEq, Repr

def LockOwner.isFlock : LockOwner → Bool
  | .flock _ => true
  | _ => false

/-- BSD flock has a namespace of its own; process and OFD locks share one. -/
def LockOwner.conflictsInNamespace (a b : LockOwner) : Bool := a.isFlock == b.isFlock

inductive AdvisoryLockType
  | read
  | write
  deriving DecidableEq, Repr

/-- Exclusive endpoint of a half-open range. -/
inductive LockRangeEnd
  | offset (stop : Int)
  | eof
  deriving DecidableEq, Repr

/-! ## The derived orders

Rust's derived `Ord` compares the variant, then the fields in order: the
lists below, compared lexicographically. -/

def KernelFileKind.rank : KernelFileKind → Nat
  | .memFd => 0
  | .syntheticRegular => 1
  | .procFsRegular => 2

def FileId.key : FileId → List Nat
  | .host dev ino => [0, dev, ino]
  | .kernel kind objectId => [1, kind.rank, objectId]

def LockOwner.key : LockOwner → List Nat
  | .process pid => [0, pid]
  | .openFileDescription ofd => [1, ofd.id]
  | .flock ofd => [2, ofd.id]

def AdvisoryLockType.rank : AdvisoryLockType → Nat
  | .read => 0
  | .write => 1

def LockRangeEnd.cmp : LockRangeEnd → LockRangeEnd → Ordering
  | .offset a, .offset b => compare a b
  | .offset _, .eof => .lt
  | .eof, .offset _ => .gt
  | .eof, .eof => .eq

instance : Ord FileId := ⟨compareOn FileId.key⟩
instance : Ord LockOwner := ⟨compareOn LockOwner.key⟩
instance : Ord AdvisoryLockType := ⟨compareOn AdvisoryLockType.rank⟩
instance : Ord LockRangeEnd := ⟨LockRangeEnd.cmp⟩

instance : Std.TransOrd FileId := inferInstanceAs (Std.TransCmp (compareOn FileId.key))
instance : Std.TransOrd LockOwner := inferInstanceAs (Std.TransCmp (compareOn LockOwner.key))
instance : Std.TransOrd AdvisoryLockType := inferInstanceAs (Std.TransCmp (compareOn AdvisoryLockType.rank))

instance : Std.TransOrd LockRangeEnd where
  eq_swap {a b} := by
    change LockRangeEnd.cmp a b = (LockRangeEnd.cmp b a).swap
    cases a <;> cases b <;> simp only [LockRangeEnd.cmp, Ordering.swap_gt, Ordering.swap_lt, Ordering.swap_eq]
    exact Std.OrientedOrd.eq_swap
  isLE_trans {a b c} := by
    change (LockRangeEnd.cmp a b).isLE → (LockRangeEnd.cmp b c).isLE → (LockRangeEnd.cmp a c).isLE
    cases a <;> cases b <;> cases c <;> simp only [LockRangeEnd.cmp] <;> try simp
    exact Std.TransOrd.isLE_trans

theorem LockRangeEnd.compare_eq (a b : LockRangeEnd) : compare a b = LockRangeEnd.cmp a b := rfl

theorem FileId.key_inj {a b : FileId} (h : a.key = b.key) : a = b := by
  rcases a with ⟨_, _⟩ | ⟨k, _⟩ <;> rcases b with ⟨_, _⟩ | ⟨k', _⟩ <;> simp_all [FileId.key]
  cases k <;> cases k' <;> simp_all [KernelFileKind.rank]

theorem FileId.compare_eq_iff {a b : FileId} : compare a b = .eq ↔ a = b := by
  constructor
  · intro h
    exact FileId.key_inj (Std.LawfulEqOrd.eq_of_compare (show compare a.key b.key = .eq from h))
  · rintro rfl
    exact Std.ReflOrd.compare_self

/-- The endpoint as an integer: `Eof` is one past the last offset. -/
def LockRangeEnd.bound : LockRangeEnd → Int
  | .offset e => e
  | .eof => i64Max + 1

/-- Rust's `max` on endpoints. -/
def LockRangeEnd.max (a b : LockRangeEnd) : LockRangeEnd :=
  if compare a b = .gt then a else b

/-! ## Ranges -/

/-- Normalized, absolute, non-empty half-open byte range. -/
structure LockRange where
  start : Int
  stop : LockRangeEnd
  wf : 0 ≤ start ∧ start ≤ i64Max ∧ ∀ e, stop = .offset e → start < e ∧ e ≤ i64Max
  deriving DecidableEq

open LockRangeEnd

namespace LockRange

def hi (r : LockRange) : Int := r.stop.bound

theorem hi_le (r : LockRange) : r.hi ≤ i64Max + 1 := by
  unfold hi
  cases h : r.stop with
  | offset e => have := (r.wf.2.2 e h).2; simp only [bound]; omega
  | eof => simp [bound]

theorem start_lt_hi (r : LockRange) : r.start < r.hi := by
  unfold hi
  cases h : r.stop with
  | offset e => exact (r.wf.2.2 e h).1
  | eof => have := r.wf.2.1; simp only [bound]; omega

variable {r s : LockRange}

/-- Two ranges with the same start and the same end are one range. -/
theorem ext_hi (h1 : r.start = s.start) (h2 : r.hi = s.hi) : r = s := by
  obtain ⟨a, e, hr⟩ := r
  obtain ⟨b, f, hs⟩ := s
  subst h1
  have : e = f := by
    cases e <;> cases f <;> simp only [hi, bound] at h2
    · rw [h2]
    · have := (hr.2.2 _ rfl).2; omega
    · have := (hs.2.2 _ rfl).2; omega
    · rfl
  subst this
  rfl

/-- Byte `b` lies in the range; `Eof` ends after the last offset. -/
def contains (r : LockRange) (b : Int) : Bool :=
  decide (r.start ≤ b) && match r.stop with
    | .offset e => decide (b < e)
    | .eof => decide (b ≤ i64Max)

theorem contains_iff {b : Int} : r.contains b ↔ r.start ≤ b ∧ b < r.hi := by
  unfold contains hi
  cases r.stop with
  | offset e => simp [bound]
  | eof => simp only [bound, Bool.and_eq_true, decide_eq_true_eq]; omega

/-- `[0, EOF)`, the range of every `flock`. -/
def whole : LockRange := ⟨0, .eof, by simp [i64Max]⟩

def endAfter (r : LockRange) (start : Int) : Bool :=
  match r.stop with
  | .offset e => decide (start < e)
  | .eof => true

def startBeforeEnd (start : Int) (stop : LockRangeEnd) : Bool :=
  match stop with
  | .offset e => decide (start < e)
  | .eof => true

def overlaps (r s : LockRange) : Bool := r.endAfter s.start && startBeforeEnd r.start s.stop

def touchesOrOverlaps (r s : LockRange) : Bool :=
  let selfBeforeOrAtOtherEnd := match s.stop with
    | .offset e => decide (r.start ≤ e)
    | .eof => true
  let otherBeforeOrAtSelfEnd := match r.stop with
    | .offset e => decide (s.start ≤ e)
    | .eof => true
  selfBeforeOrAtOtherEnd && otherBeforeOrAtSelfEnd

theorem compare_stop_lt : compare r.stop s.stop = .lt ↔ r.hi < s.hi := by
  unfold hi at *
  cases hr : r.stop with
  | offset e =>
    have h3 := r.wf.2.2 e hr
    cases s.stop with
    | offset f => exact Int.compare_eq_lt
    | eof => simp only [LockRangeEnd.compare_eq, LockRangeEnd.cmp, bound]; simp; omega
  | eof =>
    cases hs : s.stop with
    | offset f =>
      have h3 := s.wf.2.2 f hs
      simp only [LockRangeEnd.compare_eq, LockRangeEnd.cmp, bound]; simp; omega
    | eof => simp

theorem stop_max_eq (r s : LockRange) : r.stop.max s.stop = if s.hi < r.hi then r.stop else s.stop := by
  have : compare r.stop s.stop = .gt ↔ s.hi < r.hi := by
    rw [Std.OrientedOrd.eq_swap (a := r.stop)]
    cases h : compare s.stop r.stop
    · simp [compare_stop_lt.mp h]
    all_goals
      have : ¬ s.hi < r.hi := fun hlt => by rw [compare_stop_lt.mpr hlt] at h; cases h
      simp [this]
  simp [LockRangeEnd.max, this]

def union (r s : LockRange) : LockRange :=
  ⟨min r.start s.start, r.stop.max s.stop, by
    have h₁ := r.wf
    have h₂ := s.wf
    have h₃ := r.start_lt_hi
    have h₄ := s.start_lt_hi
    rw [stop_max_eq]
    split
    · refine ⟨by omega, by omega, fun e he => ?_⟩
      have := h₁.2.2 e he
      omega
    refine ⟨by omega, by omega, fun e he => ?_⟩
    have := h₂.2.2 e he
    omega⟩

@[simp] theorem union_start (r s : LockRange) : (r.union s).start = min r.start s.start := rfl

@[simp] theorem union_hi (r s : LockRange) : (r.union s).hi = max r.hi s.hi := by
  have : (r.union s).hi = (r.stop.max s.stop).bound := rfl
  rw [this, stop_max_eq]
  split
  · simp only [hi] at *; omega
  · simp only [hi] at *; omega

/-- `[self.start, requested.start)`: what a record keeps before a request. -/
def leftOf (r requested : LockRange) (h : r.start < requested.start) : LockRange :=
  ⟨r.start, .offset requested.start, by
    have h₁ := r.wf
    have h₂ := requested.wf
    simp only [LockRangeEnd.offset.injEq, forall_eq']
    omega⟩

/-- `[requested.end, self.end)`: what a record keeps after a request. `Eof`
precedes no endpoint, so the other branch is `unreachable!` in the source. -/
def rightOf (r requested : LockRange) (h : compare requested.stop r.stop = .lt) : LockRange :=
  match hs : requested.stop with
  | .offset rightStart =>
    ⟨rightStart, r.stop, by
      have h₁ := requested.wf.2.2 _ hs
      have h₂ := requested.wf
      have h₃ := compare_stop_lt.mp h
      have h₄ : requested.hi = rightStart := by simp [hi, hs, bound]
      refine ⟨by omega, h₁.2, fun e he => ?_⟩
      have h₅ : r.hi = e := by simp [hi, he, bound]
      have h₆ := (r.wf.2.2 e he).2
      omega⟩
  | .eof => absurd (compare_stop_lt.mp h) (by have := r.hi_le; simp only [hi, hs, bound] at this ⊢; omega)

variable {q : LockRange}

@[simp] theorem leftOf_start (h) : (r.leftOf q h).start = r.start := rfl
@[simp] theorem leftOf_hi (h) : (r.leftOf q h).hi = q.start := rfl

@[simp] theorem rightOf_start (h) : (r.rightOf q h).start = q.hi := by
  unfold rightOf hi
  split
  · rename_i hs; simp [hs, bound]
  rename_i hs
  have := compare_stop_lt.mp h
  have := r.hi_le
  simp only [hi, hs, bound] at *
  omega

@[simp] theorem rightOf_hi (h) : (r.rightOf q h).hi = r.hi := by
  unfold rightOf
  split
  · rfl
  rename_i hs
  have := compare_stop_lt.mp h
  have := r.hi_le
  simp only [hi, hs, bound] at *
  omega

theorem overlaps_iff : r.overlaps s ↔ s.start < r.hi ∧ r.start < s.hi := by
  have h1 := r.wf
  have h2 := s.wf
  unfold overlaps endAfter startBeforeEnd hi
  cases r.stop <;> cases s.stop <;> simp [bound] <;> omega

theorem touches_iff : r.touchesOrOverlaps s ↔ r.start ≤ s.hi ∧ s.start ≤ r.hi := by
  have h1 := r.wf
  have h2 := s.wf
  unfold touchesOrOverlaps hi
  cases r.stop <;> cases s.stop <;> simp [bound] <;> omega

/-- Ranges overlap exactly when they share a byte. -/
theorem overlaps_iff_exists : r.overlaps s ↔ ∃ b, r.contains b ∧ s.contains b := by
  have h1 := r.start_lt_hi
  have h2 := s.start_lt_hi
  simp only [overlaps_iff, contains_iff]
  constructor
  · intro h
    exact ⟨max r.start s.start, by omega, by omega⟩
  · omega

end LockRange
end Kandelo.Lock

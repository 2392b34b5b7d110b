/-
`semop` against its meaning: the operations applied one after another to the
values (`applyInOrder`).

The code checks every operation against the values before any of them is
applied, and applies them in a second pass with a cast to `u16`. That is the
same unless some operation is decided differently by the value its semaphore
has at its turn (`semop_in_order_iff`). On distinct semaphores within range
none is (`verdicts_agree_of_distinct`); the second of two decrements of a
semaphore that holds 1 is.
-/
import Kandelo.Ipc.Table

namespace Kandelo.Ipc

/-- An operation can proceed at value `v`: a decrement does not go below 0, a
wait for zero sees 0, an increment stays within `SEMVMX`. -/
def CanProceed (v : Int) (op : Int16) : Prop :=
  (op < 0 → 0 ≤ v + op.toInt) ∧ (op = 0 → v = 0) ∧ (0 < op → v + op.toInt ≤ SEMVMX)

instance (v : Int) (op : Int16) : Decidable (CanProceed v op) := inferInstanceAs (Decidable (_ ∧ _))

/-- Apply one operation to a copy of the values, if it can proceed. -/
def applyOp (vals : List Int) (op : SemOp) : Option (List Int) :=
  match vals[op.num.toNat]? with
  | some v => if CanProceed v op.op then some (vals.set op.num.toNat (v + op.op.toInt)) else none
  | none => none

/-- Apply the operations in list order, each to what the earlier ones left. -/
def applyInOrder : List Int → List SemOp → Option (List Int)
  | vals, [] => some vals
  | vals, op :: sops => (applyOp vals op).bind fun vals => applyInOrder vals sops

def SemSet.vals (s : SemSet) : List Int := s.values.map fun sem => (sem.val.toNat : Int)

/-- The operation passes the checks of the first pass with its semaphore at `v`:
there is such a semaphore, a decrement finds enough, a wait for zero finds 0. -/
def Passes (s : SemSet) (op : SemOp) (v : Int) : Prop :=
  op.num.toNat < s.nsems ∧ (op.op < 0 → 0 ≤ v + op.op.toInt) ∧ (op.op = 0 → v = 0)

/-- What an operation finds at its turn: the value its semaphore had before the
call, and what the earlier operations on it have added. -/
def turnVal (vals : List Int) (earlier : List SemOp) (op : SemOp) : Int :=
  (vals[op.num.toNat]?).getD 0 + ((earlier.filter fun x => x.num = op.num).map fun x => x.op.toInt).sum

/-- No operation is decided differently at the value before the call and at its
turn, and no increment passes `SEMVMX`. -/
def SameInTurn (s : SemSet) (sops : List SemOp) : Prop :=
  ∀ earlier op later, sops = earlier ++ op :: later → (Passes s op (s.val op.num.toNat) ↔ Passes s op (turnVal s.vals earlier op)) ∧
      (0 < op.op → turnVal s.vals earlier op + op.op.toInt ≤ SEMVMX)

/-- One operation is refused at the value before the call, and one, not
necessarily the same, at its turn. -/
def RefusedBothWays (s : SemSet) (sops : List SemOp) : Prop :=
  (∃ op ∈ sops, ¬ Passes s op (s.val op.num.toNat)) ∧ ∃ earlier op later, sops = earlier ++ op :: later ∧
      ¬ (op.num.toNat < s.nsems ∧ CanProceed (turnVal s.vals earlier op) op.op)

/-- The caller may do what the list asks for. -/
def Permitted (s : SemSet) (sops : List SemOp) (uid gid : UInt32) : Prop :=
  ipcHasPerm uid gid s.uid s.gid s.mode (semopPerm sops)

/-- What `semop` on one set is to do: succeed when the operations can be
applied in order, leave their result, and on an error leave the values. -/
def SemopInOrder (s : SemSet) (env : Env) (sops : List SemOp) (pid uid gid : UInt32) : Prop :=
  ((semopSet s env sops pid uid gid).1 = .ok () ↔ Permitted s sops uid gid ∧ (applyInOrder s.vals sops).isSome) ∧
  ((semopSet s env sops pid uid gid).1 = .ok () → applyInOrder s.vals sops = some (semopSet s env sops pid uid gid).2.vals) ∧
  ((semopSet s env sops pid uid gid).1 ≠ .ok () → (semopSet s env sops pid uid gid).2.vals = s.vals)

/-! ## The first pass -/

theorem semopValidate_ok (s : SemSet) : ∀ sops : List SemOp,
    semopValidate s sops = .ok () ↔ ∀ op ∈ sops, Passes s op (s.val op.num.toNat)
  | [] => by simp [semopValidate]
  | op :: sops => by
    rw [List.forall_mem_cons, ← semopValidate_ok s sops]
    simp only [semopValidate, Passes]
    split
    · rename_i hnum
      simp [Nat.not_lt.mpr hnum]
    rename_i hnum
    have hlt : op.num.toNat < s.nsems := Nat.lt_of_not_le hnum
    split
    · rename_i hneg
      have hne : op.op ≠ 0 := Int16.ne_of_lt hneg
      split
      · rename_i hlow
        simp [hlt, hneg, hne, Int.not_le.mpr hlow]
      · rename_i hlow
        simp [hlt, hneg, hne, Int.not_lt.mp hlow]
    rename_i hneg
    split
    · rename_i hzero
      split
      · rename_i hv
        simp [hzero, hv]
      rename_i hv
      simp only [ne_eq, Decidable.not_not] at hv
      simp [hlt, hzero, hv]
    · rename_i hzero
      simp [hlt, hneg, hzero]

variable {sops : List SemOp} {s : SemSet}

theorem semopSet_of_permitted {uid gid : UInt32} (h : Permitted s sops uid gid) (env : Env) (pid : UInt32) :
    ((semopSet s env sops pid uid gid).1 = .ok () ↔ ∀ op ∈ sops, Passes s op (s.val op.num.toNat)) ∧
    ((semopSet s env sops pid uid gid).1 = .ok () →
      (semopSet s env sops pid uid gid).2.vals = (semopApply pid sops s.values).map fun sem => (sem.val.toNat : Int)) ∧
    ((semopSet s env sops pid uid gid).1 ≠ .ok () → (semopSet s env sops pid uid gid).2 = s) := by
  rw [← semopValidate_ok]
  simp only [semopSet, ipcCheckPerm, show ipcHasPerm uid gid s.uid s.gid s.mode (semopPerm sops) = true from h, if_true]
  cases hv : semopValidate s sops with
  | error e => simp
  | ok u => simp [SemSet.vals, SemSet.setValues]

/-! ## The second pass -/

theorem castU16_toNat {x : Int} (h0 : 0 ≤ x) (h1 : x < 65536) : ((castU16 x).toNat : Int) = x := by
  have hx : x % 65536 = x := Int.emod_eq_of_lt h0 h1
  simp only [castU16, hx, UInt16.toNat_ofNat']
  omega

variable {vals : List Int} {op : SemOp}

theorem applyOp_eq_some {vals' : List Int} : applyOp vals op = some vals' ↔
    ∃ v, vals[op.num.toNat]? = some v ∧ CanProceed v op.op ∧ vals' = vals.set op.num.toNat (v + op.op.toInt) := by
  unfold applyOp
  cases vals[op.num.toNat]? <;> simp [eq_comm]

/-- What a turn of the second pass does to a value that can proceed. -/
theorem SemValue.apply_val {sem : SemValue} {op : Int16} (pid : UInt32) (h : CanProceed sem.val.toNat op) :
    ((sem.apply op pid).val.toNat : Int) = sem.val.toNat + op.toInt := by
  obtain ⟨hneg, -, hpos⟩ := h
  have hu := sem.val.toNat_lt
  rw [Int16.lt_iff_toInt_lt, Int16.toInt_zero] at hneg hpos
  simp only [SEMVMX] at hpos
  unfold SemValue.apply
  by_cases hop : op = 0
  · simp [hop]
  · rw [if_pos hop]
    exact castU16_toNat (by omega) (by omega)

/-- Where an operation can proceed, a turn of the second pass does it. -/
theorem applyOp_eq {values : List SemValue} (pid : UInt32) (h : applyOp (values.map fun sem => (sem.val.toNat : Int)) op = some vals) :
    (values.modify op.num.toNat fun sem => sem.apply op.op pid).map (fun sem => (sem.val.toNat : Int)) = vals := by
  obtain ⟨v, hv, hcan, rfl⟩ := applyOp_eq_some.mp h
  rw [List.getElem?_map, Option.map_eq_some_iff] at hv
  obtain ⟨sem, hsem, rfl⟩ := hv
  rw [List.modify_eq_set_getElem?, hsem]
  simp [SemValue.apply_val pid hcan]

/-- Where the operations can be applied in order, the second pass does so. -/
theorem applyInOrder_eq (pid : UInt32) : ∀ {sops : List SemOp} {values : List SemValue} {vals : List Int},
    applyInOrder (values.map fun sem => (sem.val.toNat : Int)) sops = some vals →
      (semopApply pid sops values).map (fun sem => (sem.val.toNat : Int)) = vals
  | [], values, vals, h => by simpa [applyInOrder, semopApply] using h
  | op :: sops, values, vals, h => by
    simp only [applyInOrder, Option.bind_eq_some_iff] at h
    obtain ⟨next, hop, hrest⟩ := h
    rw [← applyOp_eq pid hop] at hrest
    simpa [semopApply] using applyInOrder_eq pid hrest

/-! ## The operations one by one -/

/-- Every way to split a list is at its head, or splits its tail. -/
theorem forall_split_cons {α : Type} {P : List α → α → Prop} {y : α} {l : List α} :
    (∀ a x b, y :: l = a ++ x :: b → P a x) ↔ P [] y ∧ ∀ a x b, l = a ++ x :: b → P (y :: a) x := by
  constructor
  · exact fun h => ⟨h [] y l rfl, fun a x b hl => h (y :: a) x b (by rw [hl, List.cons_append])⟩
  rintro ⟨hhead, htail⟩ a x b h
  obtain ⟨rfl, hb⟩ | ⟨a', rfl, hl⟩ := List.cons_eq_append_iff.mp h
  · obtain ⟨rfl, -⟩ := List.cons.inj hb
    exact hhead
  · exact htail a' x b hl

/-- An operation adds to what the later ones on its semaphore find, and to no
other. -/
theorem turnVal_applyOp {vals' : List Int} (h : applyOp vals op = some vals') (earlier : List SemOp) (x : SemOp) :
    turnVal vals' earlier x = turnVal vals (op :: earlier) x := by
  obtain ⟨v, hv, -, rfl⟩ := applyOp_eq_some.mp h
  simp only [turnVal]
  by_cases hx : op.num = x.num
  · have hlt := (List.getElem?_eq_some_iff.mp hv).1
    rw [List.filter_cons_of_pos (by simpa using hx), ← hx, hv, List.getElem?_set_self hlt, List.map_cons, List.sum_cons]
    exact add_assoc v _ _
  · rw [List.filter_cons_of_neg (by simpa using hx), List.getElem?_set_ne fun he => hx (UInt16.toNat_inj.mp he)]

/-- The operations can be applied in order if each can proceed at its turn. -/
theorem applyInOrder_isSome : ∀ {sops : List SemOp} {vals : List Int}, (applyInOrder vals sops).isSome ↔
    ∀ earlier op later, sops = earlier ++ op :: later → op.num.toNat < vals.length ∧ CanProceed (turnVal vals earlier op) op.op
  | [], vals => by simp [applyInOrder]
  | op :: sops, vals => by
    rw [forall_split_cons (P := fun earlier x => x.num.toNat < vals.length ∧ CanProceed (turnVal vals earlier x) x.op), applyInOrder]
    cases h : applyOp vals op with
    | none =>
      refine iff_of_false (by simp) fun hall => ?_
      obtain ⟨hlt, hcan⟩ := hall.1
      simp only [turnVal, List.getElem?_eq_getElem hlt, Option.getD_some, List.filter_nil, List.map_nil, List.sum_nil, add_zero] at hcan
      simp [applyOp, List.getElem?_eq_getElem hlt, hcan] at h
    | some vals' =>
      obtain ⟨v, hv, hcan, rfl⟩ := applyOp_eq_some.mp h
      have hhead : op.num.toNat < vals.length ∧ CanProceed (turnVal vals [] op) op.op := by
        simpa [turnVal, hv] using ⟨(List.getElem?_eq_some_iff.mp hv).1, hcan⟩
      rw [Option.bind_some, applyInOrder_isSome, and_iff_right hhead]
      simp only [turnVal_applyOp h, List.length_set]

theorem val_eq (s : SemSet) (i : Nat) : s.val i = (s.vals[i]?).getD 0 := by
  rw [SemSet.val, SemSet.vals, List.getElem?_map]

theorem canProceed_iff {v : Int} : op.num.toNat < s.nsems ∧ CanProceed v op.op ↔
    Passes s op v ∧ (0 < op.op → v + op.op.toInt ≤ SEMVMX) := by
  rw [Passes, CanProceed, and_assoc, and_assoc]

/-! ## The verdict -/

/-- The first pass and the application in order accept the same lists exactly
when no verdict changes, or both refuse the list. -/
theorem verdicts_agree_iff : ((∀ op ∈ sops, Passes s op (s.val op.num.toNat)) ↔ (applyInOrder s.vals sops).isSome) ↔
    SameInTurn s sops ∨ RefusedBothWays s sops := by
  rw [applyInOrder_isSome, SemSet.vals, List.length_map, s.values_len, ← SemSet.vals]
  constructor
  · intro h
    by_cases hall : ∀ op ∈ sops, Passes s op (s.val op.num.toNat)
    · refine .inl fun earlier op later hsplit => ?_
      obtain ⟨hturn, hmax⟩ := canProceed_iff.mp (h.mp hall earlier op later hsplit)
      exact ⟨iff_of_true (hall op (by simp [hsplit])) hturn, hmax⟩
    · have hturn := mt h.mpr hall
      push Not at hall hturn
      obtain ⟨earlier, op, later, hsplit, hop⟩ := hturn
      exact .inr ⟨hall, earlier, op, later, hsplit, fun hand => hop hand.1 hand.2⟩
  rintro (hsame | ⟨⟨op, hop, hrefused⟩, earlier, op', later, hsplit, hturn⟩)
  · constructor
    · intro hall earlier op later hsplit
      obtain ⟨hiff, hmax⟩ := hsame earlier op later hsplit
      exact canProceed_iff.mpr ⟨hiff.mp (hall op (by simp [hsplit])), hmax⟩
    · intro hall op hop
      obtain ⟨earlier, later, hsplit⟩ := List.append_of_mem hop
      exact (hsame earlier op later hsplit).1.mpr (canProceed_iff.mp (hall earlier op later hsplit)).1
  · exact iff_of_false (fun hall => hrefused (hall op hop)) fun hall => hturn (hall earlier op' later hsplit)

/-- `semop` does what it is to do exactly when the caller is refused anyway, or
no operation's verdict changes between the start and its turn, or the list is
refused both ways. -/
theorem semop_in_order_iff (s : SemSet) (env : Env) (sops : List SemOp) (pid uid gid : UInt32) :
    SemopInOrder s env sops pid uid gid ↔ (Permitted s sops uid gid → SameInTurn s sops ∨ RefusedBothWays s sops) := by
  rw [← verdicts_agree_iff]
  by_cases hperm : Permitted s sops uid gid
  · obtain ⟨hok, hvals, hkeep⟩ := semopSet_of_permitted hperm env pid
    simp only [SemopInOrder, hperm, true_and, true_imp_iff]
    constructor
    · rintro ⟨hiff, -, -⟩
      exact hok.symm.trans hiff
    intro hiff
    refine ⟨hok.trans hiff, fun h => ?_, fun h => by rw [hkeep h]⟩
    obtain ⟨vals, hin⟩ := Option.isSome_iff_exists.mp (hiff.mp (hok.mp h))
    rw [hvals h, hin, applyInOrder_eq pid hin]
  · have hdenied : ipcHasPerm uid gid s.uid s.gid s.mode (semopPerm sops) = false := by simpa [Permitted] using hperm
    simp [SemopInOrder, hperm, semopSet, ipcCheckPerm, hdenied]

/-- A root-owned set of one semaphore that holds 1. -/
def oneSem : SemSet :=
  { key := 0, id := 0, generation := 1, activePins := 0, removed := false, mode := 0o600, uid := 0, gid := 0, cuid := 0,
    cgid := 0, nsems := 1, values := [{ val := 1 }], values_len := rfl, otime := 0, ctime := 0, seq := 0 }

/-- Two decrements of a semaphore that holds 1 both go through, and leave
65535. -/
theorem semop_two_decrements_underflow : (semopSet oneSem .calm [⟨0, -1, 0⟩, ⟨0, -1, 0⟩] 7 0 0).1 = .ok () ∧
      (semopSet oneSem .calm [⟨0, -1, 0⟩, ⟨0, -1, 0⟩] 7 0 0).2.vals = [65535] ∧
      applyInOrder oneSem.vals [⟨0, -1, 0⟩, ⟨0, -1, 0⟩] = none ∧ ¬ SemopInOrder oneSem .calm [⟨0, -1, 0⟩, ⟨0, -1, 0⟩] 7 0 0 := by
  refine ⟨by decide, by decide, by decide, fun h => ?_⟩
  have := (h.1.mp (by decide)).2
  revert this
  decide

/-! ## Operations on distinct semaphores -/

/-- For operations on distinct semaphores, none of which takes a value past
the limit, the two verdicts agree. -/
theorem verdicts_agree_of_distinct (hd : (sops.map fun op => op.num.toNat).Nodup)
    (hmax : ∀ op ∈ sops, 0 < op.op → s.val op.num.toNat + op.op.toInt ≤ SEMVMX) :
    semopValidate s sops = .ok () ↔ (applyInOrder s.vals sops).isSome := by
  rw [semopValidate_ok, verdicts_agree_iff]
  refine .inl fun earlier op later hsplit => ?_
  have hfirst : earlier.filter (fun x => x.num = op.num) = [] := by
    rw [hsplit, List.map_append, List.map_cons, List.nodup_append] at hd
    refine List.filter_eq_nil_iff.mpr fun x hx hnum => ?_
    have hne := hd.2.2 x.num.toNat (List.mem_map_of_mem hx) op.num.toNat List.mem_cons_self
    exact hne (congrArg UInt16.toNat (by simpa using hnum))
  have hturn : turnVal s.vals earlier op = s.val op.num.toNat := by simp [turnVal, hfirst, val_eq]
  rw [hturn]
  exact ⟨Iff.rfl, hmax op (by simp [hsplit])⟩

/-- A set whose first semaphore holds 1 and whose second holds 0. -/
def twoSems : SemSet := { oneSem with nsems := 2, values := [{ val := 1 }, {}], values_len := rfl }

/-- An increment of the first goes through, a decrement of the second is refused,
by the first pass and in order. -/
theorem verdicts_agree_twoSems : semopValidate twoSems [⟨0, 5, 0⟩, ⟨1, -1, 0⟩] = .error .EAGAIN ∧
    (semopValidate twoSems [⟨0, 5, 0⟩, ⟨1, -1, 0⟩] = .ok () ↔ (applyInOrder twoSems.vals [⟨0, 5, 0⟩, ⟨1, -1, 0⟩]).isSome) :=
  ⟨by decide, verdicts_agree_of_distinct (by decide) (by decide)⟩

end Kandelo.Ipc

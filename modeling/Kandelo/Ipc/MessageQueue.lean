/-
What `msgrcv` takes from a queue: the earliest message its type selects, and
nothing else (`msgrcv_takes_first_match`).

For a negative type every message of type at most its magnitude is a match, so
an earlier message of a higher type goes before a later one of a lower type
(`msgrcv_negative_ignores_lowest`).
-/
import Kandelo.Ipc.Table

namespace Kandelo.Ipc

/-- The messages a `msgrcv` with this type and these flags may take. -/
def Selects (msgtype : Int64) (flags : UInt32) (m : MsgEntry) : Prop :=
  if msgtype = 0 then True
  else if 0 < msgtype then if hasFlag flags MSG_EXCEPT then m.mtype ≠ msgtype else m.mtype = msgtype
  else m.mtype.toInt ≤ msgtype.toInt.natAbs

theorem saturatingAbs_toInt {x : Int64} (h : x < 0) : (saturatingAbs x).toInt = min (x.toInt.natAbs : Int) (2 ^ 63 - 1) := by
  have hneg : x.toInt < 0 := by simpa using Int64.lt_iff_toInt_lt.mp h
  have hlow := x.le_toInt
  unfold saturatingAbs
  split_ifs with hmin
  · rw [hmin, Int64.toInt_maxValue, Int64.toInt_minValue]
    decide
  have hne : x.toInt ≠ -2 ^ 63 := fun he => hmin (Int64.toInt_inj.mp (he.trans Int64.toInt_minValue.symm))
  rw [Int64.toInt_neg, Int.bmod_eq_of_le (by omega) (by omega)]
  omega

/-- Saturating is no difference: no message type exceeds `i64::MAX`. -/
theorem le_saturatingAbs_iff {x : Int64} (h : x < 0) (m : Int64) : m ≤ saturatingAbs x ↔ m.toInt ≤ x.toInt.natAbs := by
  have := m.toInt_lt
  rw [Int64.le_iff_toInt_le, saturatingAbs_toInt h]
  omega

/-- The index chosen is that of the first message selected. -/
theorem selectMessage_spec {messages : List MsgEntry} {msgtype : Int64} {flags : UInt32} {idx : Fin messages.length}
    (h : selectMessage messages msgtype flags = some idx) :
    Selects msgtype flags (messages.get idx) ∧ ∀ m ∈ messages.take idx, ¬ Selects msgtype flags m := by
  have htake : ∀ m ∈ messages.take idx, ∃ j : Fin messages.length, j < idx ∧ messages.get j = m := by
    intro m hm
    obtain ⟨j, hj, rfl⟩ := List.mem_iff_getElem.mp hm
    simp only [List.length_take] at hj
    exact ⟨⟨j, by omega⟩, by simp [Fin.lt_def]; omega, by simp⟩
  have hfind : ∀ p : MsgEntry → Bool, messages.findFinIdx? p = some idx → p (messages.get idx) ∧ ∀ m ∈ messages.take idx, ¬ p m := by
    intro p hp
    obtain ⟨hidx, hbefore⟩ := List.findFinIdx?_eq_some_iff.mp hp
    refine ⟨hidx, fun m hm => ?_⟩
    obtain ⟨j, hj, rfl⟩ := htake m hm
    exact hbefore j hj
  simp only [selectMessage] at h
  unfold Selects
  split at h
  · rename_i hzero
    split at h
    · cases h
      simp [hzero]
    · cases h
  rename_i hzero
  split at h
  · rename_i hpos
    split_ifs at h with hexcept
    · simpa [hzero, hpos, hexcept] using hfind _ h
    · simpa [hzero, hpos, hexcept] using hfind _ h
  rename_i hpos
  have hneg : msgtype < 0 := by
    rw [Int64.lt_iff_toInt_lt] at hpos ⊢
    have : msgtype.toInt ≠ 0 := fun he => hzero (Int64.toInt_inj.mp (he.trans Int64.toInt_zero.symm))
    simp only [Int64.toInt_zero] at *
    omega
  simpa [hzero, hpos, le_saturatingAbs_iff hneg] using hfind _ h

/-- A receive that succeeds takes the earliest message selected, hands over its
type and its first bytes, and leaves the others in order. -/
theorem msgrcv_takes_first_match (q : MsgQueue) (env : Env) (maxSize : UInt32) (msgtype maxOutputMtype : Int64)
    (flags pid uid gid : UInt32) {res : MsgRcvResult}
    (h : (msgrcvQueueWithMtypeMax q env maxSize msgtype maxOutputMtype flags pid uid gid).1 = .ok res) :
    ∃ before msg after, q.messages = before ++ msg :: after ∧
      (msgrcvQueueWithMtypeMax q env maxSize msgtype maxOutputMtype flags pid uid gid).2.messages = before ++ after ∧
      Selects msgtype flags msg ∧ (∀ m ∈ before, ¬ Selects msgtype flags m) ∧
      res.mtype = msg.mtype ∧ res.data = msg.data.take maxSize.toNat := by
  unfold msgrcvQueueWithMtypeMax at h ⊢
  split at h
  · cases h
  simp only at h ⊢
  split at h
  · split at h <;> cases h
  rename_i idx hidx
  obtain ⟨hsel, hbefore⟩ := selectMessage_spec hidx
  split at h
  · cases h
  rename_i hmax
  split at h
  · cases h
  rename_i hsize
  cases h
  refine ⟨q.messages.take idx, q.messages.get idx, q.messages.drop (idx + 1), ?_, ?_, hsel, hbefore, rfl, ?_⟩
  · simp
  · simp only [if_neg hmax, if_neg hsize, List.eraseIdx_eq_take_drop_succ]
  · exact List.take_eq_take_iff.mpr (by omega)

/-- A queue anyone may use that holds a message of type 5, then one of type 3. -/
def fiveThenThree : MsgQueue :=
  { key := 0, id := 0, generation := 1, activePins := 0, removed := false, mode := 0o666, uid := 0, gid := 0, cuid := 0,
    cgid := 0, qbytes := MSGMNB, messages := [⟨5, [1]⟩, ⟨3, [2]⟩], cbytes := 2, lspid := 0, lrpid := 0, stime := 0,
    rtime := 0, ctime := 0, seq := 0 }

/-- A receive with type -5 takes the message of type 5 and leaves the one of
type 3, the lowest type present. -/
theorem msgrcv_negative_ignores_lowest : (msgrcvQueueWithMtypeMax fiveThenThree .calm 64 (-5) Int64.maxValue 0 1 0 0).1 =
      .ok ⟨5, [1]⟩ ∧ (msgrcvQueueWithMtypeMax fiveThenThree .calm 64 (-5) Int64.maxValue 0 1 0 0).2.messages = [⟨3, [2]⟩] := by
  decide

/-- The receive of type -3 on the same queue passes over the first message. -/
theorem msgrcv_takes_first_match_three : ∃ before msg after,
    fiveThenThree.messages = before ++ msg :: after ∧ Selects (-3) 0 msg ∧ ∀ m ∈ before, ¬ Selects (-3) 0 m := by
  obtain ⟨before, msg, after, h₁, -, h₂, h₃, -⟩ :=
    msgrcv_takes_first_match fiveThenThree .calm 64 (-3) .maxValue 0 1 0 0 (by decide : _ = Except.ok ⟨3, [2]⟩)
  exact ⟨before, msg, after, h₁, h₂, h₃⟩

end Kandelo.Ipc

/-
Sorted vectors as a systems language keeps them: the standard library's
binary search (`binary_search_by`, and `partition_point` written with it),
insertion at the index it answers, and the in-place compaction loop that
drops elements of a slice by a read and a write index.

The search is the library's loop, step for step, so it is a function of any
vector; what it answers is only known on a vector ordered for the
comparison (`Monotone`), and that is what `searchIndex_spec` assumes.
-/
import Mathlib

namespace SortedVec

open List

variable {α : Type*}

/-! ## Binary search -/

/-- The loop of `binary_search_by`: the window `[base, base + size)` halves
until it holds one index. -/
def bisect (cmp : Nat → Ordering) : Nat → Nat → Nat → Nat
  | 0, _, base => base
  | fuel + 1, size, base =>
    if size ≤ 1 then base
    else bisect cmp fuel (size - size / 2) (if cmp (base + size / 2) = .gt then base else base + size / 2)

/-- The comparison at an index of a vector. -/
def cmpAt (f : α → Ordering) (v : List α) (i : Nat) : Ordering :=
  match v[i]? with
  | some x => f x
  | none => .gt

/-- `slice::binary_search_by`: `ok` at an index that compares equal, `error`
at the index to insert at. -/
def binarySearchBy (v : List α) (f : α → Ordering) : Except Nat Nat :=
  if v.length = 0 then .error 0
  else
    let base := bisect (cmpAt f v) v.length v.length 0
    match cmpAt f v base with
    | .eq => .ok base
    | .lt => .error (base + 1)
    | .gt => .error base

/-- `binary_search_by(..).unwrap_or_else(|index| index)`. -/
def searchIndex (v : List α) (f : α → Ordering) : Nat :=
  match binarySearchBy v f with
  | .ok i => i
  | .error i => i

/-- `slice::partition_point`. -/
def partitionPoint (v : List α) (p : α → Bool) : Nat := searchIndex v fun x => if p x then .lt else .gt

/-- A hand-written search: the window `[low, high)` is probed in its middle until it is empty. -/
def probe (f : α → Ordering) (v : List α) : Nat → Nat → Nat → Option α
  | 0, _, _ => none
  | fuel + 1, low, high =>
    if low < high then
      let middle := low + (high - low) / 2
      match v[middle]? with
      | none => none
      | some x =>
        match f x with
        | .lt => probe f v fuel (middle + 1) high
        | .gt => probe f v fuel low middle
        | .eq => some x
    else none

/-- `v` is ordered for the comparison `f`: first what is below, then what is
equal, then what is above. -/
def Monotone (f : α → Ordering) (v : List α) : Prop := v.Pairwise fun a b => (f a = .gt → f b = .gt) ∧ (f b = .lt → f a = .lt)

variable {f : α → Ordering} {v : List α} {i : Nat}

theorem Monotone.gt (h : Monotone f v) {j : Nat} (hij : i ≤ j) (hi : cmpAt f v i = .gt) : cmpAt f v j = .gt := by
  rcases Nat.lt_or_eq_of_le hij with hij | rfl
  · by_cases hj : j < v.length
    · have hi' : i < v.length := by omega
      have := (pairwise_iff_getElem.mp h i j hi' hj hij).1
      simp only [cmpAt, getElem?_eq_getElem hi', getElem?_eq_getElem hj] at hi ⊢
      exact this hi
    · simp [cmpAt, getElem?_eq_none (by omega : v.length ≤ j)]
  · exact hi

/-- The window invariant: nothing left of the window is above, everything
right of it is. -/
theorem bisect_spec (h : Monotone f v) : ∀ {fuel size base : Nat}, size ≤ fuel → 0 < size → base + size ≤ v.length →
      (∀ i < base, cmpAt f v i ≠ .gt) → (∀ i, base + size ≤ i → cmpAt f v i = .gt) →
      bisect (cmpAt f v) fuel size base < v.length ∧
      (∀ i < bisect (cmpAt f v) fuel size base, cmpAt f v i ≠ .gt) ∧
      ∀ i, bisect (cmpAt f v) fuel size base < i → cmpAt f v i = .gt
  | 0, size, base, hf, hs, _, _, _ => by omega
  | fuel + 1, size, base, hf, hs, hb, hlo, hhi => by
    simp only [bisect]
    split
    · exact ⟨by omega, hlo, fun i hi => hhi i (by omega)⟩
    have hhalf : 0 < size / 2 := by omega
    by_cases hm : cmpAt f v (base + size / 2) = .gt
    · rw [if_pos hm]
      refine bisect_spec h (by omega) (by omega) (by omega) hlo fun i hi => ?_
      exact h.gt (by omega) hm
    rw [if_neg hm]
    refine bisect_spec h (by omega) (by omega) (by omega) (fun i hi hgt => ?_) fun i hi => hhi i (by omega)
    exact hm (h.gt (by omega) hgt)

/-- Where the search lands: nothing before the index is above, nothing from
it on is below. -/
theorem searchIndex_spec (h : Monotone f v) : searchIndex v f ≤ v.length ∧ (∀ i < searchIndex v f, cmpAt f v i ≠ .gt) ∧
      ∀ i, searchIndex v f ≤ i → cmpAt f v i ≠ .lt := by
  simp only [searchIndex, binarySearchBy]
  by_cases h0 : v.length = 0
  · simp [cmpAt, length_eq_zero_iff.mp h0]
  simp only [h0, if_false]
  obtain ⟨hb, hlo, hhi⟩ := bisect_spec h (Nat.le_refl v.length) (by omega) (by omega : 0 + v.length ≤ v.length)
    (fun i hi => absurd hi (by omega)) (fun i hi => by simp [cmpAt, getElem?_eq_none (by omega : v.length ≤ i)])
  generalize bisect (cmpAt f v) v.length v.length 0 = base at hb hlo hhi
  cases hc : cmpAt f v base with
  | lt =>
    refine ⟨by simp; omega, fun i hi => ?_, fun i hi => ?_⟩
    · rcases Nat.lt_succ_iff_lt_or_eq.mp hi with hi | rfl
      · exact hlo i hi
      · rw [hc]; simp
    · rw [hhi i (by simp at hi; omega)]; simp
  | eq | gt =>
    refine ⟨by simp; omega, hlo, fun i hi => ?_⟩
    rcases Nat.lt_or_eq_of_le hi with hi | rfl
    · rw [hhi i hi]; simp
    · rw [hc]; simp

variable {x : α}

theorem cmpAt_of_getElem? (h : v[i]? = some x) : cmpAt f v i = f x := by
  simp [cmpAt, h]

/-! ## The hand-written search -/

theorem mem_take_cmp {n : Nat} {o : Ordering} (h : ∀ i < n, cmpAt f v i ≠ o) (hx : x ∈ v.take n) : f x ≠ o := by
  obtain ⟨i, hi⟩ := mem_iff_getElem?.mp hx
  rw [getElem?_take] at hi
  split at hi
  · rename_i hin
    exact cmpAt_of_getElem? (f := f) hi ▸ h i hin
  · cases hi

theorem mem_drop_cmp {n : Nat} {o : Ordering} (h : ∀ i, n ≤ i → cmpAt f v i ≠ o) (hx : x ∈ v.drop n) : f x ≠ o := by
  obtain ⟨i, hi⟩ := mem_iff_getElem?.mp hx
  rw [getElem?_drop] at hi
  exact cmpAt_of_getElem? (f := f) hi ▸ h (n + i) (by omega)

/-! ## Partition point -/

/-- `v` is partitioned by `p`: what satisfies it comes first. -/
def Partitioned (p : α → Bool) (v : List α) : Prop := v.Pairwise fun a b => p b → p a

/-- On a partitioned vector the partition point splits it into what satisfies
`p` and what does not. -/
theorem partitionPoint_spec {p : α → Bool} (h : Partitioned p v) :
    partitionPoint v p ≤ v.length ∧ (∀ x ∈ v.take (partitionPoint v p), p x) ∧ ∀ x ∈ v.drop (partitionPoint v p), p x = false := by
  have hm : Monotone (fun x => if p x then .lt else .gt) v := by
    refine h.imp fun {a b} hab => ?_
    cases ha : p a <;> cases hb : p b <;> simp_all
  obtain ⟨hl, hlo, hhi⟩ := searchIndex_spec hm
  refine ⟨hl, fun x hx => ?_, fun x hx => ?_⟩
  · have := mem_take_cmp hlo hx
    cases hp : p x <;> simp_all
  · have := mem_drop_cmp hhi hx
    cases hp : p x <;> simp_all

/-! ## Sorted insertion -/

/-- `let i = v.binary_search_by(|e| cmp(e, x)).unwrap_or_else(|i| i); v.insert(i, x)`. -/
def insertSorted (cmp : α → α → Ordering) (v : List α) (x : α) : List α :=
  let i := searchIndex v fun e => cmp e x
  v.take i ++ x :: v.drop i

/-- Sorted by a comparison: no element is above a later one. -/
def Sorted (cmp : α → α → Ordering) (v : List α) : Prop := v.Pairwise fun a b => (cmp a b).isLE

theorem insertSorted_perm (cmp : α → α → Ordering) (v : List α) (x : α) : (insertSorted cmp v x).Perm (x :: v) := by
  have h : ∀ i, (v.take i ++ x :: v.drop i).Perm (x :: (v.take i ++ v.drop i)) := fun i => perm_middle
  simp only [take_append_drop] at h
  exact h _

theorem Sorted.monotone {cmp : α → α → Ordering} [Std.TransCmp cmp] (h : Sorted cmp v) (x : α) : Monotone (fun e => cmp e x) v := by
  refine h.imp fun {a b} hab => ⟨fun ha => ?_, fun hb => ?_⟩
  · have hxa : cmp x a = .lt := Std.OrientedCmp.gt_iff_lt.mp ha
    exact Std.OrientedCmp.gt_iff_lt.mpr (Std.TransCmp.lt_of_lt_of_isLE hxa hab)
  · exact Std.TransCmp.lt_of_isLE_of_lt hab hb

theorem Sorted.insertSorted {cmp : α → α → Ordering} [Std.TransCmp cmp] (h : Sorted cmp v)
    (x : α) : Sorted cmp (insertSorted cmp v x) := by
  obtain ⟨-, hlo, hhi⟩ := searchIndex_spec (h.monotone x)
  have hbefore : ∀ a ∈ v.take (searchIndex v fun e => cmp e x), (cmp a x).isLE := fun a ha => by
    have := mem_take_cmp hlo ha
    cases hc : cmp a x <;> simp_all
  have hafter : ∀ b ∈ v.drop (searchIndex v fun e => cmp e x), (cmp x b).isLE := fun b hb => by
    have := mem_drop_cmp hhi hb
    rw [@Std.OrientedCmp.eq_swap _ cmp]
    cases hc : cmp b x <;> simp_all
  have hsplit : Sorted cmp (v.take (searchIndex v fun e => cmp e x) ++ v.drop (searchIndex v fun e => cmp e x)) := by
    rwa [take_append_drop]
  obtain ⟨h1, h2, h3⟩ := pairwise_append.mp hsplit
  refine pairwise_append.mpr ⟨h1, pairwise_cons.mpr ⟨hafter, h2⟩, fun a ha b hb => ?_⟩
  rcases mem_cons.mp hb with rfl | hb
  · exact hbefore a ha
  · exact h3 a ha b hb

/-! ## In-place compaction -/

/-- The loop
`for read in start..end { if drop(v[read]) { continue } if write != read { v[write] = v[read] } write += 1 }`,
for the `n` reads left. -/
def compactLoop (keep : α → Bool) : Nat → Nat → Nat → List α → List α × Nat
  | 0, _, write, v => (v, write)
  | n + 1, read, write, v =>
    match v[read]? with
    | none => (v, write)
    | some x =>
      if keep x then
        compactLoop keep n (read + 1) (write + 1) (if write = read then v else v.set write x)
      else compactLoop keep n (read + 1) write v

/-- The loop over `[start, stop)`, the `drain(write..stop)` after it when it
dropped something, and the last write index. -/
def compactRange (keep : α → Bool) (start stop : Nat) (v : List α) : List α × Nat :=
  let (v', write) := compactLoop keep (stop - start) start start v
  (if write ≠ stop then v'.take write ++ v'.drop stop else v', write)

/-- What the loop leaves: `kept` written so far, a `gap` of stale cells, and
the part not read yet. -/
theorem compactLoop_spec (keep : α → Bool) : ∀ (n : Nat) (kept gap rest : List α), n ≤ rest.length →
    ∃ gap', compactLoop keep n (kept.length + gap.length) kept.length (kept ++ gap ++ rest) =
        (kept ++ (rest.take n).filter keep ++ gap' ++ rest.drop n, kept.length + ((rest.take n).filter keep).length) ∧
      gap'.length + ((rest.take n).filter keep).length = gap.length + n
  | 0, kept, gap, rest, _ => ⟨gap, by simp [compactLoop]⟩
  | n + 1, kept, gap, [], h => by simp at h
  | n + 1, kept, gap, x :: rest, h => by
    have hx : (kept ++ gap ++ x :: rest)[kept.length + gap.length]? = some x := by
      rw [getElem?_append_right (by simp)]
      simp
    have hn : n ≤ rest.length := by simpa using h
    simp only [compactLoop, hx]
    by_cases hk : keep x
    · simp only [hk, if_true]
      -- Writing over the first stale cell moves the gap one to the right.
      have hset : ∃ gap₁, (if kept.length = kept.length + gap.length then kept ++ gap ++ x :: rest
          else (kept ++ gap ++ x :: rest).set kept.length x) = (kept ++ [x]) ++ gap₁ ++ rest ∧
          gap₁.length = gap.length := by
        cases gap with
        | nil => exact ⟨[], by simp⟩
        | cons g gap => exact ⟨gap ++ [x], by simp [set_append_right]⟩
      obtain ⟨gap₁, heq, hlen⟩ := hset
      obtain ⟨gap', hg, hg'⟩ := compactLoop_spec keep n (kept ++ [x]) gap₁ rest hn
      refine ⟨gap', ?_, ?_⟩
      · rw [heq]
        have h1 : kept.length + gap.length + 1 = (kept ++ [x]).length + gap₁.length := by simp; omega
        have h2 : kept.length + 1 = (kept ++ [x]).length := by simp
        rw [h1, h2, hg]
        simp [hk]; omega
      · simp [hk]; omega
    · simp only [hk]
      obtain ⟨gap', hg, hg'⟩ := compactLoop_spec keep n kept (gap ++ [x]) rest hn
      refine ⟨gap', ?_, ?_⟩
      · have h1 : kept.length + gap.length + 1 = kept.length + (gap ++ [x]).length := by simp; omega
        have h2 : kept ++ gap ++ x :: rest = kept ++ (gap ++ [x]) ++ rest := by simp
        rw [h1, h2]
        simp only [Bool.false_eq_true, if_false]
        rw [hg]
        simp [hk]
      · simp [hk] at hg' ⊢; omega

/-- Compaction filters the slice and leaves the rest alone; the write index
counts what it kept. -/
theorem compactRange_eq (keep : α → Bool) {start stop : Nat} (h1 : start ≤ stop) (h2 : stop ≤ v.length) :
    compactRange keep start stop v = (v.take start ++ ((v.drop start).take (stop - start)).filter keep ++ v.drop stop,
        start + (((v.drop start).take (stop - start)).filter keep).length) := by
  obtain ⟨gap', hg, hl⟩ := compactLoop_spec keep (stop - start) (v.take start) [] (v.drop start)
    (by simp; omega)
  have hs : (v.take start).length = start := by simp; omega
  simp only [hs, append_nil, length_nil, Nat.add_zero, take_append_drop] at hg
  have hdd : (v.drop start).drop (stop - start) = v.drop stop := by
    rw [drop_drop]; congr 1; omega
  simp only [compactRange, hg, hdd]
  set kept := ((v.drop start).take (stop - start)).filter keep with hkept
  have htake : ((v.take start ++ kept ++ gap') ++ v.drop stop).take (start + kept.length) = v.take start ++ kept := by
    rw [append_assoc (v.take start ++ kept), take_append_of_le_length (by simp [hs]), take_of_length_le (by simp [hs])]
  have hdrop : ((v.take start ++ kept ++ gap') ++ v.drop stop).drop stop = v.drop stop := by
    rw [drop_append_of_le_length (by simp [hs] at hl ⊢; omega), drop_of_length_le (by simp [hs] at hl ⊢; omega), nil_append]
  by_cases hw : start + kept.length = stop
  · -- Nothing was dropped: the gap is empty and there is no drain.
    have hgap : gap' = [] := length_eq_zero_iff.mp (by simp at hl; omega)
    simp [hw, hgap]
  · rw [if_pos hw, htake, hdrop]

end SortedVec

/-
A ring over a fixed row of cells. The indices carry what makes them a window
of the row, so a window that is out of step cannot be built; the cells are a
list beside them.

`contents` is the queue the ring stands for: storing appends to it
(`contents_produce`), advancing the head drops from it (`contents_consume`),
and what is loaded from the head is a beginning of it (`load_eq_take`).
-/
import Mathlib

/-- A window of `len` cells from `head` in a row of `capacity` cells. -/
structure RingIndex where
  capacity : Nat
  head : Nat
  tail : Nat
  len : Nat
  len_le : len ≤ capacity
  head_lt : head < capacity ∨ head = 0
  tail_eq : tail = (head + len) % capacity

namespace RingIndex

open List

def empty (capacity : Nat) : RingIndex :=
  { capacity, head := 0, tail := 0, len := 0, len_le := Nat.zero_le _, head_lt := .inr rfl
    tail_eq := (Nat.zero_mod _).symm }

def free (r : RingIndex) : Nat := r.capacity - r.len

/-- Take `n` more cells at the tail. -/
def produce (r : RingIndex) (n : Nat) (h : n ≤ r.free) : RingIndex :=
  { r with
    tail := (r.tail + n) % r.capacity
    len := r.len + n
    len_le := by
      have := r.len_le
      unfold free at h
      omega
    tail_eq := by rw [r.tail_eq, Nat.mod_add_mod, Nat.add_assoc] }

/-- Give up the first `n` cells. -/
def consume (r : RingIndex) (n : Nat) (h : n ≤ r.len) : RingIndex :=
  { r with
    head := (r.head + n) % r.capacity
    len := r.len - n
    len_le := Nat.le_trans (Nat.sub_le _ _) r.len_le
    head_lt := by
      rcases Nat.eq_zero_or_pos r.capacity with hc | hc
      · have hlen := r.len_le
        have hhead := r.head_lt
        rw [hc, Nat.mod_zero]
        omega
      · exact .inl (Nat.mod_lt _ hc)
    tail_eq := by rw [r.tail_eq, Nat.mod_add_mod, Nat.add_assoc, Nat.add_sub_cancel' h] }

variable {r : RingIndex}

theorem head_lt_of_len (h : r.len ≠ 0) : r.head < r.capacity := by
  have hlen := r.len_le
  have hhead := r.head_lt
  omega

/-! ## The cells -/

variable {α : Type*}

/-- The row with `chunk` copied over the cells from `start`. -/
def copyIn (cells : List α) (start : Nat) (chunk : List α) : List α :=
  cells.take start ++ chunk ++ cells.drop (start + chunk.length)

variable {cells : List α}

theorem length_copyIn {chunk : List α} {start : Nat} (h : start + chunk.length ≤ cells.length) :
    (copyIn cells start chunk).length = cells.length := by
  simp only [copyIn, length_append, length_take, length_drop]
  omega

theorem getElem?_copyIn {chunk : List α} {start : Nat} (h : start + chunk.length ≤ cells.length) (i : Nat) :
    (copyIn cells start chunk)[i]? = if start ≤ i ∧ i < start + chunk.length then chunk[i - start]? else cells[i]? := by
  have hlen : (cells.take start).length = start := by
    rw [length_take]
    omega
  rw [copyIn, append_assoc]
  by_cases h1 : i < start
  · rw [getElem?_append_left (by omega), getElem?_take_of_lt h1, if_neg (by omega)]
  rw [getElem?_append_right (by omega), hlen]
  by_cases h2 : i < start + chunk.length
  · rw [getElem?_append_left (by omega), if_pos ⟨by omega, h2⟩]
  rw [getElem?_append_right (by omega), getElem?_drop, if_neg (by omega)]
  congr 1
  omega

/-- The row with `data` copied in from the tail on, in two parts when it runs
over the end. -/
def store (r : RingIndex) (cells data : List α) : List α :=
  let first := r.capacity - r.tail
  if data.length ≤ first then copyIn cells r.tail data
  else copyIn (copyIn cells r.tail (data.take first)) 0 (data.drop first)

/-- The first `n` cells from the head on. -/
def load (r : RingIndex) (cells : List α) (n : Nat) : List α :=
  let first := min (r.capacity - r.head) n
  (cells.drop r.head).take first ++ cells.take (n - first)

/-- The queue the ring stands for. -/
def contents (r : RingIndex) (cells : List α) : List α := r.load cells r.len

/-- An index that leaves the row comes back once. -/
theorem wrap_eq {a b c : Nat} (ha : a < c) (hb : b ≤ c) : (a + b) % c = if a + b < c then a + b else a + b - c := by
  split
  · rename_i h
    exact Nat.mod_eq_of_lt h
  · rename_i h
    rw [Nat.mod_eq_sub_mod (Nat.le_of_not_lt h), Nat.mod_eq_of_lt (by omega)]

variable {n : Nat}

section

variable (hc : cells.length = r.capacity)

include hc

theorem length_load (hn : n ≤ r.len) : (r.load cells n).length = n := by
  have hlen := r.len_le
  simp only [load, length_append, length_take, length_drop]
  omega

theorem length_contents : (r.contents cells).length = r.len := length_load hc (Nat.le_refl _)

theorem getElem?_load (hn : n ≤ r.len) {i : Nat} (hi : i < n) : (r.load cells n)[i]? = cells[(r.head + i) % r.capacity]? := by
  have hlen := r.len_le
  have hhead := head_lt_of_len (r := r) (by omega)
  rw [wrap_eq hhead (by omega), load]
  have hfirst : ((cells.drop r.head).take (min (r.capacity - r.head) n)).length = min (r.capacity - r.head) n := by
    rw [length_take, length_drop]
    omega
  split
  · rw [getElem?_append_left (by omega), getElem?_take_of_lt (by omega), getElem?_drop]
  rw [getElem?_append_right (by omega), hfirst, getElem?_take_of_lt (by omega)]
  congr 1
  omega

/-- What is loaded from the head is a beginning of the queue. -/
theorem load_eq_take (hn : n ≤ r.len) : r.load cells n = (r.contents cells).take n := by
  refine ext_getElem? fun i => ?_
  by_cases hi : i < n
  · rw [getElem?_load hc hn hi, getElem?_take_of_lt hi, contents, getElem?_load hc (Nat.le_refl _) (by omega)]
  rw [getElem?_eq_none (by rw [length_load hc hn]; omega), getElem?_eq_none]
  rw [length_take]
  omega

theorem contents_consume (hn : n ≤ r.len) : (r.consume n hn).contents cells = (r.contents cells).drop n := by
  refine ext_getElem? fun i => ?_
  by_cases hi : i < r.len - n
  · rw [getElem?_drop, contents, contents, getElem?_load hc (Nat.le_refl _) (by omega),
      getElem?_load (r := r.consume n hn) hc (Nat.le_refl _) hi]
    show cells[((r.head + n) % r.capacity + i) % r.capacity]? = _
    rw [Nat.mod_add_mod, Nat.add_assoc]
  rw [getElem?_eq_none (by rw [length_contents (r := r.consume n hn) hc]; exact Nat.le_of_not_lt hi), getElem?_eq_none]
  rw [length_drop, length_contents hc]
  omega

end

theorem tail_le (r : RingIndex) : r.tail ≤ r.capacity := by
  have hlen := r.len_le
  have hhead := r.head_lt
  rcases Nat.eq_zero_or_pos r.capacity with hc | hc
  · rw [r.tail_eq, hc, Nat.mod_zero]
    omega
  · rw [r.tail_eq]
    exact Nat.le_of_lt (Nat.mod_lt _ hc)

variable {data : List α}

section

variable (hc : cells.length = r.capacity)

include hc

theorem length_store (hd : data.length ≤ r.free) : (r.store cells data).length = r.capacity := by
  have htail := r.tail_le
  unfold free at hd
  simp only [store]
  split
  · rw [length_copyIn (by omega), hc]
  have hfirst : (copyIn cells r.tail (data.take (r.capacity - r.tail))).length = cells.length := by
    rw [length_copyIn (by rw [length_take]; omega)]
  rw [length_copyIn (by rw [length_drop]; omega), hfirst, hc]

/-- Each cell after a store: the data lies from the tail on, then from the
start of the row. -/
theorem getElem?_store (hd : data.length ≤ r.capacity) {k : Nat} (hk : k < r.capacity) : (r.store cells data)[k]? =
      if r.tail ≤ k ∧ k < r.tail + data.length then data[k - r.tail]?
      else if k + r.capacity < r.tail + data.length then data[k + r.capacity - r.tail]? else cells[k]? := by
  have htail := r.tail_le
  simp only [store]
  split
  · rw [getElem?_copyIn (by omega)]
    by_cases h : r.tail ≤ k ∧ k < r.tail + data.length
    · rw [if_pos h, if_pos h]
    · rw [if_neg h, if_neg h, if_neg (by omega)]
  have htake : (data.take (r.capacity - r.tail)).length = r.capacity - r.tail := by
    rw [length_take]
    omega
  have hfirst : (copyIn cells r.tail (data.take (r.capacity - r.tail))).length = cells.length := by
    rw [length_copyIn (by omega)]
  rw [getElem?_copyIn (by rw [length_drop]; omega), getElem?_copyIn (by omega), length_drop, htake]
  by_cases hover : k + r.capacity < r.tail + data.length
  · rw [if_pos (by omega), if_neg (by omega), if_pos hover, getElem?_drop]
    congr 1
    omega
  rw [if_neg (by omega), if_neg hover]
  by_cases h : r.tail ≤ k
  · rw [if_pos (by omega), if_pos (by omega), getElem?_take_of_lt (by omega)]
  · rw [if_neg (by omega), if_neg (by omega)]

/-- The cells of the queue keep what they hold, and the cells after it get the
data. -/
theorem getElem?_store_index (hd : data.length ≤ r.free) {i : Nat} (hi : i < r.len + data.length) :
    (r.store cells data)[(r.head + i) % r.capacity]? = if i < r.len then cells[(r.head + i) % r.capacity]? else data[i - r.len]? := by
  unfold free at hd
  have hlen := r.len_le
  have hhead : r.head < r.capacity := by
    have := r.head_lt
    omega
  have htail := r.tail_eq
  rw [wrap_eq hhead hlen] at htail
  rw [getElem?_store hc (by omega) (Nat.mod_lt _ (by omega)), wrap_eq hhead (by omega)]
  by_cases hin : i < r.len
  · rw [if_pos hin, if_neg (by split at htail <;> split <;> omega), if_neg (by split at htail <;> split <;> omega)]
  rw [if_neg hin]
  by_cases hwrap : r.head + r.len < r.capacity ∧ r.capacity ≤ r.head + i
  · -- The data runs over the end of the row, and this cell lies behind it.
    rw [if_neg (by split at htail <;> split <;> omega), if_pos (by split at htail <;> split <;> omega)]
    congr 1
    split at htail <;> split <;> omega
  · rw [if_pos (by split at htail <;> split <;> omega)]
    congr 1
    split at htail <;> split <;> omega

theorem contents_produce (hd : data.length ≤ r.free) :
    (r.produce data.length hd).contents (r.store cells data) = r.contents cells ++ data := by
  have hs : (r.store cells data).length = (r.produce data.length hd).capacity := length_store hc hd
  refine ext_getElem? fun i => ?_
  by_cases hi : i < r.len + data.length
  · rw [contents, getElem?_load hs (Nat.le_refl _) hi]
    show (r.store cells data)[(r.head + i) % r.capacity]? = _
    rw [getElem?_store_index hc hd hi]
    split
    · rename_i hlt
      rw [getElem?_append_left (by rw [length_contents hc]; exact hlt), contents, getElem?_load hc (Nat.le_refl _) hlt]
    · rw [getElem?_append_right (by rw [length_contents hc]; omega), length_contents hc]
  · rw [getElem?_eq_none (by rw [length_contents hs]; exact Nat.le_of_not_lt hi), getElem?_eq_none]
    rw [length_append, length_contents hc]
    omega

end

end RingIndex

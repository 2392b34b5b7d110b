/-
A priority queue as what it stands for: its items by increasing order. The
items are totally ordered, so which one a heap holds at the top does not depend
on how it is laid out.

`peek_le` and `mem_push`/`mem_pop` are all a client reads.
-/
import Mathlib

/-- The items, least first. -/
structure MinHeap (α : Type*) [LinearOrder α] where
  items : List α
  sorted : items.Pairwise (· ≤ ·)

namespace MinHeap

variable {α : Type*} [LinearOrder α]

def empty : MinHeap α := ⟨[], List.Pairwise.nil⟩

def peek (h : MinHeap α) : Option α := h.items.head?

def pop (h : MinHeap α) : MinHeap α := ⟨h.items.tail, h.sorted.tail⟩

def push (h : MinHeap α) (a : α) : MinHeap α := ⟨h.items.orderedInsert (· ≤ ·) a, h.sorted.orderedInsert a _⟩

variable {h : MinHeap α} {a b : α}

@[simp] theorem mem_push : b ∈ (h.push a).items ↔ b = a ∨ b ∈ h.items := List.mem_orderedInsert ..

/-- Popping drops the top and nothing else. -/
theorem mem_pop (hp : h.peek = some a) (hb : b ∈ h.items) : b = a ∨ b ∈ h.pop.items := by
  obtain ⟨items, sorted⟩ := h
  cases items with
  | nil => simp [peek] at hp
  | cons x xs =>
    obtain rfl : x = a := by simpa [peek] using hp
    exact List.mem_cons.mp hb

/-- The top is least. -/
theorem peek_le (hp : h.peek = some a) (hb : b ∈ h.items) : a ≤ b := by
  obtain ⟨items, sorted⟩ := h
  cases items with
  | nil => simp [peek] at hp
  | cons x xs =>
    obtain rfl : x = a := by simpa [peek] using hp
    rcases List.mem_cons.mp hb with rfl | hb
    · exact le_rfl
    · exact List.rel_of_pairwise_cons sorted hb

theorem peek_eq_none (hp : h.peek = none) : h.items = [] := List.head?_eq_none_iff.mp hp

theorem length_pop_lt (hp : h.peek = some a) : h.pop.items.length < h.items.length := by
  obtain ⟨items, sorted⟩ := h
  cases items with
  | nil => simp [peek] at hp
  | cons x xs => simp [pop]

end MinHeap

/-
Priority queues that serve equals in the order they arrived, kept as a list whose
head is served next.

What such a queue is for is said over the arrivals alone: `next` is the earliest
of those with the highest priority. `Keeps` relates a list to the arrivals it
holds, and the lemmas are the ways a list can change: an arrival (`Keeps.insert`)
and a departure (`Keeps.next`, `Keeps.tail`).
-/
import Mathlib

namespace PriorityFifo

open List

variable {α β : Type*} [LinearOrder β] (prio : α → β)

/-- In front of the first element of lower priority, or at the end. -/
def insert (x : α) (l : List α) : List α :=
  match l.findIdx? fun y => decide (prio y < prio x) with
  | some i => l.insertIdx i x
  | none => l ++ [x]

/-- The earliest arrival among those of the highest priority. -/
def next (arrived : List α) : Option α := arrived.find? fun x => arrived.all fun y => decide (prio y ≤ prio x)

/-- The list holds the arrivals, higher priorities first, each priority in the
order of arrival. -/
structure Keeps (arrived queue : List α) : Prop where
  sorted : queue.Pairwise fun a b => prio b ≤ prio a
  stable : ∀ p, queue.filter (fun x => decide (prio x = p)) = arrived.filter (fun x => decide (prio x = p))

theorem insert_cons (x y : α) (l : List α) :
    insert prio x (y :: l) = if prio y < prio x then x :: y :: l else y :: insert prio x l := by
  simp only [insert, findIdx?_cons, decide_eq_true_eq]
  split_ifs
  · rfl
  cases l.findIdx? fun y => decide (prio y < prio x) with
  | none => rfl
  | some i => rfl

variable {prio} {arrived queue : List α} {x : α}

/-- Where an insertion goes: behind every element it does not outrank, before the others. -/
theorem insert_split (h : queue.Pairwise fun a b => prio b ≤ prio a) (x : α) :
    ∃ high low, queue = high ++ low ∧ insert prio x queue = high ++ x :: low ∧
      (∀ y ∈ high, prio x ≤ prio y) ∧ ∀ y ∈ low, prio y < prio x := by
  induction queue with
  | nil => exact ⟨[], [], rfl, rfl, nofun, nofun⟩
  | cons z queue ih =>
    rw [pairwise_cons] at h
    rw [insert_cons]
    split_ifs with hz
    · refine ⟨[], z :: queue, rfl, rfl, nofun, fun y hy => ?_⟩
      rcases mem_cons.mp hy with rfl | hmem
      · exact hz
      · exact lt_of_le_of_lt (h.1 y hmem) hz
    obtain ⟨high, low, hqueue, hinsert, hhigh, hlow⟩ := ih h.2
    refine ⟨z :: high, low, by rw [hqueue, cons_append], by rw [hinsert, cons_append], fun y hy => ?_, hlow⟩
    rcases mem_cons.mp hy with rfl | hmem
    · exact not_lt.mp hz
    · exact hhigh y hmem

namespace Keeps

theorem nil : Keeps prio ([] : List α) [] := ⟨.nil, fun _ => rfl⟩

theorem perm (h : Keeps prio arrived queue) : queue.Perm arrived := by
  classical
  refine perm_iff_count.mpr fun a => ?_
  have hfilter := congrArg (List.count a) (h.stable (prio a))
  rwa [count_filter (by simp), count_filter (by simp)] at hfilter

/-- An arrival is behind the earlier ones of its priority. -/
theorem insert (h : Keeps prio arrived queue) (x : α) : Keeps prio (arrived ++ [x]) (PriorityFifo.insert prio x queue) := by
  obtain ⟨high, low, rfl, hinsert, hhigh, hlow⟩ := insert_split h.sorted x
  rw [hinsert]
  have hsorted := pairwise_append.mp h.sorted
  refine ⟨pairwise_append.mpr ⟨hsorted.1, pairwise_cons.mpr ⟨fun y hy => (hlow y hy).le, hsorted.2.1⟩, ?_⟩, fun p => ?_⟩
  · intro a ha b hb
    rcases mem_cons.mp hb with rfl | hmem
    · exact hhigh a ha
    · exact hsorted.2.2 a ha b hmem
  rw [filter_append, filter_append, ← h.stable, filter_append, append_assoc]
  congr 1
  by_cases hp : prio x = p
  · -- nothing of its priority is behind it
    have hnone : low.filter (fun y => decide (prio y = p)) = [] :=
      filter_eq_nil_iff.mpr fun y hy => by simpa using (hp ▸ hlow y hy).ne
    simp [hp, hnone]
  · simp [hp]

/-- The head is the earliest arrival of the highest priority. -/
theorem next (h : Keeps prio arrived (x :: queue)) : PriorityFifo.next prio arrived = some x := by
  have hle : ∀ y ∈ arrived, prio y ≤ prio x := by
    intro y hy
    rcases mem_cons.mp (h.perm.mem_iff.mpr hy) with rfl | hmem
    · exact le_rfl
    · exact (pairwise_cons.mp h.sorted).1 y hmem
  have hx : x ∈ arrived := h.perm.mem_iff.mp mem_cons_self
  have hhighest : ∀ y ∈ arrived, (arrived.all fun z => decide (prio z ≤ prio y)) = decide (prio y = prio x) := by
    intro y hy
    rw [Bool.eq_iff_iff, all_eq_true, decide_eq_true_eq]
    constructor
    · intro hall
      exact le_antisymm (hle y hy) (by simpa using hall x hx)
    · intro heq z hz
      exact decide_eq_true (heq ▸ hle z hz)
  calc PriorityFifo.next prio arrived
      = (arrived.filter fun y => arrived.all fun z => decide (prio z ≤ prio y)).head? := head?_filter.symm
    _ = (arrived.filter fun y => decide (prio y = prio x)).head? := by rw [filter_congr hhighest]
    _ = some x := by rw [← h.stable, filter_cons, if_pos (by simp), head?_cons]

/-- Without its head the list holds the other arrivals. -/
theorem tail [DecidableEq α] (h : Keeps prio arrived (x :: queue)) : Keeps prio (arrived.erase x) queue := by
  refine ⟨(pairwise_cons.mp h.sorted).2, fun p => ?_⟩
  rw [← erase_filter, ← h.stable, filter_cons]
  split_ifs with hp
  · rw [erase_cons_head]
  · refine (erase_of_not_mem fun hmem => hp ?_).symm
    exact (mem_filter.mp hmem).2

theorem eq_nil (h : Keeps prio arrived []) : arrived = [] := nil_perm.mp h.perm

end Keeps

end PriorityFifo

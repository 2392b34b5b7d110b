/-
Vectors of half-open spans `[addr, addr + len)` kept in address order with no
two of them sharing an address, as an address-space manager keeps its regions.

What such a vector stands for is a partial function on addresses (`attrAt`: an
attribute of the span an address lies in). Insertion at the partition point
and carving a range out are described by what they do to that function.
-/
import Kandelo.Lib.SortedVec

/-- Values that occupy the span `[addr, addr + len)`. -/
class Spanned (α : Type*) where
  addr : α → Nat
  len : α → Nat

namespace Spanned

open List SortedVec

variable {α β : Type*} [Spanned α] [Spanned β]

def stop (a : α) : Nat := addr a + len a

/-- The address `x` lies in the span. -/
def Covers (a : α) (x : Nat) : Prop := addr a ≤ x ∧ x < stop a

instance (a : α) (x : Nat) : Decidable (Covers a x) := inferInstanceAs (Decidable (_ ∧ _))

/-- No address lies in both spans. -/
def Apart (a : α) (b : β) : Prop := ∀ x, ¬ (Covers a x ∧ Covers b x)

/-- The span meets no address of `[lo, hi)`. -/
def Outside (lo hi : Nat) (a : α) : Prop := stop a ≤ lo ∨ hi ≤ addr a

/-- Some span of the vector covers the address. -/
def Mapped (v : List α) (x : Nat) : Prop := ∃ a ∈ v, Covers a x

variable {x : Nat}

@[simp] theorem mapped_nil : ¬ Mapped ([] : List α) x := by simp [Mapped]

variable {v : List α} {a : α} {lo hi : Nat}

theorem Outside.not_covers (h : Outside lo hi a) (hlo : lo ≤ x) (hhi : x < hi) : ¬ Covers a x := by
  intro hc
  obtain ⟨h1, h2⟩ := hc
  rcases h with h | h <;> omega

theorem outside_of_not_covers (hlen : 0 < len a) (hlt : lo < hi) (h : ∀ x, lo ≤ x → x < hi → ¬ Covers a x) : Outside lo hi a := by
  -- otherwise the larger of the two starts lies in both
  by_contra hn
  simp only [Outside, not_or, not_le] at hn
  have hs : addr a < stop a := by simp only [stop]; omega
  refine h (max lo (addr a)) (le_max_left _ _) (by omega) ⟨le_max_right _ _, by omega⟩

/-! ## Vectors in address order -/

/-- In address order, no span empty and no two of them overlapping. -/
structure Tiled (v : List α) : Prop where
  ordered : v.Pairwise fun a b => stop a ≤ addr b
  nonempty : ∀ a ∈ v, 0 < len a

theorem Tiled.nil : Tiled ([] : List α) := ⟨.nil, by simp⟩

theorem tiled_cons : Tiled (a :: v) ↔ 0 < len a ∧ (∀ b ∈ v, stop a ≤ addr b) ∧ Tiled v := by
  constructor
  · intro h
    have ho := pairwise_cons.mp h.ordered
    exact ⟨h.nonempty a (by simp), ho.1, ho.2, fun b hb => h.nonempty b (by simp [hb])⟩
  intro h
  obtain ⟨ha, hb, hv⟩ := h
  refine ⟨pairwise_cons.mpr ⟨hb, hv.ordered⟩, ?_⟩
  intro c hc
  rcases mem_cons.mp hc with rfl | hc
  · exact ha
  · exact hv.nonempty c hc

theorem Tiled.sorted (h : Tiled v) : v.Pairwise fun a b => addr a < addr b := by
  refine h.ordered.imp_of_mem ?_
  intro a b ha _ hab
  have := h.nonempty a ha
  simp only [stop] at hab
  omega

theorem Tiled.apart (h : Tiled v) : v.Pairwise Apart := by
  refine h.ordered.imp ?_
  intro a b hab x hx
  obtain ⟨⟨_, hx1⟩, hx2, _⟩ := hx
  omega

theorem Tiled.eq_of_covers (h : Tiled v) {b : α} (ha : a ∈ v) (hb : b ∈ v) (hax : Covers a x) (hbx : Covers b x) : a = b := by
  induction v with
  | nil => simp at ha
  | cons c v ih =>
    obtain ⟨_, hc, hv⟩ := tiled_cons.mp h
    have hfar : ∀ d ∈ v, Covers c x → ¬ Covers d x := by
      intro d hd hcx hdx
      have := hc d hd
      simp only [Covers] at hcx hdx
      omega
    rcases mem_cons.mp ha with rfl | ha' <;> rcases mem_cons.mp hb with rfl | hb'
    · rfl
    · exact absurd hbx (hfar b hb' hax)
    · exact absurd hax (hfar a ha' hbx)
    · exact ih hv ha' hb'

/-- Spans that share no address do not overlap as intervals either. -/
theorem Tiled.outside (h : Tiled v) (hlt : lo < hi) (hfree : ∀ x, lo ≤ x → x < hi → ¬ Mapped v x) (ha : a ∈ v) : Outside lo hi a :=
  outside_of_not_covers (h.nonempty a ha) hlt fun x hlo hhi hc => hfree x hlo hhi ⟨a, ha, hc⟩

/-! ## The partial function a vector stands for -/

/-- The attribute `f` of the span the address lies in. -/
def attrAt {B : Type*} (f : α → B) (v : List α) (x : Nat) : Option B := (v.find? fun a => decide (Covers a x)).map f

variable {B : Type*}

theorem attrAt_nil (f : α → B) (x : Nat) : attrAt f ([] : List α) x = none := rfl

theorem attrAt_cons (f : α → B) (a : α) (v : List α) (x : Nat) :
    attrAt f (a :: v) x = if Covers a x then some (f a) else attrAt f v x := by
  by_cases h : Covers a x <;> simp [attrAt, h]

variable {f : α → B}

theorem attrAt_eq_none : attrAt f v x = none ↔ ¬ Mapped v x := by
  simp [attrAt, Mapped]

theorem Tiled.attrAt_eq (h : Tiled v) (ha : a ∈ v) (hx : Covers a x) : attrAt f v x = some (f a) := by
  cases hfind : v.find? fun a => decide (Covers a x) with
  | none => exact absurd (by simpa using hx) (find?_eq_none.mp hfind a ha)
  | some b =>
    have hb : Covers b x := by simpa using find?_some hfind
    rw [attrAt, hfind, h.eq_of_covers (mem_of_find?_eq_some hfind) ha hb hx]
    rfl

theorem attrAt_append (f : α → B) (v w : List α) (x : Nat) : attrAt f (v ++ w) x = (attrAt f v x).or (attrAt f w x) := by
  simp only [attrAt, find?_append]
  cases v.find? fun a => decide (Covers a x) <;> simp

/-- A map that takes an address out of every span, or leaves it to all of them, does so to
the vector. -/
theorem attrAt_flatMap {g : α → List α} {c : Prop} [Decidable c] (h : ∀ a ∈ v, attrAt f (g a) x = if c then none else attrAt f [a] x) :
    attrAt f (v.flatMap g) x = if c then none else attrAt f v x := by
  induction v with
  | nil => simp [attrAt_nil]
  | cons a v ih =>
    obtain ⟨ha, hv⟩ := forall_mem_cons.mp h
    simp only [flatMap_cons, attrAt_append, ha, ih hv, attrAt_cons, attrAt_nil]
    split_ifs <;> rfl

/-- Cutting every span to parts of itself leaves the vector in order. -/
theorem Tiled.flatMap {g : α → List α} (h : Tiled v)
    (hg : ∀ a ∈ v, Tiled (g a) ∧ ∀ b ∈ g a, addr a ≤ addr b ∧ stop b ≤ stop a) : Tiled (v.flatMap g) := by
  refine ⟨pairwise_flatMap.mpr ⟨fun a ha => (hg a ha).1.ordered, h.ordered.imp_of_mem ?_⟩, fun b hb => ?_⟩
  · intro a b ha hb hab c hc d hd
    exact ((hg a ha).2 c hc).2.trans (hab.trans ((hg b hb).2 d hd).1)
  · obtain ⟨a, ha, hb⟩ := mem_flatMap.mp hb
    exact (hg a ha).1.nonempty b hb

/-- Two vectors with the same attributes everywhere cover the same addresses. -/
theorem mapped_congr {w : List α} (h : attrAt f v x = attrAt f w x) : Mapped v x ↔ Mapped w x := by
  have := attrAt_eq_none (f := f) (v := v) (x := x)
  have := attrAt_eq_none (f := f) (v := w) (x := x)
  rw [h] at *
  tauto

/-! ## Insertion -/

/-- `let pos = v.partition_point(|m| m.addr < a.addr); v.insert(pos, a)`. -/
def insertByAddr (v : List α) (a : α) : List α :=
  let pos := partitionPoint v fun m => decide (addr m < addr a)
  v.take pos ++ a :: v.drop pos

theorem Tiled.partitioned (h : Tiled v) (n : Nat) : SortedVec.Partitioned (fun m => decide (addr m < n)) v := by
  refine h.sorted.imp ?_
  simp only [decide_eq_true_eq]
  omega

/-- A span put into a free range leaves the vector in order. -/
theorem Tiled.insertByAddr (h : Tiled v) (hlen : 0 < len a) (hfree : ∀ x, Covers a x → ¬ Mapped v x) : Tiled (insertByAddr v a) := by
  obtain ⟨_, hbefore, hafter⟩ := partitionPoint_spec (h.partitioned (addr a))
  have hout : ∀ b ∈ v, Outside (addr a) (stop a) b := fun b hb =>
    h.outside (by simp only [stop]; omega) (fun x hlo hhi => hfree x ⟨hlo, hhi⟩) hb
  have hsplit := h.ordered
  rw [← take_append_drop (partitionPoint v fun m => decide (addr m < addr a)) v] at hsplit
  obtain ⟨h1, h2, h3⟩ := pairwise_append.mp hsplit
  have hleft : ∀ b ∈ v.take (partitionPoint v fun m => decide (addr m < addr a)), stop b ≤ addr a := by
    intro b hb
    have hlt := hbefore b hb
    simp only [decide_eq_true_eq] at hlt
    rcases hout b (mem_of_mem_take hb) with ho | ho
    · exact ho
    · simp only [stop] at ho; omega
  have hright : ∀ b ∈ v.drop (partitionPoint v fun m => decide (addr m < addr a)), stop a ≤ addr b := by
    intro b hb
    have hge := hafter b hb
    simp only [decide_eq_false_iff_not, not_lt] at hge
    have := h.nonempty b (mem_of_mem_drop hb)
    rcases hout b (mem_of_mem_drop hb) with ho | ho
    · simp only [stop] at ho; omega
    · exact ho
  refine ⟨pairwise_append.mpr ⟨h1, pairwise_cons.mpr ⟨hright, h2⟩, ?_⟩, ?_⟩
  · intro b hb c hc
    rcases mem_cons.mp hc with rfl | hc
    · exact hleft b hb
    · exact h3 b hb c hc
  intro b hb
  simp only [Spanned.insertByAddr, mem_append, mem_cons] at hb
  rcases hb with hb | rfl | hb
  · exact h.nonempty b (mem_of_mem_take hb)
  · exact hlen
  · exact h.nonempty b (mem_of_mem_drop hb)

theorem mem_insertByAddr {b : α} : b ∈ insertByAddr v a ↔ b = a ∨ b ∈ v := by
  have h : b ∈ v ↔ b ∈ v.take (partitionPoint v fun m => decide (addr m < addr a)) ∨
      b ∈ v.drop (partitionPoint v fun m => decide (addr m < addr a)) := by
    rw [← mem_append, take_append_drop]
  simp only [insertByAddr, mem_append, mem_cons, h]
  tauto

@[simp] theorem mapped_insertByAddr : Mapped (insertByAddr v a) x ↔ Covers a x ∨ Mapped v x := by
  simp [Mapped, mem_insertByAddr]

/-- Insertion changes what the vector says on the new span only. -/
theorem attrAt_insertByAddr (hfree : ∀ x, Covers a x → ¬ Mapped v x) (x : Nat) :
    attrAt f (insertByAddr v a) x = if Covers a x then some (f a) else attrAt f v x := by
  have hv : attrAt f v x = (attrAt f (v.take (partitionPoint v fun m => decide (addr m < addr a))) x).or
      (attrAt f (v.drop (partitionPoint v fun m => decide (addr m < addr a))) x) := by
    rw [← attrAt_append, take_append_drop]
  simp only [insertByAddr, attrAt_append, attrAt_cons]
  split_ifs with hx
  · have hnone := (attrAt_eq_none (f := f)).mpr (hfree x hx)
    rw [hv, Option.or_eq_none_iff] at hnone
    rw [hnone.1, Option.none_or]
  · exact hv.symm

/-! ## First fit -/

/-- Among the regions `R` (start and length), `p` is the lowest place at or
above `cursor` where `needed` bytes fit. -/
structure LowestFit (needed : Nat) (R : Set (Nat × Nat)) (cursor p : Nat) : Prop where
  ge : cursor ≤ p
  free : ∀ r ∈ R, r.1 + r.2 ≤ p ∨ p + needed ≤ r.1
  lowest : ∀ q, cursor ≤ q → q < p → ∃ r ∈ R, r.1 < q + needed ∧ q < r.1 + r.2

variable {R : Set (Nat × Nat)} {needed cursor : Nat}

theorem LowestFit.empty (needed cursor : Nat) : LowestFit needed ∅ cursor cursor := ⟨le_rfl, by simp, fun q h1 h2 => by omega⟩

/-- The gap before the first region is taken. -/
theorem LowestFit.here {a : Nat} (hfirst : ∀ r ∈ R, a ≤ r.1) (hgap : cursor + needed ≤ a) : LowestFit needed R cursor cursor := by
  refine ⟨le_rfl, ?_, fun q h1 h2 => by omega⟩
  intro r hr
  have := hfirst r hr
  omega

/-- Past a region the gap before which is too small, the search goes on behind it. -/
theorem LowestFit.skip {p a l : Nat} (hgap : ¬ cursor + needed ≤ a) (h : LowestFit needed R (max cursor (a + l)) p) :
    LowestFit needed (insert (a, l) R) cursor p := by
  have hge := h.ge
  refine ⟨by omega, ?_, ?_⟩
  · intro r hr
    rcases hr with rfl | hr
    · left; simp only; omega
    · exact h.free r hr
  intro q hlo hhi
  by_cases hq : max cursor (a + l) ≤ q
  · obtain ⟨r, hr, h1, h2⟩ := h.lowest q hq hhi
    exact ⟨r, .inr hr, h1, h2⟩
  · refine ⟨(a, l), .inl rfl, ?_, ?_⟩ <;> simp only <;> omega

end Spanned

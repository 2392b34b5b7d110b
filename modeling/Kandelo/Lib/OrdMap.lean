/-
Ordered maps as sorted association lists: what a search tree stands for. A
map carries that its keys strictly increase, so a key has at most one entry
and two maps with the same lookups are the same map.

`get?_insert` and `get?_erase` are the lookups after an update;
`insert_perm` and `erase_perm` say what an update does to the entries as a
whole, for counting.
-/
import Mathlib

variable {K V : Type*} [Ord K]

/-- A map whose entries are listed by strictly increasing key. -/
structure OrdMap (K V : Type*) [Ord K] where
  entries : List (K × V)
  sorted : entries.Pairwise fun a b => compare a.1 b.1 = .lt

namespace OrdMap

open List Std.ReflOrd Option

def empty : OrdMap K V := ⟨[], List.Pairwise.nil⟩

def get? (m : OrdMap K V) (k : K) : Option V := (m.entries.find? fun e => compare k e.1 == .eq).map (·.2)

def contains (m : OrdMap K V) (k : K) : Bool := (m.get? k).isSome

/-- The values by increasing key. -/
def values (m : OrdMap K V) : List V := m.entries.map (·.2)

/-- The map without the entry at `k`. -/
def erase (m : OrdMap K V) (k : K) : OrdMap K V := ⟨m.entries.filter fun e => compare k e.1 != .eq, m.sorted.filter _⟩

/-- The map with `f` applied to every value. -/
def mapValues {W : Type*} (m : OrdMap K V) (f : V → W) : OrdMap K W :=
  ⟨m.entries.map fun e => (e.1, f e.2), List.pairwise_map.mpr m.sorted⟩

/-- Every entry is dropped or gets a new value. -/
def retain (m : OrdMap K V) (f : K → V → Option V) : OrdMap K V :=
  ⟨m.entries.filterMap fun e => (f e.1 e.2).map fun v => (e.1, v), by
    refine m.sorted.filterMap _ ?_
    intro a a' h b hb b' hb'
    obtain ⟨v, _, rfl⟩ := map_eq_some_iff.mp hb
    obtain ⟨v', _, rfl⟩ := map_eq_some_iff.mp hb'
    exact h⟩

/-- A pass over the entries by increasing key: a state goes along, and each
value may be changed. -/
def mapAccumEntries {σ : Type*} (f : σ → V → σ × V) : σ → List (K × V) → σ × List (K × V)
  | a, [] => (a, [])
  | a, e :: es =>
    let r := mapAccumEntries f (f a e.2).1 es
    (r.1, (e.1, (f a e.2).2) :: r.2)

omit [Ord K] in
/-- A pass that keeps what `g` reads of a value keeps it of every entry. -/
theorem map_mapAccumEntries {σ β : Type*} {f : σ → V → σ × V} {g : V → β} (h : ∀ a v, g (f a v).2 = g v) :
    ∀ (a : σ) (es : List (K × V)), (mapAccumEntries f a es).2.map (fun e => (e.1, g e.2)) = es.map fun e => (e.1, g e.2)
  | _, [] => rfl
  | a, e :: es => by
    simp [mapAccumEntries, h, map_mapAccumEntries h _ es]

theorem mapAccumEntries_sorted {σ : Type*} (f : σ → V → σ × V) (a : σ) {es : List (K × V)}
    (hs : es.Pairwise fun x y => compare x.1 y.1 = .lt) : (mapAccumEntries f a es).2.Pairwise fun x y => compare x.1 y.1 = .lt := by
  have hpair : ∀ l : List (K × V), (l.map fun e => (e.1, ())).Pairwise (fun x y => compare x.1 y.1 = .lt) ↔
      l.Pairwise fun x y => compare x.1 y.1 = .lt := fun _ => pairwise_map
  have hkeys := map_mapAccumEntries (f := f) (g := fun _ => ()) (fun _ _ => rfl) a es
  rwa [← hpair, hkeys, hpair]

def mapAccum {σ : Type*} (f : σ → V → σ × V) (a : σ) (m : OrdMap K V) : σ × OrdMap K V :=
  ((mapAccumEntries f a m.entries).1, ⟨(mapAccumEntries f a m.entries).2, mapAccumEntries_sorted f a m.sorted⟩)

def insertEntries (k : K) (v : V) : List (K × V) → List (K × V)
  | [] => [(k, v)]
  | e :: es =>
    match compare k e.1 with
    | .lt => (k, v) :: e :: es
    | .eq => (k, v) :: es
    | .gt => e :: insertEntries k v es

variable {k : K} {v : V}

theorem mem_insertEntries {x : K × V} : ∀ {es : List (K × V)}, x ∈ insertEntries k v es → x = (k, v) ∨ x ∈ es
  | [], h => by simpa [insertEntries] using h
  | e :: es, h => by
    simp only [insertEntries] at h
    split at h
    · simpa using h
    · rcases mem_cons.mp h with h | h
      · exact .inl h
      · exact .inr (by simp [h])
    rcases mem_cons.mp h with h | h
    · exact .inr (by simp [h])
    rcases mem_insertEntries h with h | h
    · exact .inl h
    · exact .inr (by simp [h])

section Lookup

variable [Std.LawfulEqOrd K]

/-- No key is listed twice. -/
theorem keys_nodup (m : OrdMap K V) : (m.entries.map (·.1)).Nodup := by
  refine pairwise_map.mpr (m.sorted.imp fun {a b} hab he => ?_)
  rw [he, compare_self] at hab
  cases hab

theorem entries_nodup (m : OrdMap K V) : m.entries.Nodup := List.Nodup.of_map _ m.keys_nodup

variable {m : OrdMap K V}

theorem mem_entries_iff : (k, v) ∈ m.entries ↔ m.get? k = some v := by
  obtain ⟨es, hs⟩ := m
  simp only [get?]
  induction es with
  | nil => simp
  | cons e es ih =>
    obtain ⟨he, hes⟩ := pairwise_cons.mp hs
    have ih := ih hes
    by_cases hk : compare k e.1 = .eq
    · obtain rfl := Std.LawfulEqOrd.eq_of_compare hk
      simp only [find?_cons, hk, beq_self_eq_true, map_some, some.injEq]
      constructor
      · intro h
        rcases mem_cons.mp h with h | h
        · rw [← h]
        have := he _ h
        rw [compare_self] at this
        cases this
      · rintro rfl
        exact mem_cons_self
    · have hk' : (compare k e.1 == .eq) = false := by simpa using hk
      rw [find?_cons, hk', mem_cons, ← ih]
      refine ⟨fun h => h.resolve_left ?_, .inr⟩
      rintro rfl
      exact hk compare_self

theorem isSome_get?_iff : (m.get? k).isSome ↔ k ∈ m.entries.map (·.1) := by
  simp only [isSome_iff_exists, List.mem_map, Prod.exists, exists_and_right, exists_eq_right, mem_entries_iff]

theorem mem_values : v ∈ m.values ↔ ∃ k, m.get? k = some v := by
  simp [values, mem_entries_iff]

/-- A map is its lookups. -/
theorem ext_get? [Std.OrientedOrd K] {m' : OrdMap K V} (h : ∀ k, m.get? k = m'.get? k) : m = m' := by
  have hmem : ∀ x, x ∈ m.entries ↔ x ∈ m'.entries := by
    intro ⟨k, v⟩
    rw [mem_entries_iff, mem_entries_iff, h k]
  have hperm := (perm_ext_iff_of_nodup m.entries_nodup m'.entries_nodup).mpr hmem
  obtain ⟨es, hs⟩ := m
  obtain ⟨es', hs'⟩ := m'
  have heq : es = es' := hperm.eq_of_pairwise
    (fun a b _ _ hab hba => by
      have := Std.OrientedOrd.eq_swap (a := a.1) (b := b.1)
      rw [hab, hba] at this
      cases this) hs hs'
  subst heq
  rfl

theorem get?_erase [DecidableEq K] (m : OrdMap K V) (k k' : K) : (m.erase k).get? k' = if k' = k then none else m.get? k' := by
  refine ext fun v => ?_
  rw [← mem_entries_iff, erase, mem_filter, mem_entries_iff]
  by_cases hk : k' = k
  · subst hk
    simp [compare_self]
  · have : compare k k' ≠ .eq := fun he => hk (Std.LawfulEqOrd.eq_of_compare he).symm
    simp [hk, this]

theorem get?_mapValues {W : Type*} (m : OrdMap K V) (f : V → W) (k : K) : (m.mapValues f).get? k = (m.get? k).map f := by
  simp only [get?, mapValues, find?_map, Option.map_map]
  rfl

theorem get?_retain (m : OrdMap K V) (f : K → V → Option V) (k : K) : (m.retain f).get? k = (m.get? k).bind (f k) := by
  refine ext fun v => ?_
  rw [← mem_entries_iff, retain, mem_filterMap, bind_eq_some_iff]
  constructor
  · intro h
    obtain ⟨e, he, hv⟩ := h
    obtain ⟨v', hv', heq⟩ := map_eq_some_iff.mp hv
    obtain ⟨rfl, rfl⟩ := Prod.mk.inj heq
    exact ⟨e.2, mem_entries_iff.mp he, hv'⟩
  · intro h
    obtain ⟨v', hv', hf⟩ := h
    exact ⟨(k, v'), mem_entries_iff.mpr hv', by simp [hf]⟩

/-- Erasing takes exactly the entry found out of the list. -/
theorem erase_perm (h : m.get? k = some v) : m.entries.Perm ((k, v) :: (m.erase k).entries) := by
  have hmem := mem_entries_iff.mpr h
  obtain ⟨es, hs⟩ := m
  simp only [erase] at *
  clear h
  induction es with
  | nil => simp at hmem
  | cons e es ih =>
    obtain ⟨he, hes⟩ := pairwise_cons.mp hs
    rcases mem_cons.mp hmem with rfl | hin
    · have hrest : es.filter (fun e => compare k e.1 != .eq) = es := filter_eq_self.mpr fun x hx => by simp [he x hx]
      simp [compare_self, hrest]
    have hne : (compare k e.1 != .eq) := by
      have hlt := he _ hin
      rw [bne_iff_ne]
      intro heq
      rw [Std.LawfulEqOrd.eq_of_compare heq, compare_self] at hlt
      cases hlt
    rw [filter_cons, if_pos hne]
    exact ((ih hes hin).cons e).trans (.swap _ _ _)

end Lookup

section Insert

variable [Std.TransOrd K]

theorem insertEntries_sorted : ∀ {es : List (K × V)}, es.Pairwise (fun a b => compare a.1 b.1 = .lt) →
      (insertEntries k v es).Pairwise fun a b => compare a.1 b.1 = .lt
  | [], _ => by simp [insertEntries]
  | e :: es, h => by
    obtain ⟨he, hes⟩ := pairwise_cons.mp h
    simp only [insertEntries]
    split
    · rename_i hlt
      refine pairwise_cons.mpr ⟨fun x hx => ?_, h⟩
      rcases mem_cons.mp hx with rfl | hx
      · exact hlt
      · exact Std.TransCmp.lt_trans hlt (he x hx)
    · rename_i heq
      refine pairwise_cons.mpr ⟨fun x hx => ?_, hes⟩
      exact Std.TransCmp.lt_of_eq_of_lt heq (he x hx)
    · rename_i hgt
      refine pairwise_cons.mpr ⟨fun x hx => ?_, insertEntries_sorted hes⟩
      rcases mem_insertEntries hx with rfl | hx
      · exact Std.OrientedCmp.lt_of_gt hgt
      · exact he x hx

/-- The map with `v` at `k`, replacing what was there. -/
def insert (m : OrdMap K V) (k : K) (v : V) : OrdMap K V := ⟨insertEntries k v m.entries, insertEntries_sorted m.sorted⟩

variable [Std.LawfulEqOrd K]

theorem mem_insertEntries_iff {x : K × V} : ∀ {es : List (K × V)}, es.Pairwise (fun a b => compare a.1 b.1 = .lt) →
      (x ∈ insertEntries k v es ↔ x = (k, v) ∨ x ∈ es ∧ x.1 ≠ k)
  | [], _ => by simp [insertEntries]
  | e :: es, h => by
    obtain ⟨he, hes⟩ := pairwise_cons.mp h
    have ne_of_lt : ∀ {a b : K}, compare a b = .lt → b ≠ a := by
      rintro a _ hlt rfl
      rw [compare_self] at hlt
      cases hlt
    simp only [insertEntries]
    split
    · rename_i hlt
      have hall : ∀ y ∈ e :: es, y.1 ≠ k := by
        intro y hy
        rcases mem_cons.mp hy with rfl | hy
        · exact ne_of_lt hlt
        · exact ne_of_lt (Std.TransCmp.lt_trans hlt (he y hy))
      rw [mem_cons]
      exact or_congr_right ⟨fun hx => ⟨hx, hall x hx⟩, And.left⟩
    · rename_i heq
      obtain rfl := Std.LawfulEqOrd.eq_of_compare heq
      rw [mem_cons, mem_cons]
      refine or_congr_right ⟨fun hx => ⟨.inr hx, ne_of_lt (he x hx)⟩, ?_⟩
      rintro ⟨rfl | hx, hne⟩
      · exact absurd rfl hne
      · exact hx
    · rename_i hgt
      have hek : e.1 ≠ k := (ne_of_lt (Std.OrientedCmp.lt_of_gt hgt)).symm
      rw [mem_cons, mem_cons, mem_insertEntries_iff hes]
      constructor
      · rintro (rfl | rfl | ⟨hx, hne⟩)
        · exact .inr ⟨.inl rfl, hek⟩
        · exact .inl rfl
        · exact .inr ⟨.inr hx, hne⟩
      rintro (rfl | ⟨rfl | hx, hne⟩)
      · exact .inr (.inl rfl)
      · exact .inl rfl
      · exact .inr (.inr ⟨hx, hne⟩)

variable [DecidableEq K]

theorem get?_insert (m : OrdMap K V) (k k' : K) (v : V) : (m.insert k v).get? k' = if k' = k then some v else m.get? k' := by
  refine ext fun w => ?_
  rw [← mem_entries_iff, insert, mem_insertEntries_iff m.sorted, mem_entries_iff]
  by_cases hk : k' = k
  · subst hk
    simp [eq_comm]
  · simp [hk]

@[simp] theorem get?_insert_self (m : OrdMap K V) (k : K) (v : V) : (m.insert k v).get? k = some v := by
  rw [get?_insert, if_pos rfl]

/-- Inserting at a free key adds exactly that entry. -/
theorem insert_perm {m : OrdMap K V} (h : m.get? k = none) (v : V) : (m.insert k v).entries.Perm ((k, v) :: m.entries) := by
  have hperm := erase_perm (get?_insert_self m k v)
  have hsame : (m.insert k v).erase k = m := ext_get? fun k' => by
    rw [get?_erase, get?_insert]
    by_cases hk : k' = k
    · rw [if_pos hk, hk, h]
    · rw [if_neg hk, if_neg hk]
  rwa [hsame] at hperm

end Insert

end OrdMap

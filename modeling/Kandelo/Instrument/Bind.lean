/-
Binding a linked module's functions to their objects' facts (`facts::bind`).

The linker keeps the chunks in order, so a function's own chunk lies in the window
between the chunk the walk is at and the one of the next anchor, as long as both are
right: the walk moves on only when a single chunk qualifies, and then it is the
function's own (`Walk.Ahead`), and anchors that come in order are all kept
(`chain_eq`). `bind_contains_own` puts these together for every list of chunks and
every module `Linked` from it.
-/
import Mathlib

namespace Kandelo.Instrument

open List Option

/-- A module function or a definition; the last three only of a module function. -/
structure Item where
  name : String
  nparams : Nat
  i64Params : Nat
  firstIsI32 : Bool
  lastIsI32 : Bool
  deriving DecidableEq, Repr

def moduleName : String → String
  | "__main_argc_argv" | "__main_void" => "main"
  | n => n

def paramsAgree (m d : Item) : Bool :=
  if m.nparams < d.nparams then false
  else
    let extra := m.nparams - d.nparams
    extra = 0 || [0, m.firstIsI32.toNat].any fun a => [0, m.lastIsI32.toNat].any fun b =>
      a + b ≤ extra && 2 * (extra - a - b) ≤ m.i64Params

section Bind

variable (chunks : List (List Item))

/-- The definitions of a chunk with a name, in order. -/
def group (c : Nat) (name : String) : List Nat := ((chunks[c]?.getD []).zipIdx.filter (moduleName ·.1.name = name)).map (·.2)

/-- The chunks that define a name, in order. -/
def chunksOf (name : String) : List Nat := (List.range chunks.length).filter (group chunks · name ≠ [])

def dcount (name : String) : Nat := chunks.flatten.countP (moduleName ·.name = name)

/-- The function's index and its chunk, if its name is defined once in the module and once
across all chunks. -/
def anchor (module : List Item) (x : Item × Nat) : Option (Nat × Nat) :=
  if module.countP (·.name = x.1.name) = 1 ∧ dcount chunks x.1.name = 1 then (chunksOf chunks x.1.name).head?.map (x.2, ·)
  else none

def anchors (module : List Item) : List (Nat × Nat) := module.zipIdx.filterMap (anchor chunks module)

/-- The last anchor of the best run of each length, and each anchor's one before. -/
structure Patience where
  tails : List Nat
  prev : List (Option Nat)

def Patience.step (anchors : List (Nat × Nat)) (s : Patience) (x : (Nat × Nat) × Nat) : Patience :=
  let l := (s.tails.takeWhile fun t => anchors[t]?.any (·.2 ≤ x.1.2)).length
  { tails := if l = s.tails.length then s.tails ++ [x.2] else s.tails.set l x.2
    prev := s.prev ++ [if l = 0 then none else s.tails[l - 1]?] }

def patience (anchors : List (Nat × Nat)) : Patience := anchors.zipIdx.foldl (.step anchors) ⟨[], []⟩

/-- The back links from an anchor; the fuel is the number of anchors. -/
def links (anchors : List (Nat × Nat)) (prev : List (Option Nat)) : Nat → Option Nat → List (Nat × Nat)
  | 0, _ | _, none => []
  | fuel + 1, some a => anchors[a]?.toList ++ links anchors prev fuel (prev[a]?.join)

def chain (anchors : List (Nat × Nat)) : List (Nat × Nat) :=
  (links anchors (patience anchors).prev anchors.length (patience anchors).tails.getLast?).reverse

structure Walk where
  lo : Nat
  nextAnchor : List (Nat × Nat)
  unused : Nat → String → List Nat

/-- The chunks of the window with an unused definition of the name, and their definitions
the parameters agree with. -/
def Walk.candidates (w : Walk) (hi : Nat) (m : Item) : List (Nat × List Nat) :=
  ((((chunksOf chunks m.name).dropWhile (· < w.lo)).takeWhile (· ≤ hi)).filter (w.unused · m.name ≠ [])).map
    (fun c => (c, (group chunks c m.name).filter fun d => (chunks[c]?.bind (·[d]?)).any (paramsAgree m))) |>.filter (·.2 ≠ [])

/-- One function: what it is bound to, and where the walk goes on. -/
def Walk.step (w : Walk) (i : Nat) (m : Item) : List (Nat × Nat) × Walk :=
  let nextAnchor := w.nextAnchor.dropWhile (·.1 < i)
  let hi := (nextAnchor.head?.map (·.2)).getD (chunks.length - 1)
  let w := { w with nextAnchor }
  match w.candidates chunks hi m with
  | [] => ([], w)
  | [(c, ds)] =>
    (ds.map (c, ·), { w with
      lo := c
      unused := fun c' name => if c' = c ∧ name = m.name then (w.unused c' name).dropLast else w.unused c' name })
  | many => (many.flatMap fun (c, ds) => ds.map (c, ·), w)

def Walk.run (w : Walk) : Nat → List Item → List (List (Nat × Nat))
  | _, [] => []
  | i, m :: ms => (w.step chunks i m).1 :: (w.step chunks i m).2.run (i + 1) ms

def bind (module : List Item) : List (List (Nat × Nat)) :=
  Walk.run chunks ⟨0, chain (anchors chunks module), fun c name => (group chunks c name).reverse⟩ 0 module

end Bind

/-! ## Linked modules -/

/-- The functions of a module with the definitions they come from: the linker keeps some
definitions of each chunk, chunk by chunk, and adds functions with names of no chunk. -/
structure Linked (chunks : List (List Item)) (fs : List (Item × Option (Nat × Nat))) : Prop where
  kept : ∀ f ∈ fs, ∀ o ∈ f.2, ∃ x ∈ chunks[o.1]?.bind (·[o.2]?), f.1.name = moduleName x.name ∧ paramsAgree f.1 x
  foreign : ∀ f ∈ fs, f.2 = none → ∀ x ∈ chunks.flatten, moduleName x.name ≠ f.1.name
  order : (fs.filterMap (·.2)).Pairwise (·.1 ≤ ·.1)
  once : (fs.filterMap (·.2)).Nodup

/-- What a function has to be bound to. -/
def BoundTo (f : Item × Option (Nat × Nat)) (bound : List (Nat × Nat)) : Prop :=
  match f.2 with
  | some o => o ∈ bound
  | none => bound = []

section Names

variable {chunks : List (List Item)} {c c' d i : Nat} {name : String}

theorem mem_group : d ∈ group chunks c name ↔ ∃ x ∈ chunks[c]?.bind (·[d]?), moduleName x.name = name := by
  simp only [group, List.mem_map, mem_filter, mem_zipIdx_iff_getElem?]
  cases chunks[c]? <;> simp

theorem mem_chunksOf : c ∈ chunksOf chunks name ↔ ∃ d, d ∈ group chunks c name := by
  simp only [chunksOf, mem_filter, mem_range, decide_eq_true_eq, ne_eq, eq_nil_iff_forall_not_mem, not_forall, not_not]
  refine ⟨fun h => h.2, fun h => ⟨?_, h⟩⟩
  obtain ⟨d, hd⟩ := h
  obtain ⟨x, hx, _⟩ := mem_group.mp hd
  by_contra hlt
  rw [getElem?_eq_none (by omega)] at hx
  cases hx

theorem one_le_countP (h : c ∈ chunksOf chunks name) (cs : List (List Item)) (hcs : ∀ chunk, chunks[c]? = some chunk → chunk ∈ cs) :
    1 ≤ cs.flatten.countP (moduleName ·.name = name) := by
  obtain ⟨d, hd⟩ := mem_chunksOf.mp h
  obtain ⟨x, hx, hname⟩ := mem_group.mp hd
  obtain ⟨chunk, hc, hx⟩ := bind_eq_some_iff.mp hx
  refine countP_pos_iff.mpr ⟨x, mem_flatten.mpr ⟨chunk, hcs chunk hc, mem_of_getElem? hx⟩, decide_eq_true hname⟩

/-- A name defined once is defined in one chunk. -/
theorem chunksOf_unique (h : c ∈ chunksOf chunks name) (h' : c' ∈ chunksOf chunks name) (hone : dcount chunks name = 1) : c = c' := by
  wlog hlt : c < c' generalizing c c'
  · rcases Nat.lt_or_eq_of_le (Nat.not_lt.mp hlt) with hlt | heq
    · exact (this h' h hlt).symm
    · exact heq.symm
  have hleft : 1 ≤ (chunks.take c').flatten.countP (moduleName ·.name = name) :=
    one_le_countP h _ fun chunk hc => mem_of_getElem? ((getElem?_take_of_lt hlt).trans hc)
  have hright : 1 ≤ (chunks.drop c').flatten.countP (moduleName ·.name = name) :=
    one_le_countP h' _ fun chunk hc => mem_of_getElem? (i := 0) (by rw [getElem?_drop]; exact hc)
  rw [dcount, ← take_append_drop c' chunks, flatten_append, countP_append] at hone
  omega

end Names

/-! ## Anchors in order are all kept -/

section Chain

variable {as : List (Nat × Nat)}

theorem patience_take (h : as.Pairwise (·.2 ≤ ·.2)) : ∀ j ≤ as.length, (as.zipIdx.take j).foldl (.step as) ⟨[], []⟩ =
    (⟨List.range j, (List.range j).map fun a => if a = 0 then none else some (a - 1)⟩ : Patience)
  | 0, _ => rfl
  | j + 1, hj => by
    have hall : ∀ t ∈ List.range j, as[t]?.any (·.2 ≤ as[j].2) := by
      intro t ht
      have ht := mem_range.mp ht
      rw [getElem?_eq_getElem (by omega), any_some, decide_eq_true_eq]
      exact pairwise_iff_getElem.mp h t j (by omega) hj ht
    rw [take_add_one, foldl_append, patience_take h j (by omega), getElem?_zipIdx, getElem?_eq_getElem hj]
    simp only [map_some, toList_some, foldl_cons, foldl_nil, Patience.step, Nat.zero_add,
      takeWhile_eq_self_iff.mpr hall, length_range, if_true, range_succ, map_append, map_singleton]
    split
    · rfl
    · rw [getElem?_range (by omega)]

theorem links_eq {prev : List (Option Nat)} (hprev : ∀ a < as.length, prev[a]? = some (if a = 0 then none else some (a - 1))) :
    ∀ fuel a, a < fuel → a < as.length → links as prev fuel (some a) = (as.take (a + 1)).reverse
  | fuel + 1, a, hfuel, ha => by
    rw [links, hprev a ha, take_add_one, reverse_append, getElem?_eq_getElem ha]
    cases a with
    | zero => cases fuel <;> simp [links]
    | succ a =>
      have := links_eq hprev fuel a (by omega) (by omega)
      simp [this]

theorem chain_eq (h : as.Pairwise (·.2 ≤ ·.2)) : chain as = as := by
  have hp := patience_take h as.length le_rfl
  rw [take_of_length_le (length_zipIdx.le)] at hp
  rw [chain, patience, hp]
  cases hn : as.length with
  | zero =>
    rw [length_eq_zero_iff.mp hn]
    rfl
  | succ n =>
    rw [range_succ, getLast?_concat, links_eq _ _ n n.lt_succ_self (by omega), ← hn, take_length, reverse_reverse]
    intro a ha
    rw [← range_succ, getElem?_map, getElem?_range (by omega)]
    rfl

end Chain

/-! ## The walk -/

theorem mem_takeWhile_le {hi c : Nat} : ∀ {cs : List Nat}, cs.Pairwise (· < ·) → c ∈ cs → c ≤ hi → c ∈ cs.takeWhile (· ≤ hi)
  | x :: cs, hs, hc, hle => by
    rw [pairwise_cons] at hs
    rcases mem_cons.mp hc with rfl | hc
    · simp [hle]
    · have hx := hs.1 c hc
      simp [show x ≤ hi by omega, mem_takeWhile_le hs.2 hc hle]

theorem mem_window {lo hi c : Nat} {cs : List Nat} (hs : cs.Pairwise (· < ·)) (hc : c ∈ cs) (hlo : lo ≤ c) (hhi : c ≤ hi) :
    c ∈ (cs.dropWhile (· < lo)).takeWhile (· ≤ hi) := by
  refine mem_takeWhile_le (hs.sublist (dropWhile_sublist _)) ?_ hhi
  rw [← takeWhile_append_dropWhile (p := (· < lo)) (l := cs), mem_append] at hc
  refine hc.resolve_left fun hlt => ?_
  have := mem_takeWhile_imp hlt
  simp at this
  omega

section Linked

variable {chunks : List (List Item)} {fs : List (Item × Option (Nat × Nat))} {f : Item × Option (Nat × Nat)} {w : Walk}
  {c d i j : Nat} {o o' : Nat × Nat}

section

variable (h : Linked chunks fs)

include h

theorem Linked.mem_group (hf : f ∈ fs) (ho : f.2 = some (c, d)) :
    d ∈ group chunks c f.1.name ∧ (chunks[c]?.bind (·[d]?)).any (paramsAgree f.1) := by
  obtain ⟨x, hx, hname, hagree⟩ := h.kept f hf _ ho
  refine ⟨Instrument.mem_group.mpr ⟨x, hx, hname.symm⟩, ?_⟩
  rw [mem_def.mp hx]
  exact hagree

theorem Linked.le (hij : i ≤ j) (hi : fs[i]?.bind (·.2) = some o) (hj : fs[j]?.bind (·.2) = some o') : o.1 ≤ o'.1 := by
  rcases Nat.lt_or_eq_of_le hij with hij | rfl
  · obtain ⟨f, hf, ho⟩ := bind_eq_some_iff.mp hi
    obtain ⟨f', hf', ho'⟩ := bind_eq_some_iff.mp hj
    obtain ⟨hi, rfl⟩ := List.getElem?_eq_some_iff.mp hf
    obtain ⟨hj, rfl⟩ := List.getElem?_eq_some_iff.mp hf'
    exact pairwise_iff_getElem.mp (pairwise_filterMap.mp h.order) i j hi hj hij o ho o' ho'
  · rw [some.inj (hi.symm.trans hj)]

/-- The chunk of an anchor is the one its function comes from. -/
theorem Linked.anchor_own (ha : (i, c) ∈ anchors chunks (fs.map (·.1))) : ∃ d, fs[i]?.bind (·.2) = some (c, d) := by
  obtain ⟨⟨m, i'⟩, hm, ha⟩ := mem_filterMap.mp ha
  rw [anchor] at ha
  split at ha
  case isFalse => cases ha
  case isTrue hone =>
    obtain ⟨c', hc', heq⟩ := map_eq_some_iff.mp ha
    cases heq
    have hm := mem_zipIdx_iff_getElem?.mp hm
    rw [getElem?_map, map_eq_some_iff] at hm
    obtain ⟨f, hf, rfl⟩ := hm
    have hc := mem_of_head? hc'
    rw [hf, bind_some]
    cases ho : f.2 with
    | none =>
      have hone := one_le_countP hc chunks fun _ => mem_of_getElem?
      obtain ⟨x, hx, hname⟩ := countP_pos_iff.mp hone
      exact absurd (of_decide_eq_true hname) (h.foreign f (mem_of_getElem? hf) ho x hx)
    | some o =>
      have hown := (h.mem_group (mem_of_getElem? hf) ho).1
      exact ⟨o.2, by rw [chunksOf_unique hc (mem_chunksOf.mpr ⟨_, hown⟩) hone.2]⟩

theorem Linked.anchors_pairwise : (anchors chunks (fs.map (·.1))).Pairwise (·.2 ≤ ·.2) := by
  have hindex : (anchors chunks (fs.map (·.1))).Pairwise (·.1 < ·.1) := by
    refine pairwise_filterMap.mpr (pairwise_iff_getElem.mpr fun i j hi hj hij a ha a' ha' => ?_)
    have hfst : ∀ {x a}, anchor chunks (fs.map (·.1)) x = some a → a.1 = x.2 := by
      intro x a ha
      rw [anchor] at ha
      split at ha
      · obtain ⟨_, _, rfl⟩ := map_eq_some_iff.mp ha
        rfl
      · cases ha
    rw [hfst ha, hfst ha']
    simpa using hij
  refine hindex.imp_of_mem fun ha ha' hlt => ?_
  obtain ⟨d, hd⟩ := h.anchor_own ha
  obtain ⟨d', hd'⟩ := h.anchor_own ha'
  exact h.le hlt.le hd hd'

end

/-- The walk has not gone past what is left of the module, nor used up its definitions. -/
structure Walk.Ahead (chunks : List (List Item)) (fs : List (Item × Option (Nat × Nat))) (i : Nat) (w : Walk) : Prop where
  lo : ∀ f ∈ fs.drop i, ∀ o ∈ f.2, w.lo ≤ o.1
  anchor : ∀ a ∈ w.nextAnchor, ∃ d, fs[a.1]?.bind (·.2) = some (a.2, d)
  unused : ∀ c name, (fs.drop i).countP (fun f => f.1.name = name ∧ f.2.map (·.1) = some c) ≤ (w.unused c name).length

variable {rest : List (Item × Option (Nat × Nat))}

/-- The function's own definition is a candidate. -/
theorem Walk.Ahead.candidate (h : w.Ahead chunks fs i) (hl : Linked chunks fs) (hf : fs.drop i = f :: rest) (ho : f.2 = some (c, d)) :
    ∃ ds, d ∈ ds ∧ (c, ds) ∈ Walk.candidates chunks { w with nextAnchor := w.nextAnchor.dropWhile (·.1 < i) }
      (((w.nextAnchor.dropWhile (·.1 < i)).head?.map (·.2)).getD (chunks.length - 1)) f.1 := by
  have hget : fs[i]? = some f := by rw [← head?_drop, hf, head?_cons]
  obtain ⟨hgroup, hagree⟩ := hl.mem_group (mem_of_getElem? hget) ho
  have hc := mem_chunksOf.mpr ⟨d, hgroup⟩
  have hlo : w.lo ≤ c := h.lo f (by rw [hf]; exact mem_cons_self) _ ho
  have hhi : c ≤ ((w.nextAnchor.dropWhile (·.1 < i)).head?.map (·.2)).getD (chunks.length - 1) := by
    cases ha : (w.nextAnchor.dropWhile (·.1 < i)).head? with
    | none => exact Nat.le_sub_one_of_lt (mem_range.mp (mem_filter.mp hc).1)
    | some a =>
      have hai : i ≤ a.1 := by
        have := head?_dropWhile_not (·.1 < i) w.nextAnchor
        rw [ha] at this
        simpa using this
      obtain ⟨d', hd'⟩ := h.anchor a ((dropWhile_sublist _).subset (mem_of_head? ha))
      exact hl.le hai (by rw [hget, bind_some, ho]) hd'
  have hunused : w.unused c f.1.name ≠ [] := by
    have := h.unused c f.1.name
    rw [hf, countP_cons_of_pos (by simp [ho])] at this
    exact ne_nil_of_length_pos (by omega)
  have hds : d ∈ (group chunks c f.1.name).filter fun d => (chunks[c]?.bind (·[d]?)).any (paramsAgree f.1) :=
    mem_filter.mpr ⟨hgroup, hagree⟩
  refine ⟨_, hds, mem_filter.mpr ⟨mem_map.mpr ⟨c, mem_filter.mpr ⟨?_, by simpa using hunused⟩, rfl⟩, ?_⟩⟩
  · exact mem_window (pairwise_lt_range.filter _) hc hlo hhi
  · simpa using ne_nil_of_mem hds

/-- A walk that stays where it is. -/
theorem Walk.Ahead.stay (h : w.Ahead chunks fs i) (hf : fs.drop i = f :: rest) :
    Walk.Ahead chunks fs (i + 1) { w with nextAnchor := w.nextAnchor.dropWhile (·.1 < i) } := by
  have hrest : fs.drop (i + 1) = rest := by rw [← tail_drop, hf, tail_cons]
  refine ⟨fun g hg => ?_, fun a ha => h.anchor a ((dropWhile_sublist _).subset ha), fun c name => ?_⟩
  · exact h.lo g (by rw [hf]; exact mem_cons_of_mem _ (hrest ▸ hg))
  refine le_trans ?_ (h.unused c name)
  rw [hrest, hf, countP_cons]
  exact Nat.le_add_right ..

/-- A function is bound to its own definition, and the walk goes on behind none that is left. -/
theorem Walk.Ahead.step (h : w.Ahead chunks fs i) (hl : Linked chunks fs) (hf : fs.drop i = f :: rest) :
    BoundTo f (w.step chunks i f.1).1 ∧ (w.step chunks i f.1).2.Ahead chunks fs (i + 1) := by
  have hget : fs[i]? = some f := by rw [← head?_drop, hf, head?_cons]
  have hrest : fs.drop (i + 1) = rest := by rw [← tail_drop, hf, tail_cons]
  cases ho : f.2 with
  | none =>
    have hnone : chunksOf chunks f.1.name = [] := by
      rw [eq_nil_iff_forall_not_mem]
      intro c hc
      obtain ⟨x, hx, hname⟩ := countP_pos_iff.mp (one_le_countP hc chunks fun _ => mem_of_getElem?)
      exact hl.foreign f (mem_of_getElem? hget) ho x hx (of_decide_eq_true hname)
    have hstep : w.step chunks i f.1 = ([], { w with nextAnchor := w.nextAnchor.dropWhile (·.1 < i) }) := by
      simp [Walk.step, Walk.candidates, hnone]
    rw [hstep, BoundTo, ho]
    exact ⟨rfl, h.stay hf⟩
  | some o =>
    obtain ⟨ds, hd, hcandidate⟩ := h.candidate hl hf ho
    rw [BoundTo, ho, Walk.step]
    dsimp only
    split
    · rename_i heq
      rw [heq] at hcandidate
      cases hcandidate
    · rename_i c ds' heq
      rw [heq, mem_singleton] at hcandidate
      cases hcandidate
      refine ⟨mem_map_of_mem hd, ⟨fun g hg o' ho' => ?_, (h.stay hf).anchor, fun c name => ?_⟩⟩
      · have horder := (pairwise_filterMap.mp hl.order).sublist (drop_sublist i fs)
        rw [hf, pairwise_cons] at horder
        exact horder.1 g (hrest ▸ hg) _ ho _ ho'
      dsimp only
      split
      · rename_i hown
        have hcount := h.unused c name
        rw [hf, countP_cons_of_pos (by simp [ho, hown])] at hcount
        rw [hrest, length_dropLast]
        exact Nat.le_sub_one_of_lt hcount
      · exact (h.stay hf).unused c name
    · exact ⟨mem_flatMap.mpr ⟨_, hcandidate, mem_map_of_mem hd⟩, h.stay hf⟩

theorem Walk.Ahead.run (hl : Linked chunks fs) : ∀ {rest : List (Item × Option (Nat × Nat))} {i : Nat} {w : Walk},
    fs.drop i = rest → w.Ahead chunks fs i → List.Forall₂ BoundTo rest (w.run chunks i (rest.map (·.1)))
  | [], _, _, _, _ => .nil
  | f :: rest, i, w, hrest, h => by
    obtain ⟨hbound, hnext⟩ := h.step hl hrest
    exact .cons hbound (run hl (by rw [← tail_drop, hrest, tail_cons]) hnext)

/-- The functions of a name that come from a chunk are different definitions of it. -/
theorem Linked.countP_le (h : Linked chunks fs) (c : Nat) (name : String) :
    fs.countP (fun f => f.1.name = name ∧ f.2.map (·.1) = some c) ≤ (group chunks c name).length := by
  let own := (fs.filter fun f => f.1.name = name ∧ f.2.map (·.1) = some c).filterMap (·.2)
  have hlength : own.length = fs.countP (fun f => f.1.name = name ∧ f.2.map (·.1) = some c) := by
    rw [length_filterMap_eq_countP, countP_filter]
    refine countP_congr fun f _ => ?_
    cases f.2 <;> simp
  have hsubset : own ⊆ (group chunks c name).map (c, ·) := by
    intro o hown
    obtain ⟨f, hmem, ho⟩ := mem_filterMap.mp hown
    obtain ⟨hf, hp⟩ := mem_filter.mp hmem
    rw [decide_eq_true_eq, ho, map_some, some.injEq] at hp
    obtain ⟨rfl, rfl⟩ := hp
    exact mem_map_of_mem (h.mem_group hf ho).1
  calc _ = own.length := hlength.symm
    _ ≤ ((group chunks c name).map (c, ·)).length :=
        (subperm_of_subset (h.once.sublist (filter_sublist.filterMap _)) hsubset).length_le
    _ = (group chunks c name).length := length_map _

/-- Every function is bound to the definition it comes from, whatever other definitions
share its name, and a function of no chunk to nothing. -/
theorem bind_contains_own (h : Linked chunks fs) : List.Forall₂ BoundTo fs (bind chunks (fs.map (·.1))) := by
  refine Walk.Ahead.run h (i := 0) rfl ⟨fun _ _ _ _ => Nat.zero_le _, ?_, fun c name => ?_⟩
  · rw [chain_eq h.anchors_pairwise]
    exact fun a ha => h.anchor_own ha
  · rw [length_reverse]
    exact h.countP_le c name

/-- Two objects with a file-local `helper` each, whose first copy the linker dropped, and a
function of no object. -/
def helpers : List (List Item) := [[⟨"x", 0, 0, false, false⟩, ⟨"helper", 1, 0, false, false⟩], [⟨"helper", 1, 0, false, false⟩]]

def linkedHelpers : List (Item × Option (Nat × Nat)) :=
  [(⟨"x", 0, 0, false, false⟩, some (0, 0)), (⟨"start", 0, 0, false, false⟩, none), (⟨"helper", 1, 0, false, false⟩, some (1, 0))]

theorem bind_contains_own_helpers : List.Forall₂ BoundTo linkedHelpers (bind helpers (linkedHelpers.map (·.1))) :=
  bind_contains_own ⟨by decide, by decide, by decide, by decide⟩

end Linked

end Kandelo.Instrument

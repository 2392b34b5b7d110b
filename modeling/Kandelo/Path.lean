/-
Path names as bytes (`path.rs`): `normalize_path` and `resolve_path`.

The abstract side walks the components over a stack of names. What the code returns is that
stack written out, a path that stays as it is when it is normalised again.
-/
import Mathlib

namespace Kandelo.Path

open List

abbrev Bytes := List UInt8

/-- One turn of the loop over the components. -/
def push (components : List Bytes) (component : Bytes) : List Bytes :=
  if component = [] ∨ component = [46] then components
  else if component = [46, 46] then components.dropLast
  else components ++ [component]

def normalizePath (path : Bytes) : Bytes :=
  let components := (path.splitOn 47).foldl push []
  if components = [] then [47] else components.foldl (fun result component => result ++ 47 :: component) []

def resolvePath (path cwd : Bytes) : Bytes :=
  if path.head? = some 47 then normalizePath path
  else normalizePath ((if cwd.getLast? = some 47 then cwd else cwd ++ [47]) ++ path)

/-! ## The stack of names -/

/-- What lies between slashes. -/
def parts (path : Bytes) : List Bytes := (path.splitOn 47).filter (· ≠ [])

/-- The stack after the components, its top first. -/
def walk (stack : List Bytes) : List Bytes → List Bytes
  | [] => stack
  | c :: cs => walk (if c = [46] then stack else if c = [46, 46] then stack.tail else c :: stack) cs

def render (stack : List Bytes) : Bytes := if stack = [] then [47] else stack.reverse.flatMap (47 :: ·)

structure IsName (c : Bytes) : Prop where
  nonempty : c ≠ []
  dot : c ≠ [46]
  dotdot : c ≠ [46, 46]
  slash : 47 ∉ c

structure Canonical (path : Bytes) : Prop where
  absolute : path.head? = some 47
  names : path = [47] ∨ ∀ c ∈ (path.splitOn 47).tail, IsName c
  trailing : path = [47] ∨ path.getLast? ≠ some 47
  stable : normalizePath path = path

theorem foldl_push : ∀ cs stack : List Bytes, cs.foldl push stack.reverse = (walk stack (cs.filter (· ≠ []))).reverse
  | [], _ => rfl
  | c :: cs, stack => by
    rw [foldl_cons, push]
    by_cases hnil : c = []
    · rw [if_pos (.inl hnil), filter_cons_of_neg (by simp [hnil])]
      exact foldl_push cs stack
    · rw [filter_cons_of_pos (by simp [hnil]), walk, ← foldl_push cs]
      split_ifs <;> simp_all

theorem normalizePath_eq (path : Bytes) : normalizePath path = render (walk [] (parts path)) := by
  have hfold := foldl_push (path.splitOn 47) []
  rw [reverse_nil] at hfold
  simp only [normalizePath, hfold, render, reverse_eq_nil_iff, flatMap_eq_foldl]
  rfl

/-- What is on the stack was there before or is one of the components. -/
theorem mem_walk {c : Bytes} : ∀ {cs stack : List Bytes}, c ∈ walk stack cs → c ∈ stack ∨ c ∈ cs ∧ c ≠ [46] ∧ c ≠ [46, 46]
  | [], _, h => .inl h
  | d :: cs, stack, h => by
    rcases @mem_walk c cs _ h with h | h
    · split_ifs at h with hdot hdotdot
      · exact .inl h
      · exact .inl (mem_of_mem_tail h)
      rcases mem_cons.mp h with rfl | h
      · exact .inr ⟨mem_cons_self, hdot, hdotdot⟩
      · exact .inl h
    · exact .inr ⟨mem_cons_of_mem d h.1, h.2⟩

/-- Names are pushed one after the other. -/
theorem walk_names : ∀ {cs : List Bytes} (stack : List Bytes), (∀ c ∈ cs, IsName c) → walk stack cs = cs.reverse ++ stack
  | [], _, _ => rfl
  | c :: cs, stack, h => by
    obtain ⟨hc, hcs⟩ := forall_mem_cons.mp h
    rw [walk, if_neg hc.dot, if_neg hc.dotdot, walk_names _ hcs, reverse_cons, append_assoc, singleton_append]

/-! ## Splitting at slashes -/

theorem not_mem_of_mem_splitOn {c : Bytes} : ∀ {path : Bytes}, c ∈ path.splitOn 47 → 47 ∉ c
  | [], h => by simp_all
  | x :: path, h => by
    have ih := fun d (hd : d ∈ path.splitOn 47) => not_mem_of_mem_splitOn hd
    obtain ⟨d, ds, hds⟩ := exists_cons_of_ne_nil (splitOn_ne_nil 47 path)
    rw [splitOn_cons_eq_if_modifyHead, hds] at h
    rw [hds] at ih
    split_ifs at h with hx
    · rcases mem_cons.mp h with rfl | h
      · exact not_mem_nil
      · exact ih c h
    rcases mem_cons.mp h with rfl | h
    · rw [mem_cons, not_or]
      exact ⟨fun heq => hx (beq_iff_eq.mpr heq.symm), ih d mem_cons_self⟩
    · exact ih c (mem_cons_of_mem d h)

theorem isName_walk {path c : Bytes} (h : c ∈ walk [] (parts path)) : IsName c := by
  obtain ⟨hc, hdot, hdotdot⟩ := (mem_walk h).resolve_left not_mem_nil
  obtain ⟨hc, hne⟩ := mem_filter.mp hc
  exact ⟨by simpa using hne, hdot, hdotdot, not_mem_of_mem_splitOn hc⟩

theorem parts_append (a b : Bytes) : parts (a ++ 47 :: b) = parts a ++ parts b := by
  rw [parts, splitOn_append_cons_self, filter_append, parts, parts]

theorem splitOn_flatMap : ∀ {cs : List Bytes}, (∀ c ∈ cs, IsName c) → (cs.flatMap (47 :: ·)).splitOn 47 = [] :: cs
  | [], _ => rfl
  | c :: cs, h => by
    obtain ⟨hc, hcs⟩ := forall_mem_cons.mp h
    have ih := splitOn_flatMap hcs
    have hfirst (xs : Bytes) : (47 :: xs).splitOn 47 = [] :: xs.splitOn 47 := splitOn_append_cons_self [] xs
    rw [flatMap_cons, cons_append, hfirst]
    cases cs with
    | nil => rw [flatMap_nil, append_nil, splitOn_eq_singleton hc.slash]
    | cons d cs =>
      rw [flatMap_cons, cons_append] at ih ⊢
      rw [splitOn_append_cons_self_of_not_mem hc.slash, (cons.inj ((hfirst _).symm.trans ih)).2]

/-! ## The result -/

theorem canonical_render {stack : List Bytes} (h : ∀ c ∈ stack.reverse, IsName c) : Canonical (render stack) := by
  by_cases hnil : stack = []
  · subst hnil
    exact ⟨rfl, .inl rfl, .inl rfl, by decide⟩
  have hsplit := splitOn_flatMap h
  rw [← show render stack = _ from if_neg hnil] at hsplit
  have hparts : parts (render stack) = stack.reverse := by
    rw [parts, hsplit, filter_cons_of_neg (by simp)]
    exact filter_eq_self.mpr fun c hc => by simpa using (h c hc).nonempty
  refine ⟨?_, .inr (by rw [hsplit]; exact h), .inr fun hslash => ?_, ?_⟩
  · obtain ⟨c, cs, hcs⟩ := exists_cons_of_ne_nil (reverse_ne_nil_iff.mpr hnil)
    rw [render, if_neg hnil, hcs]
    rfl
  · -- behind a last slash there is an empty component
    obtain ⟨a, ha⟩ := getLast?_eq_some_iff.mp hslash
    rw [ha, splitOn_append_cons_self, splitOn_nil] at hsplit
    have hlast := congrArg getLast? hsplit
    rw [getLast?_concat, getLast?_cons_of_ne_nil (reverse_ne_nil_iff.mpr hnil)] at hlast
    exact (h [] (mem_of_getLast? hlast.symm)).nonempty rfl
  · rw [normalizePath_eq, hparts, walk_names [] h, reverse_reverse, append_nil]

/-- Normalising and resolving walk the components over a stack, and what they return is
absolute, made of names, and stays when it is normalised. -/
theorem resolvePath_walks (path cwd : Bytes) : normalizePath path = render (walk [] (parts path)) ∧
      resolvePath path cwd = render (walk [] (if path.head? = some 47 then parts path else parts cwd ++ parts path)) ∧
      Canonical (normalizePath path) ∧ Canonical (resolvePath path cwd) := by
  have hcanonical (path : Bytes) : Canonical (normalizePath path) :=
    normalizePath_eq path ▸ canonical_render fun c hc => isName_walk (mem_reverse.mp hc)
  refine ⟨normalizePath_eq path, ?_, hcanonical path, ?_⟩
  · rw [resolvePath]
    split_ifs with habs hslash
    · exact normalizePath_eq path
    · obtain ⟨a, rfl⟩ := getLast?_eq_some_iff.mp hslash
      rw [normalizePath_eq, append_assoc, singleton_append, parts_append, parts_append]
      simp [parts]
    · rw [normalizePath_eq, append_assoc, singleton_append, parts_append]
  · rw [resolvePath]
    split
    · exact hcanonical path
    · exact hcanonical _

end Kandelo.Path

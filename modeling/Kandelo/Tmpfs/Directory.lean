/-
A tmpfs directory under the calls that change it, and `getdents64`.

Every entry gets a cookie when its name is created, and a reader resumes at a cookie. A read
takes what lies between the cookie it is passed and the one it returns (`getdents64_spec`), so
over a whole listing a name is returned once for every cookie that the reader comes to. A call
gives a name that stays a new cookie only if it is a rename onto it (`Edited.cookieOf`).
-/
import Kandelo.Errno

namespace Kandelo.Tmpfs

open List

/-- A component of a canonical path, so neither `.` nor `..`. -/
abbrev Name := List UInt8

structure Entry where
  name : Name
  idx : Nat
  cookie : Nat

/-- `DirEntries`. Its two maps, by name and by cookie, hold the same entries: they are one list
here, in cookie order. -/
structure DirEntries where
  entries : List Entry
  -- a `u64`: fewer than 2^64 names
  nextCookie : Nat
  ordered : entries.Pairwise fun a b => a.cookie < b.cookie
  distinct : entries.Pairwise fun a b => a.name ≠ b.name
  below : ∀ e ∈ entries, e.cookie < nextCookie

namespace DirEntries

def new : DirEntries := ⟨[], 0, .nil, .nil, nofun⟩

def find (d : DirEntries) (name : Name) : Option Entry := d.entries.find? fun e => e.name = name

def get (d : DirEntries) (name : Name) : Option Nat := (d.find name).map (·.idx)

def cookieOf (d : DirEntries) (name : Name) : Option Nat := (d.find name).map (·.cookie)

/-- `Entry` of a replaced name: it keeps its cookie. -/
def redirect (name : Name) (idx : Nat) (e : Entry) : Entry := if e.name = name then { e with idx } else e

@[simp] theorem redirect_name (name : Name) (idx : Nat) (e : Entry) : (redirect name idx e).name = e.name := by
  rw [redirect]
  split <;> rfl

@[simp] theorem redirect_cookie (name : Name) (idx : Nat) (e : Entry) : (redirect name idx e).cookie = e.cookie := by
  rw [redirect]
  split <;> rfl

/-- A new name gets the next cookie; a replaced one keeps its own. -/
def insert (d : DirEntries) (name : Name) (idx : Nat) : DirEntries :=
  if h : d.find name = none then
    { entries := d.entries ++ [⟨name, idx, d.nextCookie⟩]
      nextCookie := d.nextCookie + 1
      ordered := List.pairwise_append.mpr ⟨d.ordered, List.pairwise_singleton _ _, fun e he x hx => by
        rw [List.mem_singleton.mp hx]
        exact d.below e he⟩
      distinct := List.pairwise_append.mpr ⟨d.distinct, List.pairwise_singleton _ _, fun e he x hx => by
        rw [List.mem_singleton.mp hx]
        simpa using List.find?_eq_none.mp h e he⟩
      below := fun e he => by
        rcases List.mem_append.mp he with he | he
        · exact Nat.lt_succ_of_lt (d.below e he)
        · rw [List.mem_singleton.mp he]
          exact Nat.lt_succ_self _ }
  else
    { entries := d.entries.map (redirect name idx)
      nextCookie := d.nextCookie
      ordered := List.pairwise_map.mpr (d.ordered.imp fun h => by simpa using h)
      distinct := List.pairwise_map.mpr (d.distinct.imp fun h => by simpa using h)
      below := fun e he => by
        obtain ⟨x, hx, rfl⟩ := List.mem_map.mp he
        rw [redirect_cookie]
        exact d.below x hx }

def remove (d : DirEntries) (name : Name) : DirEntries where
  entries := d.entries.filter fun e => e.name ≠ name
  nextCookie := d.nextCookie
  ordered := d.ordered.filter _
  distinct := d.distinct.filter _
  below := fun e he => d.below e (List.mem_filter.mp he).1

variable {d : DirEntries} {name old : Name} {idx : Nat}

theorem get_eq_none : d.get name = none ↔ d.find name = none := by rw [get, Option.map_eq_none_iff]

theorem cookieOf_insert (h : d.find name = none) (n : Name) :
    (d.insert name idx).cookieOf n = if name = n then some d.nextCookie else d.cookieOf n := by
  rw [insert, dif_pos h]
  simp only [cookieOf, find, find?_append, find?_singleton, decide_eq_true_eq]
  split_ifs with heq
  · rw [← heq, ← find, h]
    rfl
  · rw [Option.or_none]

theorem nextCookie_insert (h : d.find name = none) : (d.insert name idx).nextCookie = d.nextCookie + 1 := by
  rw [insert, dif_pos h]

theorem find_remove (d : DirEntries) (name n : Name) : (d.remove name).find n = if n = name then none else d.find n := by
  simp only [find, remove, find?_filter]
  split_ifs with heq
  · simp [heq]
  congr 1
  funext e
  by_cases he : e.name = n
  · simp [he, heq]
  · simp [he]

theorem cookieOf_remove (d : DirEntries) (name n : Name) : (d.remove name).cookieOf n = if n = name then none else d.cookieOf n := by
  rw [cookieOf, find_remove]
  split <;> rfl

end DirEntries

/-! ## Calls -/

namespace DirEntries

/-- `rename` in the directory of the new name. There is nothing to do if both names are of one
inode; otherwise the replaced name is removed, then the old one if it is of this directory, and
the inode is attached under the new name. -/
def rename (d : DirEntries) (old : Option Name) (new : Name) (target : Nat) : DirEntries :=
  if d.get new = some target then d
  else
    let d := if (d.get new).isSome then d.remove new else d
    let d := old.elim d d.remove
    d.insert new target

end DirEntries

/-- A call on a directory that was not refused: `open` with `O_CREAT`, `mkdir`, `symlink`,
`mknod_special`, `create_host_backed` or `link`; `unlink` or `rmdir`; and `rename` within the
directory, from another one, and to another one. -/
inductive Change
  | create (name : Name) (idx : Nat)
  | remove (name : Name)
  | renameWithin (old new : Name)
  | renameInto (new : Name) (target : Nat)
  | renameOut (old : Name)

namespace DirEntries

def apply (d : DirEntries) : Change → DirEntries
  | .create name idx => if (d.get name).isSome then d else d.insert name idx
  | .remove name => d.remove name
  | .renameWithin old new =>
    match d.get old with
    | none => d
    | some target => d.rename (some old) new target
  | .renameInto new target => d.rename none new target
  | .renameOut old => d.remove old

/-- The name that a rename of `target` to `new` replaces. -/
def replacedBy (d : DirEntries) (new : Name) (target : Nat) : Option Name :=
  if d.get new = none ∨ d.get new = some target then none else some new

/-- The name that a call replaces. -/
def replaced (d : DirEntries) : Change → Option Name
  | .renameWithin old new => (d.get old).bind (d.replacedBy new)
  | .renameInto new target => d.replacedBy new target
  | _ => none

end DirEntries

open DirEntries

/-! ## What a call does to the cookies -/

/-- `F` is `E` with some names removed. -/
structure Pruned (E F : DirEntries) : Prop where
  next : F.nextCookie = E.nextCookie
  cookie : ∀ n c, F.cookieOf n = some c → E.cookieOf n = some c

theorem Pruned.refl (E : DirEntries) : Pruned E E := ⟨rfl, fun _ _ h => h⟩

theorem Pruned.remove {E F : DirEntries} (h : Pruned E F) (name : Name) : Pruned E (F.remove name) where
  next := h.next
  cookie := fun n c hc => by
    rw [cookieOf_remove] at hc
    split at hc
    · cases hc
    · exact h.cookie n c hc

/-- `E'` is the directory after one call, which replaced the name `r` in it. -/
inductive Edited (E : DirEntries) : DirEntries → Option Name → Prop
  | pruned {F : DirEntries} : Pruned E F → Edited E F none
  | insert {F : DirEntries} (n : Name) (idx : Nat) : Pruned E F → F.find n = none →
      Edited E (F.insert n idx) (if E.find n = none then none else some n)

namespace Edited

variable {E E' : DirEntries} {r : Option Name} {n : Name} {c c' : Nat}

/-- A name that is there before and after keeps its cookie, unless it was replaced: then it has
one that no entry had before. -/
theorem cookieOf (h : Edited E E' r) (hc : E.cookieOf n = some c) (hc' : E'.cookieOf n = some c') :
    if r = some n then E.nextCookie ≤ c' else c' = c := by
  have hsame : E.cookieOf n = some c' → c' = c := fun h => Option.some.inj (h.symm.trans hc)
  cases h with
  | pruned hp => exact hsame (hp.cookie n c' hc')
  | insert m idx hp hnone =>
    rw [cookieOf_insert hnone] at hc'
    split_ifs at hc' with heq
    · have hfind : E.find m ≠ none := by
        intro h
        rw [← heq, cookieOf, h] at hc
        cases hc
      rw [if_neg hfind, heq, if_pos rfl, ← Option.some.inj hc']
      exact Nat.le_of_eq hp.next.symm
    · rw [if_neg]
      · exact hsame (hp.cookie n c' hc')
      split
      · exact nofun
      · exact fun h => heq (Option.some.inj h)

theorem nextCookie_le (h : Edited E E' r) : E.nextCookie ≤ E'.nextCookie := by
  cases h with
  | pruned hp => exact Nat.le_of_eq hp.next.symm
  | insert m idx hp hnone =>
    rw [nextCookie_insert hnone, hp.next]
    exact Nat.le_succ _

end Edited

theorem edited_rename (d : DirEntries) (old : Option Name) (new : Name) (target : Nat) :
    Edited d (d.rename old new target) (d.replacedBy new target) := by
  rw [rename, replacedBy]
  split
  · rename_i heq
    rw [if_pos (.inr heq)]
    exact .pruned (.refl d)
  rename_i hne
  -- What is left when the name is attached: neither the replaced name nor the old one.
  have hleft : ∀ F, Pruned d F → F.find new = none → Pruned d (old.elim F F.remove) ∧ (old.elim F F.remove).find new = none := by
    intro F hp hnone
    cases old with
    | none => exact ⟨hp, hnone⟩
    | some old =>
      refine ⟨hp.remove old, ?_⟩
      rw [Option.elim_some, find_remove, hnone, ite_self]
  split
  · rename_i hsome
    have hget : d.get new ≠ none := Option.isSome_iff_ne_none.mp hsome
    obtain ⟨hp, hnone⟩ := hleft (d.remove new) (.remove (.refl d) new) (by rw [find_remove, if_pos rfl])
    have hins := Edited.insert new target hp hnone
    rw [if_neg fun h => hget (get_eq_none.mpr h)] at hins
    rw [if_neg (not_or.mpr ⟨hget, hne⟩)]
    exact hins
  rename_i hnone
  have hget : d.get new = none := Option.not_isSome_iff_eq_none.mp hnone
  obtain ⟨hp, hnone⟩ := hleft d (.refl d) (get_eq_none.mp hget)
  have hins := Edited.insert new target hp hnone
  rw [if_pos (get_eq_none.mp hget)] at hins
  rw [if_pos (.inl hget)]
  exact hins

theorem apply_edited (d : DirEntries) (c : Change) : Edited d (d.apply c) (d.replaced c) := by
  cases c with
  | create name idx =>
    rw [apply]
    split_ifs with h
    · exact .pruned (.refl d)
    have hnone := get_eq_none.mp (Option.not_isSome_iff_eq_none.mp h)
    have hins := Edited.insert name idx (.refl d) hnone
    rwa [if_pos hnone] at hins
  | remove name => exact .pruned (.remove (.refl d) name)
  | renameWithin old new =>
    simp only [apply, replaced]
    split
    · rename_i h
      rw [h]
      exact .pruned (.refl d)
    rename_i target h
    rw [h]
    exact edited_rename d (some old) new target
  | renameInto new target => exact edited_rename d none new target
  | renameOut old => exact .pruned (.remove (.refl d) old)

/-! ## getdents64 -/

/-- What a listing names: the directory and its parent, and the entries. -/
inductive Listed
  | self
  | parent
  | entry (name : Name)
  deriving DecidableEq

def Listed.nameLength : Listed → Nat
  | .self => 1
  | .parent => 2
  | .entry name => name.length

/-- What a record says of an inode. -/
structure InodeInfo where
  ino : Nat
  type : UInt8

/-- One record to be written: its position, and its inode if the slot is in use. -/
structure Item where
  position : Nat
  listed : Listed
  inode : Option InodeInfo

structure Dirent where
  ino : Nat
  off : Nat
  type : UInt8
  listed : Listed

/-- `.` and `..` come first; every entry sits at its cookie plus 2. -/
def DirEntries.items (d : DirEntries) (dirIno : Nat) (inodes : Nat → Option InodeInfo) : List Item :=
  ⟨0, .self, some ⟨dirIno, 4⟩⟩ :: ⟨1, .parent, some ⟨dirIno, 4⟩⟩ ::
    d.entries.map fun e => ⟨e.cookie + 2, .entry e.name, inodes e.idx⟩

/-- `write_dirent64`: the length of the record, 0 if it does not fit. -/
def writeDirent64 (capacity pos : Nat) (listed : Listed) : Nat :=
  let reclen := (19 + listed.nameLength + 1 + 7) / 8 * 8
  if reclen > 65535 ∨ pos + reclen > capacity then 0 else reclen

/-- The loop of `getdents64`: the records, the cookie to go on from and whether it is the end. -/
def fill (capacity : Nat) : List Item → Nat → Nat → Except Errno (List Dirent × Nat × Bool)
  | [], _, cookie => .ok ([], cookie, true)
  | item :: rest, pos, _ =>
    if item.position + 1 ≥ 2 ^ 63 then .error .EOVERFLOW
    else match item.inode with
      | none => .error .ENOENT
      | some inode =>
        let written := writeDirent64 capacity pos item.listed
        if written = 0 then if pos = 0 then .error .EINVAL else .ok ([], item.position, false)
        else match fill capacity rest (pos + written) (item.position + 1) with
          | .error e => .error e
          | .ok (out, cookie, exhausted) => .ok (⟨inode.ino, item.position + 1, inode.type, item.listed⟩ :: out, cookie, exhausted)

/-- `getdents64` of a directory that is there, from a cookie that is not negative. -/
def DirEntries.getdents64 (d : DirEntries) (dirIno : Nat) (inodes : Nat → Option InodeInfo) (capacity offset : Nat) :
    Except Errno (List Dirent × Nat × Bool) :=
  fill capacity ((d.items dirIno inodes).filter fun item => offset ≤ item.position) 0 offset

def DirEntries.positions (d : DirEntries) : List (Nat × Listed) :=
  (0, .self) :: (1, .parent) :: d.entries.map fun e => (e.cookie + 2, .entry e.name)

/-- What there is to be listed from a cookie on. -/
def DirEntries.remaining (d : DirEntries) (offset : Nat) : List Listed := (d.positions.filter fun x => offset ≤ x.1).map (·.2)

/-- The records written are a first part of what was to be written, and the cookie returned
lies between them and the rest. -/
theorem fill_spec {capacity : Nat} {items : List Item} {pos cookie c : Nat} {out : List Dirent} {exhausted : Bool}
    (hsorted : items.Pairwise fun a b => a.position < b.position) (h : fill capacity items pos cookie = .ok (out, c, exhausted)) :
    ∃ taken rest, items = taken ++ rest ∧ out.map (·.listed) = taken.map (·.listed) ∧
      (∀ x ∈ taken, x.position < c) ∧ (∀ x ∈ rest, c ≤ x.position) ∧ (exhausted → rest = []) ∧
      (c = cookie ∨ (∃ x ∈ items, c ≤ x.position + 1)) ∧ ((∀ x ∈ items, cookie ≤ x.position) → cookie ≤ c) := by
  induction items generalizing pos cookie out c exhausted with
  | nil =>
    cases h
    exact ⟨[], [], rfl, rfl, nofun, nofun, fun _ => rfl, .inl rfl, fun _ => Nat.le_refl _⟩
  | cons item items ih =>
    rw [pairwise_cons] at hsorted
    rw [fill] at h
    split at h
    · cases h
    split at h
    · cases h
    simp only at h
    split at h
    · split at h
      · cases h
      cases h
      refine ⟨[], item :: items, rfl, rfl, nofun, ?_, nofun, .inr ⟨item, mem_cons_self, Nat.le_succ _⟩,
        fun hle => hle item mem_cons_self⟩
      intro x hx
      rcases mem_cons.mp hx with rfl | hx
      · exact Nat.le_refl _
      · exact Nat.le_of_lt (hsorted.1 x hx)
    split at h
    · cases h
    rename_i hfill
    cases h
    obtain ⟨taken, rest, rfl, hout, htaken, hrest, hex, hc, hle⟩ := ih hsorted.2 hfill
    have hlt := hle fun x hx => hsorted.1 x hx
    refine ⟨item :: taken, rest, rfl, by rw [map_cons, map_cons, hout], ?_, hrest, hex, ?_, ?_⟩
    · intro x hx
      rcases mem_cons.mp hx with rfl | hx
      · exact hlt
      · exact htaken x hx
    · rcases hc with rfl | ⟨x, hx, hle⟩
      · exact .inr ⟨item, mem_cons_self, Nat.le_refl _⟩
      · exact .inr ⟨x, mem_cons_of_mem _ hx, hle⟩
    · exact fun hle => Nat.le_of_lt (Nat.lt_of_le_of_lt (hle item mem_cons_self) hlt)

namespace DirEntries

variable {d : DirEntries} {dirIno : Nat} {inodes : Nat → Option InodeInfo} {capacity p c : Nat} {out : List Dirent}
  {exhausted : Bool}

theorem remaining_eq (d : DirEntries) (dirIno : Nat) (inodes : Nat → Option InodeInfo) (p : Nat) :
    d.remaining p = ((d.items dirIno inodes).filter fun item => p ≤ item.position).map (·.listed) := by
  have hpos : d.positions = (d.items dirIno inodes).map fun item => (item.position, item.listed) := by
    simp only [items, map_cons, map_map]
    rfl
  rw [remaining, hpos, filter_map, map_map]
  rfl

theorem items_sorted (d : DirEntries) (dirIno : Nat) (inodes : Nat → Option InodeInfo) :
    (d.items dirIno inodes).Pairwise fun a b => a.position < b.position := by
  simp only [items, pairwise_cons, mem_cons, mem_map, pairwise_map]
  refine ⟨?_, ?_, d.ordered.imp fun h => by omega⟩
  · rintro x (rfl | ⟨e, _, rfl⟩)
    · exact Nat.one_pos
    · exact Nat.succ_pos _
  · rintro x ⟨e, _, rfl⟩
    exact Nat.succ_lt_succ (Nat.succ_pos _)

/-- A read takes what lies between the cookie it is passed and the one it returns. -/
theorem getdents64_spec (h : d.getdents64 dirIno inodes capacity p = .ok (out, c, exhausted)) :
    d.remaining p = out.map (·.listed) ++ d.remaining c ∧ (exhausted → d.remaining c = []) ∧ (c = p ∨ c ≤ d.nextCookie + 2) := by
  obtain ⟨taken, rest, hitems, hout, htaken, hrest, hex, hc, hle⟩ := fill_spec ((d.items_sorted dirIno inodes).filter _) h
  have hpc : p ≤ c := hle fun x hx => of_decide_eq_true (mem_filter.mp hx).2
  have hfilter : (d.items dirIno inodes).filter (fun item => c ≤ item.position) = rest := by
    have hboth : (d.items dirIno inodes).filter (fun item => c ≤ item.position) =
        ((d.items dirIno inodes).filter fun item => p ≤ item.position).filter fun item => c ≤ item.position := by
      rw [filter_filter]
      refine filter_congr fun x _ => ?_
      by_cases hx : c ≤ x.position
      · simp [Nat.le_trans hpc hx]
      · simp [hx]
    rw [hboth, hitems, filter_append, filter_eq_nil_iff.mpr, filter_eq_self.mpr, nil_append]
    · exact fun x hx => decide_eq_true (hrest x hx)
    · exact fun x hx hcx => absurd (htaken x hx) (Nat.not_lt.mpr (of_decide_eq_true hcx))
  rw [d.remaining_eq dirIno inodes, d.remaining_eq dirIno inodes, hfilter, hitems, hout, map_append]
  refine ⟨rfl, fun h => by rw [hex h]; rfl, hc.imp_right ?_⟩
  rintro ⟨x, hx, hcx⟩
  have hmem := (mem_filter.mp hx).1
  simp only [items, mem_cons, mem_map] at hmem
  rcases hmem with rfl | rfl | ⟨e, he, rfl⟩
  · exact Nat.le_trans hcx (Nat.le_add_left 1 _)
  · exact Nat.le_trans hcx (Nat.le_add_left 2 _)
  have := d.below e he
  simp only at hcx
  omega

theorem nodup_remaining (d : DirEntries) (p : Nat) : (d.remaining p).Nodup := by
  refine (filter_sublist.map _).nodup (?_ : (d.positions.map (·.2)).Nodup)
  simp only [positions, map_cons, map_map, nodup_cons, mem_cons]
  refine ⟨by simp, by simp, pairwise_map.mpr (d.distinct.imp fun h heq => h (Listed.entry.inj heq))⟩

theorem cookieOf_eq_some {n : Name} {k : Nat} : d.cookieOf n = some k ↔ ∃ e ∈ d.entries, e.name = n ∧ e.cookie = k := by
  rw [cookieOf, Option.map_eq_some_iff]
  constructor
  · rintro ⟨e, he, rfl⟩
    exact ⟨e, mem_of_find?_eq_some he, by simpa using find?_some he, rfl⟩
  rintro ⟨e, he, rfl, rfl⟩
  cases hf : d.find e.name with
  | none => exact absurd (decide_eq_true rfl) (find?_eq_none.mp hf e he)
  | some e' =>
    have hname : e'.name = e.name := by simpa using find?_some hf
    rw [inj_on_of_nodup_map (pairwise_map.mpr d.distinct) (mem_of_find?_eq_some hf) he hname]
    exact ⟨e, rfl, rfl⟩

theorem mem_remaining {n : Name} : .entry n ∈ d.remaining p ↔ ∃ k, d.cookieOf n = some k ∧ p ≤ k + 2 := by
  simp only [remaining, positions, mem_map, mem_filter, mem_cons, cookieOf_eq_some, decide_eq_true_eq]
  constructor
  · rintro ⟨_, ⟨rfl | rfl | ⟨e, he, rfl⟩, hp⟩, hn⟩
    · cases hn
    · cases hn
    · cases hn
      exact ⟨e.cookie, ⟨e, he, rfl, rfl⟩, hp⟩
  · rintro ⟨_, ⟨e, he, rfl, rfl⟩, hp⟩
    exact ⟨_, ⟨.inr (.inr ⟨e, he, rfl⟩), hp⟩, rfl⟩

theorem remaining_subset (d : DirEntries) (p : Nat) : d.remaining p ⊆ d.remaining 0 := by
  refine map_subset _ fun y hy => mem_filter.mpr ⟨(mem_filter.mp hy).1, ?_⟩
  exact decide_eq_true (Nat.zero_le _)

theorem self_mem_remaining : .self ∈ d.remaining p ↔ p = 0 := by simp [remaining, positions]

theorem parent_mem_remaining : .parent ∈ d.remaining p ↔ p ≤ 1 := by simp [remaining, positions]

end DirEntries

/-! ## A reader while the directory changes -/

inductive Event
  | change (c : Change)
  | read (capacity dirIno : Nat) (inodes : Nat → Option InodeInfo)

/-- What a reader gets that passes back the cookie of each read, up to the read that reports
the end; `none` if a read fails or the end is not reached. -/
def listing (d : DirEntries) (p : Nat) : List Event → Option (List Listed)
  | [] => none
  | .change c :: es => listing (d.apply c) p es
  | .read capacity dirIno inodes :: es =>
    match d.getdents64 dirIno inodes capacity p with
    | .error _ => none
    | .ok (out, _, true) => if es.isEmpty then some (out.map (·.listed)) else none
    | .ok (out, cookie, false) => (listing d cookie es).map (out.map (·.listed) ++ ·)

/-- `P` holds of the directory all along. -/
def Throughout (P : DirEntries → Prop) (d : DirEntries) : List Event → Prop
  | [] => P d
  | .change c :: es => P d ∧ Throughout P (d.apply c) es
  | .read .. :: es => Throughout P d es

/-- How often a rename replaced a name when the reader had passed it. -/
def replacedBehind (x : Listed) (d : DirEntries) (p : Nat) : List Event → Nat
  | [] => 0
  | .change c :: es =>
    (if (d.replaced c).map Listed.entry = some x ∧ x ∉ d.remaining p then 1 else 0) + replacedBehind x (d.apply c) p es
  | .read capacity dirIno inodes :: es =>
    match d.getdents64 dirIno inodes capacity p with
    | .error _ => 0
    | .ok (_, cookie, _) => replacedBehind x d cookie es

section Runs

variable {d : DirEntries} {p : Nat} {es : List Event} {names : List Listed} {x : Listed}

theorem Throughout.start {P : DirEntries → Prop} (h : Throughout P d es) : P d := by
  induction es with
  | nil => exact h
  | cons e es ih =>
    cases e with
    | change c => exact h.1
    | read capacity dirIno inodes => exact ih h

/-- What is listed from a cookie on after a call: what was, and a name replaced behind it. -/
theorem mem_remaining_apply (c : Change) (hp : p ≤ d.nextCookie + 2) (h : x ∈ d.remaining 0) (h' : x ∈ (d.apply c).remaining 0) :
    x ∈ (d.apply c).remaining p ↔ x ∈ d.remaining p ∨ (d.replaced c).map Listed.entry = some x := by
  cases x with
  | entry n =>
    obtain ⟨k, hk, -⟩ := mem_remaining.mp h
    obtain ⟨k', hk', -⟩ := mem_remaining.mp h'
    have hcookie := (apply_edited d c).cookieOf hk hk'
    have hrep : (d.replaced c).map Listed.entry = some (.entry n) ↔ d.replaced c = some n := by
      cases d.replaced c <;> simp
    simp only [mem_remaining, hk, hk', hrep, Option.some.injEq, exists_eq_left']
    split_ifs at hcookie with hr
    · exact iff_of_true (by omega) (.inr hr)
    · rw [hcookie, or_iff_left hr]
  | self => cases d.replaced c <;> simp [self_mem_remaining]
  | parent => cases d.replaced c <;> simp [parent_mem_remaining]

/-- A read of a listing: the end of it, or what it takes and the rest. -/
theorem listing_read {capacity dirIno : Nat} {inodes : Nat → Option InodeInfo}
    (h : listing d p (.read capacity dirIno inodes :: es) = some names) :
    ∃ out c exhausted, d.getdents64 dirIno inodes capacity p = .ok (out, c, exhausted) ∧
      d.remaining p = out.map (·.listed) ++ d.remaining c ∧ (c = p ∨ c ≤ d.nextCookie + 2) ∧
      (es = [] ∧ d.remaining c = [] ∧ names = out.map (·.listed) ∨
        ∃ rest, listing d c es = some rest ∧ names = out.map (·.listed) ++ rest) := by
  rw [listing] at h
  split at h
  · cases h
  · rename_i out c hread
    obtain ⟨hsplit, hend, hc⟩ := getdents64_spec hread
    split at h
    · rename_i hes
      cases h
      exact ⟨out, c, true, hread, hsplit, hc, .inl ⟨isEmpty_iff.mp hes, hend rfl, rfl⟩⟩
    · cases h
  · rename_i out c hread
    obtain ⟨hsplit, -, hc⟩ := getdents64_spec hread
    obtain ⟨rest, hrest, rfl⟩ := Option.map_eq_some_iff.mp h
    exact ⟨out, c, false, hread, hsplit, hc, .inr ⟨rest, hrest, rfl⟩⟩

/-- Over a listing, what is there all along is returned once, if it was still to come, and once
more for each time it was replaced behind the reader. -/
theorem count_listing (hx : Throughout (x ∈ ·.remaining 0) d es) (hp : p ≤ d.nextCookie + 2)
    (h : listing d p es = some names) : names.count x = (d.remaining p).count x + replacedBehind x d p es := by
  induction es generalizing d p names with
  | nil => cases h
  | cons e es ih =>
    cases e with
    | change c =>
      have hnext := Nat.add_le_add_right (apply_edited d c).nextCookie_le 2
      have hmem := mem_remaining_apply c hp hx.1 hx.2.start
      rw [ih hx.2 (Nat.le_trans hp hnext) h, replacedBehind, List.Nodup.count (nodup_remaining _ p),
        List.Nodup.count (nodup_remaining _ p)]
      by_cases hold : x ∈ d.remaining p
      · simp [hold, hmem]
      · simp [hold, hmem]
    | read capacity dirIno inodes =>
      obtain ⟨out, c, exhausted, hread, hsplit, hc, ⟨rfl, hend, rfl⟩ | ⟨rest, hrest, rfl⟩⟩ := listing_read h
      · simp [replacedBehind, hread, hsplit, hend]
      · simp only [replacedBehind, hread]
        rw [hsplit, count_append, count_append, ih hx (hc.elim (· ▸ hp) id) hrest, Nat.add_assoc]

/-- What is returned was there at some time. -/
theorem mem_listing (h : listing d p es = some names) (hx : x ∈ names) : ¬Throughout (x ∉ ·.remaining 0) d es := by
  intro hnot
  induction es generalizing d p names with
  | nil => cases h
  | cons e es ih =>
    cases e with
    | change c => exact ih h hx hnot.2
    | read capacity dirIno inodes =>
      obtain ⟨out, c, exhausted, -, hsplit, -, hrest⟩ := listing_read h
      have hout : x ∉ out.map (·.listed) := fun hm =>
        hnot.start (d.remaining_subset p (hsplit ▸ mem_append_left _ hm))
      obtain ⟨-, -, rfl⟩ | ⟨rest, hrest, rfl⟩ := hrest
      · exact hout hx
      · exact ih hrest ((mem_append.mp hx).resolve_left hout) hnot

/-- Without changes the reader gets the directory as it is. -/
theorem listing_unchanged (hes : ∀ e ∈ es, ∀ c, e ≠ .change c) (h : listing d p es = some names) : names = d.remaining p := by
  induction es generalizing p names with
  | nil => cases h
  | cons e es ih =>
    cases e with
    | change c => exact absurd rfl (hes _ mem_cons_self c)
    | read capacity dirIno inodes =>
      obtain ⟨out, c, exhausted, -, hsplit, -, ⟨-, hend, rfl⟩ | ⟨rest, hrest, rfl⟩⟩ := listing_read h
      · rw [hsplit, hend, append_nil]
      · rw [hsplit, ih (fun e he => hes e (mem_cons_of_mem _ he)) hrest]

end Runs

/-- What a reader is promised: what is in the directory throughout is returned exactly once,
nothing that never was there is, and a directory that does not change is returned as it is. -/
structure ExactlyOnce (d : DirEntries) (es : List Event) (names : List Listed) : Prop where
  once : ∀ x, Throughout (x ∈ ·.remaining 0) d es → names.count x = 1
  there : ∀ x ∈ names, ¬Throughout (x ∉ ·.remaining 0) d es
  unchanged : (∀ e ∈ es, ∀ c, e ≠ .change c) → names = .self :: .parent :: d.entries.map fun e => .entry e.name

/-- The promise is kept precisely if no rename replaces a name after the reader has passed it. -/
theorem listing_exactly_once_iff {d : DirEntries} {es : List Event} {names : List Listed} (h : listing d 0 es = some names) :
    ExactlyOnce d es names ↔ ∀ x, Throughout (x ∈ ·.remaining 0) d es → replacedBehind x d 0 es = 0 := by
  have hcount : ∀ x, Throughout (x ∈ ·.remaining 0) d es → names.count x = 1 + replacedBehind x d 0 es := by
    intro x hx
    rw [count_listing hx (Nat.zero_le _) h, count_eq_one_of_mem (d.nodup_remaining 0) hx.start]
  constructor
  · intro hone x hx
    have := hcount x hx
    have := hone.once x hx
    omega
  intro hnone
  refine ⟨fun x hx => by rw [hcount x hx, hnone x hx], fun x hx => mem_listing h hx, fun hes => ?_⟩
  rw [listing_unchanged hes h]
  simp [remaining, positions]

/-- Two files, and a read into a buffer for three records. -/
def twoFiles : DirEntries := (DirEntries.new.insert [97] 1).insert [98] 2

def readThree : Event := .read 72 7 fun idx => some ⟨idx, 8⟩

/-- A file made between the reads comes last. -/
theorem listing_exactly_once_iff_twoFiles :
    let es := [readThree, .change (.create [99] 3), readThree]
    listing twoFiles 0 es = some [.self, .parent, .entry [97], .entry [98], .entry [99]] ∧
      ExactlyOnce twoFiles es [.self, .parent, .entry [97], .entry [98], .entry [99]] := by
  refine ⟨by decide, (listing_exactly_once_iff (by decide)).mpr fun x _ => ?_⟩
  change (if none = some x ∧ _ then 1 else 0) + 0 = 0
  simp

/-- The file `b` is renamed to `a` after the reader has passed `a`: `a` is returned twice. -/
theorem renamed_over_listed_twice :
    let es := [readThree, .change (.renameWithin [98] [97]), readThree]
    listing twoFiles 0 es = some [.self, .parent, .entry [97], .entry [97]] ∧ Throughout (.entry [97] ∈ ·.remaining 0) twoFiles es := by
  refine ⟨by decide, ?_⟩
  simp only [readThree, Throughout]
  decide

end Kandelo.Tmpfs

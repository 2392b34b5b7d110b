/-
`getdents64` of an in-kernel rootfs directory, under creates and removals.

A cookie is a position in the listing as it is at the moment: `.`, `..`, the entries by name, and
the virtual entries of `/`. A call that adds or removes a name moves every name behind it by one
(`position_apply`), past the cookie of a reader that stands just there. Over a whole listing an
entry is returned once, once less for each time it was skipped so, and once more for each time it
was pushed back behind the cookie (`count_listing`).
-/
import Kandelo.Lib.OrdMap
import Kandelo.Tmpfs.Directory

namespace Kandelo.Rootfs

open List OrdMap

open Tmpfs (Name Listed InodeInfo Dirent writeDirent64)

/-- `DirectoryEntries`: what its tree lists, the inodes by name. -/
abbrev Directory := OrdMap Name Nat

/-- A call on a directory that was not refused: `open` with `O_CREAT`, `mkdir`, `symlink` or
`link`; and `unlink` or `rmdir`. -/
inductive Change
  | create (name : Name) (idx : Nat)
  | remove (name : Name)

def apply (d : Directory) : Change → Directory
  | .create name idx => if d.contains name then d else d.insert name idx
  | .remove name => d.erase name

/-! ## getdents64 -/

/-- An entry the caller adds: its name, and its type and inode number. -/
structure Virtual where
  name : Name
  info : InodeInfo

/-- The virtual entries that neither a child nor an earlier one hides. -/
def injected (d : Directory) : List Name → List Virtual → List Virtual
  | _, [] => []
  | earlier, e :: extra =>
    if d.contains e.name ∨ e.name ∈ earlier then injected d (e.name :: earlier) extra
    else e :: injected d (e.name :: earlier) extra

/-- The loops of `getdents64`: the records, the cookie to go on from and whether it is the end. -/
def fill (capacity : Nat) : List (Listed × Option InodeInfo) → Nat → Nat → Except Errno (List Dirent × Nat × Bool)
  | [], _, cookie => .ok ([], cookie, true)
  | (_, none) :: _, _, _ => .error .ENOENT
  | (listed, some inode) :: rest, pos, cookie =>
    let written := writeDirent64 capacity pos listed
    if written = 0 then if pos = 0 then .error .EINVAL else .ok ([], cookie, false)
    else match fill capacity rest (pos + written) (cookie + 1) with
      | .error e => .error e
      | .ok (out, next, exhausted) => .ok (⟨inode.ino, cookie + 1, inode.type, listed⟩ :: out, next, exhausted)

/-- What there is to be listed, with its inodes. -/
def items (extra : List Virtual) (d : Directory) (dirIno : Nat) (inodes : Nat → Option InodeInfo) : List (Listed × Option InodeInfo) :=
  (.self, some ⟨dirIno, 4⟩) :: (.parent, some ⟨dirIno, 4⟩) :: (d.entries.map fun e => (.entry e.1, inodes e.2)) ++
    (injected d [] extra).map fun e => (.entry e.name, some e.info)

/-- `getdents64` of a directory that is there, from a cookie that is not negative, with a `usize` of
`w` bits. -/
def getdents64 (w : Nat) (extra : List Virtual) (d : Directory) (dirIno : Nat) (inodes : Nat → Option InodeInfo)
    (capacity offset : Nat) : Except Errno (List Dirent × Nat × Bool) :=
  if d.entries.any fun e => (inodes e.2).isNone then .error .ENOENT
  else if 2 ^ w ≤ d.entries.length + (injected d [] extra).length ∨
      2 ^ 63 ≤ d.entries.length + (injected d [] extra).length + 2 then .error .EOVERFLOW
  else if d.entries.length + (injected d [] extra).length + 2 ≤ offset then .ok ([], offset, true)
  else fill capacity ((items extra d dirIno inodes).drop offset) 0 offset

/-- The listing as it is. -/
def names (extra : List Virtual) (d : Directory) : List Listed :=
  .self :: .parent :: (d.entries.map (·.1) ++ (injected d [] extra).map (·.name)).map .entry

variable {w : Nat} {extra : List Virtual} {d : Directory} {p c : Nat} {n : Name} {out : List Dirent} {exhausted : Bool}

theorem map_items (extra : List Virtual) (d : Directory) (dirIno : Nat) (inodes : Nat → Option InodeInfo) :
    (items extra d dirIno inodes).map (·.1) = names extra d := by
  simp only [items, names, map_cons, map_append, map_map]
  rfl

/-- The records written are a first part of what was to be written. -/
theorem fill_spec {capacity : Nat} {items : List (Listed × Option InodeInfo)} {pos cookie : Nat}
    (h : fill capacity items pos cookie = .ok (out, c, exhausted)) :
    ∃ rest, items.map (·.1) = out.map (·.listed) ++ rest ∧ c = cookie + out.length ∧ (exhausted → rest = []) := by
  induction items generalizing pos cookie out c exhausted with
  | nil =>
    cases h
    exact ⟨[], rfl, rfl, fun _ => rfl⟩
  | cons item items ih =>
    obtain ⟨listed, _ | inode⟩ := item
    · cases h
    simp only [fill] at h
    split at h
    · split at h
      · cases h
      cases h
      exact ⟨_, rfl, rfl, nofun⟩
    split at h
    · cases h
    rename_i hfill
    cases h
    obtain ⟨rest, hitems, rfl, hend⟩ := ih hfill
    exact ⟨rest, by rw [map_cons, hitems]; rfl, by rw [length_cons]; omega, hend⟩

variable {inodes : Nat → Option InodeInfo}

/-- A read takes what lies between the cookie it is passed and the one it returns. -/
theorem getdents64_spec {capacity dirIno : Nat} (h : getdents64 w extra d dirIno inodes capacity p = .ok (out, c, exhausted)) :
    (names extra d).drop p = out.map (·.listed) ++ (names extra d).drop c ∧ (exhausted → (names extra d).drop c = []) := by
  rw [getdents64] at h
  split at h
  · cases h
  split at h
  · cases h
  split at h
  · rename_i hend
    cases h
    refine ⟨rfl, fun _ => drop_eq_nil_of_le ?_⟩
    simp only [names, length_cons, length_map, length_append]
    exact hend
  obtain ⟨rest, hitems, rfl, hend⟩ := fill_spec h
  rw [map_drop, map_items] at hitems
  have hrest : (names extra d).drop (p + out.length) = rest := by
    rw [← drop_drop, hitems, ← length_map (f := (·.listed)), drop_left]
  rw [hitems, hrest]
  exact ⟨rfl, hend⟩

/-! ## Where an entry is -/

theorem injected_spec (d : Directory) (earlier : List Name) (extra : List Virtual) : ((injected d earlier extra).map (·.name)).Nodup ∧
      ∀ e ∈ injected d earlier extra, d.contains e.name = false ∧ e.name ∉ earlier := by
  induction extra generalizing earlier with
  | nil => exact ⟨.nil, nofun⟩
  | cons e extra ih =>
    obtain ⟨hnodup, hnew⟩ := ih (e.name :: earlier)
    have hrest : ∀ x ∈ injected d (e.name :: earlier) extra, d.contains x.name = false ∧ x.name ∉ earlier :=
      fun x hx => ⟨(hnew x hx).1, fun hin => (hnew x hx).2 (mem_cons_of_mem _ hin)⟩
    rw [injected]
    split_ifs with hhidden
    · exact ⟨hnodup, hrest⟩
    rw [not_or, Bool.not_eq_true] at hhidden
    refine ⟨nodup_cons.mpr ⟨fun hin => ?_, hnodup⟩, forall_mem_cons.mpr ⟨hhidden, hrest⟩⟩
    obtain ⟨x, hx, heq⟩ := mem_map.mp hin
    exact (hnew x hx).2 (heq ▸ mem_cons_self)

theorem nodup_names (extra : List Virtual) (d : Directory) : (names extra d).Nodup := by
  obtain ⟨hnodup, hnew⟩ := injected_spec d [] extra
  have hall : (d.entries.map (·.1) ++ (injected d [] extra).map (·.name)).Nodup := by
    refine nodup_append.mpr ⟨d.keys_nodup, hnodup, fun a ha b hb heq => ?_⟩
    obtain ⟨e, he, rfl⟩ := mem_map.mp hb
    have hhere : d.contains e.name := isSome_get?_iff.mpr (heq ▸ ha)
    rw [(hnew e he).1] at hhere
    cases hhere
  simp only [names, nodup_cons, mem_cons]
  exact ⟨by simp, by simp, hall.map fun _ _ => Listed.entry.inj⟩

/-- How far into the listing an entry is: behind `.` and `..` and the smaller names. -/
def position (d : Directory) (n : Name) : Nat := 2 + d.entries.countP fun e => compare e.1 n == .lt

theorem getElem?_countP {es : List (Name × Nat)} (hs : es.Pairwise fun a b => compare a.1 b.1 = .lt)
    (h : n ∈ es.map (·.1)) : (es.map (·.1))[es.countP fun e => compare e.1 n == .lt]? = some n := by
  induction es with
  | nil => cases h
  | cons e es ih =>
    obtain ⟨hlt, hs⟩ := pairwise_cons.mp hs
    rcases mem_cons.mp h with rfl | h
    · have hnone : (e :: es).countP (fun x => compare x.1 e.1 == .lt) = 0 := by
        refine countP_eq_zero.mpr (forall_mem_cons.mpr ⟨by simp, fun x hx => ?_⟩)
        have hgt := Std.OrientedCmp.gt_of_lt (hlt x hx)
        simp [hgt]
      rw [hnone]
      rfl
    · obtain ⟨x, hx, rfl⟩ := mem_map.mp h
      rw [countP_cons_of_pos (by simp [hlt x hx]), map_cons]
      exact ih hs h

/-- From a cookie on an entry is listed once, if the cookie is not past it. -/
theorem count_names (h : d.contains n) (extra : List Virtual) (p : Nat) :
    ((names extra d).drop p).count (.entry n) = (decide (p ≤ position d n)).toNat := by
  have hat : (names extra d)[position d n]? = some (.entry n) := by
    have hkey := getElem?_countP d.sorted (isSome_get?_iff.mp h)
    have hlt := (List.getElem?_eq_some_iff.mp hkey).1
    rw [position, Nat.add_comm, names, getElem?_cons_succ, getElem?_cons_succ, getElem?_map, getElem?_append_left hlt, hkey]
    rfl
  have hmem : .entry n ∈ (names extra d).drop p ↔ p ≤ position d n := by
    constructor
    · intro hin
      obtain ⟨k, hk⟩ := getElem?_of_mem hin
      rw [getElem?_drop, ← hat] at hk
      have hlt := (List.getElem?_eq_some_iff.mp hat).1
      have heq := (getElem?_inj hlt (nodup_names extra d)).mp hk.symm
      omega
    · intro hle
      refine mem_of_getElem? (i := position d n - p) ?_
      rw [getElem?_drop, Nat.add_sub_cancel' hle, hat]
  rw [List.Nodup.count ((nodup_names extra d).sublist (drop_sublist _ _))]
  by_cases hle : p ≤ position d n
  · simp [hmem, hle]
  · simp [hmem, hle]

/-! ## What a call does to it -/

/-- The call removes a name before `n`, which is the next to be returned. -/
def skips (n : Name) (d : Directory) (p : Nat) : Change → Bool
  | .create .. => false
  | .remove m => d.contains m && compare m n == .lt && position d n == p

/-- The call adds a name before `n`, which is the last that was returned. -/
def repeats (n : Name) (d : Directory) (p : Nat) : Change → Bool
  | .create m _ => !d.contains m && compare m n == .lt && position d n + 1 == p
  | .remove _ => false

theorem ahead_succ (p r : Nat) : (decide (p ≤ r + 1)).toNat = (decide (p ≤ r)).toNat + (r + 1 == p).toNat := by
  rcases Nat.lt_trichotomy p (r + 1) with h | rfl | h
  · simp [Nat.le_of_lt_succ h, Nat.le_of_lt h, Nat.ne_of_gt h]
  · simp
  · simp [Nat.not_le.mpr h, Nat.not_le.mpr (Nat.lt_of_succ_lt h), beq_eq_false_iff_ne.mpr (Nat.ne_of_lt h)]

theorem position_apply (n : Name) (d : Directory) (p : Nat) (c : Change) :
    (decide (p ≤ position (apply d c) n)).toNat + (skips n d p c).toNat =
      (decide (p ≤ position d n)).toNat + (repeats n d p c).toNat := by
  cases c with
  | create m idx =>
    cases hm : d.contains m with
    | true => simp [apply, skips, repeats, hm]
    | false =>
      have hnone : d.get? m = none := by simpa [OrdMap.contains] using hm
      have hpos : position (d.insert m idx) n = position d n + if compare m n == .lt then 1 else 0 := by
        rw [position, (insert_perm hnone idx).countP_eq, countP_cons, ← Nat.add_assoc]
        rfl
      rw [apply, hm, if_neg Bool.false_ne_true, skips, repeats, hm, hpos]
      split_ifs with hlt
      · rw [hlt, ahead_succ]
        rfl
      · simp [hlt]
  | remove m =>
    cases hm : d.get? m with
    | none =>
      have hsame : d.erase m = d := ext_get? fun k => by
        rw [get?_erase]
        split_ifs with hk
        · rw [hk, hm]
        · rfl
      simp [apply, skips, repeats, hsame, OrdMap.contains, hm]
    | some idx =>
      have hpos : position d n = position (d.erase m) n + if compare m n == .lt then 1 else 0 := by
        rw [position, (erase_perm hm).countP_eq, countP_cons, ← Nat.add_assoc]
        rfl
      rw [apply, skips, repeats, OrdMap.contains, hm, hpos]
      split_ifs with hlt
      · rw [hlt, ahead_succ]
        rfl
      · simp [hlt]

/-! ## A reader while the directory changes -/

inductive Event
  | change (c : Change)
  | read (capacity dirIno : Nat) (inodes : Nat → Option InodeInfo)

/-- What a reader gets that passes back the cookie of each read, up to the read that reports
the end; `none` if a read fails or the end is not reached. -/
def listing (w : Nat) (extra : List Virtual) (d : Directory) (p : Nat) : List Event → Option (List Listed)
  | [] => none
  | .change c :: es => listing w extra (apply d c) p es
  | .read capacity dirIno inodes :: es =>
    match getdents64 w extra d dirIno inodes capacity p with
    | .error _ => none
    | .ok (out, _, true) => if es.isEmpty then some (out.map (·.listed)) else none
    | .ok (out, cookie, false) => (listing w extra d cookie es).map (out.map (·.listed) ++ ·)

/-- The entry is there all along. -/
def Throughout (n : Name) (d : Directory) : List Event → Prop
  | [] => d.contains n
  | .change c :: es => d.contains n ∧ Throughout n (apply d c) es
  | .read .. :: es => Throughout n d es

/-- How many of the calls are `q`, given the directory and the reader's cookie. -/
def times (q : Directory → Nat → Change → Bool) (w : Nat) (extra : List Virtual) (d : Directory) (p : Nat) : List Event → Nat
  | [] => 0
  | .change c :: es => (q d p c).toNat + times q w extra (apply d c) p es
  | .read capacity dirIno inodes :: es =>
    match getdents64 w extra d dirIno inodes capacity p with
    | .error _ => 0
    | .ok (_, cookie, _) => times q w extra d cookie es

variable {es : List Event} {listed : List Listed}

theorem Throughout.start (h : Throughout n d es) : d.contains n := by
  induction es with
  | nil => exact h
  | cons e es ih =>
    cases e with
    | change c => exact h.1
    | read capacity dirIno inodes => exact ih h

/-- A read of a listing: the end of it, or what it takes and the rest. -/
theorem listing_read {capacity dirIno : Nat} (h : listing w extra d p (.read capacity dirIno inodes :: es) = some listed) :
    ∃ out c exhausted, getdents64 w extra d dirIno inodes capacity p = .ok (out, c, exhausted) ∧
      (names extra d).drop p = out.map (·.listed) ++ (names extra d).drop c ∧
      (es = [] ∧ (names extra d).drop c = [] ∧ listed = out.map (·.listed) ∨
        ∃ rest, listing w extra d c es = some rest ∧ listed = out.map (·.listed) ++ rest) := by
  rw [listing] at h
  split at h
  · cases h
  · rename_i out c hread
    obtain ⟨hsplit, hend⟩ := getdents64_spec hread
    split at h
    · rename_i hes
      cases h
      exact ⟨out, c, true, hread, hsplit, .inl ⟨isEmpty_iff.mp hes, hend rfl, rfl⟩⟩
    · cases h
  · rename_i out c hread
    obtain ⟨rest, hrest, rfl⟩ := Option.map_eq_some_iff.mp h
    exact ⟨out, c, false, hread, (getdents64_spec hread).1, .inr ⟨rest, hrest, rfl⟩⟩

theorem count_listing (hn : Throughout n d es) (h : listing w extra d p es = some listed) :
    listed.count (.entry n) + times (skips n) w extra d p es =
      ((names extra d).drop p).count (.entry n) + times (repeats n) w extra d p es := by
  induction es generalizing d p listed with
  | nil => cases h
  | cons e es ih =>
    cases e with
    | change c =>
      have hrest := ih hn.2 h
      have hmove := position_apply n d p c
      rw [count_names hn.2.start] at hrest
      rw [count_names hn.1, times, times]
      omega
    | read capacity dirIno inodes =>
      obtain ⟨out, c, exhausted, hread, hsplit, ⟨rfl, hend, rfl⟩ | ⟨rest, hrest, rfl⟩⟩ := listing_read h
      · simp [times, hsplit, hend]
      have hcount := ih hn hrest
      simp only [times, hread]
      rw [hsplit, count_append, count_append]
      omega

/-- Without changes the reader gets the listing as it is. -/
theorem listing_unchanged (hes : ∀ e ∈ es, ∀ c, e ≠ .change c) (h : listing w extra d p es = some listed) :
    listed = (names extra d).drop p := by
  induction es generalizing p listed with
  | nil => cases h
  | cons e es ih =>
    cases e with
    | change c => exact absurd rfl (hes _ mem_cons_self c)
    | read capacity dirIno inodes =>
      obtain ⟨out, c, exhausted, -, hsplit, ⟨-, hend, rfl⟩ | ⟨rest, hrest, rfl⟩⟩ := listing_read h
      · rw [hsplit, hend, append_nil]
      · rw [hsplit, ih (fun e he => hes e (mem_cons_of_mem _ he)) hrest]

/-- What a reader is promised: an entry that is there throughout is returned exactly once, and of
a directory that does not change `.`, `..`, every entry and every virtual entry is. -/
structure ExactlyOnce (extra : List Virtual) (d : Directory) (es : List Event) (listed : List Listed) : Prop where
  once : ∀ n, Throughout n d es → listed.count (.entry n) = 1
  unchanged : (∀ e ∈ es, ∀ c, e ≠ .change c) → listed = names extra d ∧ listed.Nodup

/-- The promise is kept precisely if every entry is pushed back as often as it is skipped. -/
theorem entries_once_iff {w : Nat} {extra : List Virtual} {d : Directory} {es : List Event} {listed : List Listed}
    (h : listing w extra d 0 es = some listed) : ExactlyOnce extra d es listed ↔
      ∀ n, Throughout n d es → times (skips n) w extra d 0 es = times (repeats n) w extra d 0 es := by
  have hcount : ∀ n, Throughout n d es →
      listed.count (.entry n) + times (skips n) w extra d 0 es = 1 + times (repeats n) w extra d 0 es := by
    intro n hn
    rw [count_listing hn h, count_names hn.start]
    rfl
  constructor
  · intro hone n hn
    have := hcount n hn
    have := hone.once n hn
    omega
  intro heven
  refine ⟨fun n hn => ?_, fun hes => ?_⟩
  · have := hcount n hn
    have := heven n hn
    omega
  · have heq : listed = names extra d := listing_unchanged hes h
    exact ⟨heq, heq ▸ nodup_names extra d⟩

/-- Three files, and a read into a buffer for three records. -/
def threeFiles : Directory := ((OrdMap.empty.insert [97] 1).insert [98] 2).insert [99] 3

def readThree : Event := .read 72 7 fun idx => some ⟨idx, 8⟩

/-- A file removed that the reader has not reached is not missed. -/
theorem entries_once_iff_threeFiles :
    let es := [readThree, .change (.remove [99]), readThree]
    listing 32 [] threeFiles 0 es = some [.self, .parent, .entry [97], .entry [98]] ∧
      ExactlyOnce [] threeFiles es [.self, .parent, .entry [97], .entry [98]] := by
  refine ⟨by decide, (entries_once_iff (w := 32) (by decide)).mpr fun n hn => ?_⟩
  have hn : n = [97] ∨ n = [98] ∨ n = [99] := by
    by_contra hnot
    rw [not_or, not_or] at hnot
    have hstart := hn.start
    simp only [threeFiles, OrdMap.contains, OrdMap.get?_insert, hnot, if_false] at hstart
    cases hstart
  rcases hn with rfl | rfl | rfl <;> decide

/-- A reader that removes each file it gets: `a` is gone when it goes on, and `b` is skipped. -/
theorem removed_behind_skips_next :
    let es := [readThree, .change (.remove [97]), readThree]
    listing 32 [] threeFiles 0 es = some [.self, .parent, .entry [97], .entry [99]] ∧ Throughout [98] threeFiles es := by
  refine ⟨by decide, ?_⟩
  simp only [readThree, Throughout]
  decide

end Kandelo.Rootfs

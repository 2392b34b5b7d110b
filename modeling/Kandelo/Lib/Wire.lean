/-
Binary records: writers into a buffer of fixed size, readers over the bytes, and the
calculus that puts round trips together.

`Emits` says when a writer succeeds and what it adds; `Reads` says, for the bytes of one
part, under which condition a reader gets past them and with what value, and that it
refuses them otherwise. `Carries` puts a writer and the reader of its bytes together, and
composes part by part: what a whole record comes back as, and when, is read off its
parts. Allocations a reader asks for are granted here: a refusal ends the reader and
needs no calculus.
-/
import Mathlib

namespace Wire

open List Nat

/-! ## Little-endian numbers -/

/-- The low `width` bytes of a number. -/
def leBytes : Nat → Nat → List UInt8
  | 0, _ => []
  | width + 1, n => UInt8.ofNat n :: leBytes width (n / 256)

def ofLe : List UInt8 → Nat
  | [] => 0
  | b :: bs => b.toNat + 256 * ofLe bs

@[simp] theorem length_leBytes (width n : Nat) : (leBytes width n).length = width := by
  induction width generalizing n with
  | zero => rfl
  | succ width ih => rw [leBytes, length_cons, ih]

theorem ofLe_leBytes (width n : Nat) : ofLe (leBytes width n) = n % 256 ^ width := by
  induction width generalizing n with
  | zero => rw [leBytes, ofLe, pow_zero, mod_one]
  | succ width ih =>
    rw [leBytes, ofLe, ih, UInt8.toNat_ofNat', pow_succ 256 width, mul_comm (256 ^ width), mod_mul]

/-! ## Writers -/

structure Writer where
  capacity : Nat
  out : List UInt8

/-- A writer, or a step of one. -/
abbrev Put (ε α : Type) := StateT Writer (Except ε) α

variable {ε : Type} {α β σ : Type}

/-- All of the bytes, or the buffer is full. -/
def write (full : ε) (bs : List UInt8) : Put ε Unit := fun w =>
  if w.capacity - w.out.length < bs.length then .error full else .ok ((), { w with out := w.out ++ bs })

/-- A check of the writer's own. -/
def check (refusal : ε) (ok : Bool) : Put ε Unit := fun w => if ok then .ok ((), w) else .error refusal

def putEach (f : α → Put ε Unit) : List α → Put ε Unit
  | [] => pure ()
  | x :: xs => do
    f x
    putEach f xs

/-- The writer succeeds exactly if its checks do and the bytes fit, and adds them. -/
def Emits (p : Put ε Unit) (checks : Prop) (bs : List UInt8) : Prop :=
  ∀ w w', w.out.length ≤ w.capacity → (p w = .ok ((), w') ↔
    checks ∧ w.out.length + bs.length ≤ w.capacity ∧ w' = { w with out := w.out ++ bs })

theorem emits_write (full : ε) (bs : List UInt8) : Emits (write full bs) True bs := by
  intro w w' hw
  simp only [write]
  split_ifs with h
  · exact ⟨nofun, fun h' => absurd h'.2.1 (by omega)⟩
  · rw [Except.ok.injEq, Prod.mk.injEq]
    exact ⟨fun heq => ⟨trivial, by omega, heq.2.symm⟩, fun heq => ⟨rfl, heq.2.2.symm⟩⟩

theorem emits_check (refusal : ε) (ok : Bool) : Emits (check refusal ok) (ok) [] := by
  intro w w' hw
  simp only [check, length_nil, add_zero, append_nil]
  cases ok with
  | false => exact ⟨nofun, fun h => nomatch h.1⟩
  | true =>
    rw [if_pos rfl, Except.ok.injEq, Prod.mk.injEq]
    exact ⟨fun heq => ⟨rfl, hw, heq.2.symm⟩, fun heq => ⟨rfl, heq.2.2.symm⟩⟩

theorem emits_pure : Emits (pure () : Put ε Unit) True [] := by
  intro w w' hw
  rw [length_nil, add_zero, append_nil]
  change Except.ok ((), w) = .ok ((), w') ↔ _
  rw [Except.ok.injEq, Prod.mk.injEq]
  exact ⟨fun h => ⟨trivial, hw, h.2.symm⟩, fun h => ⟨rfl, h.2.2.symm⟩⟩

variable {bs : List UInt8} {p : Put ε Unit} {c : Prop}

theorem Emits.congr {c' : Prop} (h : Emits p c bs) (hc : c ↔ c') : Emits p c' bs := by
  intro w w' hw
  rw [h w w' hw, hc]

variable {cs : List UInt8} {q : Unit → Put ε Unit} {d : Prop}

/-- One writer after another. -/
theorem Emits.seq (hp : Emits p c bs) (hq : Emits (q ()) d cs) : Emits (p >>= q) (c ∧ d) (bs ++ cs) := by
  intro w w' hw
  have hbind : (p >>= q) w = match p w with
      | .error e => .error e
      | .ok ((), w₁) => q () w₁ := by
    change (p w).bind (fun x => q x.1 x.2) = _
    cases p w <;> rfl
  rw [hbind, length_append]
  constructor
  · intro h
    split at h
    · cases h
    rename_i w₁ h1
    obtain ⟨hc, hfit, rfl⟩ := (hp w w₁ hw).mp h1
    obtain ⟨hd, hfit', rfl⟩ := (hq _ w' (by rw [length_append]; exact hfit)).mp h
    simp only [length_append] at hfit'
    exact ⟨⟨hc, hd⟩, by omega, by rw [append_assoc]⟩
  · rintro ⟨⟨hc, hd⟩, hfit, rfl⟩
    rw [(hp w { w with out := w.out ++ bs } hw).mpr ⟨hc, by omega, rfl⟩]
    have hfit' : (w.out ++ bs).length + cs.length ≤ w.capacity := by
      rw [length_append]
      omega
    exact (hq _ _ (le_of_add_right_le hfit')).mpr ⟨hd, hfit', by rw [append_assoc]⟩

/-- What a writer adds is one list of bytes. -/
theorem Emits.unique (hb : Emits p c bs) (hc : Emits p d cs) (h : c) : bs = cs := by
  have hrun := (hb ⟨bs.length, []⟩ ⟨bs.length, bs⟩ (zero_le _)).mpr ⟨h, le_of_eq (zero_add _), rfl⟩
  exact congrArg Writer.out ((hc _ _ (zero_le _)).mp hrun).2.2

/-- The writer makes no more than `n` bytes, and only lacks room. -/
def Fits (n : Nat) (p : Put ε Unit) : Prop := ∃ bs, Emits p True bs ∧ bs.length ≤ n

variable {n : Nat}

theorem fits_write {full : ε} (h : bs.length ≤ n) : Fits n (write full bs) := ⟨bs, emits_write full bs, h⟩

variable {refusal : ε} {ok : Bool}

theorem fits_check (h : ok) (n : Nat) : Fits n (check refusal ok) :=
  ⟨[], (emits_check refusal ok).congr (iff_of_true h trivial), zero_le n⟩

theorem Fits.le {m : Nat} (hp : Fits m p) (h : m ≤ n) : Fits n p := hp.imp fun _ hbs => ⟨hbs.1, hbs.2.trans h⟩

/-- The rest has what the first writer leaves of the bound. -/
theorem Fits.next {m : Nat} (hp : Fits m p) (h : m ≤ n) (hq : Fits (n - m) (q ())) : Fits n (p >>= q) := by
  obtain ⟨bs, hbs, hm⟩ := hp
  obtain ⟨cs, hcs, hn⟩ := hq
  refine ⟨bs ++ cs, (hbs.seq hcs).congr and_self_iff, ?_⟩
  rw [length_append]
  omega

theorem fits_each {f : α → Put ε Unit} {xs : List α} (h : ∀ x ∈ xs, Fits n (f x)) : Fits (n * xs.length) (putEach f xs) := by
  induction xs with
  | nil => exact ⟨[], emits_pure, zero_le _⟩
  | cons x xs ih =>
    rw [length_cons, mul_succ]
    refine (h x mem_cons_self).next (le_add_left _ _) ?_
    rw [Nat.add_sub_cancel]
    exact ih fun y hy => h y (mem_cons_of_mem x hy)

/-- The writer stops, whatever there is room for. -/
def Stops (p : Put ε Unit) : Prop := ∀ w, ∃ e, p w = .error e

theorem Stops.after (h : Stops (q ())) : Stops (p >>= q) := by
  intro w
  change ∃ e, (p w).bind (fun x => q x.1 x.2) = .error e
  cases p w with
  | error e => exact ⟨e, rfl⟩
  | ok x => exact h x.2

/-! ## Readers -/

/-- The bytes left, and how the allocations still to come are answered. -/
structure Reader where
  buf : List UInt8
  answers : Nat → Bool

abbrev Get (ε α : Type) := StateT Reader (Except ε) α

/-- The next `n` bytes. -/
def take (short : ε) (n : Nat) : Get ε (List UInt8) := fun r =>
  if r.buf.length < n then .error short else .ok (r.buf.take n, { r with buf := r.buf.drop n })

def readNat (short : ε) (width : Nat) : Get ε Nat := do
  let bs ← take short width
  return ofLe bs

def refuse (e : ε) : Get ε α := fun _ => .error e

/-- A check of what was read. -/
def require (refusal : ε) (ok : Bool) : Get ε Unit := fun r => if ok then .ok ((), r) else .error refusal

/-- At least `n` bytes are left. -/
def ensure (refusal : ε) (n : Nat) : Get ε Unit := fun r => if r.buf.length < n then .error refusal else .ok ((), r)

def allocate (refusal : ε) : Get ε Unit := fun r =>
  if r.answers 0 then .ok ((), { r with answers := fun n => r.answers (n + 1) }) else .error refusal

/-- `n` readings, one after another. -/
def readMany (g : Get ε α) : Nat → Get ε (List α)
  | 0 => pure []
  | n + 1 => do
    let x ← g
    let xs ← readMany g n
    return x :: xs

/-- `n` steps that change a state. -/
def loop (step : σ → Get ε σ) : Nat → σ → Get ε σ
  | 0, s => pure s
  | n + 1, s => do
    let s' ← step s
    loop step n s'

def granted : Nat → Bool := fun _ => true

/-- On these bytes, whatever follows, the reader gets past them with `a`. -/
def Decodes (g : Get ε α) (bs : List UInt8) (a : α) : Prop := ∀ rest, g ⟨bs ++ rest, granted⟩ = .ok (a, ⟨rest, granted⟩)

def Fails (g : Get ε α) (bs : List UInt8) : Prop := ∀ rest, ∃ e, g ⟨bs ++ rest, granted⟩ = .error e

/-- The reader gets past the bytes exactly if `c`. -/
structure Reads (g : Get ε α) (bs : List UInt8) (c : Prop) (a : α) : Prop where
  ok : c → Decodes g bs a
  bad : ¬c → Fails g bs

variable {g : Get ε α} {a : α}

theorem Decodes.reads (h : Decodes g bs a) : Reads g bs True a := ⟨fun _ => h, fun hn => absurd trivial hn⟩

theorem Reads.congr {c' : Prop} (h : Reads g bs c a) (hc : c ↔ c') :
    Reads g bs c' a := ⟨fun h' => h.ok (hc.mpr h'), fun h' => h.bad fun hc' => h' (hc.mp hc')⟩

theorem bind_apply (g : Get ε α) (f : α → Get ε β) (r : Reader) : (g >>= f) r = match g r with
      | .error e => .error e
      | .ok (a, r') => f a r' := by
  change (g r).bind (fun x => f x.1 x.2) = _
  cases g r <;> rfl

/-- One reader after another. -/
theorem Reads.bind {f : α → Get ε β} {b : β}
    (hg : Reads g bs c a) (hf : Reads (f a) cs d b) : Reads (g >>= f) (bs ++ cs) (c ∧ d) b := by
  constructor
  · intro h rest
    rw [bind_apply, append_assoc, hg.ok h.1 (cs ++ rest)]
    exact hf.ok h.2 rest
  intro h rest
  rw [bind_apply, append_assoc]
  by_cases hc : c
  · rw [hg.ok hc (cs ++ rest)]
    exact hf.bad (fun hd => h ⟨hc, hd⟩) rest
  obtain ⟨e, he⟩ := hg.bad hc (cs ++ rest)
  rw [he]
  exact ⟨e, rfl⟩

/-- A reader that gets past its bytes hands its value on: readers run symbolically. -/
theorem Decodes.run (h : Decodes g bs a) (f : α → Get ε β) (rest : List UInt8) :
    (g >>= f) ⟨bs ++ rest, granted⟩ = f a ⟨rest, granted⟩ := by
  rw [bind_apply, h rest]

theorem Decodes.bind {f : α → Get ε β} {b : β} (hg : Decodes g bs a) (hf : Reads (f a) cs d b) : Reads (g >>= f) (bs ++ cs) d b :=
  (hg.reads.bind hf).congr (iff_of_eq (true_and d))

@[simp] theorem require_bind_apply (refusal : ε) (ok : Bool) (f : Unit → Get ε β) (r : Reader) :
    (require refusal ok >>= f) r = if ok then f () r else .error refusal := by
  cases ok <;> rfl

theorem reads_pure (a : α) : Reads (pure a : Get ε α) [] True a := ⟨fun _ _ => rfl, fun h => absurd trivial h⟩

theorem reads_require (refusal : ε) (ok : Bool) : Reads (require refusal ok) [] (ok) () := by
  constructor
  · intro h rest
    simp [require, h]
  · intro h rest
    exact ⟨refusal, by simp [require, h]⟩

theorem decodes_allocate (refusal : ε) : Decodes (allocate refusal) [] () := fun _ => rfl

theorem decodes_take (short : ε) (bs : List UInt8) : Decodes (take short bs.length) bs bs := by
  intro rest
  simp only [take, length_append, take_left, drop_left]
  rw [if_neg (by omega)]

theorem decodes_readNat (short : ε) (width n : Nat) : Decodes (readNat short width) (leBytes width n) (n % 256 ^ width) := by
  have h := decodes_take short (leBytes width n)
  rw [length_leBytes] at h
  intro rest
  rw [readNat, bind_apply, h rest]
  simp only [ofLe_leBytes]
  rfl

/-- The bytes that follow are there. -/
theorem Reads.ensure (h : Reads g bs c a) (hn : c → n ≤ bs.length) : Reads (Wire.ensure refusal n >>= fun _ => g) bs c a := by
  constructor
  · intro hc rest
    have hlen := hn hc
    rw [bind_apply, Wire.ensure, length_append, if_neg (by omega)]
    exact h.ok hc rest
  intro hc rest
  rw [bind_apply, Wire.ensure]
  split
  · rename_i e he
    exact ⟨e, rfl⟩
  rename_i u r' hr
  split at hr
  · cases hr
  · cases hr
    exact h.bad hc rest

/-! ## Writer and reader together -/

/-- Under its checks, which the writer makes, the part is written, in at least `least` bytes;
the reader of those bytes gets past them exactly if `holds`, with `a`. -/
def Carries (least : Nat) (w : Put ε Unit) (g : Get ε α) (checks holds : Prop) (a : α) : Prop :=
  ∃ bs : List UInt8, least ≤ bs.length ∧ Emits w checks bs ∧ (checks → Reads g bs holds a)

namespace Carries

variable {n m : Nat} {w : Put ε Unit} {w' : Unit → Put ε Unit} {g : Get ε α} {f : α → Get ε β} {c c' d d' : Prop} {a : α} {b : β}

theorem done (a : α) : Carries 0 (pure () : Put ε Unit) (pure a : Get ε α) True True a :=
  ⟨[], le_refl 0, emits_pure, fun _ => reads_pure a⟩

theorem congr (h : Carries n w g c d a) (hc : c ↔ c') (hd : c → (d ↔ d')) : Carries n w g c' d' a := by
  obtain ⟨bs, hlen, hw, hg⟩ := h
  exact ⟨bs, hlen, hw.congr hc, fun h' => (hg (hc.mpr h')).congr (hd (hc.mpr h'))⟩

theorem least (h : Carries n w g c d a) (hm : m ≤ n) : Carries m w g c d a := by
  obtain ⟨bs, hlen, h⟩ := h
  exact ⟨bs, le_trans hm hlen, h⟩

/-- One part after another. -/
theorem seq (h : Carries n w g c d a) (h' : Carries (m - n) (w' ()) (f a) c' d' b) :
    Carries m (w >>= w') (g >>= f) (c ∧ c') (d ∧ d') b := by
  obtain ⟨bs, hlen, hw, hg⟩ := h
  obtain ⟨cs, hlen', hw', hf⟩ := h'
  refine ⟨bs ++ cs, ?_, hw.seq hw', fun hc => (hg hc.1).bind (hf hc.2)⟩
  rw [length_append]
  omega

/-- After a part that is always written. -/
theorem after (h : Carries n w g True d a) (h' : Carries (m - n) (w' ()) (f a) c d' b) : Carries m (w >>= w') (g >>= f) c (d ∧ d') b :=
  (h.seq h').congr (iff_of_eq (true_and c)) fun _ => Iff.rfl

/-- After a part that is always written and always read. -/
theorem next (h : Carries n w g True True a) (h' : Carries (m - n) (w' ()) (f a) c d b) : Carries m (w >>= w') (g >>= f) c d b :=
  (h.after h').congr Iff.rfl fun _ => iff_of_eq (true_and d)

/-- What the reader does after the last byte. -/
theorem tail {e : Prop} (h : Carries n w g c d a) (h' : Carries 0 (pure ()) (f a) True e b) : Carries n w (g >>= f) c (d ∧ e) b := by
  obtain ⟨bs, hlen, hw, hg⟩ := h
  obtain ⟨cs, _, hpure, hf⟩ := h'
  have hcs : cs = [] := by
    have hstart : (pure () : Put ε Unit) ⟨cs.length, []⟩ = .ok ((), ⟨cs.length, []⟩) := rfl
    have hout := congrArg Writer.out ((hpure ⟨cs.length, []⟩ _ (zero_le _)).mp hstart).2.2
    exact hout.symm
  subst hcs
  refine ⟨bs, hlen, hw, fun hc => ?_⟩
  have hr := (hg hc).bind (hf trivial)
  rwa [append_nil] at hr

theorem finish (h : Carries n w g c d a) (h' : Carries 0 (pure ()) (f a) True True b) : Carries n w (g >>= f) c d b :=
  (h.tail h').congr Iff.rfl fun _ => iff_of_eq (and_true d)

theorem last (h : Carries n w g c d a) (f : α → β) : Carries n w (g >>= fun x => pure (f x)) c d (f a) := h.finish (done (f a))

/-- After a check of the writer's, on which the rest may rely. -/
theorem check (h : ok → Carries n (w' ()) g c d a) : Carries n (Wire.check refusal ok >>= w') g (ok ∧ c) d a := by
  cases ok with
  | false =>
    refine ⟨List.replicate n 0, by rw [length_replicate], fun w _ _ => ⟨fun h' => ?_, fun h' => nomatch h'.1.1⟩, fun h' => nomatch h'.1⟩
    cases h'
  | true =>
    obtain ⟨bs, hlen, hw, hg⟩ := h rfl
    exact ⟨[] ++ bs, hlen, (emits_check refusal true).seq hw, fun hc => hg hc.2⟩

variable {f : Unit → Get ε β}

theorem require (h : Carries n w (f ()) c d b) : Carries n w (Wire.require refusal ok >>= f) c (ok ∧ d) b := by
  obtain ⟨bs, hlen, hw, hg⟩ := h
  exact ⟨bs, hlen, hw, fun hc => (reads_require refusal ok).bind (hg hc)⟩

/-- A check of the reader's that what was written passes. -/
theorem required (h : Carries n w (f ()) c d b) (hok : c → ok) : Carries n w (Wire.require refusal ok >>= f) c d b :=
  h.require.congr Iff.rfl fun hc => and_iff_right (hok hc)

theorem allocate (h : Carries n w (f ()) c d b) : Carries n w (Wire.allocate refusal >>= f) c d b := by
  obtain ⟨bs, hlen, hw, hg⟩ := h
  exact ⟨bs, hlen, hw, fun hc => (decodes_allocate refusal).bind (hg hc)⟩

theorem ensure {k : Nat} (h : Carries n w (f ()) c d b) (hk : k ≤ n) : Carries n w (Wire.ensure refusal k >>= f) c d b := by
  obtain ⟨bs, hlen, hw, hg⟩ := h
  exact ⟨bs, hlen, hw, fun hc => (hg hc).ensure fun _ => le_trans hk hlen⟩

variable {γ : Type} {put : γ → Put ε Unit} {cs ds : γ → Prop} {xs : List γ}

theorem many {dec : γ → α} (h : ∀ x ∈ xs, Carries n (put x) g (cs x) (ds x) (dec x)) :
    Carries (xs.length * n) (putEach put xs) (readMany g xs.length) (∀ x ∈ xs, cs x) (∀ x ∈ xs, ds x) (xs.map dec) := by
  induction xs with
  | nil => exact ((done []).congr ⟨fun _ => nofun, fun _ => trivial⟩ fun _ => ⟨fun _ => nofun, fun _ => trivial⟩).least (by simp)
  | cons x xs ih =>
    have hrest := (ih fun y hy => h y (mem_cons_of_mem x hy)).last (dec x :: ·)
    have hlen : (x :: xs).length * n - n = xs.length * n := by rw [length_cons, Nat.succ_mul, Nat.add_sub_cancel]
    rw [← hlen] at hrest
    refine ((h x mem_cons_self).seq hrest).congr ?_ fun _ => ?_
    · rw [forall_mem_cons]
    · rw [forall_mem_cons]

theorem written (h : Carries n w g (∀ x ∈ xs, True) d a) : Carries n w g True d a :=
  h.congr ⟨fun _ => trivial, fun _ _ _ => trivial⟩ fun _ => Iff.rfl

theorem read (h : Carries n w g c (∀ x ∈ xs, True) a) : Carries n w g c True a :=
  h.congr Iff.rfl fun _ => ⟨fun _ => trivial, fun _ _ _ => trivial⟩

/-- Parts that come back as they are. -/
theorem same {put : α → Put ε Unit} {cs : α → Prop} {xs : List α} (h : ∀ x ∈ xs, Carries n (put x) g (cs x) True x) :
    Carries (xs.length * n) (putEach put xs) (readMany g xs.length) (∀ x ∈ xs, cs x) True xs := by
  have hmany := many h
  rw [map_id'] at hmany
  exact hmany.read

/-- A loop; `I` is what its state and the parts that are left keep to. -/
theorem loop {step : σ → Get ε σ} (upd : σ → γ → σ) (xs : List γ) {I : σ → List γ → Prop} {s : σ}
    (h : ∀ s x ys, I s (x :: ys) → Carries n (put x) (step s) (cs x) (ds x) (upd s x) ∧ I (upd s x) ys) (hs : I s xs) :
    Carries (xs.length * n) (putEach put xs) (Wire.loop step xs.length s) (∀ x ∈ xs, cs x) (∀ x ∈ xs, ds x) (xs.foldl upd s) := by
  induction xs generalizing s with
  | nil => exact ((done s).congr ⟨fun _ => nofun, fun _ => trivial⟩ fun _ => ⟨fun _ => nofun, fun _ => trivial⟩).least (by simp)
  | cons x xs ih =>
    obtain ⟨hx, hkeep⟩ := h s x xs hs
    have hlen : xs.length * n = (x :: xs).length * n - n := by rw [length_cons, Nat.succ_mul, Nat.add_sub_cancel]
    have hrest := ih hkeep
    rw [hlen] at hrest
    refine (hx.seq hrest).congr ?_ fun _ => ?_
    · rw [forall_mem_cons]
    · rw [forall_mem_cons]

end Carries

end Wire

/-
State machines driven by calls. A call answers and moves the state; what the
environment decides for it (an allocator's answer, a clock) is part of the
call. `Reachable` is every state some sequence of calls leads to, and
`Reachable.invariant` is the one induction every safety result here uses.
`run_conserves` is the same for accounts: what every call keeps in balance a
whole run does.
-/
import Mathlib

namespace Machine

variable {S C A : Type*}

/-- States reached from one `init` holds of by any sequence of calls. -/
inductive Reachable (init : S → Prop) (call : S → C → A × S) : S → Prop
  | start {s : S} : init s → Reachable init call s
  | next {s : S} (c : C) : Reachable init call s → Reachable init call (call s c).2

variable {call : S → C → A × S} {I init : S → Prop} {s : S}

/-- What holds at the start and is kept by every call holds in every
reachable state. -/
theorem Reachable.invariant (hstart : ∀ s, init s → I s) (hstep : ∀ s c, I s → I (call s c).2) (h : Reachable init call s) : I s := by
  induction h with
  | start h => exact hstart _ h
  | next c _ ih => exact hstep _ c ih

/-- States reached by calls that keep to what a caller promises. -/
inductive ReachableWhen (init : S → Prop) (ok : S → C → Prop) (call : S → C → A × S) : S → Prop
  | start {s : S} : init s → ReachableWhen init ok call s
  | next {s : S} (c : C) : ReachableWhen init ok call s → ok s c → ReachableWhen init ok call (call s c).2

theorem ReachableWhen.invariant {ok : S → C → Prop} (hstart : ∀ s, init s → I s) (hstep : ∀ s c, ok s c → I s → I (call s c).2)
    (h : ReachableWhen init ok call s) : I s := by
  induction h with
  | start h => exact hstart _ h
  | next c _ hok ih => exact hstep _ c hok ih

/-- The state after a sequence of calls. -/
def run (call : S → C → A × S) (s : S) : List C → S
  | [] => s
  | c :: cs => run call (call s c).2 cs

theorem Reachable.run : ∀ {s : S} (cs : List C), Reachable init call s → Reachable init call (Machine.run call s cs)
  | _, [], h => h
  | _, c :: cs, h => .run cs (h.next c)

/-- The calls of a run, each with the state it was made in. -/
def steps (call : S → C → A × S) (s : S) : List C → List (S × C)
  | [] => []
  | c :: cs => (s, c) :: steps call (call s c).2 cs

/-- What the calls of a run moved, in order. -/
def moved {α : Type*} (call : S → C → A × S) (f : S → C → List α) (s : S) (cs : List C) : List α :=
  (steps call s cs).flatMap fun x => f x.1 x.2

variable {α : Type*}

@[simp] theorem moved_nil (call : S → C → A × S) (f : S → C → List α) (s : S) : moved call f s [] = [] := rfl

@[simp] theorem moved_cons (call : S → C → A × S) (f : S → C → List α) (s : S) (c : C) (cs : List C) :
    moved call f s (c :: cs) = f s c ++ moved call f (call s c).2 cs := rfl

theorem run_invariant (hstep : ∀ s c, I s → I (call s c).2) : ∀ {s : S} (cs : List C), I s → I (run call s cs)
  | _, [], h => h
  | s, c :: cs, h => run_invariant hstep cs (hstep s c h)

theorem run_keeps (ok : S → C → Prop) (hinv : ∀ s c, ok s c → I s → I (call s c).2) (cs : List C) (hs : I s)
    (hok : ∀ x ∈ steps call s cs, ok x.1 x.2) : I (run call s cs) := by
  induction cs generalizing s with
  | nil => exact hs
  | cons c cs ih => exact ih (hinv s c (hok _ List.mem_cons_self) hs) fun x hx => hok x (List.mem_cons_of_mem _ hx)

/-- What one kind of call brings about and no call undoes holds after a run that
has such a call in it. -/
theorem run_establishes {P : S → Prop} (ok event : S → C → Prop)
    (hinv : ∀ s c, ok s c → I s → I (call s c).2) (hkeep : ∀ s c, ok s c → I s → P s → P (call s c).2)
    (hevent : ∀ s c, ok s c → I s → event s c → P (call s c).2) (cs : List C) (hs : I s)
    (hok : ∀ x ∈ steps call s cs, ok x.1 x.2) (h : P s ∨ ∃ x ∈ steps call s cs, event x.1 x.2) : P (run call s cs) := by
  induction cs generalizing s with
  | nil =>
    rcases h with h | ⟨x, hx, _⟩
    · exact h
    · cases hx
  | cons c cs ih =>
    have hc := hok _ List.mem_cons_self
    refine ih (hinv s c hc hs) (fun x hx => hok x (List.mem_cons_of_mem _ hx)) ?_
    rcases h with h | ⟨x, hx, hev⟩
    · exact .inl (hkeep s c hc hs h)
    rcases List.mem_cons.mp hx with rfl | hx
    · exact .inl (hevent s c hc hs hev)
    · exact .inr ⟨x, hx, hev⟩

/-- Where `I` is left exactly by the calls that are `bad`, it holds all along a run
exactly if no call of the run is. `J` is what every call keeps from where `I` holds. -/
theorem run_always_iff {J : S → Prop} (bad : S → C → Prop) (hkeep : ∀ s c, J s → I s → J (call s c).2)
    (hstep : ∀ s c, J s → I s → (I (call s c).2 ↔ ¬bad s c)) (hj : J s) (hs : I s) (cs : List C) :
    (∀ k, I (run call s (cs.take k))) ↔ ∀ x ∈ steps call s cs, ¬bad x.1 x.2 := by
  induction cs generalizing s with
  | nil =>
    constructor
    · exact nofun
    intro _ k
    rw [List.take_nil]
    exact hs
  | cons c cs ih =>
    constructor
    · intro h x hx
      have hnext : I (call s c).2 := h 1
      rcases List.mem_cons.mp hx with rfl | hx
      · exact (hstep s c hj hs).mp hnext
      · exact (ih (hkeep s c hj hs) hnext).mp (fun k => h (k + 1)) x hx
    intro h k
    have hnext := (hstep s c hj hs).mpr (h _ List.mem_cons_self)
    cases k with
    | zero => exact hs
    | succ k => exact (ih (hkeep s c hj hs) hnext).mpr (fun x hx => h x (List.mem_cons_of_mem _ hx)) k

/-- Conservation: if at every call what is present and what enters is what
leaves and what is present next, the same holds of a whole run. -/
theorem run_conserves (present : S → List α) (entered left : S → C → List α) (hinv : ∀ s c, I s → I (call s c).2)
    (hstep : ∀ s c, I s → (present s ++ entered s c).Perm (left s c ++ present (call s c).2)) :
    ∀ {s : S} (cs : List C), I s → (present s ++ moved call entered s cs).Perm (moved call left s cs ++ present (run call s cs))
  | s, [], _ => by simp [run]
  | s, c :: cs, h => by
    have hfirst := hstep s c h
    have hrest := run_conserves present entered left hinv hstep cs (hinv s c h)
    simp only [moved_cons, run]
    calc present s ++ (entered s c ++ moved call entered (call s c).2 cs)
        = present s ++ entered s c ++ moved call entered (call s c).2 cs := (List.append_assoc ..).symm
      _ |>.Perm (left s c ++ present (call s c).2 ++ moved call entered (call s c).2 cs) := hfirst.append_right _
      _ = left s c ++ (present (call s c).2 ++ moved call entered (call s c).2 cs) := List.append_assoc ..
      _ |>.Perm (left s c ++ (moved call left (call s c).2 cs ++ present (run call (call s c).2 cs))) := hrest.append_left _
      _ = left s c ++ moved call left (call s c).2 cs ++ present (run call (call s c).2 cs) := (List.append_assoc ..).symm

end Machine

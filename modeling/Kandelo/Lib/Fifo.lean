/-
Queues that hand out in order. `Moves` is what calls put in, hand out and throw
away; `Balanced` says a queue's account is right: nothing is lost or made up,
and what is handed out and what stays is in the order it came. One call's
balance gives a run's (`ledger_balanced`), and where nothing was thrown away the
queue is first in, first out (`Balanced.fifo`).
-/
import Kandelo.Lib.Machine

namespace Fifo

variable {α : Type*}

/-- What calls accept, hand out and discard. -/
structure Moves (α : Type*) where
  accepted : List α
  delivered : List α
  discarded : List α

def Moves.none : Moves α := ⟨[], [], []⟩

def Moves.append (a b : Moves α) : Moves α := ⟨a.accepted ++ b.accepted, a.delivered ++ b.delivered, a.discarded ++ b.discarded⟩

/-- What leaves a queue and what stays in it, against what was in it and what
came: delivered first and in order, nothing lost or made up. -/
structure Balanced (before after : List α) (m : Moves α) : Prop where
  order : (m.delivered ++ after).Sublist (before ++ m.accepted)
  conserved : (m.delivered ++ m.discarded ++ after).Perm (before ++ m.accepted)

theorem Balanced.refl (q : List α) : Balanced q q Moves.none := by
  constructor <;> simp [Moves.none]

theorem Balanced.trans {a b c : List α} {m n : Moves α} (h1 : Balanced a b m) (h2 : Balanced b c n) : Balanced a c (m.append n) := by
  constructor
  · have h := h2.order.append_left m.delivered |>.trans
      (by simpa using h1.order.append_right n.accepted : (m.delivered ++ (b ++ n.accepted)).Sublist _)
    simpa [Moves.append] using h
  have e₁ : (m.delivered ++ n.delivered ++ (m.discarded ++ n.discarded) ++ c).Perm
      (m.delivered ++ m.discarded ++ (n.delivered ++ n.discarded ++ c)) := by
    simp only [List.append_assoc]
    exact .append_left _ (List.perm_append_comm_assoc _ _ _)
  have e₂ := (h2.conserved.append_left (m.delivered ++ m.discarded)).trans
    (by simpa using h1.conserved.append_right n.accepted :
      (m.delivered ++ m.discarded ++ (b ++ n.accepted)).Perm _)
  simpa [Moves.append] using e₁.trans e₂

/-- Without a discard, everything leaves in the order it came. -/
theorem Balanced.fifo {before after : List α} {m : Moves α} (h : Balanced before after m)
    (hno : m.discarded = []) : m.delivered ++ after = before ++ m.accepted := by
  refine h.order.eq_of_length ?_
  have := h.conserved.length_eq
  simpa [hno] using this

variable {S C A : Type*}

/-- The moves of a run. -/
def ledger (call : S → C → A × S) (moves : S → C → Moves α) : S → List C → Moves α
  | _, [] => Moves.none
  | s, c :: cs => (moves s c).append (ledger call moves (call s c).2 cs)

theorem ledger_balanced {call : S → C → A × S} {I : S → Prop} (queue : S → List α) (moves : S → C → Moves α)
    (hinv : ∀ s c, I s → I (call s c).2) (hstep : ∀ s c, I s → Balanced (queue s) (queue (call s c).2) (moves s c)) :
    ∀ {s : S} (cs : List C), I s → Balanced (queue s) (queue (Machine.run call s cs)) (ledger call moves s cs)
  | _, [], _ => .refl _
  | s, c :: cs, h => (hstep s c h).trans (ledger_balanced queue moves hinv hstep cs (hinv s c h))

end Fifo

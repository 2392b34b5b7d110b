/-
Code that may fail and changes a state: on an error the changes made so far stay. This is what
`&mut self` methods with the error operator do.

`Keeps` is an invariant that holds however the code ends. It goes through the code part by
part: `pure`, `bind`, `throw`, a read or a change of the state, and a handler.
-/
import Mathlib

/-- A computation over a state, whose changes are kept when it fails. -/
def Fallible (σ ε α : Type) := σ → Except ε α × σ

namespace Fallible

variable {σ ε α β : Type}

instance : Monad (Fallible σ ε) where
  pure a := fun s => (.ok a, s)
  bind m f := fun s =>
    match m s with
    | (.ok a, s') => f a s'
    | (.error e, s') => (.error e, s')

def throw (e : ε) : Fallible σ ε α := fun s => (.error e, s)

def get : Fallible σ ε σ := fun s => (.ok s, s)

def modify (f : σ → σ) : Fallible σ ε Unit := fun s => (.ok (), f s)

/-- A part that fails is followed by what `handler` does. -/
def onError (m : Fallible σ ε α) (handler : ε → Fallible σ ε α) : Fallible σ ε α := fun s =>
  match m s with
  | (.ok a, s') => (.ok a, s')
  | (.error e, s') => handler e s'

def lift (r : Except ε α) : Fallible σ ε α := fun s => (r, s)

/-- A part that is run on a condition. -/
def when (c : Bool) (m : Fallible σ ε Unit) : Fallible σ ε Unit := if c then m else pure ()

@[simp] theorem pure_apply (a : α) (s : σ) : (pure a : Fallible σ ε α) s = (.ok a, s) := rfl
@[simp] theorem get_apply (s : σ) : (get : Fallible σ ε σ) s = (.ok s, s) := rfl
@[simp] theorem modify_apply (f : σ → σ) (s : σ) : (modify f : Fallible σ ε Unit) s = (.ok (), f s) := rfl

theorem bind_apply (m : Fallible σ ε α) (f : α → Fallible σ ε β) (s : σ) : (m >>= f) s = match m s with
      | (.ok a, s') => f a s'
      | (.error e, s') => (.error e, s') := rfl

variable {m : Fallible σ ε α} {f : α → Fallible σ ε β} {s' s : σ}

/-- A sequence that ends well: each part did. -/
theorem bind_ok {b : β} (h : (m >>= f) s = (.ok b, s')) : ∃ a s₁, m s = (.ok a, s₁) ∧ f a s₁ = (.ok b, s') := by
  rw [bind_apply] at h
  match hm : m s with
  | (.ok a, s₁) =>
    rw [hm] at h
    exact ⟨a, s₁, rfl, h⟩
  | (.error e, s₁) =>
    rw [hm] at h
    cases h

/-! ## Invariants -/

/-- `I` holds after the code if it held before, however it ends. -/
def Keeps (I : σ → Prop) (m : Fallible σ ε α) : Prop := ∀ s, I s → I (m s).2

variable {I : σ → Prop}

theorem Keeps.pure (a : α) : Keeps I (pure a : Fallible σ ε α) := fun _ h => h

theorem Keeps.throw (e : ε) : Keeps I (throw e : Fallible σ ε α) := fun _ h => h

theorem keeps_get : Keeps I (get : Fallible σ ε σ) := fun _ h => h

theorem Keeps.bind (hm : Keeps I m) (hf : ∀ a, Keeps I (f a)) : Keeps I (m >>= f) := by
  intro s hs
  have hnext := hm s hs
  rw [bind_apply]
  match hr : m s, hnext with
  | (.ok a, s'), hnext => exact hf a s' hnext
  | (.error e, s'), hnext => exact hnext

theorem Keeps.onError {handler : ε → Fallible σ ε α} (hm : Keeps I m) (hh : ∀ e, Keeps I (handler e)) :
    Keeps I (m.onError handler) := by
  intro s hs
  have hnext := hm s hs
  rw [Fallible.onError]
  match hr : m s, hnext with
  | (.ok a, s'), hnext => exact hnext
  | (.error e, s'), hnext => exact hh e s' hnext

theorem Keeps.when {m : Fallible σ ε Unit} (hm : Keeps I m) (c : Bool) : Keeps I (Fallible.when c m) := by
  rw [Fallible.when]
  split
  · exact hm
  · exact .pure ()

/-- The state is read and known. -/
theorem keeps_get_bind {f : σ → Fallible σ ε β} (h : ∀ s, I s → I (f s s).2) : Keeps I (Fallible.get >>= f) := h

end Fallible

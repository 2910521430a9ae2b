/-
Computations with a state that may stop early (`EStateM`): what such a computation returns, how it
stops, and an invariant of the state that it keeps in either case.
-/
import Mathlib.Tactic

variable {ε σ α β : Type}

/-- From a state with the invariant `I`, the computation returns a value with `P` or stops with an `E`, and
in both cases the invariant holds again. -/
def Keeps (I : σ → Prop) (E : ε → Prop) (x : EStateM ε σ α) (P : α → Prop) : Prop :=
  ∀ s, I s → match x.run s with
    | .ok a s' => I s' ∧ P a
    | .error e s' => I s' ∧ E e

namespace Keeps

variable {I : σ → Prop} {E : ε → Prop} {P : α → Prop} {Q : β → Prop}

theorem pure {a : α} (h : P a) : Keeps I E (pure a) P := fun _ hs => ⟨hs, h⟩

/-- What the first part returns is what the second part may rely on. -/
theorem bind {x : EStateM ε σ α} {f : α → EStateM ε σ β} (hx : Keeps I E x P) (hf : ∀ a, P a → Keeps I E (f a) Q) :
    Keeps I E (x >>= f) Q := by
  intro s hs
  have hfirst := hx s hs
  rw [EStateM.run_bind]
  cases hrun : x.run s with
  | ok a s' =>
    rw [hrun] at hfirst
    exact hf a hfirst.2 s' hfirst.1
  | error e s' =>
    rw [hrun] at hfirst
    exact hfirst

/-- A change of the state that the invariant survives. -/
theorem modify {f : σ → σ} (h : ∀ s, I s → I (f s)) : Keeps I E (modify f) fun _ => True := fun s hs => ⟨h s hs, trivial⟩

end Keeps

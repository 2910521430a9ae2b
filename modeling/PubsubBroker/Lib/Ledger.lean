/-
Descriptors and the records that hold them. A record holds its descriptor while it is live and closes it
once, when it is released; the books balance when the open descriptors are those of the live records. A
descriptor that is opened for a new record keeps the balance.
-/
import Mathlib.Tactic

/-- A record that holds a descriptor: whether it is live, and how often it has closed the descriptor. -/
structure Slot where
  fd : Nat
  live : Bool
  closed : Nat

namespace Slot

/-- The descriptor is closed once when the record is released, and not before. -/
def Settled (c : Slot) : Prop := c.closed = if c.live then 0 else 1

instance (c : Slot) : Decidable c.Settled := inferInstanceAs (Decidable (_ = _))

theorem Settled.of_live {c : Slot} (h : c.Settled) (hl : c.live = true) : c.closed = 0 := by
  rw [Settled, if_pos hl] at h
  exact h

end Slot

/-- The records, by who keeps them, are balanced with the open descriptors. -/
structure Ledger {κ : Type} (slots : κ → Option Slot) (fds : List Nat) : Prop where
  settled : ∀ k c, slots k = some c → c.Settled
  isOpen : ∀ fd, fd ∈ fds ↔ ∃ k c, slots k = some c ∧ c.live = true ∧ c.fd = fd
  unique : ∀ k k' c c', slots k = some c → slots k' = some c' → c.live = true → c'.live = true → c.fd = c'.fd → k = k'

namespace Ledger

variable {κ : Type} {slots slots' : κ → Option Slot} {fds fds' : List Nat}

/-- The records after a new one was put under `k`. -/
theorem update_eq_some [DecidableEq κ] {k : κ} (hk : slots k = none) {c d : Slot} {j : κ} :
    Function.update slots k (some c) j = some d ↔ (j = k ∧ d = c) ∨ slots j = some d := by
  by_cases hjk : j = k
  · subst hjk
    rw [Function.update_self, hk]
    simp [eq_comm]
  · rw [Function.update_of_ne hjk]
    simp [hjk]

/-- A record for a descriptor that was not open. -/
theorem opened [DecidableEq κ] (h : Ledger slots fds) {k : κ} {fd : Nat} (hk : slots k = none) (hfd : fd ∉ fds) :
    Ledger (Function.update slots k (some ⟨fd, true, 0⟩)) (fd :: fds) := by
  -- no live record holds the new descriptor
  have hfree {j : κ} {c : Slot} (hj : slots j = some c) (hl : c.live = true) : c.fd ≠ fd := by
    rintro rfl
    exact hfd ((h.isOpen _).2 ⟨j, c, hj, hl, rfl⟩)
  constructor
  · intro j c hj
    rcases (update_eq_some hk).1 hj with ⟨-, rfl⟩ | hj
    · rfl
    · exact h.settled j c hj
  · intro x
    rw [List.mem_cons, h.isOpen]
    constructor
    · rintro (rfl | ⟨j, c, hj, hl, rfl⟩)
      · exact ⟨k, _, Function.update_self .., rfl, rfl⟩
      · exact ⟨j, c, (update_eq_some hk).2 (.inr hj), hl, rfl⟩
    · rintro ⟨j, c, hj, hl, rfl⟩
      rcases (update_eq_some hk).1 hj with ⟨-, rfl⟩ | hj
      · exact .inl rfl
      · exact .inr ⟨j, c, hj, hl, rfl⟩
  · intro j j' c c' hj hj' hl hl' heq
    rcases (update_eq_some hk).1 hj with ⟨rfl, rfl⟩ | hold
    · rcases (update_eq_some hk).1 hj' with ⟨rfl, rfl⟩ | hold'
      · rfl
      · exact absurd heq.symm (hfree hold' hl')
    · rcases (update_eq_some hk).1 hj' with ⟨rfl, rfl⟩ | hold'
      · exact absurd heq (hfree hold hl)
      · exact h.unique j j' c c' hold hold' hl hl' heq

end Ledger

/-
Walks through a set of keys that are stored with an end marker. A path is what can be walked letter by
letter: a prefix of a key, or a key followed by markers.
-/
import Mathlib.Tactic

namespace KeyPath

variable {α : Type}

/-- What can be walked in the set of keys `K` with the end marker `e`. -/
def Path (K : Set (List α)) (e : α) (p : List α) : Prop := ∃ k ∈ K, ∃ j, p <+: k ++ List.replicate j e

variable {K : Set (List α)} {e : α} {p q : List α}

theorem Path.initial (h : p <+: q) (hq : Path K e q) : Path K e p := by
  obtain ⟨k, hk, j, hqk⟩ := hq
  exact ⟨k, hk, j, h.trans hqk⟩

theorem Path.initial_of_key {k : List α} (hk : k ∈ K) (h : p <+: k) : Path K e p :=
  ⟨k, hk, 0, by simpa using h⟩

/-- As many markers as the path is long are enough. -/
theorem path_iff : Path K e p ↔ ∃ k ∈ K, p <+: k ++ List.replicate p.length e := by
  refine exists_congr fun k => and_congr_right fun _ => ⟨?_, fun h => ⟨_, h⟩⟩
  rintro ⟨j, h⟩
  have hlong : p <+: k ++ List.replicate p.length e ++ List.replicate j e := by
    rw [List.append_assoc, List.replicate_append_replicate, Nat.add_comm, ← List.replicate_append_replicate,
      ← List.append_assoc]
    exact h.trans (List.prefix_append ..)
  exact List.prefix_of_prefix_length_le hlong (List.prefix_append ..) (by simp)

end KeyPath

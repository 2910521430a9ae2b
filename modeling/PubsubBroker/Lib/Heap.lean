/-
Blocks of memory at their addresses, with the sum of a weight over all blocks, and numbers stored byte by byte.
-/
import Mathlib.Data.List.AList
import Mathlib.Tactic

/-- The blocks that are allocated, by address. -/
abbrev Heap (β : Type) := AList fun _ : Nat => β

namespace Heap

variable {β : Type} {f : β → Nat} {h : Heap β} {p q : Nat} {b : β}

theorem lookup_insert_eq : (h.insert p b).lookup q = if q = p then some b else h.lookup q := by
  split
  · rename_i heq
    subst heq
    exact AList.lookup_insert h
  · rename_i hne
    exact AList.lookup_insert_ne hne

theorem lookup_erase_eq : (h.erase p).lookup q = if q = p then none else h.lookup q := by
  split
  · rename_i heq
    subst heq
    exact AList.lookup_erase q h
  · rename_i hne
    exact AList.lookup_erase_ne hne

/-- The sum of a weight over the blocks. -/
def total (f : β → Nat) (h : Heap β) : Nat := (h.entries.map fun e => f e.2).sum

theorem total_insert (hp : h.lookup p = none) : total f (h.insert p b) = f b + total f h := by
  unfold total
  rw [AList.entries_insert_of_notMem (AList.lookup_eq_none.1 hp), List.map_cons, List.sum_cons]

theorem total_erase (hp : h.lookup p = some b) : total f h = f b + total f (h.erase p) := by
  have hmem : p ∈ h.entries.keys := AList.mem_keys.1 (AList.lookup_isSome.1 (by rw [hp]; rfl))
  obtain ⟨b', l, r, hnot, hsplit, hrest⟩ := List.exists_of_kerase hmem
  have hb : b' = b := by
    have hlook : (⟨p, b'⟩ : Sigma fun _ : Nat => β) ∈ h.entries := by
      rw [hsplit]
      exact List.mem_append_right _ List.mem_cons_self
    have := AList.mem_lookup_iff.2 hlook
    rw [hp] at this
    exact (Option.some.inj this).symm
  subst hb
  have herase : (h.erase p).entries = l ++ r := hrest
  unfold total
  rw [herase, hsplit, List.map_append, List.map_append, List.map_cons, List.sum_append, List.sum_append, List.sum_cons,
    Nat.add_left_comm]

/-- A block is replaced in place. -/
theorem total_replace {b' : β} (hp : h.lookup p = some b') : total f (h.insert p b) + f b' = f b + total f h := by
  have hins : total f (h.insert p b) = f b + total f (h.erase p) := by
    unfold total
    rw [AList.entries_insert, List.map_cons, List.sum_cons]
    rfl
  rw [hins, total_erase hp]
  omega

end Heap

/-! ## Numbers in memory -/

/-- The number `n` in `k` bytes, the lowest byte first. -/
def lowBytes : Nat → Nat → List UInt8
  | 0, _ => []
  | k + 1, n => (n % 256).toUInt8 :: lowBytes k (n / 256)

/-- The number that bytes hold. -/
def ofLowBytes : List UInt8 → Nat
  | [] => 0
  | b :: bs => b.toNat + 256 * ofLowBytes bs

theorem length_lowBytes (k n : Nat) : (lowBytes k n).length = k := by
  induction k generalizing n with
  | zero => rfl
  | succ k ih => rw [lowBytes, List.length_cons, ih]

theorem ofLowBytes_lowBytes {k n : Nat} (h : n < 256 ^ k) : ofLowBytes (lowBytes k n) = n := by
  induction k generalizing n with
  | zero =>
    rw [pow_zero] at h
    rw [lowBytes, ofLowBytes]
    omega
  | succ k ih =>
    rw [pow_succ] at h
    have hb : (n % 256).toUInt8.toNat = n % 256 := by
      rw [Nat.toUInt8, UInt8.toNat_ofNat']
      omega
    rw [lowBytes, ofLowBytes, ih (by omega), hb]
    omega

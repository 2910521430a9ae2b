/-
Cells in a memory that are linked by pointers. `get a` is the cell at the address `a`: the pointer that
follows it and its value. A segment is the list of the cells between two pointers, and a chain is a
segment that ends with the null pointer; the memory determines it, so no chain passes a cell twice.
-/
import Mathlib.Tactic

namespace Linked

variable {P V : Type} (get : P → Option (P × V)) (null : P)

/-- The links lead from `p` through the cells `cs`, given by address and value, to `q`. -/
def Seg : P → List (P × V) → P → Prop
  | p, [], q => p = q
  | p, (a, x) :: cs, q => p = a ∧ a ≠ null ∧ ∃ r, get a = some (r, x) ∧ Seg r cs q

/-- A segment to the null pointer. -/
def Chain (p : P) (cs : List (P × V)) : Prop := Seg get null p cs null

/-- The cells that the links lead through from `p`, as far as `n` of them. -/
def walk [DecidableEq P] : Nat → P → List (P × V)
  | 0, _ => []
  | n + 1, p =>
    if p = null then []
    else match get p with
      | none => []
      | some (r, x) => (p, x) :: walk n r

variable {get null} {get' : P → Option (P × V)} {p q r a b : P} {x y : V} {cs ds : List (P × V)}

@[simp] theorem seg_nil : Seg get null p [] q ↔ p = q := Iff.rfl

theorem seg_cons : Seg get null p ((a, x) :: cs) q ↔
    p = a ∧ a ≠ null ∧ ∃ r, get a = some (r, x) ∧ Seg get null r cs q := Iff.rfl

theorem seg_append : Seg get null p (cs ++ ds) q ↔ ∃ r, Seg get null p cs r ∧ Seg get null r ds q := by
  induction cs generalizing p with
  | nil => simp
  | cons c cs ih =>
    obtain ⟨a, x⟩ := c
    simp only [List.cons_append, seg_cons, ih]
    constructor
    · rintro ⟨hp, ha, s, hget, r, hcs, hds⟩
      exact ⟨r, ⟨hp, ha, s, hget, hcs⟩, hds⟩
    · rintro ⟨r, ⟨hp, ha, s, hget, hcs⟩, hds⟩
      exact ⟨hp, ha, s, hget, r, hcs, hds⟩

/-- A memory with the same cells has the same segments. -/
theorem Seg.frame (h : Seg get null p cs q) (hget : ∀ c ∈ cs, get' c.1 = get c.1) : Seg get' null p cs q := by
  induction cs generalizing p with
  | nil => exact h
  | cons c cs ih =>
    obtain ⟨a, x⟩ := c
    rw [List.forall_mem_cons] at hget
    obtain ⟨hp, ha, r, hr, hcs⟩ := h
    exact ⟨hp, ha, r, hget.1.trans hr, ih hcs hget.2⟩

theorem Seg.get_of_mem (h : Seg get null p cs q) {c : P × V} (hc : c ∈ cs) :
    c.1 ≠ null ∧ ∃ r, get c.1 = some (r, c.2) := by
  induction cs generalizing p with
  | nil => cases hc
  | cons d cs ih =>
    obtain ⟨b, y⟩ := d
    obtain ⟨-, hb, r, hr, hcs⟩ := h
    rcases List.mem_cons.1 hc with rfl | hc
    · exact ⟨hb, r, hr⟩
    · exact ih hcs hc

/-- The walk passes cells that are there. -/
theorem get_of_mem_walk [DecidableEq P] {n : Nat} {c : P × V} (hc : c ∈ walk get null n p) :
    ∃ r, get c.1 = some (r, c.2) := by
  induction n generalizing p with
  | zero => cases hc
  | succ n ih =>
    rw [walk] at hc
    split at hc
    · cases hc
    · split at hc
      · cases hc
      · rename_i r x hr
        rcases List.mem_cons.1 hc with rfl | hc
        · exact ⟨r, hr⟩
        · exact ih hc

namespace Chain

theorem nil_iff : Chain get null p [] ↔ p = null := Iff.rfl

/-- The cells of a chain are determined by where it starts. -/
theorem unique (h : Chain get null p cs) (h' : Chain get null p ds) : cs = ds := by
  induction cs generalizing p ds with
  | nil =>
    cases ds with
    | nil => rfl
    | cons d ds => exact absurd (h'.1.symm.trans h) h'.2.1
  | cons c cs ih =>
    cases ds with
    | nil => exact absurd (h.1.symm.trans h') h.2.1
    | cons d ds =>
      obtain ⟨a, x⟩ := c
      obtain ⟨b, y⟩ := d
      obtain ⟨rfl, -, r, hr, hcs⟩ := h
      obtain ⟨rfl, -, s, hs, hds⟩ := h'
      rw [hr] at hs
      cases hs
      rw [ih hcs hds]

/-- The rest of a chain from one of its cells on is a chain. -/
theorem suffix (h : Chain get null p (cs ++ (a, x) :: ds)) : Chain get null a ((a, x) :: ds) := by
  obtain ⟨r, -, hr⟩ := seg_append.1 h
  exact hr.1 ▸ hr

/-- A chain passes no address twice: from the second time on it would be as long as from the first. -/
theorem nodup (h : Chain get null p cs) : (cs.map Prod.fst).Nodup := by
  induction cs generalizing p with
  | nil => exact List.nodup_nil
  | cons c cs ih =>
    obtain ⟨a, x⟩ := c
    obtain ⟨rfl, -, r, hr, hcs⟩ := id h
    rw [List.map_cons, List.nodup_cons]
    refine ⟨fun hmem => ?_, ih hcs⟩
    obtain ⟨⟨b, y⟩, hc, rfl⟩ := List.mem_map.1 hmem
    obtain ⟨us, vs, rfl⟩ := List.append_of_mem hc
    have hlen := congrArg List.length (unique h (suffix hcs))
    simp at hlen
    omega

theorem eq_head (h : Chain get null p cs) : p = (cs.map Prod.fst).headD null := by
  cases cs with
  | nil => exact h
  | cons c cs => exact h.1

theorem null_notMem (h : Chain get null p cs) : null ∉ cs.map Prod.fst := by
  intro hmem
  obtain ⟨c, hc, hnull⟩ := List.mem_map.1 hmem
  exact (h.get_of_mem hc).1 hnull

theorem null_iff (h : Chain get null p cs) : p = null ↔ cs = [] := by
  cases cs with
  | nil => exact iff_of_true h rfl
  | cons c cs =>
    obtain ⟨hp, hne, -⟩ := h
    exact iff_of_false (hp ▸ hne) (List.cons_ne_nil c cs)

/-- The walk finds the chain. -/
theorem walk_eq [DecidableEq P] (h : Chain get null p cs) {n : Nat} (hn : cs.length < n) : walk get null n p = cs := by
  induction cs generalizing p n with
  | nil =>
    obtain ⟨m, rfl⟩ := Nat.exists_eq_add_of_lt hn
    rw [walk, if_pos (nil_iff.1 h)]
  | cons c cs ih =>
    obtain ⟨a, x⟩ := c
    obtain ⟨rfl, hne, r, hr, hcs⟩ := h
    cases n with
    | zero => cases hn
    | succ n =>
      rw [walk, if_neg hne, hr]
      simp only
      rw [ih hcs (by simpa using hn)]

/-! ## Writes -/

/-- A cell is put in front. -/
theorem cons (h : Chain get null p cs) (ha : a ≠ null) (hfresh : get a = none) (hget : get' a = some (p, x))
    (hframe : ∀ b, b ≠ a → get' b = get b) : Chain get' null a ((a, x) :: cs) := by
  refine ⟨rfl, ha, p, hget, h.frame fun c hc => hframe _ ?_⟩
  rintro rfl
  obtain ⟨-, r, hr⟩ := h.get_of_mem hc
  rw [hfresh] at hr
  cases hr

/-- A cell is linked behind the last one. -/
theorem snoc (h : Chain get null p (cs ++ [(b, y)])) (ha : a ≠ null) (hfresh : get a = none)
    (hb : get' b = some (a, y)) (hget : get' a = some (null, x)) (hframe : ∀ c, c ≠ a → c ≠ b → get' c = get c) :
    Chain get' null p (cs ++ [(b, y)] ++ [(a, x)]) := by
  have hnd := h.nodup
  rw [List.map_append, List.nodup_append] at hnd
  obtain ⟨r, hcs, rfl, hne, -⟩ := seg_append.1 h
  -- the cells before the last one are neither the new cell nor the last one
  have hcs' : Seg get' null p cs r := by
    refine hcs.frame fun c hc => hframe _ ?_ ?_
    · rintro rfl
      obtain ⟨-, s, hs⟩ := hcs.get_of_mem hc
      rw [hfresh] at hs
      cases hs
    · exact hnd.2.2 _ (List.mem_map_of_mem hc) _ (by simp)
  refine seg_append.2 ⟨a, seg_append.2 ⟨r, hcs', rfl, hne, a, hb, rfl⟩, rfl, ha, null, hget, rfl⟩

/-- The value of a cell is changed. -/
theorem set (h : Chain get null p (cs ++ (a, x) :: ds)) (hget : get a = some (r, x)) (hget' : get' a = some (r, y))
    (hframe : ∀ c, c ≠ a → get' c = get c) : Chain get' null p (cs ++ (a, y) :: ds) := by
  have hnd := h.nodup
  simp only [List.map_append, List.map_cons, List.nodup_append, List.nodup_cons, List.mem_cons] at hnd
  obtain ⟨-, ⟨hads, -⟩, hdisj⟩ := hnd
  obtain ⟨s, hcs, rfl, hne, t, ht, hds⟩ := seg_append.1 h
  rw [ht] at hget
  cases hget
  have hcs' : Seg get' null p cs s := by
    apply hcs.frame
    intro c hc
    exact hframe _ (hdisj _ (List.mem_map_of_mem hc) s (.inl rfl))
  have hds' : Seg get' null r ds null := by
    apply hds.frame
    intro c hc
    apply hframe
    rintro rfl
    exact hads (List.mem_map_of_mem hc)
  exact seg_append.2 ⟨s, hcs', rfl, hne, r, hget', hds'⟩

/-- The first cell is taken off. -/
theorem tail (h : Chain get null p ((a, x) :: cs)) (hget : get a = some (r, y))
    (hframe : ∀ c, c ≠ a → get' c = get c) : Chain get' null r cs := by
  have hnd := h.nodup
  rw [List.map_cons, List.nodup_cons] at hnd
  obtain ⟨-, -, s, hs, hcs⟩ := h
  rw [hs] at hget
  cases hget
  refine hcs.frame fun c hc => hframe _ ?_
  rintro rfl
  have hmem : c.1 ∈ cs.map Prod.fst := List.mem_map_of_mem hc
  exact hnd.1 hmem

/-- The cell before another one is linked to what follows that one. -/
theorem unlink (h : Chain get null p (cs ++ (b, y) :: (a, x) :: ds)) (hget : get a = some (r, x))
    (hb : get' b = some (r, y)) (hframe : ∀ c, c ≠ a → c ≠ b → get' c = get c) :
    Chain get' null p (cs ++ (b, y) :: ds) := by
  have hnd := h.nodup
  simp only [List.map_append, List.map_cons, List.nodup_append, List.nodup_cons, List.mem_cons, not_or] at hnd
  obtain ⟨-, ⟨⟨hba, hbds⟩, hads, -⟩, hdisj⟩ := hnd
  obtain ⟨s, hcs, rfl, hne, t, -, rfl, -, u, hu, hds⟩ := seg_append.1 h
  rw [hu] at hget
  cases hget
  -- no other cell has one of the two addresses
  have hcs' : Seg get' null p cs s := by
    apply hcs.frame
    intro c hc
    have hmem := List.mem_map_of_mem (f := Prod.fst) hc
    exact hframe _ (hdisj _ hmem t (.inr (.inl rfl))) (hdisj _ hmem s (.inl rfl))
  have hds' : Seg get' null r ds null := by
    apply hds.frame
    intro c hc
    have hmem := List.mem_map_of_mem (f := Prod.fst) hc
    exact hframe _ (fun h => hads (h ▸ hmem)) fun h => hbds (h ▸ hmem)
  exact seg_append.2 ⟨s, hcs', rfl, hne, r, hb, hds'⟩

end Chain

end Linked

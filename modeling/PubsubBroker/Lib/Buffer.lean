/-
Blocks of memory, cell by cell: a cell that nothing was stored to since the block was allocated is `none`.
Reading such a cell is a fault, and so is any access beyond the block. The lemmas say what an access does to a
block that is known up to its part that was not written.
-/
import Mathlib.Tactic
import Mathlib.Data.List.Induction

namespace Buffer

/-- What a program must not do. -/
inductive MemFault
  /-- The access of a cell beyond the block. -/
  | access (i : Nat)
  /-- The use of a cell that nothing was stored to. -/
  | unset (i : Nat)
  /-- The use of a block that is not allocated. -/
  | dangling
  /-- A failed assertion. -/
  | assert
  deriving DecidableEq, Repr

variable {α : Type}

/-- A cell is read. -/
def get (m : List (Option α)) (i : Nat) : Except MemFault α :=
  match m[i]? with
  | none => .error (.access i)
  | some none => .error (.unset i)
  | some (some a) => .ok a

/-- A cell is stored to. -/
def set (m : List (Option α)) (i : Nat) (a : α) : Except MemFault (List (Option α)) :=
  if i < m.length then .ok (m.set i (some a)) else .error (.access i)

/-- `memcpy` of `as` to the cells from `i` on. -/
def copy (m : List (Option α)) (i : Nat) (as : List α) : Except MemFault (List (Option α)) :=
  if i + as.length ≤ m.length then .ok (m.take i ++ as.map some ++ m.drop (i + as.length)) else .error (.access (i + as.length))

/-- `memmove` of the `n` cells from `i` on to the start of the block. -/
def moveDown (m : List (Option α)) (i n : Nat) : Except MemFault (List (Option α)) :=
  if i + n ≤ m.length then .ok ((m.drop i).take n ++ m.drop n) else .error (.access (i + n))

/-- The first `n` cells from `i` on are read. -/
def getAll (m : List (Option α)) : Nat → Nat → Except MemFault (List α)
  | _, 0 => .ok []
  | i, n + 1 => do
    let a ← get m i
    let as ← getAll m (i + 1) n
    return a :: as

/-- `n` cells from `i` on are each overwritten by what `f` makes of them. -/
def mapCells (f : α → α) : Nat → Nat → List (Option α) → Except MemFault (List (Option α))
  | _, 0, m => .ok m
  | i, n + 1, m => do
    let a ← get m i
    let m ← set m i (f a)
    mapCells f (i + 1) n m

/-- The loop that swaps the cells from `i` to `j` from the outside in. -/
def reverseCells : Nat → Nat → Nat → List (Option α) → Except MemFault (List (Option α))
  | 0, _, _, m => .ok m
  | fuel + 1, i, j, m =>
    if i < j then do
      let a ← get m i
      let b ← get m j
      let m ← set m i b
      let m ← set m j a
      reverseCells fuel (i + 1) (j - 1) m
    else .ok m

theorem done_bind {β γ ε : Type} (b : β) (f : β → Except ε γ) : (Except.ok b >>= f) = f b := rfl

/-- A block around `n` of its cells and the one behind them. -/
theorem exists_split {m : List (Option α)} {i n : Nat} (h : i + n < m.length) :
    ∃ mid c r, m = m.take i ++ (mid ++ c :: r) ∧ mid.length = n ∧ r.length = m.length - (i + n + 1) := by
  obtain ⟨c, r, hr⟩ : ∃ c r, (m.drop i).drop n = c :: r := by
    refine List.exists_cons_of_ne_nil fun hnil => ?_
    have := congrArg List.length hnil
    rw [List.length_drop, List.length_drop, List.length_nil] at this
    omega
  have hlen := congrArg List.length hr
  rw [List.length_drop, List.length_drop, List.length_cons] at hlen
  refine ⟨(m.drop i).take n, c, r, ?_, ?_, ?_⟩
  · rw [← hr, List.take_append_drop, List.take_append_drop]
  · rw [List.length_take_of_le]
    rw [List.length_drop]
    omega
  · omega

/-- A cell behind the known ones. -/
theorem get_append (l : List (Option α)) (a : α) (r : List (Option α)) : get (l ++ some a :: r) l.length = .ok a := by
  unfold get
  rw [List.getElem?_append_right (Nat.le_refl _), Nat.sub_self]
  rfl

/-- The cells from `i` on hold these values. -/
def CellsAre (m : List (Option α)) : Nat → List α → Prop
  | _, [] => True
  | i, a :: as => get m i = .ok a ∧ CellsAre m (i + 1) as

theorem cellsAre_append {m : List (Option α)} {as bs : List α} {i : Nat} :
    CellsAre m i (as ++ bs) ↔ CellsAre m i as ∧ CellsAre m (i + as.length) bs := by
  induction as generalizing i with
  | nil => rw [List.nil_append, CellsAre, true_and, List.length_nil, Nat.add_zero]
  | cons a as ih => rw [List.cons_append, CellsAre, CellsAre, ih, and_assoc, List.length_cons, Nat.add_assoc, Nat.add_comm 1]

theorem get_lt {m : List (Option α)} {i : Nat} {a : α} (h : get m i = .ok a) : i < m.length := by
  by_contra hlt
  unfold get at h
  rw [List.getElem?_eq_none (Nat.le_of_not_lt hlt)] at h
  cases h

theorem CellsAre.length_le {m : List (Option α)} : ∀ {as : List α} {i : Nat}, CellsAre m i as → as.length ≤ m.length - i
  | [], _, _ => Nat.zero_le _
  | _ :: _, _, h => by
    have hlt := get_lt h.1
    have hrest := h.2.length_le
    rw [List.length_cons]
    omega

/-- A part of a block that is known. -/
theorem cellsAre_known (l as r : List α) : CellsAre ((l ++ (as ++ r)).map some) l.length as := by
  induction as generalizing l with
  | nil => trivial
  | cons a as ih =>
    constructor
    · have := get_append (l.map some) a ((as ++ r).map some)
      rwa [List.length_map, ← List.map_cons, ← List.map_append] at this
    · have := ih (l ++ [a])
      rwa [List.append_assoc, List.length_append] at this

theorem set_append (l : List (Option α)) (c : Option α) (r : List (Option α)) (a : α) :
    set (l ++ c :: r) l.length a = .ok (l ++ some a :: r) := by
  unfold set
  rw [if_pos (by simp), List.set_append_right _ _ (Nat.le_refl _), Nat.sub_self, List.set_cons_zero]

theorem copy_append (l mid r : List (Option α)) {s : List α} (h : s.length = mid.length) :
    copy (l ++ (mid ++ r)) l.length s = .ok (l ++ (s.map some ++ r)) := by
  unfold copy
  rw [if_pos (by simp; omega), List.take_left, h, ← List.append_assoc, ← List.length_append, List.drop_left, List.append_assoc]

theorem moveDown_append (l mid r : List (Option α)) {n : Nat} (h : mid.length = n) :
    moveDown (l ++ (mid ++ r)) l.length n = .ok (mid ++ (l ++ (mid ++ r)).drop n) := by
  subst h
  unfold moveDown
  rw [if_pos (by simp), List.drop_left, List.take_left]

theorem moveDown_zero {m : List (Option α)} {i : Nat} (h : i ≤ m.length) : moveDown m i 0 = .ok m := by
  unfold moveDown
  rw [if_pos (by omega), List.take_zero, List.drop_zero, List.nil_append]

theorem getAll_append (l : List (Option α)) (as : List α) (r : List (Option α)) :
    getAll (l ++ (as.map some ++ r)) l.length as.length = .ok as := by
  induction as generalizing l with
  | nil => rfl
  | cons a as ih =>
    have hrest : getAll (l ++ some a :: (as.map some ++ r)) (l.length + 1) as.length = .ok as := by
      have := ih (l ++ [some a])
      rwa [List.append_assoc, List.length_append] at this
    rw [List.length_cons, getAll, List.map_cons, List.cons_append, get_append, done_bind, hrest]
    rfl

theorem mapCells_append (f : α → α) (l : List (Option α)) (as : List α) (r : List (Option α)) :
    mapCells f l.length as.length (l ++ (as.map some ++ r)) = .ok (l ++ ((as.map f).map some ++ r)) := by
  induction as generalizing l with
  | nil => rfl
  | cons a as ih =>
    have hrest := ih (l ++ [some (f a)])
    rw [List.append_assoc, List.length_append, List.append_assoc] at hrest
    rw [List.length_cons, mapCells, List.map_cons, List.cons_append, get_append, done_bind, set_append, done_bind]
    exact hrest

theorem reverseCells_append (as : List α) : ∀ (l r : List (Option α)) (fuel : Nat), as.length ≤ fuel →
    reverseCells fuel l.length (l.length + as.length - 1) (l ++ (as.map some ++ r)) = .ok (l ++ (as.reverse.map some ++ r)) := by
  have hstop {l m : List (Option α)} {j fuel : Nat} (h : j ≤ l.length) : reverseCells fuel l.length j m = .ok m := by
    cases fuel with
    | zero => rfl
    | succ fuel => rw [reverseCells, if_neg (by omega)]
  induction as using List.bidirectionalRec with
  | nil => exact fun l r fuel _ => hstop (by simp)
  | singleton a => exact fun l r fuel _ => hstop (by simp)
  | cons_append a as b ih =>
    intro l r fuel hfuel
    obtain ⟨fuel, rfl⟩ := Nat.exists_eq_succ_of_ne_zero (n := fuel) (by simp at hfuel; omega)
    have hlen : l.length + (a :: (as ++ [b])).length - 1 = l.length + (as.length + 1) := by simp
    have hm : l ++ ((a :: (as ++ [b])).map some ++ r) = l ++ some a :: (as.map some ++ some b :: r) := by simp
    have hget := get_append (l ++ some a :: as.map some) b r
    have hset := set_append (l ++ some b :: as.map some) (some b) r a
    have hrest := ih (l ++ [some b]) (some a :: r) fuel (by simp at hfuel; omega)
    simp only [List.length_append, List.length_cons, List.length_map, List.append_assoc, List.cons_append] at hget hset
    simp only [List.length_append, List.length_cons, List.append_assoc, List.cons_append, List.length_nil, List.nil_append]
      at hrest
    rw [hlen, hm, reverseCells, if_pos (by omega), get_append, done_bind, hget, done_bind, set_append, done_bind, hset,
      done_bind]
    rw [show l.length + (0 + 1) + as.length - 1 = l.length + (as.length + 1) - 1 by omega] at hrest
    refine hrest.trans ?_
    simp

end Buffer

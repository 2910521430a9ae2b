/-
What a C program computes with, as far as the developments over this module need it: the
conversions between integer widths, and NUL-terminated strings read from a byte buffer. A buffer is
the list of its bytes; the terminator that follows the last one is not part of the list.
-/
import Mathlib.Tactic
import Mathlib.Data.List.TakeWhile

namespace CLang

/-! ## Integer conversions -/

/-- The conversion to a 32-bit `int`. -/
def toInt (n : Int) : Int := (n + 2 ^ 31) % 2 ^ 32 - 2 ^ 31

/-- The conversion to a 32-bit `unsigned int`. -/
def toUInt (n : Int) : Nat := (n % 2 ^ 32).toNat

/-- The conversion to a 64-bit `long long`. -/
def toLL (n : Int) : Int := (n + 2 ^ 63) % 2 ^ 64 - 2 ^ 63

/-- The conversion to a 64-bit unsigned type, as `size_t` is. -/
def toSize (n : Int) : Nat := (n % 2 ^ 64).toNat

theorem toInt_of_lt {n : Int} (h : -2 ^ 31 ≤ n) (h' : n < 2 ^ 31) : toInt n = n := by
  unfold toInt; omega

theorem toUInt_of_lt {n : Int} (h : 0 ≤ n) (h' : n < 2 ^ 32) : toUInt n = n.toNat := by
  unfold toUInt; rw [Int.emod_eq_of_lt h h']

theorem toSize_of_lt {n : Int} (h : 0 ≤ n) (h' : n < 2 ^ 64) : toSize n = n.toNat := by
  unfold toSize; rw [Int.emod_eq_of_lt h h']

theorem toLL_of_lt {n : Int} (h : -2 ^ 63 ≤ n) (h' : n < 2 ^ 63) : toLL n = n := by
  unfold toLL; omega

/-! ## String constants -/

/-- The bytes of a string constant. -/
def ascii (s : String) : List UInt8 := s.toList.map fun ch => ch.toNat.toUInt8

/-! ## NUL-terminated strings -/

/-- The C string at the start of a buffer: the bytes before the first NUL. -/
def cstr (s : List UInt8) : List UInt8 := s.takeWhile (· ≠ 0)

/-- `strchr(s, ch)` for `ch` not NUL, as an offset from `s`. -/
def strchr (ch : UInt8) : List UInt8 → Option Nat
  | [] => none
  | b :: s => if b = ch then some 0 else if b = 0 then none else (strchr ch s).map (· + 1)

theorem cstr_eq_self {s : List UInt8} : cstr s = s ↔ 0 ∉ s := by
  unfold cstr
  rw [List.takeWhile_eq_self_iff]
  simp only [ne_eq, decide_not, Bool.not_eq_eq_eq_not, Bool.not_true, decide_eq_false_iff_not]
  constructor
  · intro h h0
    exact h 0 h0 rfl
  · rintro h b hb rfl
    exact h hb

variable {ch : UInt8}

/-- The search passes over bytes that are neither `ch` nor NUL. -/
theorem strchr_append {l : List UInt8} (s : List UInt8) (hl : ch ∉ l) (h0 : 0 ∉ l) :
    strchr ch (l ++ s) = (strchr ch s).map (· + l.length) := by
  induction l with
  | nil => simp
  | cons b l ih =>
    simp only [List.mem_cons, not_or] at hl h0
    have hb : b ≠ ch := fun h => hl.1 h.symm
    have hb0 : b ≠ 0 := fun h => h0.1 h.symm
    simp only [List.cons_append, strchr, if_neg hb, if_neg hb0, ih hl.2 h0.2, Option.map_map, List.length_cons]
    congr 1

theorem strchr_hit {l : List UInt8} (s : List UInt8) (hl : ch ∉ l) (h0 : 0 ∉ l) :
    strchr ch (l ++ ch :: s) = some l.length := by
  rw [strchr_append _ hl h0]; simp [strchr]

theorem strchr_none_of_notMem {s : List UInt8} (h : ch ∉ s) : strchr ch s = none := by
  induction s with
  | nil => rfl
  | cons b s ih =>
    simp only [List.mem_cons, not_or] at h
    rw [strchr, if_neg (fun e => h.1 e.symm), ih h.2]; simp

/-- A found offset splits the buffer at the first `ch`, with no NUL before it. -/
theorem strchr_some : ∀ {s : List UInt8} {i : Nat}, strchr ch s = some i →
    ∃ l r, s = l ++ ch :: r ∧ l.length = i ∧ ch ∉ l ∧ 0 ∉ l
  | [], i, h => by cases h
  | b :: s, i, h => by
    unfold strchr at h
    split at h
    · rename_i hb
      cases h
      exact ⟨[], s, by rw [hb]; rfl, rfl, by simp, by simp⟩
    · rename_i hb
      split at h
      · cases h
      · rename_i hb0
        obtain ⟨j, hj, rfl⟩ := Option.map_eq_some_iff.1 h
        obtain ⟨l, r, rfl, rfl, hl, h0⟩ := strchr_some hj
        refine ⟨b :: l, r, rfl, rfl, ?_, ?_⟩
        · simp only [List.mem_cons, not_or]; exact ⟨fun e => hb e.symm, hl⟩
        · simp only [List.mem_cons, not_or]; exact ⟨fun e => hb0 e.symm, h0⟩

theorem strchr_lt {s : List UInt8} {i : Nat} (h : strchr ch s = some i) : i < s.length := by
  obtain ⟨l, r, rfl, rfl, -, -⟩ := strchr_some h
  simp

end CLang

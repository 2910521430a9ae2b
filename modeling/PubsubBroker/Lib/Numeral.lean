/-
Decimal numerals as byte strings: the numeral a number prints as, its digits, and the value read
back from left to right.
-/
import Mathlib.Tactic

namespace Numeral

/-- The decimal numeral of `n`, as `printf("%lu", n)` prints it. -/
def decimal (n : Nat) : List UInt8 := (Nat.toDigits 10 n).map fun ch => ch.toNat.toUInt8

/-- A decimal digit, `'0'` to `'9'`. -/
def IsDigit (b : UInt8) : Prop := 48 ≤ b ∧ b ≤ 57

instance (b : UInt8) : Decidable (IsDigit b) := inferInstanceAs (Decidable (_ ∧ _))

/-- The value of the digit `b`. -/
def digit (b : UInt8) : Nat := (b - 48).toNat

/-- The value of a digit string read after a prefix of value `v`. -/
def valueFrom (v : Nat) (l : List UInt8) : Nat := l.foldl (fun v b => v * 10 + digit b) v

@[simp] theorem valueFrom_nil (v : Nat) : valueFrom v [] = v := rfl

@[simp] theorem valueFrom_cons (v : Nat) (b : UInt8) (l : List UInt8) :
    valueFrom v (b :: l) = valueFrom (v * 10 + digit b) l := rfl

theorem valueFrom_append (v : Nat) (l m : List UInt8) : valueFrom v (l ++ m) = valueFrom (valueFrom v l) m :=
  List.foldl_append

theorem le_valueFrom (v : Nat) (l : List UInt8) : v ≤ valueFrom v l := by
  induction l generalizing v with
  | nil => simp
  | cons b l ih =>
    rw [valueFrom_cons]
    exact le_trans (by omega) (ih _)

theorem digit_lt {b : UInt8} (h : IsDigit b) : digit b < 10 := by
  obtain ⟨h1, h2⟩ := h
  rw [UInt8.le_iff_toNat_le] at h1 h2
  unfold digit
  rw [UInt8.toNat_sub_of_le _ _ (UInt8.le_iff_toNat_le.2 h1)]
  simp at h1 h2 ⊢
  omega

theorem digitChar_byte : ∀ d < 10, (Nat.digitChar d).toNat.toUInt8 = 48 + d.toUInt8 := by decide

theorem isDigit_add : ∀ d < 10, IsDigit (48 + d.toUInt8) ∧ digit (48 + d.toUInt8) = d := by decide

theorem decimal_of_lt {n : Nat} (h : n < 10) : decimal n = [48 + n.toUInt8] := by
  unfold decimal
  rw [Nat.toDigits_of_lt_base h, List.map_singleton, digitChar_byte n h]

theorem decimal_of_le {n : Nat} (h : 10 ≤ n) : decimal n = decimal (n / 10) ++ [48 + (n % 10).toUInt8] := by
  have hd : n % 10 < 10 := Nat.mod_lt _ (by decide)
  unfold decimal
  rw [Nat.toDigits_of_base_le (by decide) h, List.map_append, List.map_singleton, digitChar_byte _ hd]

theorem isDigit_decimal (n : Nat) : ∀ b ∈ decimal n, IsDigit b := by
  induction n using Nat.strong_induction_on with
  | _ n ih =>
    intro b hb
    by_cases h : n < 10
    · rw [decimal_of_lt h, List.mem_singleton] at hb
      exact hb ▸ (isDigit_add n h).1
    · rw [decimal_of_le (by omega), List.mem_append, List.mem_singleton] at hb
      rcases hb with hb | rfl
      · exact ih (n / 10) (by omega) b hb
      · exact (isDigit_add _ (Nat.mod_lt _ (by decide))).1

/-- A numeral reads back as its number. -/
theorem valueFrom_decimal (n : Nat) : valueFrom 0 (decimal n) = n := by
  induction n using Nat.strong_induction_on with
  | _ n ih =>
    by_cases h : n < 10
    · rw [decimal_of_lt h]; simp [(isDigit_add n h).2]
    · rw [decimal_of_le (by omega), valueFrom_append, ih (n / 10) (by omega)]
      simp only [valueFrom_cons, valueFrom_nil, (isDigit_add _ (Nat.mod_lt n (by decide : 0 < 10))).2]
      omega

/-- The numeral of a positive number starts with a digit other than `'0'`. -/
theorem decimal_cons {n : Nat} (h : 0 < n) : ∃ b l, decimal n = b :: l ∧ 49 ≤ b ∧ b ≤ 57 := by
  induction n using Nat.strong_induction_on with
  | _ n ih =>
    by_cases h10 : n < 10
    · have : ∀ d < 10, 0 < d → (49 : UInt8) ≤ 48 + d.toUInt8 ∧ 48 + d.toUInt8 ≤ 57 := by decide
      exact ⟨_, [], decimal_of_lt h10, this n h10 h⟩
    · obtain ⟨b, l, hl, hb⟩ := ih (n / 10) (by omega) (by omega)
      exact ⟨b, l ++ [48 + (n % 10).toUInt8], by rw [decimal_of_le (by omega), hl, List.cons_append], hb⟩

theorem add_digit (b : UInt8) : 48 + (digit b).toUInt8 = b := by
  have hsub : (digit b).toUInt8 = b - 48 := UInt8.ofNat_toNat
  rw [hsub]
  rw [UInt8.add_comm, UInt8.sub_add_cancel]

/-- A digit string without a leading zero is the numeral of its value. -/
theorem decimal_valueFrom {b : UInt8} (h1 : 49 ≤ b) (h2 : b ≤ 57) (l : List UInt8) (hl : ∀ x ∈ l, IsDigit x) :
    decimal (valueFrom 0 (b :: l)) = b :: l ∧ 0 < valueFrom 0 (b :: l) := by
  induction l using List.reverseRecOn with
  | nil =>
    have hb : IsDigit b := ⟨UInt8.le_trans (show (48 : UInt8) ≤ 49 by decide) h1, h2⟩
    have hpos : digit b ≠ 0 := by
      intro h0
      rw [← add_digit b, h0] at h1
      exact absurd h1 (by decide)
    simp only [valueFrom_cons, valueFrom_nil, Nat.zero_mul, Nat.zero_add]
    exact ⟨by rw [decimal_of_lt (digit_lt hb), add_digit b], by omega⟩
  | append_singleton l d ih =>
    obtain ⟨hdec, hpos⟩ := ih fun x hx => hl x (List.mem_append_left _ hx)
    have hd : IsDigit d := hl d (by simp)
    have hlt := digit_lt hd
    rw [← List.cons_append, valueFrom_append, valueFrom_cons, valueFrom_nil]
    refine ⟨?_, by omega⟩
    rw [decimal_of_le (by omega), show (valueFrom 0 (b :: l) * 10 + digit d) / 10 = valueFrom 0 (b :: l) by omega,
      show (valueFrom 0 (b :: l) * 10 + digit d) % 10 = digit d by omega, hdec, add_digit d]

theorem notMem_decimal {b : UInt8} (n : Nat) (h : ¬ IsDigit b) : b ∉ decimal n :=
  fun hb => h (isDigit_decimal n b hb)

/-- A number below `10 ^ k` has at most `k` digits. -/
theorem length_decimal_le {k : Nat} (hk : 0 < k) {n : Nat} (h : n < 10 ^ k) : (decimal n).length ≤ k := by
  induction k generalizing n with
  | zero => omega
  | succ k ih =>
    by_cases h10 : n < 10
    · rw [decimal_of_lt h10, List.length_singleton]
      omega
    · rcases Nat.eq_zero_or_pos k with rfl | hpos
      · omega
      · have hdiv : n / 10 < 10 ^ k := by rw [Nat.pow_succ] at h; omega
        rw [decimal_of_le (by omega), List.length_append, List.length_singleton]
        have := ih hpos hdiv
        omega

/-- The numeral of an integer, as `printf("%lld", n)` prints it. -/
def decimalInt (n : Int) : List UInt8 := if n < 0 then 45 :: decimal n.natAbs else decimal n.natAbs

theorem decimalInt_natCast (n : Nat) : decimalInt n = decimal n := by
  unfold decimalInt
  rw [if_neg (by omega), Int.natAbs_natCast]

theorem length_decimalInt_le {k : Nat} (hk : 0 < k) {n : Int} (h : n.natAbs < 10 ^ k) : (decimalInt n).length ≤ k + 1 := by
  have hlen := length_decimal_le hk h
  unfold decimalInt
  split
  · rw [List.length_cons]
    omega
  · omega

/-- `s` is the canonical decimal numeral of `n`: `0`, or an optional minus sign, a digit from `1` to `9`
and then any digits. -/
inductive Canonical : List UInt8 → Int → Prop
  | zero : Canonical [48] 0
  | pos {b : UInt8} {l : List UInt8} (h1 : 49 ≤ b) (h2 : b ≤ 57) (hl : ∀ x ∈ l, IsDigit x) :
      Canonical (b :: l) (valueFrom 0 (b :: l))
  | neg {b : UInt8} {l : List UInt8} (h1 : 49 ≤ b) (h2 : b ≤ 57) (hl : ∀ x ∈ l, IsDigit x) :
      Canonical (45 :: b :: l) (-valueFrom 0 (b :: l))

theorem decimalInt_neg {n : Nat} (h : 0 < n) : decimalInt (-n) = 45 :: decimal n := by
  unfold decimalInt
  rw [if_pos (by omega), Int.natAbs_neg, Int.natAbs_natCast]

/-- The grammar describes the numerals that are printed, and no others. -/
theorem canonical_iff {s : List UInt8} {n : Int} : Canonical s n ↔ s = decimalInt n := by
  constructor
  · intro h
    cases h with
    | zero => rfl
    | pos h1 h2 hl => rw [decimalInt_natCast, (decimal_valueFrom h1 h2 _ hl).1]
    | neg h1 h2 hl =>
      obtain ⟨hdec, hpos⟩ := decimal_valueFrom h1 h2 _ hl
      rw [decimalInt_neg hpos, hdec]
  · rintro rfl
    have hcanon {m : Nat} (hm : 0 < m) : ∃ b l, decimal m = b :: l ∧ 49 ≤ b ∧ b ≤ 57 ∧ (∀ x ∈ l, IsDigit x) ∧
        valueFrom 0 (b :: l) = m := by
      obtain ⟨b, l, hbl, h1, h2⟩ := decimal_cons hm
      refine ⟨b, l, hbl, h1, h2, fun x hx => isDigit_decimal m x ?_, hbl ▸ valueFrom_decimal m⟩
      rw [hbl]
      exact List.mem_cons_of_mem _ hx
    obtain ⟨m, rfl | rfl⟩ := Int.eq_nat_or_neg n
    · rcases Nat.eq_zero_or_pos m with rfl | hm
      · exact .zero
      · obtain ⟨b, l, hbl, h1, h2, hl, hv⟩ := hcanon hm
        rw [decimalInt_natCast, hbl, ← hv]
        exact .pos h1 h2 hl
    · rcases Nat.eq_zero_or_pos m with rfl | hm
      · exact .zero
      · obtain ⟨b, l, hbl, h1, h2, hl, hv⟩ := hcanon hm
        rw [decimalInt_neg hm, hbl, ← hv]
        exact .neg h1 h2 hl

example : decimal 16384 = [49, 54, 51, 56, 52] := by decide

end Numeral

/-
`string2ll` of `util.c` is exact: it accepts the canonical numerals of the 64-bit integers and nothing
else, and none of the unsigned operations in its loop wraps. The two guards of the loop are what keeps
the accumulator below `2 ^ 64`; the limits of `long long` are checked behind the loop.
-/
import PubsubBroker.Common.Util

namespace PubsubBroker

open CLang Numeral

/-! ## The call -/

/-- `string2ll(s, slen, &value)` as its caller sees it, with `value` holding `value` before: the value
returned and the one `value` holds afterwards. -/
def string2llCall (s : List UInt8) (value : Int) : Int × Int :=
  match s with
  | [] => (0, value)
  | p :: rest =>
    if s.length = 1 ∧ p = 48 then (1, 0)
    else
      let negative := p = 45
      match if negative then rest else s with
      | [] => (0, value)
      | d :: digits =>
        if 49 ≤ d ∧ d ≤ 57 then
          match string2llLoop digits (digit d) with
          | none => (0, value)
          | some (v, unused) =>
            if unused ≠ [] then (0, value)
            else if negative then
              if v > 2 ^ 63 then (0, value) else (1, toLL (-v))
            else
              if v > 2 ^ 63 - 1 then (0, value) else (1, toLL v)
        else if d = 48 ∧ s.length = 1 then (1, 0)
        else (0, value)

/-- What the unsigned operations of the loop come to before they are reduced modulo `2 ^ 64`, in the
order in which they are executed: for each digit the product, the bound of the second guard and the sum. -/
def string2llLoopOps : List UInt8 → Nat → List Int
  | [], _ => []
  | p :: s, v =>
    if 48 ≤ p ∧ p ≤ 57 then
      if v > (2 ^ 64 - 1) / 10 then []
      else
        let product := v * 10 % 2 ^ 64
        ((v : Int) * 10) :: ((2 ^ 64 - 1 : Int) - digit p) ::
          if product > 2 ^ 64 - 1 - digit p then []
          else ((product : Int) + digit p) :: string2llLoopOps s ((product + digit p) % 2 ^ 64)
    else []

/-- The unsigned operations of a whole call: those of its loop, if the loop is reached. -/
def string2llOps (s : List UInt8) : List Int :=
  match if s.head? = some 45 then s.tail else s with
  | [] => []
  | d :: digits => if 49 ≤ d ∧ d ≤ 57 then string2llLoopOps digits (digit d) else []

/-- The call writes `value` exactly when it returns 1. -/
theorem string2llCall_eq (s : List UInt8) (value : Int) : string2llCall s value =
    match string2ll s with
    | some ll => (1, ll)
    | none => (0, value) := by
  cases s with
  | nil => rfl
  | cons p rest =>
    unfold string2llCall string2ll
    by_cases hzero : (p :: rest).length = 1 ∧ p = 48
    · simp only [if_pos hzero]
    simp only [if_neg hzero]
    rcases (if p = 45 then rest else p :: rest) with - | ⟨d, digits⟩
    · rfl
    by_cases hd : 49 ≤ d ∧ d ≤ 57
    · simp only [if_pos hd]
      rcases string2llLoop digits (digit d) with - | ⟨v, unused⟩
      · rfl
      simp only
      split_ifs <;> rfl
    · simp only [if_neg hd]
      split_ifs <;> rfl

/-! ## No wrap -/

/-- The guards keep every operation of the loop within 64 bits. -/
theorem string2llLoopOps_fit : ∀ (l : List UInt8) {v : Nat}, v < 2 ^ 64 →
    ∀ x ∈ string2llLoopOps l v, 0 ≤ x ∧ x < 2 ^ 64
  | [], v, _, x, hx => by cases hx
  | p :: l, v, hv, x, hx => by
    unfold string2llLoopOps at hx
    by_cases hp : 48 ≤ p ∧ p ≤ 57
    · have hd := digit_lt hp
      rw [if_pos hp] at hx
      by_cases hguard : v > (2 ^ 64 - 1) / 10
      · rw [if_pos hguard] at hx
        cases hx
      · have hmul : v * 10 % 2 ^ 64 = v * 10 := Nat.mod_eq_of_lt (by omega)
        simp only [if_neg hguard, hmul, List.mem_cons] at hx
        rcases hx with rfl | rfl | hx
        · omega
        · omega
        by_cases hguard' : v * 10 > 2 ^ 64 - 1 - digit p
        · rw [if_pos hguard'] at hx
          cases hx
        · rw [if_neg hguard', List.mem_cons] at hx
          rcases hx with rfl | hx
          · omega
          · exact string2llLoopOps_fit l (Nat.mod_lt _ (by omega)) x hx
    · rw [if_neg hp] at hx
      cases hx

theorem string2llOps_fit (s : List UInt8) : ∀ x ∈ string2llOps s, 0 ≤ x ∧ x < 2 ^ 64 := by
  intro x hx
  unfold string2llOps at hx
  split at hx
  · cases hx
  · rename_i d digits _
    split at hx
    · rename_i hd
      have hdigit : IsDigit d := ⟨UInt8.le_trans (show (48 : UInt8) ≤ 49 by decide) hd.1, hd.2⟩
      have := digit_lt hdigit
      exact string2llLoopOps_fit digits (by omega) x hx
    · cases hx

/-! ## Exactness -/

/-- The value that is returned is a 64-bit integer. -/
theorem string2ll_range {s : List UInt8} {ll : Int} (h : string2ll s = some ll) : -2 ^ 63 ≤ ll ∧ ll ≤ 2 ^ 63 - 1 := by
  have hcast (n : Int) : -2 ^ 63 ≤ toLL n ∧ toLL n ≤ 2 ^ 63 - 1 := by unfold toLL; omega
  cases s with
  | nil => cases h
  | cons p rest =>
    unfold string2ll at h
    by_cases hzero : (p :: rest).length = 1 ∧ p = 48
    · simp only [if_pos hzero] at h
      cases h
      omega
    simp only [if_neg hzero] at h
    -- the sign does not matter, since every value returned went through a `long long`
    generalize (if p = 45 then rest else p :: rest) = body at h
    rcases body with - | ⟨d, digits⟩
    · cases h
    by_cases hd : 49 ≤ d ∧ d ≤ 57
    · simp only [if_pos hd] at h
      obtain ⟨v, -, -, hv⟩ := string2llLoop_used hd.1 hd.2 h
      split_ifs at hv
      · obtain rfl := Option.some.inj hv
        exact hcast _
      · obtain rfl := Option.some.inj hv
        exact hcast _
    · simp only [if_neg hd] at h
      split at h
      · cases h
        omega
      · cases h

/-- The numeral of a negative number that fits is read back. -/
theorem string2ll_decimal_neg {n : Nat} (hpos : 0 < n) (h : n ≤ 2 ^ 63) : string2ll (45 :: decimal n) = some (-n : Int) := by
  obtain ⟨b, l, hbl, h1, h2⟩ := decimal_cons hpos
  have hdig := isDigit_decimal n
  have hval := valueFrom_decimal n
  rw [hbl] at hdig hval ⊢
  rw [valueFrom_cons, Nat.zero_mul, Nat.zero_add] at hval
  have hloop := string2llLoop_digits (fun c hc => hdig c (List.mem_cons_of_mem _ hc)) (v := digit b) (by omega)
  have hnot : ¬ ((45 : UInt8) :: b :: l).length = 1 := by simp
  unfold string2ll
  simp only [hnot, false_and, if_false, if_true, h1, h2, and_self, hloop, hval, ne_eq, not_true_eq_false]
  rw [if_neg (by omega), toLL_of_lt (by omega) (by omega)]

/-- `string2ll` reads back the numeral of every 64-bit integer. -/
theorem string2ll_decimalInt {n : Int} (h : -2 ^ 63 ≤ n) (h' : n ≤ 2 ^ 63 - 1) : string2ll (decimalInt n) = some n := by
  obtain ⟨m, rfl | rfl⟩ := Int.eq_nat_or_neg n
  · rw [decimalInt_natCast, string2ll_decimal (by omega)]
  · rcases Nat.eq_zero_or_pos m with rfl | hm
    · rfl
    · rw [decimalInt_neg hm, string2ll_decimal_neg hm (by omega)]

theorem string2ll_eq_some_iff {s : List UInt8} {n : Int} :
    string2ll s = some n ↔ Canonical s n ∧ -2 ^ 63 ≤ n ∧ n ≤ 2 ^ 63 - 1 := by
  rw [canonical_iff]
  constructor
  · intro h
    exact ⟨string2ll_some h, string2ll_range h⟩
  · rintro ⟨rfl, h, h'⟩
    exact string2ll_decimalInt h h'

/-- A call returns 1 exactly on the canonical numerals of the integers from `-2 ^ 63` to `2 ^ 63 - 1`, and
sets `value` to the integer; otherwise it returns 0 and leaves `value` as it was. No operation of its
loop wraps, and the numeral of every such integer is read back. -/
theorem string2ll_exact (s : List UInt8) (value : Int) :
    (∀ n, string2llCall s value = (1, n) ↔ Canonical s n ∧ -2 ^ 63 ≤ n ∧ n ≤ 2 ^ 63 - 1) ∧
    ((¬ ∃ n, Canonical s n ∧ -2 ^ 63 ≤ n ∧ n ≤ 2 ^ 63 - 1) → string2llCall s value = (0, value)) ∧
    (∀ x ∈ string2llOps s, 0 ≤ x ∧ x < 2 ^ 64) ∧
    ∀ n : Int, -2 ^ 63 ≤ n → n ≤ 2 ^ 63 - 1 → string2llCall (decimalInt n) value = (1, n) := by
  refine ⟨fun n => ?_, fun h => ?_, string2llOps_fit s, fun n h h' => ?_⟩
  · rw [← string2ll_eq_some_iff, string2llCall_eq]
    cases string2ll s with
    | none => simp
    | some ll => simp
  · simp only [← string2ll_eq_some_iff] at h
    rw [string2llCall_eq]
    cases hll : string2ll s with
    | none => rfl
    | some ll => exact absurd ⟨ll, hll⟩ h
  · rw [string2llCall_eq, string2ll_decimalInt h h']

example : string2llCall (ascii "-9223372036854775808") 7 = (1, -2 ^ 63) ∧
    string2llCall (ascii "9223372036854775808") 7 = (0, 7) := by decide

end PubsubBroker

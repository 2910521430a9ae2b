/-
The number parser and the client ids of `util.c`.
-/
import PubsubBroker.Common.Sds
import PubsubBroker.Lib.Numeral

namespace PubsubBroker

open CLang Numeral

/-! ## `string2ll` -/

/-- The loop of `string2ll` over the digits after the first one, with the value so far as an
`unsigned long long`: `none` on overflow, otherwise the value and the bytes not used. -/
def string2llLoop : List UInt8 → Nat → Option (Nat × List UInt8)
  | [], v => some (v, [])
  | p :: s, v =>
    if 48 ≤ p ∧ p ≤ 57 then
      if v > (2 ^ 64 - 1) / 10 then none
      else
        let v := v * 10 % 2 ^ 64
        if v > 2 ^ 64 - 1 - digit p then none
        else string2llLoop s ((v + digit p) % 2 ^ 64)
    else some (v, p :: s)

/-- `string2ll(s, slen, &value)`: the value where it returns 1, `none` where it returns 0. -/
def string2ll (s : List UInt8) : Option Int :=
  match s with
  | [] => none
  | p :: rest =>
    if s.length = 1 ∧ p = 48 then some 0
    else
      let negative := p = 45
      match if negative then rest else s with
      | [] => none
      | d :: digits =>
        if 49 ≤ d ∧ d ≤ 57 then
          match string2llLoop digits (digit d) with
          | none => none
          | some (v, unused) =>
            if unused ≠ [] then none
            else if negative then
              if v > 2 ^ 63 then none else some (toLL (-v))
            else
              if v > 2 ^ 63 - 1 then none else some (toLL v)
        else if d = 48 ∧ s.length = 1 then some 0
        else none

/-- On digits whose value fits, the loop computes it without a wrap. -/
theorem string2llLoop_digits {l : List UInt8} (hl : ∀ b ∈ l, IsDigit b) :
    ∀ {v : Nat}, valueFrom v l < 2 ^ 64 → string2llLoop l v = some (valueFrom v l, []) := by
  induction l with
  | nil => intro v _; rfl
  | cons b l ih =>
    intro v hv
    have hb : IsDigit b := hl b (List.mem_cons_self ..)
    have hd := digit_lt hb
    have hle : v * 10 + digit b < 2 ^ 64 := lt_of_le_of_lt (le_valueFrom _ l) hv
    rw [valueFrom_cons] at hv ⊢
    unfold string2llLoop
    rw [if_pos (show 48 ≤ b ∧ b ≤ 57 from hb), if_neg (by omega)]
    simp only [Nat.mod_eq_of_lt (by omega : v * 10 < 2 ^ 64), Nat.mod_eq_of_lt hle]
    rw [if_neg (by omega)]
    exact ih (fun c hc => hl c (List.mem_cons_of_mem _ hc)) hv

/-- `string2ll` reads back the numeral of a number that fits. -/
theorem string2ll_decimal {n : Nat} (h : n < 2 ^ 63) : string2ll (decimal n) = some (n : Int) := by
  rcases Nat.eq_zero_or_pos n with rfl | hn
  · rfl
  obtain ⟨b, l, hbl, h1, h2⟩ := decimal_cons hn
  have hdig := isDigit_decimal n
  have hval := valueFrom_decimal n
  rw [hbl] at hdig hval ⊢
  have hb : IsDigit b := hdig b (List.mem_cons_self ..)
  have h48 : b ≠ 48 := by rintro rfl; exact absurd h1 (by decide)
  have h45 : b ≠ 45 := by rintro rfl; exact absurd h1 (by decide)
  rw [valueFrom_cons, Nat.zero_mul, Nat.zero_add] at hval
  have hloop := string2llLoop_digits (fun c hc => hdig c (List.mem_cons_of_mem _ hc)) (v := digit b) (by omega)
  unfold string2ll
  simp only [h48, h45, and_false, if_false, h1, h2, and_self, if_true, hloop, hval, ne_eq, not_true_eq_false]
  rw [if_neg (by omega), toLL_of_lt (by omega) (by omega)]

/-- What the loop accepts to the end is digits, and it has computed their value without a wrap. -/
theorem string2llLoop_some {l : List UInt8} : ∀ {v v' : Nat}, v < 2 ^ 64 → string2llLoop l v = some (v', []) →
    (∀ b ∈ l, IsDigit b) ∧ v' = valueFrom v l := by
  induction l with
  | nil =>
    intro v v' _ h
    cases h
    exact ⟨by simp, rfl⟩
  | cons b l ih =>
    intro v v' hv h
    unfold string2llLoop at h
    split at h
    · rename_i hb
      have hd := digit_lt hb
      split at h
      · cases h
      · have hmul : v * 10 % 2 ^ 64 = v * 10 := Nat.mod_eq_of_lt (by omega)
        simp only [hmul] at h
        split at h
        · cases h
        · have hadd : (v * 10 + digit b) % 2 ^ 64 = v * 10 + digit b := Nat.mod_eq_of_lt (by omega)
          rw [hadd] at h
          obtain ⟨hl, rfl⟩ := ih (by omega) h
          exact ⟨List.forall_mem_cons.2 ⟨hb, hl⟩, rfl⟩
    · cases h

/-- Digits that the loop accepts behind a first digit other than `'0'` are the numeral of the value. -/
theorem string2llLoop_decimal {d : UInt8} {digits : List UInt8} {v : Nat} (h1 : 49 ≤ d) (h2 : d ≤ 57)
    (h : string2llLoop digits (digit d) = some (v, [])) : decimal v = d :: digits ∧ 0 < v := by
  have hd : IsDigit d := ⟨UInt8.le_trans (show (48 : UInt8) ≤ 49 by decide) h1, h2⟩
  obtain ⟨hdigits, rfl⟩ := string2llLoop_some (by have := digit_lt hd; omega) h
  have := decimal_valueFrom h1 h2 digits hdigits
  rwa [valueFrom_cons, Nat.zero_mul, Nat.zero_add] at this

/-- What is made of the value of digits that are all used. -/
theorem string2llLoop_used {d : UInt8} {digits : List UInt8} {f : Nat → Option Int} {ll : Int} (h1 : 49 ≤ d) (h2 : d ≤ 57)
    (h : (match string2llLoop digits (digit d) with
      | none => none
      | some (v, unused) => if unused ≠ [] then none else f v) = some ll) :
    ∃ v, decimal v = d :: digits ∧ 0 < v ∧ f v = some ll := by
  cases hloop : string2llLoop digits (digit d) with
  | none => simp [hloop] at h
  | some r =>
    obtain ⟨v, unused⟩ := r
    simp only [hloop] at h
    split at h
    · cases h
    · rename_i hused
      rw [not_not.1 hused] at hloop
      obtain ⟨hdec, hpos⟩ := string2llLoop_decimal h1 h2 hloop
      exact ⟨v, hdec, hpos, h⟩

/-- `string2ll` accepts nothing but the numeral of the number it returns. -/
theorem string2ll_some {s : List UInt8} {ll : Int} (h : string2ll s = some ll) : s = decimalInt ll := by
  cases s with
  | nil => cases h
  | cons p rest =>
    unfold string2ll at h
    by_cases hzero : (p :: rest).length = 1 ∧ p = 48
    · obtain ⟨hlen, rfl⟩ := hzero
      have hrest : rest = [] := List.length_eq_zero_iff.1 (by simpa using hlen)
      subst hrest
      cases h
      rfl
    simp only [if_neg hzero] at h
    -- behind the sign, or without one, the first digit is from 1 to 9
    by_cases hneg : p = 45
    · subst hneg
      cases rest with
      | nil => cases h
      | cons d digits =>
        simp only [if_true] at h
        split at h
        · rename_i hd
          obtain ⟨v, hdec, hpos, hv⟩ := string2llLoop_used hd.1 hd.2 h
          split at hv
          · cases hv
          · obtain rfl := Option.some.inj hv
            rw [toLL_of_lt (by omega) (by omega), decimalInt, if_pos (by omega), Int.natAbs_neg, Int.natAbs_natCast, hdec]
        · simp at h
    · simp only [if_neg hneg] at h
      split at h
      · rename_i hd
        obtain ⟨v, hdec, hpos, hv⟩ := string2llLoop_used hd.1 hd.2 h
        split at hv
        · cases hv
        · obtain rfl := Option.some.inj hv
          rw [toLL_of_lt (by omega) (by omega), decimalInt_natCast, hdec]
      · split at h
        · rename_i h0
          exact absurd ⟨h0.2, h0.1⟩ hzero
        · cases h

/-! ## Client ids -/

/-- The digit `printf("%x")` prints for `d < 16`. -/
def hexDigit (d : Nat) : UInt8 := if d < 10 then 48 + d.toUInt8 else 87 + d.toUInt8

/-- `sprintf("%.<width>x", n)` for `n` below `16 ^ width`. -/
def hexFixed : Nat → Nat → List UInt8
  | 0, _ => []
  | width + 1, n => hexFixed width (n / 16) ++ [hexDigit (n % 16)]

/-- `create_objectid(oid, seq)` at the time `sec` in a process `pid`: seconds, a constant, the
process and the counter, which counts as 0 outside `[0, 2 ^ 24)`. -/
def createObjectid (sec pid : Nat) (seq : Int) : Sds :=
  hexFixed 8 (sec % (2 ^ 31 - 1)) ++ hexFixed 6 0xffffff ++ hexFixed 4 (pid % (2 ^ 15 - 1)) ++
    hexFixed 6 (if seq < 0 ∨ seq ≥ 2 ^ 24 then 0 else seq).toNat

theorem length_hexFixed (width n : Nat) : (hexFixed width n).length = width := by
  induction width generalizing n with
  | zero => rfl
  | succ width ih => rw [hexFixed, List.length_append, ih]; rfl

theorem hexDigit_inj : ∀ a < 16, ∀ b < 16, hexDigit a = hexDigit b → a = b := by decide

/-- Fixed-width numerals tell the numbers apart that fit the width. -/
theorem hexFixed_inj {width n m : Nat} (hn : n < 16 ^ width) (hm : m < 16 ^ width)
    (h : hexFixed width n = hexFixed width m) : n = m := by
  induction width generalizing n m with
  | zero => omega
  | succ width ih =>
    rw [Nat.pow_succ] at hn hm
    obtain ⟨hhigh, hlow⟩ := List.append_inj h (by rw [length_hexFixed, length_hexFixed])
    have hdiv : n / 16 = m / 16 := ih (by omega) (by omega) hhigh
    have hmod : n % 16 = m % 16 := by
      refine hexDigit_inj _ (Nat.mod_lt _ (by omega)) _ (Nat.mod_lt _ (by omega)) ?_
      simpa using hlow
    omega

/-- The counter as an id shows it. -/
def shownSeq (seq : Int) : Int := if seq < 0 ∨ seq ≥ 2 ^ 24 then 0 else seq

theorem shownSeq_bounds (seq : Int) : 0 ≤ shownSeq seq ∧ shownSeq seq < 2 ^ 24 := by
  unfold shownSeq
  split <;> omega

/-- Two ids are equal when they show the same second, the same process and the same counter. -/
theorem createObjectid_eq_iff {sec sec' pid pid' : Nat} {seq seq' : Int} :
    createObjectid sec pid seq = createObjectid sec' pid' seq' ↔
      sec % (2 ^ 31 - 1) = sec' % (2 ^ 31 - 1) ∧ pid % (2 ^ 15 - 1) = pid' % (2 ^ 15 - 1) ∧
        shownSeq seq = shownSeq seq' := by
  have hdef (sec pid : Nat) (seq : Int) : createObjectid sec pid seq =
      hexFixed 8 (sec % (2 ^ 31 - 1)) ++ hexFixed 6 0xffffff ++ hexFixed 4 (pid % (2 ^ 15 - 1)) ++
        hexFixed 6 (shownSeq seq).toNat := rfl
  rw [hdef, hdef]
  constructor
  · intro h
    obtain ⟨hfront, hseq⟩ := List.append_inj h (by simp [length_hexFixed])
    obtain ⟨hfront, hpid⟩ := List.append_inj hfront (by simp [length_hexFixed])
    obtain ⟨hsec, -⟩ := List.append_inj hfront (by simp [length_hexFixed])
    have hb := shownSeq_bounds seq
    have hb' := shownSeq_bounds seq'
    refine ⟨hexFixed_inj (by omega) (by omega) hsec, hexFixed_inj (by omega) (by omega) hpid, ?_⟩
    have := hexFixed_inj (by omega) (by omega) hseq
    omega
  · rintro ⟨hsec, hpid, hseq⟩
    rw [hsec, hpid, hseq]

end PubsubBroker

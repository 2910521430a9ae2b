/-
The dynamic strings of `common/sds.c`, as far as the broker uses them. A string is the list of its
bytes (`sdslen` is the length of the list); it may hold NUL bytes, and the functions that take a
`char *` see only the part before the first one.
-/
import PubsubBroker.Lib.CLang

namespace PubsubBroker

open CLang

/-- An `sds` string. -/
abbrev Sds := List UInt8

/-- `'\r'` -/
abbrev CR : UInt8 := 13
/-- `'\n'` -/
abbrev LF : UInt8 := 10
/-- A double quote. -/
abbrev DQUOTE : UInt8 := 34
/-- A single quote. -/
abbrev SQUOTE : UInt8 := 39
/-- A backslash. -/
abbrev BACKSLASH : UInt8 := 92

/-! ## Ranges -/

/-- `sdsrange(s, start, end)`: the substring between two inclusive indexes, negative ones counted
from the end. Indexes are `int`s, and so is the length once it is cast to `signed`. -/
def sdsrange (s : Sds) (start fin : Int) : Sds :=
  let len : Int := s.length
  if len = 0 then s
  else
    let start := if start < 0 then max (toInt (len + start)) 0 else start
    let fin := if fin < 0 then max (toInt (len + fin)) 0 else fin
    let newlen := if start > fin then 0 else fin - start + 1
    if newlen ≠ 0 then
      if start ≥ toInt len then []
      else if fin ≥ toInt len then
        let fin := toInt (len - 1)
        (s.drop start.toNat).take (if start > fin then 0 else fin - start + 1).toNat
      else (s.drop start.toNat).take newlen.toNat
    else []

/-- On a string shorter than `2 ^ 31`, trimming from `n` on drops the first `n` bytes. -/
theorem sdsrange_drop {s : Sds} (h : s.length < 2 ^ 31) (n : Nat) : sdsrange s n (-1) = s.drop n := by
  have h1 : toInt (s.length : Int) = s.length := toInt_of_lt (by omega) (by omega)
  unfold sdsrange
  simp only [h1]
  by_cases h0 : (s.length : Int) = 0
  · have : s = [] := List.length_eq_zero_iff.1 (by omega)
    simp [this]
  · have h2 : toInt ((s.length : Int) + -1) = s.length - 1 := by rw [toInt_of_lt] <;> omega
    rw [if_neg h0, if_neg (by omega : ¬ (n : Int) < 0), if_pos (by omega : (-1 : Int) < 0), h2,
      max_eq_left (by omega)]
    by_cases hn : s.length ≤ n
    · rw [if_pos (by omega : (n : Int) > s.length - 1), if_neg (by omega), List.drop_of_length_le hn]
    · rw [if_neg (by omega : ¬ (n : Int) > s.length - 1), if_pos (by omega), if_neg (by omega), if_neg (by omega)]
      exact List.take_of_length_le (by simp; omega)

/-- Once the length of a string is negative as an `int`, every trim empties it. -/
theorem sdsrange_of_negative {s : Sds} (h : 2 ^ 31 ≤ s.length) (h' : s.length < 2 ^ 32) (start : Int) :
    sdsrange s start (-1) = [] := by
  have hneg : toInt s.length < 0 := by unfold toInt; omega
  have hstart : (if start < 0 then max (toInt (s.length + start)) 0 else start) ≥ toInt s.length := by
    split <;> omega
  unfold sdsrange
  simp only
  rw [if_neg (by omega), if_pos hstart, ite_self]

/-- Trimming by the whole length empties the string, whatever the length is as an `int`. -/
theorem sdsrange_length (s : Sds) : sdsrange s (toInt s.length) (-1) = [] := by
  have hstart : (if toInt s.length < 0 then max (toInt (s.length + toInt s.length)) 0 else toInt s.length) ≥
      toInt s.length := by
    split <;> omega
  unfold sdsrange
  simp only [if_pos hstart]
  split_ifs with h0
  · exact List.length_eq_zero_iff.1 (by omega)
  all_goals rfl

/-! ## Case -/

/-- `tolower` in the C locale. -/
def tolower (b : UInt8) : UInt8 := if 65 ≤ b ∧ b ≤ 90 then b + 32 else b

/-- `sdstolower(s)`. -/
def sdstolower (s : Sds) : Sds := s.map tolower

/-! ## Splitting a line into arguments -/

/-- `isspace` in the C locale. -/
def isspace (b : UInt8) : Bool := b = 32 || (9 ≤ b && b ≤ 13)

/-- `is_hex_digit(c)`. -/
def isHexDigit (b : UInt8) : Bool := (48 ≤ b && b ≤ 57) || (97 ≤ b && b ≤ 102) || (65 ≤ b && b ≤ 70)

/-- `hex_digit_to_int(c)`. -/
def hexDigitToInt (b : UInt8) : UInt8 :=
  if 48 ≤ b ∧ b ≤ 57 then b - 48
  else if 97 ≤ b ∧ b ≤ 102 then b - 87
  else if 65 ≤ b ∧ b ≤ 70 then b - 55
  else 0

/-- The byte that a backslash and `b` stand for between double quotes. -/
def unescape (b : UInt8) : UInt8 :=
  if b = 110 then LF else if b = 114 then CR else if b = 116 then 9 else if b = 98 then 8
  else if b = 97 then 7 else b

/-- Where the scanner of a token is: `inq`, `insq`, or neither. -/
inductive Quote
  | plain
  | inq
  | insq
  deriving DecidableEq, Repr

/-- The inner loop of `sdssplitargs`: one token from `p`, appended to `current`, with what is left of
the line; `none` on unbalanced quotes, or on a closing quote that no space or end follows. -/
def splitToken : Quote → Sds → List UInt8 → Option (Sds × List UInt8)
  | .plain, current, [] => some (current, [])
  | .plain, current, b :: p =>
    if b = 32 ∨ b = LF ∨ b = CR ∨ b = 9 then some (current, p)
    else if b = DQUOTE then splitToken .inq current p
    else if b = SQUOTE then splitToken .insq current p
    else splitToken .plain (current ++ [b]) p
  | .inq, _, [] => none
  | .inq, current, b :: p =>
    if b = BACKSLASH then
      match p with
      | [] => splitToken .inq (current ++ [b]) []
      | e :: p =>
        match p with
        | h1 :: h2 :: p' =>
          if e = 120 ∧ isHexDigit h1 ∧ isHexDigit h2 then
            splitToken .inq (current ++ [hexDigitToInt h1 * 16 + hexDigitToInt h2]) p'
          else splitToken .inq (current ++ [unescape e]) (h1 :: h2 :: p')
        | p => splitToken .inq (current ++ [unescape e]) p
    else if b = DQUOTE then
      match p with
      | [] => some (current, [])
      | e :: p => if isspace e then some (current, e :: p) else none
    else splitToken .inq (current ++ [b]) p
  | .insq, _, [] => none
  | .insq, current, b :: p =>
    if b = BACKSLASH then
      match p with
      | [] => splitToken .insq (current ++ [b]) []
      | e :: p =>
        if e = SQUOTE then splitToken .insq (current ++ [SQUOTE]) p
        else splitToken .insq (current ++ [b]) (e :: p)
    else if b = SQUOTE then
      match p with
      | [] => some (current, [])
      | e :: p => if isspace e then some (current, e :: p) else none
    else splitToken .insq (current ++ [b]) p

/-- The outer loop of `sdssplitargs`: skip blanks, take a token, until the line ends. A token takes
at least one byte, so a fuel above the length of the line is never used up. -/
def splitLoop : Nat → List UInt8 → List Sds → Option (List Sds)
  | 0, _, vector => some vector
  | fuel + 1, p, vector =>
    match p.dropWhile isspace with
    | [] => some vector
    | b :: p =>
      match splitToken .plain [] (b :: p) with
      | none => none
      | some (current, p) => splitLoop fuel p (vector ++ [current])

/-- `sdssplitargs(line)`: the arguments of a line, or `none` where it returns `NULL`. -/
def sdssplitargs (line : List UInt8) : Option (List Sds) := splitLoop (line.length + 1) (cstr line) []

example : sdssplitargs (ascii "sub \"a\\x41b\" 'c d'") = some [ascii "sub", ascii "aAb", ascii "c d"] := by decide +kernel

end PubsubBroker

/-
The strings of `common/cJSON.c`: what `parse_string` makes of a string in a text, where `item->valuestring` is the
block that it allocates, and what `print_string_ptr` prints. Both count what they need in an `int`, which is taken to
wrap, and their `malloc` does not fail.
-/
import PubsubBroker.Common.Repr
import PubsubBroker.Lib.Buffer

namespace PubsubBroker

open CLang Buffer

namespace Json

/-! ## Parsing -/

/-- `parse_hex4` from the `n`-th last digit on: 0 where there is something else than a digit. -/
def hexLoop (m : List (Option UInt8)) : Nat → Nat → Nat → Except MemFault Nat
  | 0, _, h => .ok h
  | n + 1, str, h => do
    let b ← get m str
    if isHexDigit b then hexLoop m n (str + 1) (16 * h + (hexDigitToInt b).toNat) else .ok 0

/-- `parse_hex4(str)` -/
def parseHex4 (m : List (Option UInt8)) (str : Nat) : Except MemFault Nat := hexLoop m 4 str 0

/-- The loop of `parse_string` that skips to the end: how long the string is, roughly. -/
def lenLoop (m : List (Option UInt8)) : Nat → Nat → Int → Except MemFault Int
  | 0, ptr, _ => .error (.access ptr)
  | fuel + 1, ptr, len => do
    let b ← get m ptr
    if b = DQUOTE ∨ b = 0 then .ok len
    -- `++len` is the last part of the condition
    else if toInt (len + 1) = 0 then .ok 0
    else lenLoop m fuel (if b = BACKSLASH then ptr + 2 else ptr + 1) (toInt (len + 1))

/-- `len=4;if (uc<0x80) len=1;else if (uc<0x800) len=2;else if (uc<0x10000) len=3;` -/
def utf8Len (uc : Nat) : Nat := if uc < 0x80 then 1 else if uc < 0x800 then 2 else if uc < 0x10000 then 3 else 4

def firstByteMark (len : Nat) : Nat := [0x00, 0x00, 0xC0, 0xE0, 0xF0, 0xF8, 0xFC].getD len 0

/-- The cases of the `switch` down to the second byte: `n` bytes from `base` on, the last one first. -/
def putTail : Nat → Nat → List (Option UInt8) → Nat → Except MemFault (List (Option UInt8) × Nat)
  | 0, _, out, uc => .ok (out, uc)
  | n + 1, base, out, uc => do
    let out ← set out (base + n) ((uc ||| 0x80) &&& 0xBF).toUInt8
    putTail n base out (uc >>> 6)

/-- The character `uc` at `ptr2`, and where the next one goes. -/
def putChar (out : List (Option UInt8)) (ptr2 uc : Nat) : Except MemFault (List (Option UInt8) × Nat) := do
  let len := utf8Len uc
  let (out, uc) ← putTail (len - 1) (ptr2 + 1) out uc
  let out ← set out ptr2 (uc ||| firstByteMark len).toUInt8
  return (out, ptr2 + len)

/-- The second half of a surrogate pair, where `ptr` is at the last digit of the first one. -/
def putPair (m : List (Option UInt8)) (ptr : Nat) (out : List (Option UInt8)) (ptr2 uc : Nat) :
    Except MemFault (Nat × List (Option UInt8) × Nat) := do
  let b ← get m (ptr + 1)
  if b ≠ BACKSLASH then .ok (ptr, out, ptr2)
  else do
    let b ← get m (ptr + 2)
    if b ≠ 117 then .ok (ptr, out, ptr2)
    else do
      let uc2 ← parseHex4 m (ptr + 3)
      if uc2 < 0xDC00 ∨ 0xDFFF < uc2 then .ok (ptr + 6, out, ptr2)
      else do
        let (out, ptr2) ← putChar out ptr2 (0x10000 + (((uc &&& 0x3FF) <<< 10) ||| (uc2 &&& 0x3FF)))
        return (ptr + 6, out, ptr2)

/-- `case 'u'` -/
def putUnicode (m : List (Option UInt8)) (ptr : Nat) (out : List (Option UInt8)) (ptr2 : Nat) :
    Except MemFault (Nat × List (Option UInt8) × Nat) := do
  let uc ← parseHex4 m (ptr + 1)
  if (0xDC00 ≤ uc ∧ uc ≤ 0xDFFF) ∨ uc = 0 then .ok (ptr + 4, out, ptr2)
  else if 0xD800 ≤ uc ∧ uc ≤ 0xDBFF then putPair m (ptr + 4) out ptr2 uc
  else do
    let (out, ptr2) ← putChar out ptr2 uc
    return (ptr + 4, out, ptr2)

/-- What a backslash and `b` stand for, other than `u`. -/
def escaped (b : UInt8) : UInt8 :=
  if b = 98 then 8 else if b = 102 then 12 else if b = 110 then 10 else if b = 114 then 13 else if b = 116 then 9 else b

/-- The `switch` behind a backslash. -/
def putEscape (m : List (Option UInt8)) (ptr : Nat) (out : List (Option UInt8)) (ptr2 : Nat) :
    Except MemFault (Nat × List (Option UInt8) × Nat) := do
  let b ← get m ptr
  if b = 117 then putUnicode m ptr out ptr2
  else do
    let out ← set out ptr2 (escaped b)
    return (ptr, out, ptr2 + 1)

/-- The loop of `parse_string` that fills `out`: where it stops in the text and in `out`. -/
def stringLoop (m : List (Option UInt8)) : Nat → Nat → List (Option UInt8) → Nat → Except MemFault (Nat × List (Option UInt8) × Nat)
  | 0, ptr, _, _ => .error (.access ptr)
  | fuel + 1, ptr, out, ptr2 => do
    let b ← get m ptr
    if b = DQUOTE ∨ b = 0 then .ok (ptr, out, ptr2)
    else if b ≠ BACKSLASH then do
      let out ← set out ptr2 b
      stringLoop m fuel (ptr + 1) out (ptr2 + 1)
    else do
      let (ptr, out, ptr2) ← putEscape m (ptr + 1) out ptr2
      stringLoop m fuel (ptr + 1) out ptr2

/-- The part of `parse_string` behind the first loop: the pointer that it returns, and `item->valuestring`. -/
def fillString (m : List (Option UInt8)) (str : Nat) (len : Int) : Except MemFault (Nat × List (Option UInt8)) := do
  let (ptr, out, ptr2) ← stringLoop m (m.length + 1) (str + 1) (List.replicate (toSize (toInt (len + 1))) none) 0
  let out ← set out ptr2 0
  let b ← get m ptr
  return (if b = DQUOTE then ptr + 1 else ptr, out)

/-- `parse_string(item, str)`, with `none` for `NULL`. -/
def parseString (m : List (Option UInt8)) (str : Nat) : Except MemFault (Option (Nat × List (Option UInt8))) := do
  let b ← get m str
  if b ≠ DQUOTE then .ok none
  else do
    let len ← lenLoop m (m.length + 1) (str + 1) 0
    let r ← fillString m str len
    return some r

/-! ## Printing -/

/-- What a byte takes more than one, in the first loop of `print_string_ptr`. -/
def escapeLen (token : UInt8) : Int := if token ∈ [DQUOTE, BACKSLASH, 8, 12, 10, 13, 9] then 1 else if token < 32 then 5 else 0

/-- The first loop of `print_string_ptr`, over the bytes up to the terminator. -/
def printLen : List UInt8 → Int → Int
  | [], len => len
  | token :: s, len =>
    if toInt (len + 1) = 0 then 0 else printLen s (toInt (toInt (len + 1) + escapeLen token))

/-- The cases of the `switch` that put a single character. -/
def shortEscape (token : UInt8) : Option UInt8 :=
  if token = BACKSLASH then some BACKSLASH else if token = DQUOTE then some DQUOTE else if token = 8 then some 98
  else if token = 12 then some 102 else if token = 10 then some 110 else if token = 13 then some 114
  else if token = 9 then some 116 else none

/-- The `switch` of `print_string_ptr`. Its default case is a `sprintf`, which puts a terminator as well. -/
def printEscape (token : UInt8) (out : List (Option UInt8)) (ptr2 : Nat) : Except MemFault (List (Option UInt8) × Nat) :=
  match shortEscape token with
  | some ch => do
    let out ← set out ptr2 ch
    return (out, ptr2 + 1)
  | none => do
    let out ← copy out ptr2 (117 :: hexFixed 4 token.toNat ++ [0])
    return (out, ptr2 + 5)

/-- One pass of the second loop. -/
def printByte (b : UInt8) (out : List (Option UInt8)) (ptr2 : Nat) : Except MemFault (List (Option UInt8) × Nat) :=
  if 31 < b ∧ b ≠ DQUOTE ∧ b ≠ BACKSLASH then do
    let out ← set out ptr2 b
    return (out, ptr2 + 1)
  else do
    let out ← set out ptr2 BACKSLASH
    printEscape b out (ptr2 + 1)

def printLoop : List UInt8 → List (Option UInt8) → Nat → Except MemFault (List (Option UInt8) × Nat)
  | [], out, ptr2 => .ok (out, ptr2)
  | b :: s, out, ptr2 => do
    let (out, ptr2) ← printByte b out ptr2
    printLoop s out ptr2

/-- `print_string_ptr(str)`, where `s` is what is in memory from `str` on: the block that it returns. -/
def printStringPtr (s : List UInt8) : Except MemFault (List (Option UInt8)) := do
  let out ← set (List.replicate (toSize (toInt (printLen (cstr s) 0 + 3))) none) 0 DQUOTE
  let (out, ptr2) ← printLoop (cstr s) out 1
  let out ← set out ptr2 DQUOTE
  set out (ptr2 + 1) 0

/-! ## What a string stands for -/

def hexValue (ds : List UInt8) : Nat := ds.foldl (fun h d => 16 * h + (hexDigitToInt d).toNat) 0

/-- Four hexadecimal digits with the value `uc`. -/
def Hex4 (ds : List UInt8) (uc : Nat) : Prop := ds.length = 4 ∧ (∀ d ∈ ds, isHexDigit d) ∧ hexValue ds = uc

/-- The bytes of a Unicode character. -/
def utf8 (uc : Nat) : List UInt8 := String.utf8EncodeChar (Char.ofNat uc)

/-- A piece of a string, and the bytes it stands for: a byte as it is, a short escape, and UTF-16 in
hexadecimal digits. The character 0 is none that a C string can have. -/
inductive Piece : List UInt8 → List UInt8 → Prop
  | plain {b : UInt8} (hq : b ≠ DQUOTE) (hb : b ≠ BACKSLASH) (h0 : b ≠ 0) : Piece [b] [b]
  | escape {b : UInt8} (hu : b ≠ 117) (h0 : b ≠ 0) : Piece [BACKSLASH, b] [escaped b]
  | unicode {d : List UInt8} {uc : Nat} (hd : Hex4 d uc) (h0 : uc ≠ 0) (hs : uc < 0xD800 ∨ 0xDFFF < uc) :
      Piece (BACKSLASH :: 117 :: d) (utf8 uc)
  | pair {d e : List UInt8} {hi lo : Nat} (hd : Hex4 d hi) (he : Hex4 e lo) (hh : 0xD800 ≤ hi ∧ hi ≤ 0xDBFF)
      (hl : 0xDC00 ≤ lo ∧ lo ≤ 0xDFFF) :
      Piece (BACKSLASH :: 117 :: d ++ BACKSLASH :: 117 :: e) (utf8 (0x10000 + (hi - 0xD800) * 0x400 + (lo - 0xDC00)))

/-- What is between the quotes of a string, and the bytes it stands for. -/
inductive Encodes : List UInt8 → List UInt8 → Prop
  | nil : Encodes [] []
  | cons {c v text value : List UInt8} (hc : Piece c v) (h : Encodes text value) : Encodes (c ++ text) (v ++ value)

/-! ## UTF-8 -/

/-- The bytes behind the first one. -/
def tailBytes : Nat → Nat → List UInt8
  | 0, _ => []
  | n + 1, uc => tailBytes n (uc >>> 6) ++ [((uc ||| 0x80) &&& 0xBF).toUInt8]

theorem length_tailBytes (n uc : Nat) : (tailBytes n uc).length = n := by
  induction n generalizing uc with
  | zero => rfl
  | succ n ih => rw [tailBytes, List.length_append, ih, List.length_singleton]

theorem putTail_append : ∀ (n uc : Nat) (l mid r : List (Option UInt8)), mid.length = n →
    putTail n l.length (l ++ (mid ++ r)) uc = .ok (l ++ ((tailBytes n uc).map some ++ r), uc >>> (6 * n))
  | 0, uc, l, mid, r, h => by
    obtain rfl := List.length_eq_zero_iff.1 h
    rfl
  | n + 1, uc, l, mid, r, h => by
    obtain ⟨mid, c, rfl⟩ : ∃ mid' c, mid = mid' ++ [c] :=
      ⟨_, _, (List.dropLast_append_getLast (List.ne_nil_of_length_eq_add_one h)).symm⟩
    have hmid : mid.length = n := by simpa using h
    have hset := set_append (l ++ mid) c r ((uc ||| 0x80) &&& 0xBF).toUInt8
    rw [List.length_append, hmid, List.append_assoc, List.append_assoc] at hset
    rw [putTail, List.append_assoc, List.singleton_append, hset, done_bind, putTail_append n _ l mid _ hmid, tailBytes,
      List.map_append, List.append_assoc, ← Nat.shiftRight_add, Nat.mul_succ, Nat.add_comm 6]
    rfl

theorem tail_byte (x : Nat) : ((x ||| 0x80) &&& 0xBF).toUInt8 = UInt8.ofNat (x % 64 + 0x80) := by
  have hall : ∀ i < 256, ((UInt8.ofNat i ||| 0x80) &&& 0xBF) = UInt8.ofNat (i % 64 + 0x80) := by decide +kernel
  have hx := hall (x % 256) (Nat.mod_lt _ (by omega))
  have hmod : UInt8.ofNat (x % 256) = UInt8.ofNat x := UInt8.toNat_inj.1 (by simp)
  rw [hmod, Nat.mod_mod_of_dvd _ (by decide)] at hx
  rw [← hx, Nat.toUInt8, UInt8.ofNat_and, UInt8.ofNat_or]
  rfl

theorem toNat_val_ofNat {uc : Nat} (h : uc < 0xD800 ∨ 0xDFFF < uc) (hlt : uc < 0x110000) : (Char.ofNat uc).val.toNat = uc := by
  have hvalid : uc.isValidChar := by unfold Nat.isValidChar; omega
  rw [Char.ofNat, dif_pos hvalid]
  rfl

/-- What the `switch` writes for a character is its UTF-8. -/
theorem utf8_eq {uc : Nat} (h : uc < 0xD800 ∨ 0xDFFF < uc) (hlt : uc < 0x110000) :
    (uc >>> (6 * (utf8Len uc - 1)) ||| firstByteMark (utf8Len uc)).toUInt8 :: tailBytes (utf8Len uc - 1) uc = utf8 uc := by
  have hlead₂ : ∀ x < 32, (x ||| 0xC0).toUInt8 = UInt8.ofNat (x % 0x20 + 0xC0) := by decide
  have hlead₃ : ∀ x < 16, (x ||| 0xE0).toUInt8 = UInt8.ofNat (x % 0x10 + 0xE0) := by decide
  have hlead₄ : ∀ x < 8, (x ||| 0xF0).toUInt8 = UInt8.ofNat (x % 0x08 + 0xF0) := by decide
  unfold utf8 String.utf8EncodeChar utf8Len
  simp only [toNat_val_ofNat h hlt]
  rcases Nat.lt_or_ge uc 0x80 with h1 | h1
  · rw [if_pos h1, if_pos (by omega : uc ≤ 0x7f)]
    simp [firstByteMark, tailBytes]
  rw [if_neg (by omega : ¬ uc < 0x80), if_neg (by omega : ¬ uc ≤ 0x7f)]
  rcases Nat.lt_or_ge uc 0x800 with h2 | h2
  · rw [if_pos h2, if_pos (by omega : uc ≤ 0x7ff)]
    simp only [firstByteMark, tailBytes, tail_byte, Nat.shiftRight_eq_div_pow]
    exact congrArg (· :: _) (hlead₂ _ (by omega))
  rw [if_neg (by omega : ¬ uc < 0x800), if_neg (by omega : ¬ uc ≤ 0x7ff)]
  rcases Nat.lt_or_ge uc 0x10000 with h3 | h3
  · rw [if_pos h3, if_pos (by omega : uc ≤ 0xffff)]
    simp only [firstByteMark, tailBytes, tail_byte, Nat.shiftRight_eq_div_pow]
    exact congrArg (· :: _) (hlead₃ _ (by omega))
  · rw [if_neg (by omega : ¬ uc < 0x10000), if_neg (by omega : ¬ uc ≤ 0xffff)]
    simp only [firstByteMark, tailBytes, tail_byte, Nat.shiftRight_eq_div_pow, Nat.div_div_eq_div_mul]
    exact congrArg (· :: _) (hlead₄ _ (by omega))

theorem length_utf8 {uc : Nat} (h : uc < 0xD800 ∨ 0xDFFF < uc) (hlt : uc < 0x110000) : (utf8 uc).length = utf8Len uc := by
  rw [← utf8_eq h hlt, List.length_cons, length_tailBytes]
  unfold utf8Len
  split_ifs <;> rfl

theorem length_utf8_le {uc : Nat} (h : uc < 0xD800 ∨ 0xDFFF < uc) (hlt : uc < 0x110000) : (utf8 uc).length ≤ 4 := by
  rw [length_utf8 h hlt]
  unfold utf8Len
  split_ifs <;> omega

/-- A character is written where there is room for it. -/
theorem putChar_append {uc : Nat} (h : uc < 0xD800 ∨ 0xDFFF < uc) (hlt : uc < 0x110000) (l mid r : List (Option UInt8))
    (hmid : mid.length = (utf8 uc).length) :
    putChar (l ++ (mid ++ r)) l.length uc = .ok (l ++ ((utf8 uc).map some ++ r), l.length + (utf8 uc).length) := by
  have heq := utf8_eq h hlt
  obtain ⟨c, mid, rfl⟩ : ∃ c mid', mid = c :: mid' := by
    refine List.exists_cons_of_ne_nil fun hnil => ?_
    rw [hnil, ← heq] at hmid
    cases hmid
  have hlen : mid.length = utf8Len uc - 1 := by
    rw [← heq, List.length_cons, List.length_cons, length_tailBytes] at hmid
    omega
  have hput := putTail_append _ uc (l ++ [c]) mid r hlen
  rw [List.length_append, List.length_singleton, List.append_assoc, List.append_assoc] at hput
  rw [putChar]
  simp only [List.cons_append, List.nil_append] at hput ⊢
  rw [hput, done_bind]
  simp only
  rw [set_append, done_bind, length_utf8 h hlt]
  conv_rhs => rw [← heq]
  rfl

/-! ## Pieces -/

variable {m : List (Option UInt8)} {c v : List UInt8}

theorem hexLoop_spec : ∀ (ds : List UInt8) (str h : Nat), (∀ d ∈ ds, isHexDigit d) → CellsAre m str ds →
    hexLoop m ds.length str h = .ok (ds.foldl (fun h d => 16 * h + (hexDigitToInt d).toNat) h)
  | [], _, _, _, _ => rfl
  | d :: ds, str, h, hd, hm => by
    rw [List.length_cons, hexLoop, hm.1, done_bind, if_pos (hd d List.mem_cons_self)]
    exact hexLoop_spec ds _ _ (fun d' hd' => hd d' (List.mem_cons_of_mem _ hd')) hm.2

theorem Hex4.parse {ds : List UInt8} {uc : Nat} (h : Hex4 ds uc) {str : Nat} (hm : CellsAre m str ds) :
    parseHex4 m str = .ok uc := by
  have hloop := hexLoop_spec ds str 0 h.2.1 hm
  rw [h.1] at hloop
  rw [parseHex4, hloop]
  exact congrArg Except.ok h.2.2

theorem Hex4.lt {ds : List UInt8} {uc : Nat} (h : Hex4 ds uc) : uc < 0x10000 := by
  have hdigit : ∀ d ∈ ds, (hexDigitToInt d).toNat < 16 := by
    intro d _
    unfold hexDigitToInt
    split_ifs with h1 h2 h3
    · have h := UInt8.le_iff_toNat_le.1 h1.2
      have h' := UInt8.le_iff_toNat_le.1 h1.1
      rw [UInt8.toNat_sub_of_le _ _ h1.1]
      simp at h h' ⊢
      omega
    · have h := UInt8.le_iff_toNat_le.1 h2.2
      have h' := UInt8.le_iff_toNat_le.1 h2.1
      rw [UInt8.toNat_sub_of_le _ _ (UInt8.le_trans (by decide) h2.1)]
      simp at h h' ⊢
      omega
    · have h := UInt8.le_iff_toNat_le.1 h3.2
      have h' := UInt8.le_iff_toNat_le.1 h3.1
      rw [UInt8.toNat_sub_of_le _ _ (UInt8.le_trans (by decide) h3.1)]
      simp at h h' ⊢
      omega
    · decide
  obtain ⟨hlen, -, hval⟩ := h
  obtain ⟨a, b, c, d, rfl⟩ := List.length_eq_four.1 hlen
  simp only [List.mem_cons, List.not_mem_nil, or_false, forall_eq_or_imp, forall_eq] at hdigit
  rw [← hval]
  simp only [hexValue, List.foldl_cons, List.foldl_nil]
  omega

/-- One pass of the first loop, where the count does not wrap. -/
theorem lenLoop_step {ptr : Nat} {b : UInt8} (hm : get m ptr = .ok b) (hend : ¬ (b = DQUOTE ∨ b = 0)) {len : Int} (h0 : 0 ≤ len)
    (hlt : len + 1 < 2 ^ 31) (fuel : Nat) :
    lenLoop m (fuel + 1) ptr len = lenLoop m fuel (if b = BACKSLASH then ptr + 2 else ptr + 1) (len + 1) := by
  rw [lenLoop, hm, done_bind, if_neg hend, toInt_of_lt (by omega) hlt, if_neg (by omega)]

/-- It passes over bytes that are neither quotes nor backslashes one by one. -/
theorem lenLoop_plain : ∀ (ds : List UInt8) (ptr fuel : Nat) {len : Int}, (∀ d ∈ ds, d ≠ DQUOTE ∧ d ≠ 0 ∧ d ≠ BACKSLASH) →
    CellsAre m ptr ds → 0 ≤ len → len + ds.length < 2 ^ 31 →
    lenLoop m (fuel + ds.length) ptr len = lenLoop m fuel (ptr + ds.length) (len + ds.length)
  | [], _, _, len, _, _, _, _ => by rw [List.length_nil, Nat.cast_zero, Int.add_zero]; rfl
  | d :: ds, ptr, fuel, len, hd, hm, h0, hlt => by
    rw [List.length_cons, Nat.cast_succ] at hlt
    obtain ⟨hq, hz, hb⟩ := hd d List.mem_cons_self
    rw [List.length_cons, ← Nat.add_assoc, lenLoop_step hm.1 (not_or.2 ⟨hq, hz⟩) h0 (by omega), if_neg hb,
      lenLoop_plain ds _ _ (fun d' hd' => hd d' (List.mem_cons_of_mem _ hd')) hm.2 (by omega) (by omega)]
    congr 1 <;> omega

/-- It skips a backslash with the byte behind it. -/
theorem lenLoop_escape {ptr : Nat} {b : UInt8} (hm : CellsAre m ptr [BACKSLASH, b]) (fuel : Nat) {len : Int} (h0 : 0 ≤ len)
    (hlt : len + 1 < 2 ^ 31) : lenLoop m (fuel + 1) ptr len = lenLoop m fuel (ptr + 2) (len + 1) := by
  rw [lenLoop_step hm.1 (by decide) h0 hlt, if_pos rfl]

theorem hex_plain {d : UInt8} (h : isHexDigit d) : d ≠ DQUOTE ∧ d ≠ 0 ∧ d ≠ BACKSLASH := by
  refine ⟨?_, ?_, ?_⟩ <;> rintro rfl <;> exact absurd h (by decide)

/-- It goes over a hexadecimal escape in five passes. -/
theorem lenLoop_hex {ds : List UInt8} {uc : Nat} (hd : Hex4 ds uc) {ptr : Nat} (hm : CellsAre m ptr (BACKSLASH :: 117 :: ds))
    (fuel : Nat) {len : Int} (h0 : 0 ≤ len) (hlt : len + 5 < 2 ^ 31) :
    lenLoop m (fuel + 5) ptr len = lenLoop m fuel (ptr + 6) (len + 5) := by
  have hfour : len + 1 + (ds.length : Int) = len + 5 := by
    rw [hd.1]
    omega
  have hplain := lenLoop_plain ds (ptr + 2) fuel (fun d h => hex_plain (hd.2.1 d h)) hm.2.2 (by omega : 0 ≤ len + 1)
    (hfour ▸ hlt)
  rw [hfour, hd.1] at hplain
  rw [← Nat.add_assoc fuel 4 1, lenLoop_escape ⟨hm.1, hm.2.1, trivial⟩ _ h0 (by omega), hplain]

/-- The first loop counts at least as many bytes as a piece stands for, and at most those that it has. -/
theorem Piece.lenLoop (h : Piece c v) {ptr : Nat} (hm : CellsAre m ptr c) : ∃ n, v.length ≤ n ∧ n ≤ c.length ∧
    ∀ fuel len, 0 ≤ len → len + (n : Int) < 2 ^ 31 → lenLoop m (fuel + n) ptr len = lenLoop m fuel (ptr + c.length) (len + n) := by
  cases h with
  | plain hq hb h0 =>
    refine ⟨1, Nat.le_refl _, Nat.le_refl _, fun fuel len hpos hlt => ?_⟩
    exact lenLoop_plain _ ptr fuel (by simp [hq, h0, hb]) hm hpos hlt
  | escape hu h0 => exact ⟨1, Nat.le_refl _, Nat.le_succ _, fun fuel len hpos hlt => lenLoop_escape hm fuel hpos hlt⟩
  | unicode hd h0 hs =>
    have hlen := hd.1
    refine ⟨5, (length_utf8_le hs (by have := hd.lt; omega)).trans (by decide), ?_, fun fuel len hpos hlt => ?_⟩
    · simp only [List.length_cons]
      omega
    · rw [lenLoop_hex hd hm fuel hpos hlt]
      simp only [List.length_cons, hlen]
      rfl
  | @pair ds ds' hi lo hd hd' hh hl =>
    have hlen := hd.1
    have hlen' := hd'.1
    refine ⟨10, (length_utf8_le (.inr (by omega)) (by omega)).trans (by decide), ?_, fun fuel len hpos hlt => ?_⟩
    · simp only [List.length_cons, List.length_append]
      omega
    · obtain ⟨hm₁, hm₂⟩ := cellsAre_append.1 hm
      simp only [List.length_cons, hlen] at hm₂
      -- five passes for each half of the pair
      rw [← Nat.add_assoc fuel 5 5, lenLoop_hex hd hm₁ _ hpos (by omega), lenLoop_hex hd' hm₂ _ (by omega) (by omega)]
      simp only [List.length_cons, List.length_append, hlen, hlen']
      congr 1
      omega

/-- The second loop writes what a piece stands for. -/
theorem Piece.stringLoop (h : Piece c v) {ptr : Nat} (hm : CellsAre m ptr c) (l mid r : List (Option UInt8))
    (hmid : mid.length = v.length) (fuel : Nat) : stringLoop m (fuel + 1) ptr (l ++ (mid ++ r)) l.length =
      stringLoop m fuel (ptr + c.length) (l ++ (v.map some ++ r)) (l.length + v.length) := by
  cases h with
  | plain hq hb h0 =>
    obtain ⟨x, rfl⟩ := List.length_eq_one_iff.1 hmid
    rw [Json.stringLoop, hm.1, done_bind, if_neg (not_or.2 ⟨hq, h0⟩), if_pos hb, List.singleton_append, set_append, done_bind]
    rfl
  | escape hu h0 =>
    obtain ⟨x, rfl⟩ := List.length_eq_one_iff.1 hmid
    rw [Json.stringLoop, hm.1, done_bind, if_neg (by decide), if_neg (by decide), putEscape, hm.2.1, done_bind, if_neg hu,
      List.singleton_append, set_append, done_bind]
    rfl
  | @unicode ds uc hd h0 hs =>
    have hlt := hd.lt
    rw [Json.stringLoop, hm.1, done_bind, if_neg (by decide), if_neg (by decide), putEscape, hm.2.1, done_bind, if_pos rfl,
      putUnicode, hd.parse hm.2.2, done_bind, if_neg (by omega), if_neg (by omega),
      putChar_append hs (by omega) l mid r hmid]
    simp only [List.length_cons, hd.1]
    rfl
  | @pair ds ds' hi lo hd hd' hh hl =>
    have hlt := hd.lt
    obtain ⟨hm₁, hm₂⟩ := cellsAre_append.1 hm
    simp only [List.length_cons, hd.1] at hm₂
    -- the two halves have ten bits each, which do not overlap
    have huc : 0x10000 + (((hi &&& 0x3FF) <<< 10) ||| (lo &&& 0x3FF)) = 0x10000 + (hi - 0xD800) * 0x400 + (lo - 0xDC00) := by
      have hand : ∀ x, x &&& 0x3FF = x % 1024 := fun x => Nat.and_two_pow_sub_one_eq_mod x 10
      rw [hand, hand, ← Nat.shiftLeft_add_eq_or_of_lt (by omega : lo % 1024 < 2 ^ 10), Nat.shiftLeft_eq]
      omega
    have hput := putChar_append (.inr (by omega)) (by omega) l mid r hmid
    rw [Json.stringLoop, hm₁.1, done_bind, if_neg (by decide), if_neg (by decide), putEscape, hm₁.2.1, done_bind, if_pos rfl,
      putUnicode, hd.parse hm₁.2.2, done_bind, if_neg (by omega), if_pos hh, putPair, hm₂.1, done_bind, if_neg (by decide),
      hm₂.2.1, done_bind, if_neg (by decide), hd'.parse hm₂.2.2, done_bind, if_neg (by omega), huc, hput]
    simp only [List.length_append, List.length_cons, hd.1, hd'.1]
    rfl

theorem Piece.length_pos (h : Piece c v) : 0 < c.length := by
  cases h <;> exact Nat.succ_pos _

/-! ## Strings -/

variable {text value : List UInt8}

/-- The first loop comes to the quote, and has counted enough. -/
theorem Encodes.lenLoop (h : Encodes text value) {ptr : Nat} (hm : CellsAre m ptr (text ++ [DQUOTE])) :
    ∃ n, value.length ≤ n ∧ n ≤ text.length ∧
      ∀ fuel len, 0 ≤ len → len + (n : Int) < 2 ^ 31 → lenLoop m (fuel + (n + 1)) ptr len = .ok (len + n) := by
  induction h generalizing ptr with
  | nil =>
    refine ⟨0, Nat.le_refl _, Nat.le_refl _, fun fuel len _ _ => ?_⟩
    rw [Json.lenLoop, hm.1, done_bind, if_pos (.inl rfl), Nat.cast_zero, Int.add_zero]
  | @cons c v text value hc h ih =>
    rw [List.append_assoc] at hm
    obtain ⟨hm₁, hm₂⟩ := cellsAre_append.1 hm
    -- the count goes up by at most what the text has, so it stays an `int`
    obtain ⟨n₁, hn₁, hc₁, hloop₁⟩ := hc.lenLoop hm₁
    obtain ⟨n₂, hn₂, hc₂, hloop₂⟩ := ih hm₂
    refine ⟨n₁ + n₂, ?_, ?_, fun fuel len hpos hlt => ?_⟩
    · rw [List.length_append]
      omega
    · rw [List.length_append]
      omega
    · rw [Nat.cast_add, ← Int.add_assoc] at hlt
      rw [(by omega : fuel + (n₁ + n₂ + 1) = fuel + (n₂ + 1) + n₁), hloop₁ _ _ hpos (by omega), hloop₂ _ _ (by omega) hlt,
        Nat.cast_add, Int.add_assoc]

/-- The second loop comes to the quote as well, and has written what the string stands for. -/
theorem Encodes.stringLoop (h : Encodes text value) {ptr : Nat} (hm : CellsAre m ptr (text ++ [DQUOTE])) :
    ∃ k, k ≤ text.length ∧ ∀ (fuel : Nat) (l mid r : List (Option UInt8)), mid.length = value.length →
      stringLoop m (fuel + (k + 1)) ptr (l ++ (mid ++ r)) l.length =
        .ok (ptr + text.length, l ++ (value.map some ++ r), l.length + value.length) := by
  induction h generalizing ptr with
  | nil =>
    refine ⟨0, Nat.le_refl _, fun fuel l mid r hmid => ?_⟩
    obtain rfl := List.length_eq_zero_iff.1 hmid
    rw [Json.stringLoop, hm.1, done_bind, if_pos (.inl rfl)]
    rfl
  | @cons c v text value hc h ih =>
    rw [List.append_assoc] at hm
    obtain ⟨hm₁, hm₂⟩ := cellsAre_append.1 hm
    obtain ⟨k, hk, hloop⟩ := ih hm₂
    have hpos := hc.length_pos
    refine ⟨k + 1, ?_, fun fuel l mid r hmid => ?_⟩
    · rw [List.length_append]
      omega
    · rw [List.length_append] at hmid
      have hfirst := hc.stringLoop hm₁ l (mid.take v.length) (mid.drop v.length ++ r)
        (by rw [List.length_take]; omega) (fuel + (k + 1))
      have hrest := hloop fuel (l ++ v.map some) (mid.drop v.length) r (by rw [List.length_drop]; omega)
      rw [← List.append_assoc (mid.take v.length), List.take_append_drop] at hfirst
      rw [List.length_append, List.length_map, List.append_assoc] at hrest
      rw [← Nat.add_assoc fuel (k + 1) 1, hfirst, hrest]
      simp only [List.length_append, List.map_append, List.append_assoc, Nat.add_assoc]

/-- A string in memory is read up to its closing quote, and what it stands for is stored with a terminator. -/
theorem parseString_cells (h : Encodes text value) (hbound : text.length < 2 ^ 31 - 1) {ptr : Nat}
    (hall : CellsAre m ptr (DQUOTE :: text ++ [DQUOTE])) : ∃ n,
    parseString m ptr = .ok (some (ptr + text.length + 2, value.map some ++ some 0 :: List.replicate n none)) := by
  have hlen := hall.length_le
  simp only [List.length_append, List.length_cons] at hlen
  obtain ⟨hquote, hm⟩ := hall
  obtain ⟨n, hn, hk, hcount⟩ := h.lenLoop hm
  obtain ⟨k', hk', hloop⟩ := h.stringLoop hm
  have hcount := hcount (m.length - n) 0 (Int.le_refl _) (by omega)
  -- the block has a byte for the terminator behind what was counted
  have hsize : toSize (toInt ((n : Int) + 1)) = n + 1 := by
    rw [toInt_of_lt (by omega) (by omega), toSize_of_lt (by omega) (by omega)]
    rfl
  have hloop := hloop (m.length - k') [] (List.replicate value.length none) (List.replicate (n - value.length + 1) none)
    List.length_replicate
  have hset := set_append (value.map some) none (List.replicate (n - value.length) none) 0
  have hclose := (cellsAre_append.1 hm).2.1
  rw [(by omega : m.length - n + (n + 1) = m.length + 1), Int.zero_add] at hcount
  rw [(by omega : m.length - k' + (k' + 1) = m.length + 1), List.nil_append, List.nil_append, List.length_nil, Nat.zero_add,
    List.replicate_append_replicate, (by omega : value.length + (n - value.length + 1) = n + 1)] at hloop
  rw [List.length_map, ← List.replicate_succ] at hset
  refine ⟨n - value.length, ?_⟩
  rw [parseString, hquote, done_bind, if_neg (not_not_intro rfl), hcount, done_bind, fillString, hsize, hloop, done_bind]
  simp only
  rw [hset, done_bind, hclose, done_bind, if_pos rfl]
  rw [(by omega : ptr + 1 + text.length + 1 = ptr + text.length + 2)]
  rfl

theorem parseString_spec (h : Encodes text value) (hbound : text.length < 2 ^ 31 - 1) (before rest : List UInt8) : ∃ n,
    parseString ((before ++ (DQUOTE :: text ++ DQUOTE :: rest)).map some) before.length =
      .ok (some (before.length + text.length + 2, value.map some ++ some 0 :: List.replicate n none)) := by
  have hall := cellsAre_known before (DQUOTE :: text ++ [DQUOTE]) rest
  rw [List.append_assoc, List.singleton_append] at hall
  exact parseString_cells h hbound hall

/-! ## Printed strings -/

/-- What is printed for a byte. -/
def printed (b : UInt8) : List UInt8 :=
  if 31 < b ∧ b ≠ DQUOTE ∧ b ≠ BACKSLASH then [b]
  else BACKSLASH :: ((shortEscape b).map fun ch => [ch]).getD (117 :: hexFixed 4 b.toNat)

/-- The short escapes are those that are read back. -/
theorem shortEscape_some {b ch : UInt8} (h : shortEscape b = some ch) : ch ≠ 117 ∧ ch ≠ 0 ∧ escaped ch = b := by
  unfold shortEscape at h
  split_ifs at h with h1 h2 h3 h4 h5 h6 h7 <;> cases h <;> subst_vars <;> decide

theorem hex4_hexFixed : ∀ n < 32, (hexFixed 4 n).length = 4 ∧ (∀ d ∈ hexFixed 4 n, isHexDigit d) ∧ hexValue (hexFixed 4 n) = n := by
  decide +kernel

theorem lt_of_shortEscape {b : UInt8} (hb : ¬ (31 < b ∧ b ≠ DQUOTE ∧ b ≠ BACKSLASH)) (h : shortEscape b = none) : b < 32 := by
  unfold shortEscape at h
  split_ifs at h with h1 h2
  by_contra hlt
  refine hb ⟨?_, h2, h1⟩
  rw [UInt8.lt_iff_toNat_lt] at hlt ⊢
  have : (32 : UInt8).toNat = 32 := rfl
  have : (31 : UInt8).toNat = 31 := rfl
  omega

theorem printed_piece {b : UInt8} (h0 : b ≠ 0) : Piece (printed b) [b] := by
  unfold printed
  by_cases hb : 31 < b ∧ b ≠ DQUOTE ∧ b ≠ BACKSLASH
  · rw [if_pos hb]
    exact .plain hb.2.1 hb.2.2 h0
  rw [if_neg hb]
  cases hs : shortEscape b with
  | some ch =>
    obtain ⟨hu, hz, heq⟩ := shortEscape_some hs
    have := Piece.escape hu hz
    rwa [heq] at this
  | none =>
    have hlt := UInt8.lt_iff_toNat_lt.1 (lt_of_shortEscape hb hs)
    have hlt' : b.toNat < 32 := hlt
    have hne : b.toNat ≠ 0 := fun h => h0 (UInt8.toNat_inj.1 h)
    have hutf8 : utf8 b.toNat = [b] := by
      rw [← utf8_eq (by omega) (by omega), utf8Len, if_pos (by omega)]
      simp [tailBytes, firstByteMark]
    have := Piece.unicode (hex4_hexFixed b.toNat hlt') hne (.inl (by omega))
    rwa [hutf8] at this

theorem printed_encodes : ∀ {s : List UInt8}, 0 ∉ s → Encodes (s.flatMap printed) s
  | [], _ => .nil
  | b :: s, h => by
    rw [List.mem_cons, not_or] at h
    exact .cons (printed_piece (Ne.symm h.1)) (printed_encodes h.2)

theorem shortEscape_isSome (b : UInt8) : (shortEscape b).isSome ↔ b ∈ [DQUOTE, BACKSLASH, 8, 12, 10, 13, 9] := by
  unfold shortEscape
  split_ifs <;> simp_all

/-- The first loop counts what is printed. -/
theorem length_printed (b : UInt8) : ((printed b).length : Int) = 1 + escapeLen b := by
  rw [escapeLen, if_congr (shortEscape_isSome b).symm rfl rfl]
  unfold printed
  by_cases hb : 31 < b ∧ b ≠ DQUOTE ∧ b ≠ BACKSLASH
  · have hge : ¬ b < 32 := by
      have h := UInt8.lt_iff_toNat_lt.1 hb.1
      rw [UInt8.lt_iff_toNat_lt]
      have : (32 : UInt8).toNat = 32 := rfl
      have : (31 : UInt8).toNat = 31 := rfl
      omega
    have hnone : ¬ (shortEscape b).isSome := by
      rw [shortEscape_isSome]
      intro hmem
      simp only [List.mem_cons, List.not_mem_nil, or_false] at hmem
      rcases hmem with rfl | rfl | rfl | rfl | rfl | rfl | rfl <;> exact absurd hb (by decide)
    rw [if_pos hb, if_neg hnone, if_neg hge]
    rfl
  · rw [if_neg hb]
    cases hs : shortEscape b with
    | some ch => rfl
    | none =>
      rw [if_neg (by simp), if_pos (lt_of_shortEscape hb hs), Option.map_none, Option.getD_none, List.length_cons,
        List.length_cons, length_hexFixed]
      rfl

theorem escapeLen_nonneg (b : UInt8) : 0 ≤ escapeLen b := by
  unfold escapeLen
  split_ifs <;> decide

theorem printLen_eq : ∀ (s : List UInt8) {len : Int}, 0 ≤ len → len + ((s.flatMap printed).length : Int) < 2 ^ 31 →
    printLen s len = len + (s.flatMap printed).length
  | [], _, _, _ => (Int.add_zero _).symm
  | b :: s, len, h0, hlt => by
    have hesc := escapeLen_nonneg b
    rw [List.flatMap_cons, List.length_append, Nat.cast_add, length_printed] at hlt ⊢
    rw [printLen, toInt_of_lt (by omega) (by omega), if_neg (by omega), toInt_of_lt (by omega) (by omega),
      printLen_eq s (by omega) (by omega)]
    omega

/-- A byte is printed where there is room for it and for a terminator. -/
theorem printByte_append (b : UInt8) (l rest : List (Option UInt8)) (h : (printed b).length < rest.length) :
    ∃ rest', rest'.length + (printed b).length = rest.length ∧
      printByte b (l ++ rest) l.length = .ok (l ++ ((printed b).map some ++ rest'), l.length + (printed b).length) := by
  obtain ⟨x, rest, rfl⟩ := List.exists_cons_of_ne_nil (List.ne_nil_of_length_pos (Nat.zero_lt_of_lt h))
  unfold printed at h ⊢
  unfold printByte
  by_cases hb : 31 < b ∧ b ≠ DQUOTE ∧ b ≠ BACKSLASH
  · rw [if_pos hb, if_pos hb, set_append]
    exact ⟨rest, rfl, rfl⟩
  rw [if_neg hb] at h ⊢
  rw [if_neg hb, set_append, done_bind]
  cases hs : shortEscape b with
  | some ch =>
    rw [hs] at h
    obtain ⟨y, rest, rfl⟩ : ∃ y rest', rest = y :: rest' := by
      refine List.exists_cons_of_ne_nil ?_
      rintro rfl
      simp at h
    have hset := set_append (l ++ [some BACKSLASH]) y rest ch
    rw [List.length_append, List.append_assoc, List.append_assoc, List.singleton_append, List.singleton_append,
      List.length_singleton] at hset
    refine ⟨rest, rfl, ?_⟩
    rw [printEscape, hs]
    simp only
    rw [hset]
    rfl
  | none =>
    rw [hs, Option.map_none, Option.getD_none, List.length_cons, List.length_cons, length_hexFixed, List.length_cons] at h
    -- `sprintf` writes a terminator too, which the next byte overwrites
    have hlen : (117 :: hexFixed 4 b.toNat ++ [0]).length = (rest.take 6).length := by
      rw [List.length_append, List.length_cons, length_hexFixed, List.length_take_of_le (by omega)]
      rfl
    have hcopy := copy_append (l ++ [some BACKSLASH]) (rest.take 6) (rest.drop 6) hlen
    rw [List.take_append_drop, List.length_append, List.append_assoc, List.append_assoc] at hcopy
    refine ⟨some 0 :: rest.drop 6, ?_, ?_⟩
    · rw [Option.map_none, Option.getD_none, List.length_cons, List.length_cons, List.length_cons, List.length_cons,
        List.length_drop, length_hexFixed]
      omega
    · rw [printEscape, hs]
      simp only
      rw [show l ++ some BACKSLASH :: rest = l ++ ([some BACKSLASH] ++ rest) from rfl]
      rw [show l.length + 1 = l.length + [some BACKSLASH].length from rfl, hcopy, done_bind]
      simp only [Option.map_none, Option.getD_none, List.length_cons, length_hexFixed, List.map_append, List.map_cons,
        List.cons_append, List.append_assoc, List.map_nil, List.nil_append, List.length_nil]
      rfl

theorem printLoop_append : ∀ (s : List UInt8) (l rest : List (Option UInt8)), (s.flatMap printed).length < rest.length →
    ∃ rest', rest'.length + (s.flatMap printed).length = rest.length ∧
      printLoop s (l ++ rest) l.length = .ok (l ++ ((s.flatMap printed).map some ++ rest'), l.length + (s.flatMap printed).length)
  | [], _, rest, _ => ⟨rest, rfl, rfl⟩
  | b :: s, l, rest, h => by
    rw [List.flatMap_cons, List.length_append] at h
    obtain ⟨rest₁, hlen₁, hbyte⟩ := printByte_append b l rest (by omega)
    obtain ⟨rest₂, hlen₂, hloop⟩ := printLoop_append s (l ++ (printed b).map some) rest₁ (by omega)
    rw [List.append_assoc, List.length_append, List.length_map] at hloop
    refine ⟨rest₂, ?_, ?_⟩
    · rw [List.flatMap_cons, List.length_append]
      omega
    · rw [printLoop, hbyte, done_bind]
      simp only
      rw [hloop, List.flatMap_cons, List.map_append, List.length_append, List.append_assoc, List.append_assoc, Nat.add_assoc]

/-- The block that is allocated is filled to its end. -/
theorem printStringPtr_spec (s : List UInt8) (hbound : ((cstr s).flatMap printed).length < 2 ^ 31 - 3) :
    printStringPtr s = .ok ((DQUOTE :: (cstr s).flatMap printed ++ [DQUOTE, 0]).map some) := by
  have hsize : toSize (toInt (printLen (cstr s) 0 + 3)) = ((cstr s).flatMap printed).length + 2 + 1 := by
    rw [printLen_eq _ (Int.le_refl _) (by omega), toInt_of_lt (by omega) (by omega), toSize_of_lt (by omega) (by omega)]
    omega
  have hopen := set_append [] none (List.replicate (((cstr s).flatMap printed).length + 2) none) DQUOTE
  obtain ⟨rest, hlen, hloop⟩ := printLoop_append (cstr s) [some DQUOTE] (List.replicate (((cstr s).flatMap printed).length + 2) none)
    (by rw [List.length_replicate]; omega)
  rw [List.length_replicate] at hlen
  -- the two bytes that are left are for the closing quote and the terminator
  obtain ⟨x, y, rfl⟩ := List.length_eq_two.1 (by omega : rest.length = 2)
  have hclose := set_append (some DQUOTE :: ((cstr s).flatMap printed).map some) x [y] DQUOTE
  have hnul := set_append (some DQUOTE :: ((cstr s).flatMap printed).map some ++ [some DQUOTE]) y [] 0
  rw [List.length_cons, List.length_map] at hclose
  rw [List.length_append, List.length_cons, List.length_map, List.append_assoc] at hnul
  rw [printStringPtr, hsize, List.replicate_succ]
  simp only [List.nil_append, List.length_nil, List.cons_append, List.length_cons, Nat.zero_add] at hopen hloop hclose hnul ⊢
  rw [hopen, done_bind, hloop, done_bind]
  simp only
  rw [Nat.add_comm 1, hclose, done_bind, hnul]
  simp only [List.map_cons, List.map_append, List.map_nil, List.append_assoc, List.cons_append, List.nil_append]

/-- `parse_string` reads every string that a JSON text can have, with its escapes and its surrogate pairs, up to the
closing quote, and stores the bytes it stands for, which are UTF-8 for the escapes in UTF-16, with a terminator in the
block that it has allocated. Among these strings is what `print_string_ptr` makes of a C string, so that it is read back.
The bounds are those of the `int` in which the two functions count. -/
theorem strings_read_back :
    (∀ text value before rest : List UInt8, Encodes text value → text.length < 2 ^ 31 - 1 → ∃ n,
      parseString ((before ++ (DQUOTE :: text ++ DQUOTE :: rest)).map some) before.length =
        .ok (some (before.length + text.length + 2, value.map some ++ some 0 :: List.replicate n none))) ∧
    ∀ s : List UInt8, ((cstr s).flatMap printed).length < 2 ^ 31 - 3 → ∃ text n, Encodes text (cstr s) ∧
      printStringPtr s = .ok ((DQUOTE :: text ++ [DQUOTE, 0]).map some) ∧
      parseString ((DQUOTE :: text ++ [DQUOTE, 0]).map some) 0 =
        .ok (some (text.length + 2, (cstr s).map some ++ some 0 :: List.replicate n none)) := by
  constructor
  · intro text value before rest h hbound
    exact parseString_spec h hbound before rest
  · intro s hbound
    have h0 : 0 ∉ cstr s := by
      intro hmem
      unfold cstr at hmem
      simpa using List.mem_takeWhile_imp hmem
    have henc := printed_encodes h0
    obtain ⟨n, hparse⟩ := parseString_spec henc (by omega) [] [0]
    rw [List.nil_append, List.length_nil, Nat.zero_add] at hparse
    exact ⟨_, n, henc, printStringPtr_spec s hbound, hparse⟩

/-- A letter, a line feed, a character of the Basic Multilingual Plane and one that takes a surrogate pair. -/
theorem strings_read_back_utf16 : ∃ n, parseString ((ascii "[\"a\\n\\u00e9\\ud83d\\ude00\", 1]").map some) 1 =
    .ok (some (24, [97, 10, 0xC3, 0xA9, 0xF0, 0x9F, 0x98, 0x80].map some ++ some 0 :: List.replicate n none)) := by
  have hchars : Encodes (ascii "a\\n\\u00e9\\ud83d\\ude00") [97, 10, 0xC3, 0xA9, 0xF0, 0x9F, 0x98, 0x80] :=
    .cons (c := [97]) (.plain (by decide) (by decide) (by decide)) <|
    .cons (.escape (b := 110) (by decide) (by decide)) <|
    .cons (.unicode (d := ascii "00e9") ⟨rfl, by decide +kernel, rfl⟩ (by decide) (by decide)) <|
    .cons (.pair (d := ascii "d83d") (e := ascii "de00") ⟨rfl, by decide +kernel, rfl⟩ ⟨rfl, by decide +kernel, rfl⟩ (by decide) (by decide)) .nil
  exact strings_read_back.1 _ _ (ascii "[") (ascii ", 1]") hchars (by decide +kernel)

end Json

end PubsubBroker

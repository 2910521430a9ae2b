/-
The parser of `common/cJSON.c`: what `cJSON_Parse` makes of a text, as the tree that the items with their chains of
children are. The arithmetic of `double` is a parameter, and the allocation of an item does not fail. An exponent is
counted in an `int`, which is taken to wrap.
-/
import PubsubBroker.Common.JsonString
import PubsubBroker.Lib.Numeral

namespace PubsubBroker

open CLang Buffer Numeral

namespace Json

/-! ## Numbers -/

/-- What `parse_number` computes with: `pow10 e` is `pow(10.0, e)`. -/
structure Doubles where
  Double : Type
  ofInt : Int → Double
  add : Double → Double → Double
  mul : Double → Double → Double
  pow10 : Int → Double

/-- `n=(n*10.0)+(*num++ -'0')` -/
def Doubles.shift (F : Doubles) (n : F.Double) (b : UInt8) : F.Double := F.add (F.mul n (F.ofInt 10)) (F.ofInt (digit b))

section
variable {α : Type} (m : List (Option UInt8)) (f : α → UInt8 → α)

/-- A loop over digits that takes each of them into `acc`. -/
def scanDigits : Nat → Nat → α → Except MemFault (Nat × α)
  | 0, num, _ => .error (.access num)
  | fuel + 1, num, acc => do
    let b ← get m num
    if IsDigit b then scanDigits fuel (num + 1) (f acc b) else .ok (num, acc)

end

section
variable (F : Doubles) (m : List (Option UInt8))

/-- `if (*num=='-') sign=-1,num++;` -/
def scanSign (num : Nat) : Except MemFault (Nat × Int) := do
  let b ← get m num
  return if b = 45 then (num + 1, -1) else (num, 1)

/-- The digits in front of the point: `num` is behind a leading zero, where there is one. -/
def scanInt (num : Nat) : Except MemFault (Nat × F.Double) := do
  let b ← get m num
  if 49 ≤ b ∧ b ≤ 57 then scanDigits m F.shift (m.length + 1) num (F.ofInt 0) else .ok (num, F.ofInt 0)

/-- `if (*num=='0') num++;` -/
def skipZero (num : Nat) : Except MemFault Nat := do
  let b ← get m num
  return if b = 48 then num + 1 else num

/-- One digit behind the point. The `double` that `scale` is counts without rounding. -/
def fracDigit (s : F.Double × Int) (b : UInt8) : F.Double × Int := (F.shift s.1 b, s.2 - 1)

/-- The point and the digits behind it, if there is one. -/
def scanFrac (num : Nat) (n : F.Double) : Except MemFault (Nat × F.Double × Int) := do
  let b ← get m num
  if b = 46 then do
    let d ← get m (num + 1)
    if IsDigit d then scanDigits m (fracDigit F) (m.length + 1) (num + 1) (n, 0) else .ok (num, n, 0)
  else .ok (num, n, 0)

/-- `subscale=(subscale*10)+(*num++ - '0')` -/
def expDigit (subscale : Int) (b : UInt8) : Int := toInt (toInt (subscale * 10) + digit b)

/-- The sign and the digits of an exponent. -/
def scanExpDigits (num : Nat) : Except MemFault (Nat × Int) := do
  let b ← get m num
  let (num, subscale) ← scanDigits m expDigit (m.length + 1) (if b = 43 ∨ b = 45 then num + 1 else num) 0
  return (num, if b = 45 then toInt (-subscale) else subscale)

def scanExp (num : Nat) : Except MemFault (Nat × Int) := do
  let b ← get m num
  if b = 101 ∨ b = 69 then scanExpDigits m (num + 1) else .ok (num, 0)

/-- `parse_number(item, num)`: where the number ends, and `item->valuedouble`. -/
def parseNumber (num : Nat) : Except MemFault (Nat × F.Double) := do
  let (num, sign) ← scanSign m num
  let num ← skipZero m num
  let (num, n) ← scanInt F m num
  let (num, n, scale) ← scanFrac F m num n
  let (num, e) ← scanExp m num
  return (num, F.mul (F.mul (F.ofInt sign) n) (F.pow10 (scale + e)))

end

/-! ## Values -/

/-- An item with its children. The `valueint` of a number is left out: it is converted from the `valuedouble`. -/
inductive Value (D : Type)
  | null
  | false
  | true
  | number (valuedouble : D)
  | string (valuestring : List UInt8)
  | array (children : List (Value D))
  | object (children : List (List UInt8 × Value D))

/-- The C string in a block. -/
def blockString (block : List (Option UInt8)) : List UInt8 := (block.takeWhile (· ≠ some 0)).filterMap id

/-- `!strncmp(value, lit, strlen(lit))` -/
def startsWith (m : List (Option UInt8)) : Nat → List UInt8 → Except MemFault Bool
  | _, [] => .ok Bool.true
  | value, ch :: lit => do
    let b ← get m value
    if b = ch then startsWith m (value + 1) lit else .ok Bool.false

/-- `skip(in)` -/
def skip (m : List (Option UInt8)) : Nat → Nat → Except MemFault Nat
  | 0, ptr => .error (.access ptr)
  | fuel + 1, ptr => do
    let b ← get m ptr
    if b ≠ 0 ∧ b ≤ 32 then skip m fuel (ptr + 1) else .ok ptr

/-- `skip` with the length of the memory for the fuel. -/
def skipAll (m : List (Option UInt8)) (ptr : Nat) : Except MemFault Nat := skip m (m.length + 1) ptr

section
variable (F : Doubles) (m : List (Option UInt8))

/-- The values that are no arrays and no objects. -/
def parseScalar (value : Nat) : Except MemFault (Option (Nat × Value F.Double)) := do
  let b ← get m value
  if b = DQUOTE then do
    let r ← parseString m value
    return r.map fun p => (p.1, .string (blockString p.2))
  else if b = 45 ∨ IsDigit b then do
    let (num, d) ← parseNumber F m value
    return some (num, .number d)
  else .ok none

/-- The three words. -/
def parseWord (value : Nat) : Except MemFault (Option (Nat × Value F.Double)) := do
  if ← startsWith m value (ascii "null") then return some (value + 4, .null)
  else if ← startsWith m value (ascii "false") then return some (value + 5, .false)
  else if ← startsWith m value (ascii "true") then return some (value + 4, .true)
  else return none

/-- The name of a member: what is behind it and the blanks there, if that is a colon, and the name. -/
def parseName (value : Nat) : Except MemFault (Option (Nat × List UInt8)) := do
  let r ← parseString m value
  match r with
  | none => .ok none
  | some (ptr, block) => do
    let ptr ← skipAll m ptr
    let b ← get m ptr
    return if b = 58 then some (ptr, blockString block) else none

mutual

/-- `parse_value(item, value)`, with `none` for `NULL`. -/
def parseValue : Nat → Nat → Except MemFault (Option (Nat × Value F.Double))
  | 0, value => .error (.access value)
  | fuel + 1, value => do
    let w ← parseWord F m value
    if w.isSome then .ok w
    else do
      let b ← get m value
      if b = 91 then do
        let value ← skipAll m (value + 1)
        let b ← get m value
        if b = 93 then .ok (some (value + 1, .array []))
        else parseItem fuel value []
      else if b = 123 then do
        let value ← skipAll m (value + 1)
        let b ← get m value
        if b = 125 then .ok (some (value + 1, .object []))
        else parseMember fuel value []
      else parseScalar F m value

/-- A child of an array at `value`, and what follows: `parse_array` from there on. -/
def parseItem : Nat → Nat → List (Value F.Double) → Except MemFault (Option (Nat × Value F.Double))
  | 0, value, _ => .error (.access value)
  | fuel + 1, value, children => do
    let value ← skipAll m value
    let r ← parseValue fuel value
    match r with
    | none => .ok none
    | some (value, child) => do
      let value ← skipAll m value
      let b ← get m value
      if b = 44 then parseItem fuel (value + 1) (children ++ [child])
      else if b = 93 then .ok (some (value + 1, .array (children ++ [child])))
      else .ok none

/-- A child of an object at `value`, and what follows: `parse_object` from there on. -/
def parseMember : Nat → Nat → List (List UInt8 × Value F.Double) → Except MemFault (Option (Nat × Value F.Double))
  | 0, value, _ => .error (.access value)
  | fuel + 1, value, children => do
    let value ← skipAll m value
    let r ← parseName m value
    match r with
    | none => .ok none
    | some (value, name) => do
      let value ← skipAll m (value + 1)
      let r ← parseValue fuel value
      match r with
      | none => .ok none
      | some (value, child) => do
        let value ← skipAll m value
        let b ← get m value
        if b = 44 then parseMember fuel (value + 1) (children ++ [(name, child)])
        else if b = 125 then .ok (some (value + 1, .object (children ++ [(name, child)])))
        else .ok none

end

/-- `cJSON_Parse(value)` on the text at the start of the memory: the tree, and where its text ends. A call of
`parse_value` moves on, so the length of the memory bounds their depth. -/
def cJSONParse : Except MemFault (Option (Nat × Value F.Double)) := do
  let value ← skipAll m 0
  parseValue F m (m.length + 1) value

end

/-! ## Documents -/

/-- Blanks, as `skip` knows them. -/
def Blank (w : List UInt8) : Prop := ∀ b ∈ w, b ≠ 0 ∧ b ≤ 32

def Digits (ds : List UInt8) : Prop := ∀ b ∈ ds, IsDigit b

/-- The digits in front of the point, as they are written and as they count. -/
inductive IntPart : List UInt8 → List UInt8 → Prop
  | zero : IntPart [48] []
  | digits {d : UInt8} {ds : List UInt8} (hd : 49 ≤ d ∧ d ≤ 57) (hds : Digits ds) : IntPart (d :: ds) (d :: ds)

inductive FracPart : List UInt8 → List UInt8 → Prop
  | none : FracPart [] []
  | point {d : UInt8} {ds : List UInt8} (hds : Digits (d :: ds)) : FracPart (46 :: d :: ds) (d :: ds)

/-- An exponent, and its value, which is an `int`. -/
inductive ExpPart : List UInt8 → Int → Prop
  | none : ExpPart [] 0
  | plain {e d : UInt8} {ds : List UInt8} (he : e = 101 ∨ e = 69) (hds : Digits (d :: ds)) (hlt : valueFrom 0 (d :: ds) < 2 ^ 31) :
      ExpPart (e :: d :: ds) (valueFrom 0 (d :: ds))
  | plus {e : UInt8} {ds : List UInt8} (he : e = 101 ∨ e = 69) (hds : Digits ds) (hlt : valueFrom 0 ds < 2 ^ 31) :
      ExpPart (e :: 43 :: ds) (valueFrom 0 ds)
  | minus {e : UInt8} {ds : List UInt8} (he : e = 101 ∨ e = 69) (hds : Digits ds) (hlt : valueFrom 0 ds < 2 ^ 31) :
      ExpPart (e :: 45 :: ds) (-(valueFrom 0 ds : Int))

section
variable (F : Doubles)

/-- What is computed for the parts of a number. -/
def numberValue (sign : Int) (ints fracs : List UInt8) (e : Int) : F.Double :=
  F.mul (F.mul (F.ofInt sign) ((ints ++ fracs).foldl F.shift (F.ofInt 0))) (F.pow10 (-fracs.length + e))

mutual

/-- The texts of JSON values. -/
inductive Doc : List UInt8 → Value F.Double → Prop
  | null : Doc (ascii "null") .null
  | false : Doc (ascii "false") .false
  | true : Doc (ascii "true") .true
  | number {i f x ints fracs : List UInt8} {e : Int} (hi : IntPart i ints) (hf : FracPart f fracs) (hx : ExpPart x e) :
      Doc (i ++ (f ++ x)) (.number (numberValue F 1 ints fracs e))
  | negative {i f x ints fracs : List UInt8} {e : Int} (hi : IntPart i ints) (hf : FracPart f fracs) (hx : ExpPart x e) :
      Doc (45 :: (i ++ (f ++ x))) (.number (numberValue F (-1) ints fracs e))
  | string {text value : List UInt8} (h : Encodes text value) : Doc (DQUOTE :: (text ++ [DQUOTE])) (.string value)
  | emptyArray {w : List UInt8} (hw : Blank w) : Doc (91 :: (w ++ [93])) (.array [])
  | array {text : List UInt8} {vs : List (Value F.Double)} (h : Items text vs) : Doc (91 :: (text ++ [93])) (.array vs)
  | emptyObject {w : List UInt8} (hw : Blank w) : Doc (123 :: (w ++ [125])) (.object [])
  | object {text : List UInt8} {ms : List (List UInt8 × Value F.Double)} (h : Members text ms) :
      Doc (123 :: (text ++ [125])) (.object ms)

/-- Values between commas. -/
inductive Items : List UInt8 → List (Value F.Double) → Prop
  | last {w t w' : List UInt8} {v : Value F.Double} (hw : Blank w) (h : Doc t v) (hw' : Blank w') : Items (w ++ (t ++ w')) [v]
  | cons {w t w' text : List UInt8} {v : Value F.Double} {vs : List (Value F.Double)} (hw : Blank w) (h : Doc t v) (hw' : Blank w')
      (hs : Items text vs) : Items (w ++ (t ++ (w' ++ 44 :: text))) (v :: vs)

/-- Names with values, between commas. -/
inductive Members : List UInt8 → List (List UInt8 × Value F.Double) → Prop
  | last {w n a b t w' name : List UInt8} {v : Value F.Double} (hw : Blank w) (hn : Encodes n name) (ha : Blank a) (hb : Blank b)
      (h : Doc t v) (hw' : Blank w') : Members (w ++ (DQUOTE :: (n ++ DQUOTE :: (a ++ 58 :: (b ++ (t ++ w')))))) [(name, v)]
  | cons {w n a b t w' name text : List UInt8} {v : Value F.Double} {ms : List (List UInt8 × Value F.Double)} (hw : Blank w)
      (hn : Encodes n name) (ha : Blank a) (hb : Blank b) (h : Doc t v) (hw' : Blank w') (hs : Members text ms) :
      Members (w ++ (DQUOTE :: (n ++ DQUOTE :: (a ++ 58 :: (b ++ (t ++ (w' ++ 44 :: text))))))) ((name, v) :: ms)

end

end

/-! ## Parts of a text -/

section
variable {m : List (Option UInt8)}

/-- What may stand behind a value: a blank or the terminator, a comma, or a closing bracket. -/
def Ends (b : UInt8) : Prop := b ≤ 32 ∨ b = 44 ∨ b = 93 ∨ b = 125

theorem Ends.not_digit {b : UInt8} (h : Ends b) : ¬ IsDigit b := by
  rintro ⟨h1, h2⟩
  rcases h with h | rfl | rfl | rfl
  · exact absurd (UInt8.le_trans h1 h) (by decide)
  all_goals first | exact absurd h1 (by decide) | exact absurd h2 (by decide)

theorem Ends.ne {b c : UInt8} (h : Ends b) (hc : ¬ Ends c) : b ≠ c := by
  rintro rfl
  exact hc h

instance (b : UInt8) : Decidable (Ends b) := inferInstanceAs (Decidable (_ ∨ _))

theorem skip_spec : ∀ (w : List UInt8) (fuel ptr : Nat) {b : UInt8}, Blank w → b = 0 ∨ ¬ b ≤ 32 → CellsAre m ptr (w ++ [b]) →
    skip m (fuel + w.length + 1) ptr = .ok (ptr + w.length)
  | [], _, _, _, _, hb, hm => by
    rw [skip, hm.1, done_bind, if_neg (fun h => hb.elim h.1 fun hgt => hgt h.2)]
    rfl
  | ch :: w, fuel, ptr, _, hw, hb, hm => by
    rw [skip, hm.1, done_bind, if_pos (hw ch List.mem_cons_self), List.length_cons, ← Nat.add_assoc,
      skip_spec w fuel (ptr + 1) (fun d hd => hw d (List.mem_cons_of_mem _ hd)) hb hm.2, Nat.add_assoc, Nat.add_comm 1]

/-- Blanks are skipped up to what is behind them. -/
theorem skipAll_spec {w : List UInt8} {ptr : Nat} {b : UInt8} (hw : Blank w) (hb : b = 0 ∨ ¬ b ≤ 32)
    (hm : CellsAre m ptr (w ++ [b])) : skipAll m ptr = .ok (ptr + w.length) := by
  have hlen := hm.length_le
  rw [List.length_append, List.length_singleton] at hlen
  have hskip := skip_spec w (m.length - w.length) ptr hw hb hm
  rwa [(by omega : m.length - w.length + w.length + 1 = m.length + 1)] at hskip

theorem startsWith_spec : ∀ (lit : List UInt8) (value : Nat), CellsAre m value lit → startsWith m value lit = .ok Bool.true
  | [], _, _ => rfl
  | ch :: lit, value, hm => by
    rw [startsWith, hm.1, done_bind, if_pos rfl, startsWith_spec lit _ hm.2]

theorem startsWith_ne {b ch : UInt8} {lit : List UInt8} {value : Nat} (hm : get m value = .ok b) (hne : b ≠ ch) :
    startsWith m value (ch :: lit) = .ok Bool.false := by
  rw [startsWith, hm, done_bind, if_neg hne]

theorem startsWith_null {b : UInt8} {value : Nat} (hm : get m value = .ok b) (hb : b ≠ 110) :
    startsWith m value (ascii "null") = .ok Bool.false := by
  rw [show ascii "null" = 110 :: ascii "ull" from rfl]
  exact startsWith_ne hm hb

theorem startsWith_false {b : UInt8} {value : Nat} (hm : get m value = .ok b) (hb : b ≠ 102) :
    startsWith m value (ascii "false") = .ok Bool.false := by
  rw [show ascii "false" = 102 :: ascii "alse" from rfl]
  exact startsWith_ne hm hb

/-! ## Numbers that are read -/

variable {α : Type} {f : α → UInt8 → α}

theorem scanDigits_loop : ∀ (ds : List UInt8) (fuel num : Nat) (acc : α) {b : UInt8}, Digits ds → ¬ IsDigit b →
    CellsAre m num (ds ++ [b]) → scanDigits m f (fuel + ds.length + 1) num acc = .ok (num + ds.length, ds.foldl f acc)
  | [], _, _, _, _, _, hb, hm => by
    rw [scanDigits, hm.1, done_bind, if_neg hb]
    rfl
  | d :: ds, fuel, num, acc, _, hds, hb, hm => by
    rw [scanDigits, hm.1, done_bind, if_pos (hds d List.mem_cons_self), List.length_cons, ← Nat.add_assoc,
      scanDigits_loop ds fuel (num + 1) (f acc d) (fun d' hd' => hds d' (List.mem_cons_of_mem _ hd')) hb hm.2, Nat.add_assoc,
      Nat.add_comm 1]
    rfl

/-- All the digits are taken. -/
theorem scanDigits_spec {ds : List UInt8} {num : Nat} {b : UInt8} (acc : α) (hds : Digits ds) (hb : ¬ IsDigit b)
    (hm : CellsAre m num (ds ++ [b])) : scanDigits m f (m.length + 1) num acc = .ok (num + ds.length, ds.foldl f acc) := by
  have hlen := hm.length_le
  rw [List.length_append, List.length_singleton] at hlen
  have hscan := scanDigits_loop (f := f) ds (m.length - ds.length) num acc hds hb hm
  rwa [(by omega : m.length - ds.length + ds.length + 1 = m.length + 1)] at hscan

variable {F : Doubles}

theorem scanInt_spec {i ints : List UInt8} {num : Nat} {b : UInt8} (hi : IntPart i ints) (hb : ¬ IsDigit b)
    (hm : CellsAre m num (i ++ [b])) :
    (skipZero m num >>= scanInt F m) = .ok (num + i.length, ints.foldl F.shift (F.ofInt 0)) := by
  cases hi with
  | zero =>
    have hzero : skipZero m num = .ok (num + 1) := by
      rw [skipZero, hm.1]
      rfl
    rw [hzero, done_bind, scanInt, hm.2.1, done_bind, if_neg fun h => hb ⟨UInt8.le_trans (by decide) h.1, h.2⟩]
    rfl
  | @digits d ds hd hds =>
    have hzero : skipZero m num = .ok num := by
      rw [skipZero, hm.1, done_bind, if_neg]
      · rfl
      · rintro rfl
        exact absurd hd.1 (by decide)
    have hall : Digits (d :: ds) := by
      intro d' hd'
      rcases List.mem_cons.1 hd' with rfl | hmem
      · exact ⟨UInt8.le_trans (by decide) hd.1, hd.2⟩
      · exact hds d' hmem
    rw [hzero, done_bind, scanInt, hm.1, done_bind, if_pos hd, scanDigits_spec _ hall hb hm]

theorem foldl_fracDigit (ds : List UInt8) (n : F.Double) (scale : Int) :
    ds.foldl (fracDigit F) (n, scale) = (ds.foldl F.shift n, scale - ds.length) := by
  induction ds generalizing n scale with
  | nil => simp
  | cons d ds ih =>
    rw [List.foldl_cons, fracDigit, ih, List.foldl_cons, List.length_cons]
    simp only [Prod.mk.injEq, true_and]
    omega

theorem scanFrac_spec {f fracs : List UInt8} {num : Nat} {b : UInt8} (n : F.Double) (hf : FracPart f fracs) (hb : ¬ IsDigit b)
    (hpoint : b ≠ 46) (hm : CellsAre m num (f ++ [b])) :
    scanFrac F m num n = .ok (num + f.length, fracs.foldl F.shift n, -fracs.length) := by
  cases hf with
  | none =>
    rw [scanFrac, hm.1, done_bind, if_neg hpoint]
    rfl
  | @point d ds hds =>
    rw [scanFrac, hm.1, done_bind, if_pos rfl, hm.2.1, done_bind, if_pos (hds d List.mem_cons_self),
      scanDigits_spec _ hds hb hm.2, foldl_fracDigit, Int.zero_sub, Nat.add_assoc, Nat.add_comm 1]
    rfl

/-- An exponent that fits an `int` is counted without a wrap: the values of its first digits are smaller still. -/
theorem foldl_expDigit : ∀ (ds : List UInt8) (v : Nat), valueFrom v ds < 2 ^ 31 → ds.foldl expDigit v = valueFrom v ds
  | [], _, _ => rfl
  | d :: ds, v, hlt => by
    rw [valueFrom_cons] at hlt ⊢
    have hle := le_valueFrom (v * 10 + digit d) ds
    have hstep : expDigit v d = ((v * 10 + digit d : Nat) : Int) := by
      have hten : toInt ((v : Int) * 10) = v * 10 := toInt_of_lt (by omega) (by omega)
      rw [expDigit, hten, toInt_of_lt (by omega) (by omega)]
      push_cast
      rfl
    rw [List.foldl_cons, hstep, foldl_expDigit ds _ hlt]

theorem scanExp_spec {x : List UInt8} {e : Int} {num : Nat} {b : UInt8} (hx : ExpPart x e) (hb : Ends b)
    (hm : CellsAre m num (x ++ [b])) : scanExp m num = .ok (num + x.length, e) := by
  have hdigit := hb.not_digit
  cases hx with
  | none =>
    rw [scanExp, hm.1, done_bind, if_neg (not_or.2 ⟨hb.ne (by decide), hb.ne (by decide)⟩)]
    rfl
  | @plain ch d ds he hds hlt =>
    have hd := hds d List.mem_cons_self
    -- a digit is neither sign
    have hplus : d ≠ 43 := by
      rintro rfl
      exact absurd hd (by decide)
    have hminus : d ≠ 45 := by
      rintro rfl
      exact absurd hd (by decide)
    rw [scanExp, hm.1, done_bind, if_pos he, scanExpDigits, hm.2.1, done_bind, if_neg (not_or.2 ⟨hplus, hminus⟩),
      scanDigits_spec _ hds hdigit hm.2, done_bind, Nat.add_assoc, Nat.add_comm 1]
    have hcount := foldl_expDigit (d :: ds) 0 hlt
    simp only [if_neg hminus]
    rw [← hcount]
    rfl
  | @plus ch ds he hds hlt =>
    rw [scanExp, hm.1, done_bind, if_pos he, scanExpDigits, hm.2.1, done_bind, if_pos (.inl rfl),
      scanDigits_spec _ hds hdigit hm.2.2, done_bind, List.length_cons, List.length_cons]
    rw [(by omega : num + 1 + 1 + ds.length = num + (ds.length + 1 + 1)), ← foldl_expDigit ds 0 hlt]
    rfl
  | @minus ch ds he hds hlt =>
    rw [scanExp, hm.1, done_bind, if_pos he, scanExpDigits, hm.2.1, done_bind, if_pos (.inr rfl),
      scanDigits_spec _ hds hdigit hm.2.2, done_bind, List.length_cons, List.length_cons]
    have hcount := foldl_expDigit ds 0 hlt
    rw [Nat.cast_zero] at hcount
    rw [(by omega : num + 1 + 1 + ds.length = num + (ds.length + 1 + 1)), hcount]
    simp only [if_pos, toInt_of_lt (by omega : -2 ^ 31 ≤ -(valueFrom 0 ds : Int)) (by omega)]
    rfl

/-- What is behind the digits in front of the point, or behind a fraction, is no digit. -/
theorem ExpPart.head {x : List UInt8} {e : Int} (hx : ExpPart x e) {b : UInt8} (hb : Ends b) :
    ∃ ch more, x ++ [b] = ch :: more ∧ ¬ IsDigit ch ∧ ch ≠ 46 := by
  have hexp : ∀ {ch : UInt8}, ch = 101 ∨ ch = 69 → ¬ IsDigit ch ∧ ch ≠ 46 := by
    rintro ch (rfl | rfl) <;> decide
  cases hx with
  | none => exact ⟨b, [], rfl, hb.not_digit, hb.ne (by decide)⟩
  | plain he hds hlt => exact ⟨_, _, rfl, hexp he⟩
  | plus he hds hlt => exact ⟨_, _, rfl, hexp he⟩
  | minus he hds hlt => exact ⟨_, _, rfl, hexp he⟩

theorem FracPart.head {f fracs : List UInt8} (hf : FracPart f fracs) {ch : UInt8} {more : List UInt8} (hch : ¬ IsDigit ch) :
    ∃ ch' more', f ++ ch :: more = ch' :: more' ∧ ¬ IsDigit ch' := by
  cases hf with
  | none => exact ⟨ch, more, rfl, hch⟩
  | point hds => exact ⟨46, _, rfl, by decide⟩

/-- The first one of these cells. -/
theorem cellsAre_head {ch : UInt8} {more as : List UInt8} {i : Nat} (hm : CellsAre m i (as ++ ch :: more)) :
    CellsAre m i (as ++ [ch]) := by
  obtain ⟨h₁, h₂⟩ := cellsAre_append.1 hm
  exact cellsAre_append.2 ⟨h₁, h₂.1, trivial⟩

/-- A number behind its sign. -/
theorem parseNumber_parts {i f x ints fracs : List UInt8} {e sign : Int} {num num' : Nat} {b : UInt8} (hi : IntPart i ints)
    (hf : FracPart f fracs) (hx : ExpPart x e) (hb : Ends b) (hsign : scanSign m num = .ok (num', sign))
    (hm : CellsAre m num' (i ++ (f ++ (x ++ [b])))) :
    parseNumber F m num = .ok (num' + (i ++ (f ++ x)).length, numberValue F sign ints fracs e) := by
  obtain ⟨-, hmf⟩ := cellsAre_append.1 hm
  obtain ⟨-, hmx⟩ := cellsAre_append.1 hmf
  have hexp := scanExp_spec hx hb hmx
  obtain ⟨ch, more, hhead, hch, hpoint⟩ := hx.head hb
  rw [hhead] at hm hmf
  obtain ⟨ch', more', hhead', hch'⟩ := hf.head hch
  rw [hhead'] at hm
  have hint := scanInt_spec (F := F) hi hch' (cellsAre_head hm)
  have hfrac := scanFrac_spec (ints.foldl F.shift (F.ofInt 0)) hf hch hpoint (cellsAre_head hmf)
  rw [parseNumber, hsign, done_bind]
  simp only
  rw [← bind_assoc, hint, done_bind]
  simp only
  rw [hfrac, done_bind]
  simp only
  rw [hexp, done_bind, numberValue, List.foldl_append]
  simp only [List.length_append, Nat.add_assoc]
  rfl

/-! ## Strings that are read -/

theorem utf8_ne_zero {uc : Nat} (h0 : uc ≠ 0) (h : uc < 0xD800 ∨ 0xDFFF < uc) (hlt : uc < 0x110000) : 0 ∉ utf8 uc := by
  have hbyte : ∀ x : Nat, 0 < x → x < 256 → (0 : UInt8) ≠ UInt8.ofNat x := by
    intro x hpos hx heq
    have := congrArg UInt8.toNat heq
    simp at this
    omega
  unfold utf8 String.utf8EncodeChar
  simp only [toNat_val_ofNat h hlt]
  split_ifs <;> simp only [List.mem_cons, List.not_mem_nil, or_false, not_or]
  · exact hbyte _ (by omega) (by omega)
  · exact ⟨hbyte _ (by omega) (by omega), hbyte _ (by omega) (by omega)⟩
  · exact ⟨hbyte _ (by omega) (by omega), hbyte _ (by omega) (by omega), hbyte _ (by omega) (by omega)⟩
  · exact ⟨hbyte _ (by omega) (by omega), hbyte _ (by omega) (by omega), hbyte _ (by omega) (by omega),
      hbyte _ (by omega) (by omega)⟩

theorem Piece.ne_zero {c v : List UInt8} (h : Piece c v) : 0 ∉ v := by
  cases h with
  | plain hq hb h0 => simpa using h0.symm
  | @escape b hu h0 =>
    have hne : escaped b ≠ 0 := by
      unfold escaped
      split_ifs <;> first | decide | exact h0
    simpa using hne.symm
  | unicode hd h0 hs => exact utf8_ne_zero h0 hs (Nat.lt_trans hd.lt (by decide))
  | pair hd he hh hl => exact utf8_ne_zero (by omega) (.inr (by omega)) (by omega)

theorem Encodes.ne_zero {text value : List UInt8} (h : Encodes text value) : 0 ∉ value := by
  induction h with
  | nil => exact List.not_mem_nil
  | cons hc h ih =>
    rw [List.mem_append, not_or]
    exact ⟨hc.ne_zero, ih⟩

/-- Bytes that stand for themselves. -/
theorem Encodes.plain : ∀ {s : List UInt8}, (∀ b ∈ s, b ≠ DQUOTE ∧ b ≠ BACKSLASH ∧ b ≠ 0) → Encodes s s
  | [], _ => .nil
  | b :: _, h =>
    have hb := h b List.mem_cons_self
    .cons (.plain hb.1 hb.2.1 hb.2.2) (Encodes.plain fun b' hb' => h b' (List.mem_cons_of_mem _ hb'))

theorem blockString_spec {value : List UInt8} (h : 0 ∉ value) (rest : List (Option UInt8)) :
    blockString (value.map some ++ some 0 :: rest) = value := by
  have hall : ∀ b ∈ value.map some, decide (b ≠ some 0) = Bool.true := by
    intro b hb
    obtain ⟨ch, hch, rfl⟩ := List.mem_map.1 hb
    rw [decide_eq_true_iff, ne_eq, Option.some.injEq]
    rintro rfl
    exact h hch
  rw [blockString, List.takeWhile_append_of_pos hall, List.takeWhile_cons_of_neg (by decide), List.append_nil,
    List.filterMap_map]
  exact List.filterMap_some

/-! ## Values that are read -/

theorem parseWord_none {value : Nat} {b : UInt8} (hm : get m value = .ok b) (hb : b ≠ 110 ∧ b ≠ 102 ∧ b ≠ 116) :
    parseWord F m value = .ok none := by
  rw [parseWord, startsWith_null hm hb.1, done_bind]
  simp only [Bool.false_eq_true, if_false]
  rw [startsWith_false hm hb.2.1, done_bind]
  simp only [Bool.false_eq_true, if_false]
  rw [show ascii "true" = 116 :: ascii "rue" from rfl, startsWith_ne hm hb.2.2, done_bind]
  rfl

theorem parseValue_word {fuel value : Nat} {r : Nat × Value F.Double} (h : parseWord F m value = .ok (some r)) :
    parseValue F m (fuel + 1) value = .ok (some r) := by
  rw [parseValue, h, done_bind]
  rfl

theorem parseValue_scalar {fuel value : Nat} {b : UInt8} (hm : get m value = .ok b) (hb : b = DQUOTE ∨ b = 45 ∨ IsDigit b) :
    parseValue F m (fuel + 1) value = parseScalar F m value := by
  have hcases : (b ≠ 110 ∧ b ≠ 102 ∧ b ≠ 116) ∧ b ≠ 91 ∧ b ≠ 123 := by
    rcases hb with rfl | rfl | hb
    · decide
    · decide
    · refine ⟨⟨?_, ?_, ?_⟩, ?_, ?_⟩ <;> rintro rfl <;> exact absurd hb (by decide)
  rw [parseValue, parseWord_none hm hcases.1, done_bind, if_neg (by simp), hm, done_bind, if_neg hcases.2.1,
    if_neg hcases.2.2]

theorem parseScalar_number {i f x ints fracs : List UInt8} {e sign : Int} {value num : Nat} {b ch : UInt8} (hi : IntPart i ints)
    (hf : FracPart f fracs) (hx : ExpPart x e) (hb : Ends b) (hsign : scanSign m value = .ok (num, sign))
    (hget : get m value = .ok ch) (hch : ch = 45 ∨ IsDigit ch) (hm : CellsAre m num (i ++ (f ++ (x ++ [b])))) :
    parseScalar F m value = .ok (some (num + (i ++ (f ++ x)).length, .number (numberValue F sign ints fracs e))) := by
  have hquote : ch ≠ DQUOTE := by
    rintro rfl
    exact absurd hch (by decide)
  rw [parseScalar, hget, done_bind, if_neg hquote, if_pos hch, parseNumber_parts hi hf hx hb hsign hm]
  rfl

theorem IntPart.head {i ints : List UInt8} (h : IntPart i ints) : ∃ d ds, i = d :: ds ∧ IsDigit d := by
  cases h with
  | zero => exact ⟨48, [], rfl, by decide⟩
  | @digits d ds hd hds => exact ⟨d, ds, rfl, UInt8.le_trans (by decide) hd.1, hd.2⟩

/-- A value starts with something else than a blank or a closing bracket. -/
theorem Doc.head {t : List UInt8} {v : Value F.Double} (h : Doc F t v) : ∃ b t', t = b :: t' ∧ ¬ Ends b := by
  have hdigit : ∀ {d : UInt8}, IsDigit d → ¬ Ends d := fun hd hends => hends.not_digit hd
  cases h with
  | number hi hf hx =>
    obtain ⟨d, ds, rfl, hd⟩ := hi.head
    exact ⟨d, _, rfl, hdigit hd⟩
  | _ => exact ⟨_, _, rfl, by decide⟩

theorem Items.head {text : List UInt8} {vs : List (Value F.Double)} (h : Items F text vs) :
    ∃ w b more, text = w ++ b :: more ∧ Blank w ∧ ¬ Ends b := by
  cases h with
  | @last w t w' v hw h hw' =>
    obtain ⟨b, t, rfl, hb⟩ := h.head
    exact ⟨w, b, t ++ w', rfl, hw, hb⟩
  | @cons w t w' text v vs hw h hw' hs =>
    obtain ⟨b, t, rfl, hb⟩ := h.head
    exact ⟨w, b, t ++ (w' ++ 44 :: text), rfl, hw, hb⟩

theorem Members.head {text : List UInt8} {ms : List (List UInt8 × Value F.Double)} (h : Members F text ms) :
    ∃ w b more, text = w ++ b :: more ∧ Blank w ∧ ¬ Ends b := by
  cases h with
  | last hw hn ha hb h hw' => exact ⟨_, DQUOTE, _, rfl, hw, by decide⟩
  | cons hw hn ha hb h hw' hs => exact ⟨_, DQUOTE, _, rfl, hw, by decide⟩

/-- Skipping the blanks once more changes nothing. -/
theorem skipAll_head {w more : List UInt8} {b : UInt8} {p : Nat} (hw : Blank w) (hb : ¬ Ends b)
    (hm : CellsAre m p (w ++ b :: more)) : ∃ q, skipAll m p = .ok q ∧ get m q = .ok b ∧ skipAll m q = .ok q := by
  have hgt : b = 0 ∨ ¬ b ≤ 32 := .inr fun hle => hb (.inl hle)
  have hget := (cellsAre_append.1 hm).2.1
  exact ⟨p + w.length, skipAll_spec hw hgt (cellsAre_head hm), hget, skipAll_spec (w := []) (by simp [Blank]) hgt ⟨hget, trivial⟩⟩

theorem parseItem_skip {p q fuel : Nat} {children : List (Value F.Double)} (hp : skipAll m p = .ok q) (hq : skipAll m q = .ok q) :
    parseItem F m (fuel + 1) q children = parseItem F m (fuel + 1) p children := by
  rw [parseItem, parseItem, hp, hq]

theorem parseMember_skip {p q fuel : Nat} {children : List (List UInt8 × Value F.Double)} (hp : skipAll m p = .ok q)
    (hq : skipAll m q = .ok q) : parseMember F m (fuel + 1) q children = parseMember F m (fuel + 1) p children := by
  rw [parseMember, parseMember, hp, hq]

theorem parseName_spec {n a rest name : List UInt8} {p : Nat} (hn : Encodes n name) (hbound : n.length < 2 ^ 31 - 1) (ha : Blank a)
    (hm : CellsAre m p (DQUOTE :: (n ++ DQUOTE :: (a ++ 58 :: rest)))) :
    ∃ q, parseName m p = .ok (some (q, name)) ∧ CellsAre m (q + 1) rest ∧ q + 1 = p + n.length + a.length + 3 := by
  rw [← List.cons_append] at hm
  obtain ⟨hm₁, hm₂⟩ := cellsAre_append.1 hm
  obtain ⟨hm₃, hm₄⟩ := cellsAre_append.1 hm₂.2
  obtain ⟨k, hparse⟩ := parseString_cells hn hbound (cellsAre_head hm)
  have hlen : p + (DQUOTE :: n).length + 1 = p + n.length + 2 := by
    rw [List.length_cons]
    omega
  have hskip := skipAll_spec ha (.inr (by decide)) (cellsAre_head hm₂.2)
  rw [hlen] at hskip hm₄
  refine ⟨p + n.length + 2 + a.length, ?_, hm₄.2, by omega⟩
  rw [parseName, hparse, done_bind]
  simp only
  rw [hskip, done_bind, hm₄.1, done_bind, if_pos rfl, blockString_spec hn.ne_zero]
  rfl

/-- A value between blanks, where `parse_value` reads the value itself. -/
theorem read_between {w t w' rest : List UInt8} {b : UInt8} {v : Value F.Double} {p fuel : Nat} (hw : Blank w) (hw' : Blank w')
    (hb : b = 0 ∨ ¬ b ≤ 32) (hends : Ends b) (ht : ∃ b t', t = b :: t' ∧ ¬ Ends b)
    (hread : ∀ p ch, Ends ch → CellsAre m p (t ++ [ch]) → parseValue F m fuel p = .ok (some (p + t.length, v)))
    (hm : CellsAre m p (w ++ (t ++ (w' ++ b :: rest)))) :
    ∃ q r, skipAll m p = .ok q ∧ parseValue F m fuel q = .ok (some (r, v)) ∧ skipAll m r = .ok (r + w'.length) ∧
      get m (r + w'.length) = .ok b ∧ CellsAre m (r + w'.length + 1) rest ∧ r = p + w.length + t.length := by
  obtain ⟨hm₁, hm₂⟩ := cellsAre_append.1 hm
  obtain ⟨hm₃, hm₄⟩ := cellsAre_append.1 hm₂
  obtain ⟨hm₅, hm₆⟩ := cellsAre_append.1 hm₄
  obtain ⟨ch, more, hhead, hch⟩ : ∃ ch more, w' ++ b :: rest = ch :: more ∧ Ends ch := by
    cases w' with
    | nil => exact ⟨b, rest, rfl, hends⟩
    | cons ch w' => exact ⟨ch, w' ++ b :: rest, rfl, .inl (hw' ch List.mem_cons_self).2⟩
  obtain ⟨ch', t', rfl, hch'⟩ := ht
  rw [hhead] at hm₂
  exact ⟨p + w.length, p + w.length + (ch' :: t').length, skipAll_spec hw (.inr fun hle => hch' (.inl hle)) (cellsAre_head hm),
    hread _ ch hch (cellsAre_head hm₂), skipAll_spec hw' hb (cellsAre_head hm₄), hm₆.1, hm₆.2, rfl⟩

/-! ## Texts without a terminator -/

theorem Blank.ne_zero {w : List UInt8} (hw : Blank w) : 0 ∉ w := fun h => (hw 0 h).1 rfl

theorem Digits.ne_zero {ds : List UInt8} (hds : Digits ds) : 0 ∉ ds := fun h => absurd (hds 0 h) (by decide)

theorem IntPart.ne_zero {i ints : List UInt8} (h : IntPart i ints) : 0 ∉ i := by
  cases h with
  | zero => decide
  | @digits d ds hd hds =>
    rw [List.mem_cons, not_or]
    refine ⟨?_, Digits.ne_zero hds⟩
    rintro rfl
    exact absurd hd (by decide)

theorem FracPart.ne_zero {f fracs : List UInt8} (h : FracPart f fracs) : 0 ∉ f := by
  cases h with
  | none => exact List.not_mem_nil
  | point hds =>
    rw [List.mem_cons, not_or]
    exact ⟨by decide, Digits.ne_zero hds⟩

theorem ExpPart.ne_zero {x : List UInt8} {e : Int} (h : ExpPart x e) : 0 ∉ x := by
  have hexp : ∀ {ch : UInt8}, ch = 101 ∨ ch = 69 → (0 : UInt8) ≠ ch := by
    rintro ch (rfl | rfl) <;> decide
  cases h with
  | none => exact List.not_mem_nil
  | plain he hds hlt =>
    rw [List.mem_cons, not_or]
    exact ⟨hexp he, Digits.ne_zero hds⟩
  | plus he hds hlt =>
    rw [List.mem_cons, List.mem_cons, not_or, not_or]
    exact ⟨hexp he, by decide, Digits.ne_zero hds⟩
  | minus he hds hlt =>
    rw [List.mem_cons, List.mem_cons, not_or, not_or]
    exact ⟨hexp he, by decide, Digits.ne_zero hds⟩

theorem Hex4.ne_zero {ds : List UInt8} {uc : Nat} (h : Hex4 ds uc) : 0 ∉ ds := fun h0 => absurd (h.2.1 0 h0) (by decide)

/-- A string in a text has no NUL, as it is written. -/
theorem Encodes.text_ne_zero {text value : List UInt8} (h : Encodes text value) : 0 ∉ text := by
  induction h with
  | nil => exact List.not_mem_nil
  | cons hc h ih =>
    rw [List.mem_append, not_or]
    refine ⟨?_, ih⟩
    cases hc with
    | plain hq hb h0 => simpa using h0.symm
    | escape hu h0 => simpa [BACKSLASH] using h0.symm
    | unicode hd h0 hs =>
      have := Hex4.ne_zero hd
      simpa [BACKSLASH] using this
    | pair hd he hh hl =>
      have h₁ := Hex4.ne_zero hd
      have h₂ := Hex4.ne_zero he
      simpa [BACKSLASH] using ⟨h₁, h₂⟩

mutual

theorem Doc.text_ne_zero : ∀ {t : List UInt8} {v : Value F.Double}, Doc F t v → 0 ∉ t
  | _, _, .null => by decide +kernel
  | _, _, .false => by decide +kernel
  | _, _, .true => by decide +kernel
  | _, _, .number hi hf hx => by simp [IntPart.ne_zero hi, FracPart.ne_zero hf, ExpPart.ne_zero hx]
  | _, _, .negative hi hf hx => by simp [IntPart.ne_zero hi, FracPart.ne_zero hf, ExpPart.ne_zero hx]
  | _, _, .string h => by simp [Encodes.text_ne_zero h, DQUOTE]
  | _, _, .emptyArray hw => by simp [Blank.ne_zero hw]
  | _, _, .array h => by simp [Items.text_ne_zero h]
  | _, _, .emptyObject hw => by simp [Blank.ne_zero hw]
  | _, _, .object h => by simp [Members.text_ne_zero h]

theorem Items.text_ne_zero : ∀ {text : List UInt8} {vs : List (Value F.Double)}, Items F text vs → 0 ∉ text
  | _, _, .last hw h hw' => by simp [Blank.ne_zero hw, Doc.text_ne_zero h, Blank.ne_zero hw']
  | _, _, .cons hw h hw' hs => by simp [Blank.ne_zero hw, Doc.text_ne_zero h, Blank.ne_zero hw', Items.text_ne_zero hs]

theorem Members.text_ne_zero : ∀ {text : List UInt8} {ms : List (List UInt8 × Value F.Double)}, Members F text ms → 0 ∉ text
  | _, _, .last hw hn ha hb h hw' => by
    simp [Blank.ne_zero hw, Encodes.text_ne_zero hn, Blank.ne_zero ha, Blank.ne_zero hb, Doc.text_ne_zero h, Blank.ne_zero hw',
      DQUOTE]
  | _, _, .cons hw hn ha hb h hw' hs => by
    simp [Blank.ne_zero hw, Encodes.text_ne_zero hn, Blank.ne_zero ha, Blank.ne_zero hb, Doc.text_ne_zero h, Blank.ne_zero hw',
      Members.text_ne_zero hs, DQUOTE]

end

theorem Members.name_ne_zero : ∀ {text : List UInt8} {ms : List (List UInt8 × Value F.Double)}, Members F text ms →
    ∀ c ∈ ms, 0 ∉ c.1
  | _, _, .last hw hn ha hb h hw', c, hc => by
    obtain rfl := List.mem_singleton.1 hc
    exact hn.ne_zero
  | _, _, .cons hw hn ha hb h hw' hs, c, hc => by
    rcases List.mem_cons.1 hc with rfl | hmem
    · exact hn.ne_zero
    · exact Members.name_ne_zero hs c hmem

theorem Doc.name_ne_zero {t : List UInt8} {ms : List (List UInt8 × Value F.Double)} (h : Doc F t (.object ms)) :
    ∀ c ∈ ms, 0 ∉ c.1 := by
  cases h with
  | emptyObject hw => exact fun c hc => absurd hc List.not_mem_nil
  | object h => exact Members.name_ne_zero h

/-! ## Documents that are read -/

mutual

/-- A value is read up to its end. Each level of the text takes a character at least, which is what the fuel counts, and
the length of the whole bounds those of the strings in it. -/
theorem Doc.parse : ∀ {t : List UInt8} {v : Value F.Double}, Doc F t v → t.length < 2 ^ 31 → ∀ (fuel p : Nat) {b : UInt8},
    t.length ≤ fuel → Ends b → CellsAre m p (t ++ [b]) → parseValue F m fuel p = .ok (some (p + t.length, v))
  | _, _, .null, _, fuel + 1, p, _, _, _, hm => by
    refine parseValue_word ?_
    rw [parseWord, startsWith_spec _ _ (cellsAre_append.1 hm).1, done_bind]
    rfl
  | _, _, .false, _, fuel + 1, p, _, _, _, hm => by
    refine parseValue_word ?_
    rw [parseWord, startsWith_null hm.1 (by decide), done_bind]
    simp only [Bool.false_eq_true, if_false]
    rw [startsWith_spec _ _ (cellsAre_append.1 hm).1, done_bind]
    rfl
  | _, _, .true, _, fuel + 1, p, _, _, _, hm => by
    refine parseValue_word ?_
    rw [parseWord, startsWith_null hm.1 (by decide), done_bind]
    simp only [Bool.false_eq_true, if_false]
    rw [startsWith_false hm.1 (by decide), done_bind]
    simp only [Bool.false_eq_true, if_false]
    rw [startsWith_spec _ _ (cellsAre_append.1 hm).1, done_bind]
    rfl
  | _, _, .number hi hf hx, _, 0, _, _, hfuel, _, _ => by
    obtain ⟨d, ds, rfl, -⟩ := hi.head
    exact absurd hfuel (Nat.not_succ_le_zero _)
  | _, _, .number hi hf hx, _, fuel + 1, p, _, _, hb, hm => by
    obtain ⟨d, ds, rfl, hd⟩ := hi.head
    -- the first digit is not the sign
    have hsign : scanSign m p = .ok (p, 1) := by
      rw [scanSign, hm.1, done_bind, if_neg]
      · rfl
      · rintro rfl
        exact absurd hd (by decide)
    have hget : get m p = .ok d := hm.1
    rw [List.append_assoc, List.append_assoc] at hm
    rw [parseValue_scalar hget (.inr (.inr hd)), parseScalar_number hi hf hx hb hsign hget (.inr hd) hm]
  | _, _, .negative hi hf hx, _, fuel + 1, p, _, _, hb, hm => by
    have hsign : scanSign m p = .ok (p + 1, -1) := by
      rw [scanSign, hm.1]
      rfl
    have hget : get m p = .ok 45 := hm.1
    have hm' := hm.2
    rw [List.append_eq, List.append_assoc, List.append_assoc] at hm'
    rw [parseValue_scalar hget (.inr (.inl rfl)), parseScalar_number hi hf hx hb hsign hget (.inl rfl) hm', Nat.add_assoc,
      Nat.add_comm 1]
    rfl
  | _, _, .string h, hlt, fuel + 1, p, _, _, _, hm => by
    obtain ⟨n, hparse⟩ := parseString_cells h (by simp at hlt; omega) (cellsAre_append.1 hm).1
    rw [parseValue_scalar hm.1 (.inl rfl), parseScalar, hm.1, done_bind, if_pos rfl, hparse, done_bind]
    simp only [Option.map_some, blockString_spec h.ne_zero, List.length_cons, List.length_append, List.length_nil, Nat.add_assoc]
    rfl
  | _, _, .emptyArray hw, _, fuel + 1, p, _, _, _, hm => by
    have hm' := hm.2
    rw [List.append_eq, List.append_assoc, List.singleton_append] at hm'
    rw [parseValue, parseWord_none hm.1 (by decide), done_bind, if_neg (by simp), hm.1, done_bind, if_pos rfl,
      skipAll_spec hw (.inr (by decide)) (cellsAre_head hm'), done_bind, (cellsAre_append.1 hm').2.1, done_bind, if_pos rfl]
    simp only [List.length_cons, List.length_append, List.length_nil]
    congr 3
    omega
  | _, _, .array h, hlt, fuel + 1, p, _, hfuel, _, hm => by
    -- behind the bracket there are blanks, and the first item, which is no closing bracket
    have hm' := hm.2
    rw [List.append_eq, List.append_assoc, List.singleton_append] at hm'
    obtain ⟨w, b, more, heq, hw, hb⟩ := h.head
    obtain ⟨fuel, rfl⟩ := Nat.exists_eq_succ_of_ne_zero (n := fuel) (by simp at hfuel; omega)
    have hitems := h.parse (by simp at hlt; omega) (fuel + 1) (p + 1) [] (by simp at hfuel; omega) (cellsAre_head hm')
    rw [heq, List.append_assoc, List.cons_append] at hm'
    obtain ⟨q, hp, hget, hq⟩ := skipAll_head hw hb hm'
    rw [parseValue, parseWord_none hm.1 (by decide), done_bind, if_neg (by simp), hm.1, done_bind, if_pos rfl, hp, done_bind,
      hget, done_bind, if_neg (fun h93 => hb (.inr (.inr (.inl h93)))), parseItem_skip hp hq, hitems]
    simp only [List.length_cons, List.length_append, List.length_nil, List.nil_append]
    congr 3
    omega
  | _, _, .emptyObject hw, _, fuel + 1, p, _, _, _, hm => by
    have hm' := hm.2
    rw [List.append_eq, List.append_assoc, List.singleton_append] at hm'
    rw [parseValue, parseWord_none hm.1 (by decide), done_bind, if_neg (by simp), hm.1, done_bind, if_neg (by decide), if_pos rfl,
      skipAll_spec hw (.inr (by decide)) (cellsAre_head hm'), done_bind, (cellsAre_append.1 hm').2.1, done_bind, if_pos rfl]
    simp only [List.length_cons, List.length_append, List.length_nil]
    congr 3
    omega
  | _, _, .object h, hlt, fuel + 1, p, _, hfuel, _, hm => by
    have hm' := hm.2
    rw [List.append_eq, List.append_assoc, List.singleton_append] at hm'
    obtain ⟨w, b, more, heq, hw, hb⟩ := h.head
    obtain ⟨fuel, rfl⟩ := Nat.exists_eq_succ_of_ne_zero (n := fuel) (by simp at hfuel; omega)
    have hmembers := h.parse (by simp at hlt; omega) (fuel + 1) (p + 1) [] (by simp at hfuel; omega) (cellsAre_head hm')
    rw [heq, List.append_assoc, List.cons_append] at hm'
    obtain ⟨q, hp, hget, hq⟩ := skipAll_head hw hb hm'
    rw [parseValue, parseWord_none hm.1 (by decide), done_bind, if_neg (by simp), hm.1, done_bind, if_neg (by decide), if_pos rfl,
      hp, done_bind, hget, done_bind, if_neg (fun h125 => hb (.inr (.inr (.inr h125)))), parseMember_skip hp hq, hmembers]
    simp only [List.length_cons, List.length_append, List.length_nil, List.nil_append]
    congr 3
    omega

/-- So are the rest of an array and its closing bracket. -/
theorem Items.parse : ∀ {text : List UInt8} {vs : List (Value F.Double)}, Items F text vs → text.length < 2 ^ 31 →
    ∀ (fuel p : Nat) (children : List (Value F.Double)), text.length < fuel → CellsAre m p (text ++ [93]) →
    parseItem F m fuel p children = .ok (some (p + text.length + 1, .array (children ++ vs)))
  | _, _, .last hw h hw', hlt, fuel + 1, p, children, hfuel, hm => by
    simp only [List.append_assoc] at hm
    simp only [List.length_append] at hfuel hlt
    -- the item is read, and then the comma or the bracket behind it
    obtain ⟨q, r, hq, hval, hr, hget, -, heq⟩ := read_between hw hw' (.inr (by decide)) (by decide) h.head
      (fun p _ hch hcells => h.parse (by omega) fuel p (by omega) hch hcells) hm
    rw [parseItem, hq, done_bind, hval, done_bind]
    simp only
    rw [hr, done_bind, hget, done_bind, if_neg (by decide), if_pos rfl, heq]
    simp only [List.length_append, Nat.add_assoc]
  | _, _, .cons hw h hw' hs, hlt, fuel + 1, p, children, hfuel, hm => by
    simp only [List.append_assoc, List.cons_append] at hm
    simp only [List.length_append, List.length_cons] at hfuel hlt
    obtain ⟨q, r, hq, hval, hr, hget, hrest, heq⟩ := read_between hw hw' (.inr (by decide)) (by decide) h.head
      (fun p _ hch hcells => h.parse (by omega) fuel p (by omega) hch hcells) hm
    rw [parseItem, hq, done_bind, hval, done_bind]
    simp only
    rw [hr, done_bind, hget, done_bind, if_pos rfl, hs.parse (by omega) fuel _ _ (by omega) hrest, heq, List.append_assoc]
    simp only [List.length_append, List.length_cons, List.singleton_append]
    congr 3
    omega

/-- And the rest of an object. -/
theorem Members.parse : ∀ {text : List UInt8} {ms : List (List UInt8 × Value F.Double)}, Members F text ms →
    text.length < 2 ^ 31 → ∀ (fuel p : Nat) (children : List (List UInt8 × Value F.Double)), text.length < fuel → CellsAre m p (text ++ [125]) →
    parseMember F m fuel p children = .ok (some (p + text.length + 1, .object (children ++ ms)))
  | _, _, .last hw hn ha hb h hw', hlt, fuel + 1, p, children, hfuel, hm => by
    simp only [List.append_assoc, List.cons_append] at hm
    simp only [List.length_append, List.length_cons] at hfuel hlt
    obtain ⟨hm₁, hm₂⟩ := cellsAre_append.1 hm
    -- first the name and the colon, then the value as in an array
    obtain ⟨o, hname, hm₃, ho⟩ := parseName_spec hn (by omega) ha hm₂
    obtain ⟨q, r, hq, hval, hr, hget, -, heq⟩ := read_between hb hw' (.inr (by decide)) (by decide) h.head
      (fun p _ hch hcells => h.parse (by omega) fuel p (by omega) hch hcells) hm₃
    rw [parseMember, skipAll_spec hw (.inr (by decide)) (cellsAre_head hm), done_bind, hname, done_bind]
    simp only
    rw [hq, done_bind, hval, done_bind]
    simp only
    rw [hr, done_bind, hget, done_bind, if_neg (by decide), if_pos rfl]
    simp only [List.length_append, List.length_cons]
    congr 3
    omega
  | _, _, .cons hw hn ha hb h hw' hs, hlt, fuel + 1, p, children, hfuel, hm => by
    simp only [List.append_assoc, List.cons_append] at hm
    simp only [List.length_append, List.length_cons] at hfuel hlt
    obtain ⟨hm₁, hm₂⟩ := cellsAre_append.1 hm
    obtain ⟨o, hname, hm₃, ho⟩ := parseName_spec hn (by omega) ha hm₂
    obtain ⟨q, r, hq, hval, hr, hget, hrest, heq⟩ := read_between hb hw' (.inr (by decide)) (by decide) h.head
      (fun p _ hch hcells => h.parse (by omega) fuel p (by omega) hch hcells) hm₃
    rw [parseMember, skipAll_spec hw (.inr (by decide)) (cellsAre_head hm), done_bind, hname, done_bind]
    simp only
    rw [hq, done_bind, hval, done_bind]
    simp only
    rw [hr, done_bind, hget, done_bind, if_pos rfl, hs.parse (by omega) fuel _ _ (by omega) hrest, List.append_assoc]
    simp only [List.length_append, List.length_cons, List.singleton_append]
    congr 3
    omega

end

theorem cJSONParse_spec {w t w' : List UInt8} {v : Value F.Double} (hw : Blank w) (h : Doc F t v) (hlt : t.length < 2 ^ 31)
    (hw' : Blank w') (rest : List UInt8) : cJSONParse F ((w ++ (t ++ (w' ++ 0 :: rest))).map some) = .ok (some (w.length + t.length, v)) := by
  have hm : CellsAre ((w ++ (t ++ (w' ++ 0 :: rest))).map some) 0 (w ++ (t ++ (w' ++ 0 :: rest))) := by
    have := cellsAre_known [] (w ++ (t ++ (w' ++ 0 :: rest))) []
    rwa [List.append_nil] at this
  -- the fuel of `cJSONParse` is the length of the memory, which the text is a part of
  have hlen : t.length ≤ ((w ++ (t ++ (w' ++ 0 :: rest))).map some).length := by
    simp only [List.length_map, List.length_append]
    omega
  generalize (w ++ (t ++ (w' ++ 0 :: rest))).map some = m at hm hlen
  obtain ⟨q, r, hq, hval, -, -, -, rfl⟩ := read_between hw hw' (.inl rfl) (.inl (by decide)) h.head
    (fun p _ hch hcells => h.parse hlt (m.length + 1) p (Nat.le_succ_of_le hlen) hch hcells) hm
  rw [cJSONParse, hq, done_bind, hval, Nat.zero_add]

end

/-- `cJSON_Parse` reads every document of less than 2^31 bytes between blanks, whatever the arithmetic of the numbers is:
it returns the tree of values that the document stands for, and has not read beyond the terminator nor a byte of a
string's block that is not set. So a document stands for one tree only. The documents are those with exponents that
fit an `int`, and without the escapes that no C string and no UTF-8 can have: the character 0 and half a surrogate pair. -/
theorem documents_read (F : Doubles) :
    (∀ (w t w' rest : List UInt8) (v : Value F.Double), Blank w → Doc F t v → t.length < 2 ^ 31 → Blank w' →
      cJSONParse F ((w ++ (t ++ (w' ++ 0 :: rest))).map some) = .ok (some (w.length + t.length, v))) ∧
    ∀ (t : List UInt8) (v v' : Value F.Double), Doc F t v → Doc F t v' → t.length < 2 ^ 31 → v = v' := by
  have hnil : Blank [] := List.forall_mem_nil _
  constructor
  · intro w t w' rest v hw h hlt hw'
    exact cJSONParse_spec hw h hlt hw' rest
  · intro t v v' h h' hlt
    have heq := (cJSONParse_spec hnil h hlt hnil []).symm.trans (cJSONParse_spec hnil h' hlt hnil [])
    simpa using heq

/-- Numbers without rounding. -/
def Doubles.exact : Doubles where
  Double := ℚ
  ofInt n := n
  add x y := x + y
  mul x y := x * y
  pow10 e := 10 ^ e

/-- An object with an array and a string, between a blank and a line feed. -/
theorem documents_read_object : cJSONParse .exact ((ascii " \x7b\"a\": [1.5e1,true], \"b\":\"x\"\x7d\n" ++ [0]).map some) =
    .ok (some (29, .object [([97], .array [.number (15 : ℚ), .true]), ([98], .string [120])])) := by
  have hnil : Blank [] := List.forall_mem_nil _
  have hblank : ∀ b : UInt8, b ≠ 0 ∧ b ≤ 32 → Blank [b] := fun b hb ch hch => List.mem_singleton.1 hch ▸ hb
  have hdigit : ∀ b : UInt8, IsDigit b → Digits [b] := fun b hb ch hch => List.mem_singleton.1 hch ▸ hb
  have hvalue : numberValue .exact 1 [49] [53] 1 = (15 : ℚ) := by
    simp [numberValue, Doubles.shift, Doubles.exact, digit]
    norm_num
  have hnumber : Doc .exact [49, 46, 53, 101, 49] (.number (15 : ℚ)) := by
    have := Doc.number (F := .exact) (@IntPart.digits 49 [] (by decide) (List.forall_mem_nil _))
      (@FracPart.point 53 [] (hdigit 53 (by decide))) (@ExpPart.plain 101 49 [] (.inl rfl) (hdigit 49 (by decide)) (by decide))
    rwa [show valueFrom 0 [49] = 1 from rfl, Nat.cast_one, hvalue] at this
  have hmember := Members.last (F := .exact) (hblank 32 (by decide)) (.plain (s := [98]) (by decide +kernel)) hnil hnil
    (.string (.plain (s := [120]) (by decide +kernel))) hnil
  have harray := Doc.array (.cons hnil hnumber hnil (.last hnil .true hnil))
  have hdoc := Doc.object (.cons hnil (.plain (s := [97]) (by decide +kernel)) hnil (hblank 32 (by decide)) harray hnil hmember)
  have hread := (documents_read .exact).1 [32] _ [10] [] _ (hblank 32 (by decide)) hdoc (by decide +kernel) (hblank 10 (by decide))
  have htrue : ascii "true" = [116, 114, 117, 101] := rfl
  have htext : ascii " \x7b\"a\": [1.5e1,true], \"b\":\"x\"\x7d\n" = [32, 123, 34, 97, 34, 58, 32, 91, 49, 46, 53, 101, 49, 44, 116,
      114, 117, 101, 93, 44, 32, 34, 98, 34, 58, 34, 120, 34, 125, 10] := rfl
  rw [htext]
  simpa only [htrue, List.cons_append, List.nil_append, List.length_cons, List.length_nil, List.length_append] using hread

end Json

end PubsubBroker

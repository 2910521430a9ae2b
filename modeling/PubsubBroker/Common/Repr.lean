/-
`sdscatrepr` of `common/sds.c`: a string printed between double quotes, with escapes for the bytes
that cannot stand there. `sdssplitargs` reads such strings back, as its comment in the source says,
for all bytes and for any number of strings on a line.
-/
import PubsubBroker.Common.Util

namespace PubsubBroker

open CLang

/-! ## Printing -/

/-- `isprint` in the C locale. -/
def isprint (b : UInt8) : Bool := 32 ≤ b && b ≤ 126

/-- What `sdscatrepr` appends for one byte. -/
def reprByte (b : UInt8) : List UInt8 :=
  if b = BACKSLASH ∨ b = DQUOTE then [BACKSLASH, b]
  else if b = LF then [BACKSLASH, 110]
  else if b = CR then [BACKSLASH, 114]
  else if b = 9 then [BACKSLASH, 116]
  else if b = 7 then [BACKSLASH, 97]
  else if b = 8 then [BACKSLASH, 98]
  else if isprint b then [b]
  else BACKSLASH :: 120 :: hexFixed 2 b.toNat

/-- `sdscatrepr(s, p, len)`, with the `len` bytes at `p` as a list. -/
def sdscatrepr (s : Sds) (p : List UInt8) : Sds := s ++ [DQUOTE] ++ p.flatMap reprByte ++ [DQUOTE]

/-- The strings printed one after the other, with single spaces between them. -/
def reprLine (args : List Sds) : List UInt8 := [32].intercalate (args.map (sdscatrepr []))

/-! ## One byte -/

theorem hexDigit_hex : ∀ d < 16, isHexDigit (hexDigit d) ∧ hexDigitToInt (hexDigit d) = d.toUInt8 := by decide

theorem hexFixed_two (n : Nat) : hexFixed 2 n = [hexDigit (n / 16 % 16), hexDigit (n % 16)] := rfl

/-- The two hexadecimal digits of a byte give it back. -/
theorem hexDigitToInt_byte (b : UInt8) :
    hexDigitToInt (hexDigit (b.toNat / 16 % 16)) * 16 + hexDigitToInt (hexDigit (b.toNat % 16)) = b := by
  have hlt : b.toNat < 256 := b.toNat_lt
  rw [(hexDigit_hex _ (Nat.mod_lt _ (by omega))).2, (hexDigit_hex _ (Nat.mod_lt _ (by omega))).2]
  apply UInt8.toNat_inj.1
  simp
  omega

/-- The three forms a byte is printed in: after a backslash, as it is, and in hexadecimal. -/
theorem reprByte_cases (b : UInt8) :
    (∃ e, reprByte b = [BACKSLASH, e] ∧ e ≠ 120 ∧ unescape e = b) ∨
    (reprByte b = [b] ∧ b ≠ BACKSLASH ∧ b ≠ DQUOTE) ∨
    (∃ h1 h2, reprByte b = [BACKSLASH, 120, h1, h2] ∧ isHexDigit h1 ∧ isHexDigit h2 ∧
      hexDigitToInt h1 * 16 + hexDigitToInt h2 = b) := by
  unfold reprByte
  split_ifs with hq hlf hcr ht ha hb hp
  · rcases hq with rfl | rfl
    · exact .inl ⟨_, rfl, by decide, by decide⟩
    · exact .inl ⟨_, rfl, by decide, by decide⟩
  · exact .inl ⟨_, rfl, by decide, hlf ▸ by decide⟩
  · exact .inl ⟨_, rfl, by decide, hcr ▸ by decide⟩
  · exact .inl ⟨_, rfl, by decide, ht ▸ by decide⟩
  · exact .inl ⟨_, rfl, by decide, ha ▸ by decide⟩
  · exact .inl ⟨_, rfl, by decide, hb ▸ by decide⟩
  · exact .inr (.inl ⟨rfl, fun h => hq (.inl h), fun h => hq (.inr h)⟩)
  · refine .inr (.inr ⟨_, _, by rw [hexFixed_two], ?_, ?_, hexDigitToInt_byte b⟩)
    · exact (hexDigit_hex _ (Nat.mod_lt _ (by omega))).1
    · exact (hexDigit_hex _ (Nat.mod_lt _ (by omega))).1

/-- Between double quotes a backslash that no hexadecimal escape starts takes the byte behind it. -/
theorem splitToken_backslash {e : UInt8} (he : e ≠ 120) (current : Sds) (p : List UInt8) :
    splitToken .inq current (BACKSLASH :: e :: p) = splitToken .inq (current ++ [unescape e]) p := by
  conv_lhs => rw [splitToken.eq_def]
  simp only [if_true]
  rcases p with - | ⟨h1, - | ⟨h2, p⟩⟩
  · rfl
  · rfl
  · simp only [he, false_and, if_false]

/-- Between double quotes the scanner reads a printed byte back, whatever follows it. -/
theorem splitToken_reprByte (b : UInt8) (current : Sds) (p : List UInt8) :
    splitToken .inq current (reprByte b ++ p) = splitToken .inq (current ++ [b]) p := by
  obtain ⟨e, he, hx, hu⟩ | ⟨he, hbs, hdq⟩ | ⟨h1, h2, he, hh1, hh2, hv⟩ := reprByte_cases b
  · rw [he, List.cons_append, List.singleton_append, splitToken_backslash hx, hu]
  · rw [he, List.singleton_append]
    conv_lhs => rw [splitToken.eq_def]
    simp only [if_neg hbs, if_neg hdq]
  · rw [he]
    simp only [List.cons_append, List.nil_append]
    rw [splitToken, if_pos rfl]
    simp only [hh1, hh2, and_self, if_true, hv]

/-- No byte is printed as a NUL or as a line feed. -/
theorem reprByte_clean (b : UInt8) : 0 ∉ reprByte b ∧ LF ∉ reprByte b := by
  have hhex : ∀ d < 16, (0 : UInt8) ≠ hexDigit d ∧ LF ≠ hexDigit d := by decide
  have hhigh := hhex (b.toNat / 16 % 16) (Nat.mod_lt _ (by omega))
  have hlow := hhex (b.toNat % 16) (Nat.mod_lt _ (by omega))
  have hbs : (0 : UInt8) ≠ BACKSLASH ∧ LF ≠ BACKSLASH := by decide
  have hx : (0 : UInt8) ≠ 120 ∧ LF ≠ (120 : UInt8) := by decide
  unfold reprByte
  rw [hexFixed_two]
  split_ifs with hq hlf hcr ht ha hb hp
  · rcases hq with rfl | rfl <;> decide
  · decide
  · decide
  · decide
  · decide
  · decide
  · rw [List.mem_singleton, List.mem_singleton]
    refine ⟨?_, fun h => hlf h.symm⟩
    rintro rfl
    exact absurd hp (by decide)
  · simp only [List.mem_cons, List.not_mem_nil, or_false, not_or]
    exact ⟨⟨hbs.1, hx.1, hhigh.1, hlow.1⟩, ⟨hbs.2, hx.2, hhigh.2, hlow.2⟩⟩

/-! ## A line -/

theorem splitToken_repr (s : List UInt8) : ∀ (current : Sds) (p : List UInt8),
    splitToken .inq current (s.flatMap reprByte ++ p) = splitToken .inq (current ++ s) p := by
  induction s with
  | nil => intro current p; simp
  | cons b s ih =>
    intro current p
    rw [List.flatMap_cons, List.append_assoc, splitToken_reprByte, ih, List.append_assoc, List.singleton_append]

/-- A printed string that a space or the end follows is one token. -/
theorem splitToken_sdscatrepr (arg : Sds) {p : List UInt8} (hp : p.head? = none ∨ p.head? = some 32) :
    splitToken .plain [] (sdscatrepr [] arg ++ p) = some (arg, p) := by
  have hquote : sdscatrepr [] arg ++ p = DQUOTE :: (arg.flatMap reprByte ++ DQUOTE :: p) := by simp [sdscatrepr]
  rw [hquote, splitToken, if_neg (by decide), if_pos rfl, splitToken_repr, List.nil_append]
  cases p with
  | nil => rfl
  | cons e p =>
    have he : e = 32 := by simpa using hp
    have hsp : isspace e = true := by rw [he]; decide
    conv_lhs => rw [splitToken.eq_def]
    simp only [if_neg (show DQUOTE ≠ BACKSLASH by decide), hsp, if_true]

/-- Strings with a space before each of them. -/
def spaced (args : List Sds) : List UInt8 := args.flatMap fun arg => 32 :: sdscatrepr [] arg

theorem spaced_head (args : List Sds) : (spaced args).head? = none ∨ (spaced args).head? = some 32 := by
  cases args with
  | nil => exact .inl rfl
  | cons arg args => exact .inr rfl

theorem reprLine_cons (arg : Sds) (args : List Sds) : reprLine (arg :: args) = sdscatrepr [] arg ++ spaced args := by
  unfold reprLine
  induction args generalizing arg with
  | nil => simp [spaced]
  | cons arg' args ih =>
    have hstep : [32].intercalate ((arg :: arg' :: args).map (sdscatrepr [])) =
        sdscatrepr [] arg ++ 32 :: [32].intercalate ((arg' :: args).map (sdscatrepr [])) := by
      simp [List.intercalate]
    rw [hstep, ih]
    rfl

/-- The outer loop takes the strings one by one. -/
theorem splitLoop_spaced : ∀ (args : List Sds) (fuel : Nat) (vector : List Sds), args.length < fuel →
    splitLoop fuel (spaced args) vector = some (vector ++ args)
  | [], fuel + 1, vector, _ => by rw [List.append_nil]; rfl
  | arg :: args, fuel + 1, vector, h => by
    have hlen : args.length < fuel := by rw [List.length_cons] at h; omega
    have hskip : (spaced (arg :: args)).dropWhile isspace = sdscatrepr [] arg ++ spaced args := rfl
    have hcons : sdscatrepr [] arg ++ spaced args = DQUOTE :: (sdscatrepr [] arg ++ spaced args).tail := rfl
    have htoken := splitToken_sdscatrepr arg (spaced_head args)
    rw [splitLoop, hskip]
    rw [hcons] at htoken ⊢
    simp only [htoken]
    rw [splitLoop_spaced args fuel _ hlen, List.append_assoc, List.singleton_append]

theorem length_le_spaced (args : List Sds) : args.length ≤ (spaced args).length := by
  induction args with
  | nil => exact Nat.le_refl _
  | cons arg args ih =>
    unfold spaced at ih ⊢
    rw [List.flatMap_cons, List.length_append, List.length_cons, List.length_cons]
    omega

theorem reprLine_clean (args : List Sds) : 0 ∉ reprLine args ∧ LF ∉ reprLine args := by
  have hone (arg : Sds) : 0 ∉ sdscatrepr [] arg ∧ LF ∉ sdscatrepr [] arg := by
    have hclean := fun b => reprByte_clean b
    have hdq : (0 : UInt8) ≠ DQUOTE ∧ LF ≠ DQUOTE := by decide
    unfold sdscatrepr
    simp only [List.nil_append, List.mem_append, List.mem_singleton, List.mem_flatMap, not_or, not_exists, not_and]
    exact ⟨⟨⟨hdq.1, fun b _ => (hclean b).1⟩, hdq.1⟩, ⟨⟨hdq.2, fun b _ => (hclean b).2⟩, hdq.2⟩⟩
  have hspaced (args : List Sds) : 0 ∉ spaced args ∧ LF ∉ spaced args := by
    have hsp : (0 : UInt8) ≠ 32 ∧ LF ≠ (32 : UInt8) := by decide
    unfold spaced
    simp only [List.mem_flatMap, List.mem_cons, not_exists, not_and, not_or]
    exact ⟨fun arg _ => ⟨hsp.1, (hone arg).1⟩, fun arg _ => ⟨hsp.2, (hone arg).2⟩⟩
  cases args with
  | nil => simp [reprLine]
  | cons arg args =>
    rw [reprLine_cons]
    simp only [List.mem_append, not_or]
    exact ⟨⟨(hone arg).1, (hspaced args).1⟩, ⟨(hone arg).2, (hspaced args).2⟩⟩

/-- What the comment above `sdssplitargs` says: it reads back strings that `sdscatrepr` printed. -/
theorem sdssplitargs_reprLine (args : List Sds) : sdssplitargs (reprLine args) = some args := by
  have hcstr : cstr (reprLine args) = reprLine args := cstr_eq_self.2 (reprLine_clean args).1
  unfold sdssplitargs
  rw [hcstr]
  cases args with
  | nil => rfl
  | cons arg args =>
    have hlen : (arg :: args).length < (reprLine (arg :: args)).length + 1 := by
      have := length_le_spaced args
      rw [reprLine_cons, List.length_append, List.length_cons, sdscatrepr]
      simp only [List.length_append, List.length_singleton]
      omega
    have hstep : splitLoop ((reprLine (arg :: args)).length + 1) (reprLine (arg :: args)) [] =
        splitLoop ((reprLine (arg :: args)).length + 1) (spaced (arg :: args)) [] := by
      rw [reprLine_cons]
      rfl
    rw [hstep]
    exact splitLoop_spaced (arg :: args) _ [] hlen

example : sdscatrepr [] (ascii "a\"\n" ++ [0, 200]) = ascii "\"a\\\"\\n\\x00\\xc8\"" := by decide

end PubsubBroker

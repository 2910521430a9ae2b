/-
`common/trie_util.c`: the conversion of a string to trie characters and the walk along them. The trie
itself (libdatrie) and the character converter (iconv) are parameters, with what the broker relies on
as the structures `Datrie.Exact` and `Iconv.Ascii`.
-/
import PubsubBroker.Common.Util
import PubsubBroker.Lib.KeyPath

namespace PubsubBroker

open CLang KeyPath

/-- A character of the trie, 32 bits wide. -/
abbrev AlphaChar := UInt32

/-- The alphabet of `en_alpha_map_new`: `a-z` and `A-Z`. -/
def IsLetter (a : AlphaChar) : Prop := (0x61 ≤ a ∧ a ≤ 0x7a) ∨ (0x41 ≤ a ∧ a ≤ 0x5a)

instance (a : AlphaChar) : Decidable (IsLetter a) := inferInstanceAs (Decidable (_ ∨ _))

/-- A byte as a character. -/
def code (b : UInt8) : AlphaChar := b.toUInt32

/-- A byte that is a letter of the alphabet. -/
def IsLetterByte (b : UInt8) : Prop := IsLetter (code b)

instance (b : UInt8) : Decidable (IsLetterByte b) := inferInstanceAs (Decidable (IsLetter _))

/-- A string over the alphabet. -/
def AllLetters (k : List AlphaChar) : Prop := ∀ a ∈ k, IsLetter a

instance (k : List AlphaChar) : Decidable (AllLetters k) := List.decidableBAll IsLetter k

/-- A byte string of letters. -/
def Letters (k : List UInt8) : Prop := ∀ x ∈ k, IsLetterByte x

instance (k : List UInt8) : Decidable (Letters k) := List.decidableBAll IsLetterByte k

/-! ## The trie -/

/-- The part of libdatrie that the broker calls, on a trie over the alphabet of `en_alpha_map_new`. -/
structure Datrie where
  Trie : Type
  State : Type
  create : Trie
  /-- `trie_retrieve`: whether the key is stored. -/
  retrieve : Trie → List AlphaChar → Bool
  /-- `trie_store`: `none` where it returns `FALSE`. -/
  store : Trie → List AlphaChar → Option Trie
  root : Trie → State
  isWalkable : State → AlphaChar → Bool
  walk : State → AlphaChar → State
  isTerminal : State → Bool

namespace Datrie

/-- The state after walking the characters of `p`. -/
def walkAll (T : Datrie) (s : T.State) (p : List AlphaChar) : T.State := p.foldl T.walk s

/-- libdatrie is an exact set of strings over the alphabet, and its states walk the keys with the
character 0 as the end marker. -/
structure Exact (T : Datrie) (keys : T.Trie → Set (List AlphaChar)) : Prop where
  create : keys T.create = ∅
  letters : ∀ t, ∀ k ∈ keys t, AllLetters k
  retrieve : ∀ t k, T.retrieve t k = true ↔ k ∈ keys t
  store_letters : ∀ t k, AllLetters k → ∃ t', T.store t k = some t' ∧ keys t' = insert k (keys t)
  store_other : ∀ t k, ¬ AllLetters k → T.store t k = none
  walkable : ∀ t p a, Path (keys t) 0 p →
    (T.isWalkable (T.walkAll (T.root t) p) a = true ↔ Path (keys t) 0 (p ++ [a]))
  terminal : ∀ t p, Path (keys t) 0 p →
    (T.isTerminal (T.walkAll (T.root t) p) = true ↔ Path (keys t) 0 (p ++ [0]))

end Datrie

/-- `trie_walker(s, alpha, len, cur)`: walks on from `cur` until the state is terminal. The first
argument counts the characters up to `len`; the state is left where the walk stopped. -/
def trieWalker (T : Datrie) (alpha : Nat → AlphaChar) : Nat → T.State → Nat → T.State × Option Nat
  | 0, s, _ => (s, none)
  | n + 1, s, i =>
    if T.isWalkable s (alpha i) then
      let s := T.walk s (alpha i)
      if T.isTerminal s then (s, some i) else trieWalker T alpha n s (i + 1)
    else (s, none)

/-! ## The conversion -/

/-- An iconv descriptor: the character at the start of some bytes and the number of bytes it takes,
`none` where there is none (at the end, or on an invalid or cut sequence). -/
structure Iconv where
  next : List UInt8 → Option (AlphaChar × Nat)

namespace Iconv

/-- A character takes at least one byte of those there are, and ASCII bytes are their own characters. -/
structure Ascii (conv : Iconv) : Prop where
  range : ∀ s a n, conv.next s = some (a, n) → 1 ≤ n ∧ n ≤ s.length
  ascii : ∀ b s, b < 128 → conv.next (b :: s) = some (code b, 1)

/-- A character takes at least one byte, of those there are. -/
def Advances (conv : Iconv) : Prop := ∀ s a n, conv.next s = some (a, n) → 1 ≤ n ∧ n ≤ s.length

/-- The call of `iconv` with room for `n` characters: what it converts before it stops. -/
def convert (conv : Iconv) : Nat → List UInt8 → List AlphaChar
  | 0, _ => []
  | n + 1, s =>
    match conv.next s with
    | none => []
    | some (a, k) => a :: conv.convert n (s.drop k)

end Iconv

/-- A character in UCS-4LE. -/
def ucs4le (a : AlphaChar) : List UInt8 := [a.toUInt8, (a >>> 8).toUInt8, (a >>> 16).toUInt8, (a >>> 24).toUInt8]

/-- The loop of `conv_to_alpha` over the bytes that `iconv` has written. -/
def readUcs4le : List UInt8 → List AlphaChar
  | b0 :: b1 :: b2 :: b3 :: bytes =>
    (b0.toUInt32 ||| b1.toUInt32 <<< 8 ||| b2.toUInt32 <<< 16 ||| b3.toUInt32 <<< 24) :: readUcs4le bytes
  | _ => []

/-- `conv_to_alpha(to_code, in, out, out_size)`: the characters it writes to `out`, the terminator
included. -/
def convToAlpha (conv : Iconv) (input : List UInt8) (outSize : Nat) : List AlphaChar :=
  let out := readUcs4le ((conv.convert outSize (cstr input)).flatMap ucs4le)
  if out.length < outSize then out ++ [0] else out

/-! ## What is converted -/

theorem code_injective : Function.Injective code := by
  intro a b h
  have := congrArg UInt32.toNat h
  exact UInt8.toNat_inj.1 (by simpa [code] using this)

theorem code_ne_zero {b : UInt8} (h : b ≠ 0) : code b ≠ 0 := fun h0 => h (code_injective h0)

theorem IsLetterByte.lt {b : UInt8} (h : IsLetterByte b) : b < 128 := by
  rw [UInt8.lt_iff_toNat_lt]
  unfold IsLetterByte IsLetter code at h
  simp only [UInt32.le_iff_toNat_le, UInt8.toNat_toUInt32] at h
  have h1 : (0x61 : UInt32).toNat = 97 := rfl
  have h2 : (0x7a : UInt32).toNat = 122 := rfl
  have h3 : (0x41 : UInt32).toNat = 65 := rfl
  have h4 : (0x5a : UInt32).toNat = 90 := rfl
  have h5 : (128 : UInt8).toNat = 128 := rfl
  omega

theorem Letters.map_code {k : List UInt8} (h : Letters k) : AllLetters (k.map code) := by
  intro a ha
  obtain ⟨x, hx, rfl⟩ := List.mem_map.1 ha
  exact h x hx

theorem AllLetters.of_map_code {k : List UInt8} (h : AllLetters (k.map code)) : Letters k :=
  fun _ hx => h _ (List.mem_map_of_mem hx)

theorem not_isLetter_zero : ¬ IsLetter 0 := by decide

theorem IsLetterByte.ne_zero {b : UInt8} (h : IsLetterByte b) : b ≠ 0 := by
  rintro rfl
  exact not_isLetter_zero h

/-- The four bytes of a character are put together again. -/
theorem ucs4le_bytes (a : AlphaChar) : a.toUInt8.toUInt32 ||| (a >>> 8).toUInt8.toUInt32 <<< 8 |||
    (a >>> 16).toUInt8.toUInt32 <<< 16 ||| (a >>> 24).toUInt8.toUInt32 <<< 24 = a := by
  apply UInt32.eq_of_toBitVec_eq
  apply BitVec.eq_of_getLsbD_eq
  intro i hi
  simp only [UInt32.toBitVec_or, UInt32.toBitVec_shiftLeft, UInt8.toBitVec_toUInt32, UInt32.toBitVec_toUInt8,
    UInt32.toBitVec_shiftRight, UInt32.toBitVec_ofNat]
  -- which of the four bytes the bit lies in
  have h : i < 8 ∨ (8 ≤ i ∧ i < 16) ∨ (16 ≤ i ∧ i < 24) ∨ 24 ≤ i := by omega
  rcases h with h | ⟨h, h'⟩ | ⟨h, h'⟩ | h
  · simp [hi, h, show i < 16 by omega, show i < 24 by omega]
  · simp [hi, h', show ¬ i < 8 by omega, show i < 24 by omega, show i - 8 < 32 by omega, show i - 8 < 8 by omega,
      Nat.add_sub_cancel' h]
  · simp [hi, h', show ¬ i < 8 by omega, show ¬ i < 16 by omega, show i - 16 < 32 by omega, show i - 16 < 8 by omega,
      Nat.add_sub_cancel' h, show ¬ i - 8 < 8 by omega]
  · simp [hi, show ¬ i < 8 by omega, show ¬ i < 16 by omega, show ¬ i < 24 by omega, show i - 24 < 32 by omega,
      show i - 24 < 8 by omega, Nat.add_sub_cancel' h, show ¬ i - 8 < 8 by omega, show ¬ i - 16 < 8 by omega]

theorem readUcs4le_flatMap (out : List AlphaChar) : readUcs4le (out.flatMap ucs4le) = out := by
  induction out with
  | nil => rfl
  | cons a out ih =>
    rw [List.flatMap_cons, ucs4le]
    simp only [List.cons_append, List.nil_append, readUcs4le]
    rw [ih, ucs4le_bytes]

/-- `conv_to_alpha` writes what `iconv` converts, and a terminator if there is room. -/
theorem convToAlpha_eq (conv : Iconv) (input : List UInt8) (outSize : Nat) : convToAlpha conv input outSize =
    if (conv.convert outSize (cstr input)).length < outSize then conv.convert outSize (cstr input) ++ [0]
    else conv.convert outSize (cstr input) := by
  unfold convToAlpha
  rw [readUcs4le_flatMap]

namespace Iconv

variable {conv : Iconv}

/-- No more characters are converted than there is room for. -/
theorem length_convert_le (conv : Iconv) (n : Nat) (s : List UInt8) : (conv.convert n s).length ≤ n := by
  induction n generalizing s with
  | zero => simp [convert]
  | succ n ih =>
    unfold convert
    cases conv.next s with
    | none => simp
    | some r => exact Nat.succ_le_succ (ih _)

theorem Advances.length_convert_le (h : conv.Advances) (n : Nat) (s : List UInt8) :
    (conv.convert n s).length ≤ s.length := by
  induction n generalizing s with
  | zero => simp [convert]
  | succ n ih =>
    unfold convert
    cases hn : conv.next s with
    | none => simp
    | some r =>
      obtain ⟨a, k⟩ := r
      have hk := h s a k hn
      have := ih (s.drop k)
      rw [List.length_drop] at this
      rw [List.length_cons]
      omega

/-- ASCII bytes are converted one by one. -/
theorem Ascii.convert_append (h : conv.Ascii) {u : List UInt8} (hu : ∀ b ∈ u, b < 128) (s : List UInt8) {n : Nat}
    (hn : u.length ≤ n) : conv.convert n (u ++ s) = u.map code ++ conv.convert (n - u.length) s := by
  induction u generalizing n with
  | nil => simp
  | cons b u ih =>
    rw [List.length_cons] at hn
    obtain ⟨m, rfl⟩ : ∃ m, n = m + 1 := ⟨n - 1, by omega⟩
    rw [List.forall_mem_cons] at hu
    rw [List.cons_append, convert, h.ascii b _ hu.1]
    simp only [List.drop_succ_cons, List.drop_zero, List.map_cons, List.cons_append, List.length_cons]
    rw [ih hu.2 (by omega), Nat.add_sub_add_right]

/-- The letters at the start of the input come out as their own characters. -/
theorem Ascii.convToAlpha_letters (h : conv.Ascii) {u : List UInt8} (hu : Letters u) (s : List UInt8)
    {n : Nat} (hn : u.length ≤ n) : ∃ t, convToAlpha conv (u ++ s) n = u.map code ++ t := by
  have hcstr : cstr (u ++ s) = u ++ cstr s := by
    unfold cstr
    rw [List.takeWhile_append_of_pos]
    intro b hb
    simpa using (hu b hb).ne_zero
  rw [convToAlpha_eq, hcstr, h.convert_append (fun b hb => (hu b hb).lt) _ hn, List.append_assoc]
  split <;> exact ⟨_, rfl⟩

/-- A string of letters is converted to its own characters and the terminator. -/
theorem Ascii.convToAlpha_of_letters (h : conv.Ascii) {u : List UInt8} (hu : Letters u) :
    convToAlpha conv u (u.length + 1) = u.map code ++ [0] := by
  have hcstr : cstr u = u := cstr_eq_self.2 fun h0 => (hu 0 h0).ne_zero rfl
  have hconv : conv.convert (u.length + 1) u = u.map code := by
    have := h.convert_append (fun b hb => (hu b hb).lt) [] (n := u.length + 1) (by omega)
    have hnil : conv.convert 1 [] = [] := by
      have := Advances.length_convert_le h.range 1 []
      exact List.length_eq_zero_iff.1 (by simpa using this)
    rw [List.append_nil, Nat.add_sub_cancel_left, hnil, List.append_nil] at this
    exact this
  rw [convToAlpha_eq, hcstr, hconv, if_pos (by simp)]

end Iconv

/-! ## An exact trie and an ASCII converter -/

/-- A trie that is the list of its keys; a state is that list and the characters walked. -/
def listTrie : Datrie where
  Trie := { ks : List (List AlphaChar) // ∀ k ∈ ks, AllLetters k }
  State := List (List AlphaChar) × List AlphaChar
  create := ⟨[], by simp⟩
  retrieve t k := decide (k ∈ t.1)
  store t k :=
    if h : AllLetters k then
      some ⟨k :: t.1, List.forall_mem_cons.2 ⟨h, t.2⟩⟩
    else none
  root t := (t.1, [])
  isWalkable s a := s.1.any fun k => (s.2 ++ [a]).isPrefixOf (k ++ List.replicate (s.2 ++ [a]).length 0)
  walk s a := (s.1, s.2 ++ [a])
  isTerminal s := s.1.any fun k => (s.2 ++ [0]).isPrefixOf (k ++ List.replicate (s.2 ++ [0]).length 0)

/-- The keys of a `listTrie`. -/
def listKeys (t : listTrie.Trie) : Set (List AlphaChar) := { k | k ∈ t.1 }

theorem listTrie_walkAll (ks : List (List AlphaChar)) (p q : List AlphaChar) :
    listTrie.walkAll (ks, q) p = (ks, q ++ p) := by
  induction p generalizing q with
  | nil =>
    rw [List.append_nil]
    rfl
  | cons a p ih =>
    have := ih (q ++ [a])
    rw [List.append_assoc] at this
    exact this

theorem listTrie_exact : listTrie.Exact listKeys where
  create := by
    ext k
    simp [listKeys, listTrie]
  letters t k hk := t.2 k hk
  retrieve t k := decide_eq_true_iff
  store_letters t k h := by
    refine ⟨_, dif_pos h, ?_⟩
    ext k'
    exact List.mem_cons
  store_other t k h := dif_neg h
  walkable t p a _ := by
    rw [path_iff, show listTrie.root t = (t.1, []) from rfl, listTrie_walkAll]
    simp [listTrie, listKeys, List.any_eq_true]
  terminal t p _ := by
    rw [path_iff, show listTrie.root t = (t.1, []) from rfl, listTrie_walkAll]
    simp [listTrie, listKeys, List.any_eq_true]

/-- A converter that knows ASCII only. -/
def asciiConv : Iconv where
  next
    | [] => none
    | b :: _ => if b < 128 then some (code b, 1) else none

theorem asciiConv_ascii : asciiConv.Ascii where
  range s a n h := by
    cases s with
    | nil => cases h
    | cons b s =>
      simp only [asciiConv] at h
      split at h
      · cases h
        exact ⟨le_rfl, by simp⟩
      · cases h
  ascii b s h := if_pos h

end PubsubBroker

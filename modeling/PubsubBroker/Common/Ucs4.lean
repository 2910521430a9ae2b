/-
The loop of `conv_to_alpha` on the memory that it decodes in place. `iconv` has left the characters at
`out` in UCS-4LE; each of them is read byte by byte and stored over its own bytes in the order of the
machine, so that what is in front of the loop is decoded, and what it still has to read is as `iconv` left it.
-/
import PubsubBroker.Common.TrieUtil

namespace PubsubBroker

open CLang

/-! ## The memory -/

/-- The byte order of the machine. -/
inductive ByteOrder
  | little
  | big

/-- The bytes of a stored `AlphaChar`. -/
def ByteOrder.bytes : ByteOrder → AlphaChar → List UInt8
  | .little, a => ucs4le a
  | .big, a => (ucs4le a).reverse

/-- An access to one byte, by its offset from `out`. -/
inductive Access
  | read (j : Nat)
  | write (j : Nat)
  deriving DecidableEq

/-- The memory from `out` on, and the accesses so far. -/
structure Out where
  bytes : Nat → UInt8
  accesses : List Access

/-- The value of four bytes, the low one first. -/
def ucs4Value (b0 b1 b2 b3 : UInt8) : AlphaChar :=
  b0.toUInt32 ||| b1.toUInt32 <<< 8 ||| b2.toUInt32 <<< 16 ||| b3.toUInt32 <<< 24

namespace Out

/-- `out[i]` -/
def load (order : ByteOrder) (o : Out) (i : Nat) : AlphaChar :=
  match order with
  | .little => ucs4Value (o.bytes (4 * i)) (o.bytes (4 * i + 1)) (o.bytes (4 * i + 2)) (o.bytes (4 * i + 3))
  | .big => ucs4Value (o.bytes (4 * i + 3)) (o.bytes (4 * i + 2)) (o.bytes (4 * i + 1)) (o.bytes (4 * i))

/-- `out[i] = a` -/
def store (order : ByteOrder) (o : Out) (i : Nat) (a : AlphaChar) : Out where
  bytes j := if 4 * i ≤ j ∧ j < 4 * i + 4 then (order.bytes a).getD (j - 4 * i) 0 else o.bytes j
  accesses := o.accesses ++ (List.range' (4 * i) 4).map .write

/-- The reads of `byte_p[0]` to `byte_p[3]`. -/
def readFour (o : Out) (byteP : Nat) : Out := { o with accesses := o.accesses ++ (List.range' byteP 4).map .read }

end Out

/-! ## The loop -/

/-- The right-hand side of the assignment, on the bytes promoted to `int`: the shift of the last byte by
24 bits is defined if its result is an `int`, that is for a byte below 128. -/
def ucs4Int (b0 b1 b2 b3 : UInt8) : Option AlphaChar := if b3 < 128 then some (ucs4Value b0 b1 b2 b3) else none

/-- The loop of `conv_to_alpha`, where the first number counts `res` up to `out_size`; `out_p` and
`byte_p` are offsets from `out`. -/
def decodeLoop (order : ByteOrder) (outP : Nat) : Nat → Nat → Nat → Out → Option (Nat × Out)
  | 0, res, _, o => some (res, o)
  | n + 1, res, byteP, o =>
    if byteP + 3 < outP then
      match ucs4Int (o.bytes byteP) (o.bytes (byteP + 1)) (o.bytes (byteP + 2)) (o.bytes (byteP + 3)) with
      | none => none
      | some a => decodeLoop order outP n (res + 1) (byteP + 4) ((o.readFour byteP).store order res a)
    else some (res, o)

/-- `conv_to_alpha` behind its call of `iconv`, which has left `out_p`: the return value and the memory. -/
def decodeInPlace (order : ByteOrder) (outP outSize : Nat) (o : Out) : Option (Nat × Out) :=
  match decodeLoop order outP outSize 0 0 o with
  | none => none
  | some (res, o) => some (res, if res < outSize then o.store order res 0 else o)

/-! ## One character -/

section
variable {order : ByteOrder} {o : Out} {i : Nat} {a : AlphaChar}

theorem ucs4Value_ucs4le (a : AlphaChar) :
    ucs4Value a.toUInt8 (a >>> 8).toUInt8 (a >>> 16).toUInt8 (a >>> 24).toUInt8 = a := ucs4le_bytes a

/-- What is stored is loaded again. -/
theorem load_store : (o.store order i a).load order i = a := by
  cases order with
  | little =>
    simp [Out.load, Out.store, ByteOrder.bytes, ucs4le, ucs4Value_ucs4le]
  | big =>
    simp [Out.load, Out.store, ByteOrder.bytes, ucs4le, ucs4Value_ucs4le]

theorem store_bytes_of_lt {j : Nat} (h : j < 4 * i) : (o.store order i a).bytes j = o.bytes j :=
  if_neg fun hj => absurd hj.1 (by omega)

theorem store_bytes_of_le {j : Nat} (h : 4 * i + 4 ≤ j) : (o.store order i a).bytes j = o.bytes j :=
  if_neg fun hj => absurd hj.2 (by omega)

theorem load_congr {o' : Out} (h : ∀ j, 4 * i ≤ j → j < 4 * i + 4 → o'.bytes j = o.bytes j) :
    o'.load order i = o.load order i := by
  unfold Out.load
  rw [h (4 * i) (by omega) (by omega), h (4 * i + 1) (by omega) (by omega), h (4 * i + 2) (by omega) (by omega),
    h (4 * i + 3) (by omega) (by omega)]

/-- The bytes of a character below `2 ^ 31` are put together without overflow. -/
theorem ucs4Int_ucs4le (h : a.toNat < 2 ^ 31) :
    ucs4Int a.toUInt8 (a >>> 8).toUInt8 (a >>> 16).toUInt8 (a >>> 24).toUInt8 = some a := by
  have hhigh : (a >>> 24).toUInt8.toNat = a.toNat / 2 ^ 24 := by
    rw [UInt32.toNat_toUInt8, UInt32.toNat_shiftRight]
    have h24 : (24 : UInt32).toNat % 32 = 24 := rfl
    rw [h24, Nat.shiftRight_eq_div_pow]
    omega
  have hlt : (a >>> 24).toUInt8 < 128 := by
    rw [UInt8.lt_iff_toNat_lt, hhigh]
    exact Nat.div_lt_of_lt_mul h
  unfold ucs4Int
  rw [if_pos hlt, ucs4Value_ucs4le]

end

/-! ## The buffer -/

/-- From the offset `s` on the memory holds the characters `cs` in UCS-4LE. -/
def Encodes (bytes : Nat → UInt8) (s : Nat) (cs : List AlphaChar) : Prop :=
  (List.range' s (4 * cs.length)).map bytes = cs.flatMap ucs4le

instance (bytes : Nat → UInt8) (s : Nat) (cs : List AlphaChar) : Decidable (Encodes bytes s cs) :=
  inferInstanceAs (Decidable (_ = _))

/-- The four bytes of one of the characters. -/
theorem Encodes.bytes {bytes : Nat → UInt8} : ∀ {s : Nat} {cs : List AlphaChar}, Encodes bytes s cs →
    ∀ (i : Nat) (hi : i < cs.length), bytes (s + 4 * i) = cs[i].toUInt8 ∧ bytes (s + 4 * i + 1) = (cs[i] >>> 8).toUInt8 ∧
      bytes (s + 4 * i + 2) = (cs[i] >>> 16).toUInt8 ∧ bytes (s + 4 * i + 3) = (cs[i] >>> 24).toUInt8
  | s, c :: cs, h, i, hi => by
    have hsplit : bytes s = c.toUInt8 ∧ bytes (s + 1) = (c >>> 8).toUInt8 ∧ bytes (s + 2) = (c >>> 16).toUInt8 ∧
        bytes (s + 3) = (c >>> 24).toUInt8 ∧ Encodes bytes (s + 4) cs := by
      unfold Encodes at h ⊢
      rw [List.length_cons, Nat.mul_succ, List.flatMap_cons] at h
      simpa [List.range'_succ, ucs4le] using h
    obtain ⟨h0, h1, h2, h3, hrest⟩ := hsplit
    cases i with
    | zero => exact ⟨h0, h1, h2, h3⟩
    | succ i =>
      have ih := hrest.bytes i (Nat.lt_of_succ_lt_succ hi)
      rw [show s + 4 * (i + 1) = s + 4 + 4 * i by omega]
      exact ih

/-- The accesses of one pass: the four bytes of a character are read, and then written. -/
def charAccesses (i : Nat) : List Access := (List.range' (4 * i) 4).map .read ++ (List.range' (4 * i) 4).map .write

/-- After `i` passes the characters before `i` are decoded, and the memory behind them is as it was. -/
structure Decoded (order : ByteOrder) (o : Out) (cs : List AlphaChar) (i : Nat) (o' : Out) : Prop where
  decoded : ∀ (j : Nat) (hj : j < cs.length), j < i → o'.load order j = cs[j]
  encoded : ∀ d, 4 * i ≤ d → o'.bytes d = o.bytes d
  accesses : o'.accesses = o.accesses ++ (List.range i).flatMap charAccesses

section
variable {order : ByteOrder} {o o' : Out} {cs : List AlphaChar} {i : Nat}

/-- A character stored behind the decoded ones leaves these as they are. -/
theorem Decoded.load_store (h : Decoded order o cs i o') (a : AlphaChar) {j : Nat} (hj : j < cs.length) (hji : j < i)
    {o'' : Out} (hbytes : o''.bytes = (o'.store order i a).bytes) : o''.load order j = cs[j] := by
  rw [← h.decoded j hj hji]
  apply load_congr
  intro d _ hd
  rw [hbytes]
  exact store_bytes_of_lt (by omega)

theorem Decoded.step (h : Decoded order o cs i o') (hi : i < cs.length) :
    Decoded order o cs (i + 1) ((o'.readFour (4 * i)).store order i cs[i]) where
  decoded j hj hji := by
    rcases Nat.lt_succ_iff_lt_or_eq.1 hji with hlt | rfl
    · exact h.load_store cs[i] hj hlt rfl
    · exact PubsubBroker.load_store
  encoded d hd := by
    rw [store_bytes_of_le (by omega)]
    exact h.encoded d (by omega)
  accesses := by
    rw [List.range_succ, List.flatMap_append, List.flatMap_singleton, ← List.append_assoc, ← h.accesses]
    simp only [Out.store, Out.readFour, charAccesses, List.append_assoc]

/-- The loop decodes the characters that it has not decoded yet, and stops behind the last one. -/
theorem decodeLoop_eq (henc : Encodes o.bytes 0 cs) (hcs : ∀ c ∈ cs, c.toNat < 2 ^ 31) :
    ∀ (n i : Nat) (o' : Out), Decoded order o cs i o' → i ≤ cs.length → cs.length ≤ i + n →
      ∃ o'', decodeLoop order (4 * cs.length) n i (4 * i) o' = some (cs.length, o'') ∧ Decoded order o cs cs.length o''
  | 0, i, o', h, hi, hn => by
    obtain rfl : i = cs.length := by omega
    exact ⟨o', rfl, h⟩
  | n + 1, i, o', h, hi, hn => by
    rw [decodeLoop]
    by_cases hlt : i < cs.length
    · -- the bytes from `byte_p` on are those of the next character
      obtain ⟨h0, h1, h2, h3⟩ := henc.bytes i hlt
      rw [Nat.zero_add] at h0 h1 h2 h3
      have hchar : ucs4Int (o'.bytes (4 * i)) (o'.bytes (4 * i + 1)) (o'.bytes (4 * i + 2)) (o'.bytes (4 * i + 3)) =
          some cs[i] := by
        rw [h.encoded _ (by omega), h.encoded _ (by omega), h.encoded _ (by omega), h.encoded _ (by omega), h0, h1, h2, h3]
        exact ucs4Int_ucs4le (hcs _ (List.getElem_mem hlt))
      rw [if_pos (by omega), hchar]
      exact decodeLoop_eq henc hcs n (i + 1) _ (h.step hlt) hlt (by omega)
    · obtain rfl : i = cs.length := by omega
      rw [if_neg (by omega)]
      exact ⟨o', rfl, h⟩

variable (order) in
/-- `conv_to_alpha` decodes all the characters, and then stores the terminator if there is room. -/
theorem decodeInPlace_eq (henc : Encodes o.bytes 0 cs) (hcs : ∀ c ∈ cs, c.toNat < 2 ^ 31) {outSize : Nat}
    (hsize : cs.length ≤ outSize) :
    ∃ o', Decoded order o cs cs.length o' ∧ decodeInPlace order (4 * cs.length) outSize o =
      some (cs.length, if cs.length < outSize then o'.store order cs.length 0 else o') := by
  have hstart : Decoded order o cs 0 o :=
    ⟨fun j _ hj => absurd hj (Nat.not_lt_zero j), fun _ _ => rfl, (List.append_nil _).symm⟩
  obtain ⟨o', hloop, hdec⟩ := decodeLoop_eq henc hcs outSize 0 _ hstart (Nat.zero_le _) (by omega)
  refine ⟨o', hdec, ?_⟩
  unfold decodeInPlace
  rw [hloop]

/-! ## The call -/

/-- No byte is read after it was written. -/
def ReadsAhead (accesses : List Access) : Prop := accesses.Pairwise fun a b => ∀ j, a = .write j → b ≠ .read j

/-- What is left in memory: the characters, and a terminator if there is room; nothing behind is written,
and nothing was overwritten before it was read. -/
structure DecodedInPlace (order : ByteOrder) (o : Out) (cs : List AlphaChar) (outSize : Nat) (o' : Out) : Prop where
  chars : ∀ (i : Nat) (hi : i < cs.length), o'.load order i = cs[i]
  terminator : cs.length < outSize → o'.load order cs.length = 0
  behind : ∀ j, 4 * min (cs.length + 1) outSize ≤ j → o'.bytes j = o.bytes j
  written : ∀ j, .write j ∈ o'.accesses → j < 4 * min (cs.length + 1) outSize
  readsAhead : ReadsAhead o'.accesses

theorem write_mem_charAccesses {i j : Nat} : Access.write j ∈ charAccesses i ↔ 4 * i ≤ j ∧ j < 4 * i + 4 := by
  simp [charAccesses]

theorem read_mem_charAccesses {i j : Nat} : Access.read j ∈ charAccesses i ↔ 4 * i ≤ j ∧ j < 4 * i + 4 := by
  simp [charAccesses]

/-- Within a pass the reads come first, and from pass to pass the offsets grow. -/
theorem readsAhead_charAccesses (k : Nat) : ReadsAhead ((List.range k).flatMap charAccesses) := by
  unfold ReadsAhead
  rw [List.pairwise_flatMap]
  constructor
  · intro i _
    rw [charAccesses, List.pairwise_append]
    refine ⟨?_, ?_, ?_⟩
    · rw [List.pairwise_map]
      apply List.pairwise_of_forall
      rintro a b j ⟨⟩
    · rw [List.pairwise_map]
      apply List.pairwise_of_forall
      rintro a b j - ⟨⟩
    · rintro a ha b - j rfl
      simp at ha
  · apply List.pairwise_lt_range.imp
    rintro i i' hlt a ha b hb j rfl rfl
    have hwrite := write_mem_charAccesses.1 ha
    have hread := read_mem_charAccesses.1 hb
    omega

/-- The loop writes no further than the characters. -/
theorem Decoded.written {bytes : Nat → UInt8} (h : Decoded order ⟨bytes, []⟩ cs i o') :
    ∀ j, .write j ∈ o'.accesses → j < 4 * i := by
  intro j hj
  have haccesses : o'.accesses = (List.range i).flatMap charAccesses := h.accesses
  rw [haccesses, List.mem_flatMap] at hj
  obtain ⟨i', hi', hmem⟩ := hj
  have hrange := write_mem_charAccesses.1 hmem
  have hlt := List.mem_range.1 hi'
  omega

theorem Decoded.readsAhead {bytes : Nat → UInt8} (h : Decoded order ⟨bytes, []⟩ cs i o') : ReadsAhead o'.accesses := by
  have haccesses : o'.accesses = (List.range i).flatMap charAccesses := h.accesses
  rw [haccesses]
  exact readsAhead_charAccesses i

/-- What is stored last is written after all reads. -/
theorem ReadsAhead.store {a : AlphaChar} (h : ReadsAhead o.accesses) : ReadsAhead (o.store order i a).accesses := by
  unfold ReadsAhead Out.store
  rw [List.pairwise_append]
  refine ⟨h, ?_, ?_⟩
  · rw [List.pairwise_map]
    apply List.pairwise_of_forall
    rintro a b j - ⟨⟩
  · rintro a - b hb j - rfl
    simp at hb

/-- With room for it, the terminator goes to the four bytes behind the characters. -/
theorem Decoded.terminated {bytes : Nat → UInt8} (h : Decoded order ⟨bytes, []⟩ cs cs.length o') {outSize : Nat}
    (hroom : cs.length < outSize) : DecodedInPlace order ⟨bytes, []⟩ cs outSize (o'.store order cs.length 0) where
  chars i hi := h.load_store 0 hi hi rfl
  terminator _ := PubsubBroker.load_store
  behind j hj := by
    rw [store_bytes_of_le (by omega)]
    exact h.encoded j (by omega)
  written j hj := by
    rw [Out.store, List.mem_append] at hj
    rcases hj with hj | hj
    · have := h.written j hj
      omega
    · simp at hj
      omega
  readsAhead := h.readsAhead.store

/-- Without room nothing more is written. -/
theorem Decoded.full {bytes : Nat → UInt8} (h : Decoded order ⟨bytes, []⟩ cs cs.length o') {outSize : Nat}
    (hroom : ¬ cs.length < outSize) (hsize : cs.length ≤ outSize) : DecodedInPlace order ⟨bytes, []⟩ cs outSize o' where
  chars i hi := h.decoded i hi hi
  terminator hlt := absurd hlt hroom
  behind j hj := h.encoded j (by omega)
  written j hj := by
    have := h.written j hj
    omega
  readsAhead := h.readsAhead

variable (order)

/-- The loop of `conv_to_alpha` leaves the characters that `iconv` wrote, whatever the byte order of the
machine is. -/
theorem decode_in_place (bytes : Nat → UInt8) (cs : List AlphaChar) (henc : Encodes bytes 0 cs)
    (hcs : ∀ c ∈ cs, c.toNat < 2 ^ 31) {outSize : Nat} (hsize : cs.length ≤ outSize) :
    ∃ o', decodeInPlace order (4 * cs.length) outSize ⟨bytes, []⟩ = some (cs.length, o') ∧
      DecodedInPlace order ⟨bytes, []⟩ cs outSize o' := by
  have hout : Encodes (Out.mk bytes []).bytes 0 cs := henc
  obtain ⟨o', hdec, hcall⟩ := decodeInPlace_eq order hout hcs hsize
  rw [hcall]
  by_cases hroom : cs.length < outSize
  · rw [if_pos hroom]
    exact ⟨_, rfl, hdec.terminated hroom⟩
  · rw [if_neg hroom]
    exact ⟨_, rfl, hdec.full hroom hsize⟩

end

/-- The characters that the loop leaves are those of `convToAlpha`, the terminator included. -/
theorem decodeInPlace_convToAlpha (order : ByteOrder) {conv : Iconv} {input : List UInt8} {outSize : Nat} {o : Out}
    (henc : Encodes o.bytes 0 (conv.convert outSize (cstr input)))
    (hcs : ∀ c ∈ conv.convert outSize (cstr input), c.toNat < 2 ^ 31) :
    ∃ res o', decodeInPlace order (4 * (conv.convert outSize (cstr input)).length) outSize o = some (res, o') ∧
      ∀ (i : Nat) (hi : i < (convToAlpha conv input outSize).length),
        o'.load order i = (convToAlpha conv input outSize)[i] := by
  obtain ⟨o', hdec, hcall⟩ := decodeInPlace_eq order henc hcs (conv.length_convert_le outSize (cstr input))
  refine ⟨_, _, hcall, ?_⟩
  have hchar : ∀ (i : Nat) (hi : i < (conv.convert outSize (cstr input)).length),
      o'.load order i = (conv.convert outSize (cstr input))[i] := fun i hi => hdec.decoded i hi hi
  intro i hi
  simp only [convToAlpha_eq] at hi ⊢
  split at hi
  · next hroom =>
    simp only [if_pos hroom]
    rw [List.length_append, List.length_singleton] at hi
    rcases Nat.lt_succ_iff_lt_or_eq.1 hi with hlt | rfl
    · rw [List.getElem_append_left hlt]
      exact hdec.load_store 0 hlt hlt rfl
    · rw [List.getElem_concat_length rfl]
      exact load_store
  · next hroom =>
    simp only [if_neg hroom]
    exact hchar i hi

/-- The characters of `net`, with the last character of the plane behind them, in a buffer with room for a
terminator. -/
theorem decode_in_place_net :
    ∃ o', decodeInPlace .big (4 * 4) 5 ⟨fun j => (([110, 101, 116, 0x10ffff] : List AlphaChar).flatMap ucs4le).getD j 7, []⟩ =
        some (4, o') ∧
      DecodedInPlace .big ⟨fun j => (([110, 101, 116, 0x10ffff] : List AlphaChar).flatMap ucs4le).getD j 7, []⟩
        [110, 101, 116, 0x10ffff] 5 o' :=
  decode_in_place .big _ [110, 101, 116, 0x10ffff] (by decide +kernel) (by simp) (by simp)

end PubsubBroker

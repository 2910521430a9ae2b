/-
The parsers of `protocol/subcli.c` with their memory accesses made explicit: every byte of `read_buf`
that is read or copied is fetched by index, and every unsigned subtraction of offsets is checked. A
checked function is `none` when an access falls outside the string and its terminating NUL, when a
subtraction underflows, or when `pos` has passed the end of the string.

On a client whose lengths are in range the checked functions are never `none`, and compute what the
parsers of `Protocol.Parse` do.
-/
import PubsubBroker.Protocol.Consumed

namespace PubsubBroker

open CLang

namespace Checked

/-! ## Accesses -/

/-- The bytes a string may be read at: its own and the terminator. -/
def memory (buf : Sds) : List UInt8 := buf ++ [0]

/-- `buf[i]` -/
def byteAt (buf : Sds) (i : Nat) : Option UInt8 := (memory buf)[i]?

/-- `n` bytes copied from `buf + start`. -/
def copyFrom (buf : Sds) (start n : Nat) : Option (List UInt8) :=
  if start + n ≤ (memory buf).length then some (((memory buf).drop start).take n) else none

/-- The bytes that `strchr` reads one after the other, up to the first `ch` or NUL. -/
def scan (ch : UInt8) : List UInt8 → Option (Option Nat)
  | [] => none
  | b :: s => if b = ch then some (some 0) else if b = 0 then some none else (scan ch s).map (·.map (· + 1))

/-- `strchr(buf + pos, ch)`, as an offset from `pos`. -/
def strchrFrom (ch : UInt8) (buf : Sds) (pos : Nat) : Option (Option Nat) := scan ch ((memory buf).drop pos)

/-- `a - b` for unsigned numbers. -/
def sub (a b : Nat) : Option Nat := if b ≤ a then some (a - b) else none

/-! ## The parsers -/

/-- `readMultibulkLen` -/
def readMultibulkLen (buf : Sds) : Option Header := do
  match ← strchrFrom CR buf 0 with
  | none => pure (if buf.length > MAX_INLINE_READ then .reject 0 else .wait)
  | some newline =>
    if (newline : Int) > crLimit buf then pure .wait
    else
      let slen ← sub newline 1
      match string2ll (← copyFrom buf 1 slen) with
      | none => pure (.reject 0)
      | some ll => pure (if ll > SUB_READ_BUF_LEN then .reject 0 else .length ll (newline + 2))

/-- `readBulkLen` -/
def readBulkLen (buf : Sds) (pos : Nat) : Option Header := do
  match ← strchrFrom CR buf pos with
  | none => pure (if buf.length > MAX_INLINE_READ then .reject 0 else .wait)
  | some k =>
    let newline := pos + k
    if (newline : Int) > crLimit buf then pure .wait
    else if (← byteAt buf pos) ≠ 36 then pure (.reject pos)
    else
      let slen ← sub newline (pos + 1)
      match string2ll (← copyFrom buf (pos + 1) slen) with
      | none => pure (.reject pos)
      | some ll => pure (if ll < 0 ∨ ll > MAX_BULK_LEN then .reject pos else .length ll (newline + 2))

/-- `multibulkLoop`, with `pos` checked against the length at each pass. -/
def multibulkLoop : Nat → Nat → SubClient → Option (Status × SubClient)
  | 0, pos, c => do
    let _ ← sub c.readBuf.length pos
    pure (.ok, trimTo c pos)
  | n + 1, pos, c => do
    let _ ← sub c.readBuf.length pos
    match ← (if c.bulkLen = -1 then readBulkLen c.readBuf pos else pure (.length c.bulkLen pos)) with
    | .reject p => pure (.err, setProtocolErr c p)
    | .wait => pure (.err, trimTo c pos)
    | .length ll pos =>
      let c := { c with bulkLen := ll }
      if (← sub c.readBuf.length pos) < toUInt (ll + 2) then pure (.err, trimTo c pos)
      else
        let arg ← copyFrom c.readBuf pos ll.toNat
        multibulkLoop n (pos + (ll + 2).toNat) { c.pushArg arg with bulkLen := -1, multiBulkLen := n }

/-- `processMultibulkBuffer` -/
def processMultibulkBuffer (c : SubClient) : Option (Status × SubClient) := do
  if c.multiBulkLen = 0 then
    match ← readMultibulkLen c.readBuf with
    | .reject p => pure (.err, setProtocolErr c p)
    | .wait => pure (.err, c)
    | .length ll pos =>
      if ll ≤ 0 then pure (.ok, { c with readBuf := sdsrange c.readBuf pos (-1) })
      else multibulkLoop ll.toNat pos { c with multiBulkLen := ll.toNat, argv := .alloc ll.toNat }
  else multibulkLoop c.multiBulkLen 0 c

/-- `lineEnd` -/
def lineEnd (buf : Sds) (nl : Nat) : Option Nat :=
  if nl ≠ 0 then (byteAt buf (nl - 1)).map fun b => if b = CR then nl - 1 else nl else some nl

/-- `readLine` -/
def readLine (buf : Sds) : Option InlineLine := do
  match ← strchrFrom LF buf 0 with
  | none => pure (if buf.length > SUB_READ_BUF_LEN then .reject else .wait)
  | some nl =>
    let querylen ← lineEnd buf nl
    match sdssplitargs (← copyFrom buf 0 querylen) with
    | none => pure .reject
    | some argv => pure (.tokens argv querylen)

/-- `processInlineBuffer` -/
def processInlineBuffer (c : SubClient) : Option (Status × SubClient) := do
  match ← readLine c.readBuf with
  | .reject => pure (.err, setProtocolErr c 0)
  | .wait => pure (.err, c)
  | .tokens argv querylen =>
    pure (.ok, copyTokens
      { c with
        readBuf := sdsrange c.readBuf (toInt (querylen + 2 : Nat)) (-1)
        argv := .alloc argv.length
        argc := 0 } argv)

/-- `processRequest` -/
def processRequest (c : SubClient) : Option (Status × SubClient) := do
  let b ← byteAt c.readBuf 0
  let c := { c with reqType := if b = 42 then REQ_MULTIBULK else REQ_INLINE }
  if c.reqType = REQ_INLINE then processInlineBuffer c else processMultibulkBuffer c

/-- `parseLoop`: the inner `none` stands for fuel that is used up. -/
def parseLoop : Nat → SubClient → Option (Option SubClient)
  | 0, c => pure (if c.readBuf.length = 0 then some c else none)
  | fuel + 1, c => do
    if c.readBuf.length = 0 then pure (some c)
    else
      match ← processRequest c with
      | (.ok, c) => parseLoop fuel c
      | (.err, c) => pure (some c)

/-! ## The accesses succeed -/

section
variable {buf : Sds} {ch : UInt8} {pos i n : Nat}

theorem length_memory (buf : Sds) : (memory buf).length = buf.length + 1 := by simp [memory]

theorem byteAt_eq (h : i < buf.length) : byteAt buf i = buf[i]? := by
  unfold byteAt memory
  rw [List.getElem?_append_left h]

theorem copyFrom_eq (h : pos + n ≤ buf.length) : copyFrom buf pos n = some ((buf.drop pos).take n) := by
  unfold copyFrom
  rw [if_pos (by rw [length_memory]; omega), memory, List.drop_append_of_le_length (by omega),
    List.take_append_of_le_length (by rw [List.length_drop]; omega)]

theorem scan_eq (s : List UInt8) : scan ch (s ++ [0]) = some (strchr ch s) ∨ ch = 0 := by
  by_cases hch : ch = 0
  · exact .inr hch
  refine .inl ?_
  induction s with
  | nil =>
    rw [List.nil_append, scan, if_neg fun h => hch h.symm, if_pos rfl]
    rfl
  | cons b s ih =>
    rw [List.cons_append, scan, strchr, ih]
    split_ifs <;> rfl

/-- `strchr` stops at the terminator at the latest. -/
theorem strchrFrom_eq (h : pos ≤ buf.length) (hch : ch ≠ 0) : strchrFrom ch buf pos = some (strchr ch (buf.drop pos)) := by
  unfold strchrFrom memory
  rw [List.drop_append_of_le_length h]
  exact (scan_eq _).resolve_right hch

theorem sub_eq (h : n ≤ i) : sub i n = some (i - n) := if_pos h

end

/-! ## The checked parsers are the parsers -/

theorem some_bind {α β : Type} (a : α) (f : α → Option β) : (some a >>= f) = f a := rfl

/-- The line behind the count starts at the second byte, so the buffer must not start with its end. -/
theorem readMultibulkLen_eq {buf : Sds} (h : buf.head? ≠ some CR) :
    readMultibulkLen buf = some (PubsubBroker.readMultibulkLen buf) := by
  unfold readMultibulkLen PubsubBroker.readMultibulkLen
  rw [strchrFrom_eq (Nat.zero_le _) (by decide), List.drop_zero, some_bind]
  cases hnl : strchr CR buf with
  | none => rfl
  | some newline =>
    obtain ⟨l, r, hbuf, hl, -, -⟩ := strchr_some hnl
    have hpos : 1 ≤ newline := by
      rw [← hl]
      apply List.length_pos_iff.2
      rintro rfl
      exact h (by rw [hbuf]; rfl)
    have hlt := strchr_lt hnl
    dsimp only
    by_cases hshort : (newline : Int) > crLimit buf
    · rw [if_pos hshort, if_pos hshort]
      rfl
    · rw [if_neg hshort, if_neg hshort, sub_eq hpos, some_bind, copyFrom_eq (by omega), some_bind]
      cases string2ll ((buf.drop 1).take (newline - 1)) with
      | none => rfl
      | some ll => rfl

/-- A header is read at `pos`, and its number between the type byte and the line end. -/
theorem readBulkLen_eq {buf : Sds} {pos : Nat} (h : pos ≤ buf.length) :
    readBulkLen buf pos = some (PubsubBroker.readBulkLen buf pos) := by
  unfold readBulkLen PubsubBroker.readBulkLen
  rw [strchrFrom_eq h (by decide), some_bind]
  cases hnl : strchr CR (buf.drop pos) with
  | none => rfl
  | some k =>
    obtain ⟨l, r, hdrop, hl, -, -⟩ := strchr_some hnl
    have hlt := strchr_lt hnl
    rw [List.length_drop] at hlt
    obtain ⟨b, hb⟩ : ∃ b, (buf.drop pos).head? = some b :=
      ⟨_, List.head?_eq_some_head (List.ne_nil_of_length_pos (by rw [List.length_drop]; omega))⟩
    have hbyte : byteAt buf pos = some b := by rw [byteAt_eq (by omega), ← hb, List.head?_drop]
    dsimp only
    by_cases hshort : ((pos + k : Nat) : Int) > crLimit buf
    · rw [if_pos hshort, if_pos hshort]
      rfl
    rw [if_neg hshort, if_neg hshort, hbyte, some_bind, hb]
    by_cases hdollar : b = 36
    · -- a `$` is no carriage return, so there is a byte before the line end
      have hpos : pos + 1 ≤ pos + k := by
        rcases Nat.eq_zero_or_pos k with rfl | hk
        · rw [hdrop, List.length_eq_zero_iff.1 hl, hdollar] at hb
          cases hb
        · omega
      rw [if_neg (not_not.2 hdollar), if_neg (not_not.2 (congrArg some hdollar)), sub_eq hpos, some_bind,
        copyFrom_eq (by omega), some_bind]
      cases string2ll ((buf.drop (pos + 1)).take (pos + k - (pos + 1))) with
      | none => rfl
      | some ll => rfl
    · rw [if_pos hdollar, if_pos fun h => hdollar (Option.some.inj h)]
      rfl

/-- Each pass starts within the buffer, and takes a body only when it is all there. -/
theorem multibulkLoop_eq : ∀ (n pos : Nat) {c : SubClient}, BulkLenOk c → pos ≤ c.readBuf.length →
    multibulkLoop n pos c = some (PubsubBroker.multibulkLoop n pos c)
  | 0, pos, c, _, hpos => by
    unfold multibulkLoop PubsubBroker.multibulkLoop
    rw [sub_eq hpos]
    rfl
  | n + 1, pos, c, hbl, hpos => by
    have hhead : (if c.bulkLen = -1 then readBulkLen c.readBuf pos else pure (.length c.bulkLen pos)) =
        some (if c.bulkLen = -1 then PubsubBroker.readBulkLen c.readBuf pos else .length c.bulkLen pos) := by
      split_ifs
      · exact readBulkLen_eq hpos
      · rfl
    unfold multibulkLoop
    rw [sub_eq hpos, PubsubBroker.multibulkLoop]
    simp only [Option.bind_eq_bind, Option.bind_some, hhead]
    cases hread : (if c.bulkLen = -1 then PubsubBroker.readBulkLen c.readBuf pos else .length c.bulkLen pos) with
    | reject p => rfl
    | wait => rfl
    | length ll p =>
      have hbody : BodyAt c pos ll p := by
        unfold BodyAt
        split_ifs at hread ⊢
        · exact hread
        · cases hread
          exact ⟨rfl, rfl⟩
      obtain ⟨h0, hmax, hp, hple⟩ := hbody.range hbl hpos
      -- the length that was read is in range, so the comparison is that of numbers
      have hint : toUInt (ll + 2) = (ll + 2).toNat :=
        toUInt_of_lt (by omega) (by unfold MAX_BULK_LEN at hmax; omega)
      simp only [sub_eq hple, Option.bind_some, hint]
      by_cases hroom : c.readBuf.length - p < (ll + 2).toNat
      · simp only [if_pos hroom, Option.pure_def]
      · have hcopy : copyFrom c.readBuf p ll.toNat = some ((c.readBuf.drop p).take ll.toNat) := copyFrom_eq (by omega)
        simp only [if_neg hroom, hcopy, Option.bind_some]
        exact multibulkLoop_eq n (p + (ll + 2).toNat) ⟨le_rfl, by simp only; omega⟩
          (by change _ ≤ c.readBuf.length; omega)

theorem processMultibulkBuffer_eq {c : SubClient} (hbl : BulkLenOk c)
    (h : c.multiBulkLen = 0 → c.readBuf.head? ≠ some CR) :
    processMultibulkBuffer c = some (PubsubBroker.processMultibulkBuffer c) := by
  unfold processMultibulkBuffer PubsubBroker.processMultibulkBuffer
  by_cases hm : c.multiBulkLen = 0
  · simp only [if_pos hm, readMultibulkLen_eq (h hm), Option.bind_eq_bind, Option.bind_some]
    cases hread : PubsubBroker.readMultibulkLen c.readBuf with
    | reject p => rfl
    | wait => rfl
    | length ll p =>
      by_cases hll : ll ≤ 0
      · simp only [if_pos hll, Option.pure_def]
      · simp only [if_neg hll]
        exact multibulkLoop_eq ll.toNat p (c := { c with multiBulkLen := ll.toNat, argv := .alloc ll.toNat }) hbl
          (readMultibulkLen_length hread).2.2
  · simp only [if_neg hm]
    exact multibulkLoop_eq c.multiBulkLen 0 hbl (Nat.zero_le _)

/-- The byte before a newline is read only when there is one. -/
theorem lineEnd_eq {buf : Sds} {nl : Nat} (h : nl < buf.length) : lineEnd buf nl = some (PubsubBroker.lineEnd buf nl) := by
  unfold lineEnd PubsubBroker.lineEnd
  by_cases h0 : nl ≠ 0
  · rw [if_pos h0, byteAt_eq (by omega), List.getElem?_eq_getElem (by omega)]
    simp [h0]
  · rw [if_neg h0, if_neg fun hcr => h0 hcr.1]

theorem readLine_eq (buf : Sds) : readLine buf = some (PubsubBroker.readLine buf) := by
  unfold readLine PubsubBroker.readLine
  rw [strchrFrom_eq (Nat.zero_le _) (by decide), List.drop_zero, some_bind]
  cases hnl : strchr LF buf with
  | none => rfl
  | some nl =>
    have hlt := strchr_lt hnl
    have hle : PubsubBroker.lineEnd buf nl ≤ buf.length := by
      unfold PubsubBroker.lineEnd
      split <;> omega
    dsimp only
    rw [lineEnd_eq hlt, some_bind, copyFrom_eq (by omega), some_bind, List.drop_zero]
    cases sdssplitargs (buf.take (PubsubBroker.lineEnd buf nl)) with
    | none => rfl
    | some argv => rfl

theorem processInlineBuffer_eq (c : SubClient) : processInlineBuffer c = some (PubsubBroker.processInlineBuffer c) := by
  unfold processInlineBuffer PubsubBroker.processInlineBuffer
  simp only [readLine_eq, Option.bind_eq_bind, Option.bind_some]
  cases PubsubBroker.readLine c.readBuf <;> rfl

/-- `process_multibulk_buffer` is called only on a buffer that starts with `*`. -/
theorem processRequest_eq {c : SubClient} (hbl : BulkLenOk c) (h : c.readBuf.length ≠ 0) :
    processRequest c = some (PubsubBroker.processRequest c) := by
  have hbyte : byteAt c.readBuf 0 = c.readBuf.head? := by
    rw [byteAt_eq (by omega), List.head?_eq_getElem?]
  obtain ⟨b, hb⟩ : ∃ b, c.readBuf.head? = some b :=
    ⟨_, List.head?_eq_some_head (List.ne_nil_of_length_pos (by omega))⟩
  rw [PubsubBroker.processRequest_eq]
  unfold processRequest
  rw [hbyte, hb]
  by_cases hstar : b = 42
  · simp only [Option.bind_eq_bind, Option.bind_some, hstar, if_true]
    rw [if_neg (by decide)]
    apply processMultibulkBuffer_eq (c := { c with reqType := REQ_MULTIBULK }) hbl
    intro _
    change c.readBuf.head? ≠ some CR
    rw [hb, hstar]
    decide
  · have hne : some b ≠ some 42 := fun h => hstar (Option.some.inj h)
    simp only [Option.bind_eq_bind, Option.bind_some, if_neg hstar, if_neg hne, if_true]
    exact processInlineBuffer_eq _

end Checked

/-! ## The lengths stay in range -/

/-- `multi_bulk_len` and `bulk_len` are within the limits. -/
structure LengthsOk (c : SubClient) : Prop where
  multiBulkLen : c.multiBulkLen ≤ SUB_READ_BUF_LEN
  bulkLen : BulkLenOk c

theorem multibulkLoop_multiBulkLen_le (n pos : Nat) (c : SubClient) (h : c.multiBulkLen = n) :
    (multibulkLoop n pos c).2.multiBulkLen ≤ n := by
  obtain ⟨args, bl, buf, rej, -, -, heq⟩ := multibulkLoop_shape n pos c h
  rw [heq]
  exact Nat.sub_le _ _

theorem processMultibulkBuffer_lengthsOk {c : SubClient} (h : LengthsOk c) : LengthsOk (processMultibulkBuffer c).2 := by
  refine ⟨?_, processMultibulkBuffer_bulkLenOk h.bulkLen⟩
  rcases processMultibulkBuffer_cases c with
    ⟨-, p, -, heq⟩ | ⟨-, -, heq⟩ | ⟨-, ll, p, -, -, heq⟩ | ⟨-, ll, p, hread, -, heq⟩ | ⟨-, heq⟩ <;> rw [heq]
  · exact h.multiBulkLen
  · exact h.multiBulkLen
  · exact h.multiBulkLen
  · have hmax := (readMultibulkLen_length hread).1
    have := multibulkLoop_multiBulkLen_le ll.toNat p { c with multiBulkLen := ll.toNat, argv := .alloc ll.toNat } rfl
    omega
  · exact (multibulkLoop_multiBulkLen_le c.multiBulkLen 0 c rfl).trans h.multiBulkLen

theorem processInlineBuffer_lengthsOk {c : SubClient} (h : LengthsOk c) : LengthsOk (processInlineBuffer c).2 := by
  rcases processInlineBuffer_cases c with ⟨-, heq⟩ | ⟨-, heq⟩ | ⟨argv, n, -, heq⟩ <;> rw [heq]
  · exact ⟨h.multiBulkLen, h.bulkLen⟩
  · exact h
  · exact ⟨by simpa using h.multiBulkLen, by simpa [BulkLenOk] using h.bulkLen⟩

theorem processRequest_lengthsOk {c : SubClient} (h : LengthsOk c) : LengthsOk (processRequest c).2 := by
  rw [processRequest_eq]
  split
  · exact processMultibulkBuffer_lengthsOk (c := { c with reqType := REQ_MULTIBULK }) ⟨h.multiBulkLen, h.bulkLen⟩
  · exact processInlineBuffer_lengthsOk (c := { c with reqType := REQ_INLINE }) ⟨h.multiBulkLen, h.bulkLen⟩

theorem parseLoop_lengthsOk : ∀ {fuel : Nat} {c c' : SubClient}, LengthsOk c → parseLoop fuel c = some c' → LengthsOk c'
  | 0, c, c', h, hloop => by
    unfold parseLoop at hloop
    split at hloop
    · cases hloop
      exact h
    · cases hloop
  | fuel + 1, c, c', h, hloop => by
    have hcall := processRequest_lengthsOk h
    unfold parseLoop at hloop
    split at hloop
    · cases hloop
      exact h
    · split at hloop
      · rename_i c'' heq
        rw [heq] at hcall
        exact parseLoop_lengthsOk hcall hloop
      · rename_i c'' heq
        rw [heq] at hcall
        cases hloop
        exact hcall

theorem processSubReadBuf_lengthsOk {c c' : SubClient} {cmd : Option Command} (h : LengthsOk c)
    (hcall : processSubReadBuf c = some (c', cmd)) : LengthsOk c' := by
  unfold processSubReadBuf at hcall
  obtain ⟨c'', hloop, hfinish⟩ := Option.map_eq_some_iff.1 hcall
  have hc := parseLoop_lengthsOk h hloop
  unfold finishRead at hfinish
  split at hfinish
  · cases hfinish
    exact ⟨hc.multiBulkLen, hc.bulkLen⟩
  · cases hfinish
    exact ⟨Nat.zero_le _, ⟨le_rfl, by simp [resetClient]⟩⟩

/-! ## In bounds -/

/-- The loop of `process_sub_read_buf` makes no access outside the buffer, for any number of passes. -/
theorem Checked.parseLoop_eq : ∀ (fuel : Nat) {c : SubClient}, LengthsOk c →
    Checked.parseLoop fuel c = some (PubsubBroker.parseLoop fuel c)
  | 0, c, _ => rfl
  | fuel + 1, c, h => by
    unfold Checked.parseLoop PubsubBroker.parseLoop
    by_cases h0 : c.readBuf.length = 0
    · simp only [if_pos h0, Option.pure_def]
    · have hcall := processRequest_lengthsOk h
      simp only [if_neg h0, Checked.processRequest_eq h.bulkLen h0, Option.bind_eq_bind, Option.bind_some]
      generalize PubsubBroker.processRequest c = r at hcall
      rcases r with ⟨_ | _, c'⟩
      · exact Checked.parseLoop_eq fuel hcall
      · rfl

/-- On a client whose lengths are in range every access of the three parsers to the buffer lies within
it and its terminator, `pos` does not pass its end and no subtraction underflows, for any bytes in the
buffer and any number of passes; and the lengths are in range again when a call returns. A count line
that starts with its own end is the one thing `process_multibulk_buffer` must not be called on: its only
caller calls it on a buffer that starts with `*`. -/
theorem parsers_in_bounds {c : SubClient} (h : LengthsOk c) :
    (∀ fuel, Checked.parseLoop fuel c = some (parseLoop fuel c)) ∧
    Checked.processInlineBuffer c = some (processInlineBuffer c) ∧
    ((c.multiBulkLen = 0 → c.readBuf.head? ≠ some CR) →
      Checked.processMultibulkBuffer c = some (processMultibulkBuffer c)) ∧
    LengthsOk (processInlineBuffer c).2 ∧ LengthsOk (processMultibulkBuffer c).2 ∧
    ∀ c' cmd, processSubReadBuf c = some (c', cmd) → LengthsOk c' :=
  ⟨fun fuel => Checked.parseLoop_eq fuel h, Checked.processInlineBuffer_eq c, Checked.processMultibulkBuffer_eq h.bulkLen,
    processInlineBuffer_lengthsOk h, processMultibulkBuffer_lengthsOk h, fun _ _ => processSubReadBuf_lengthsOk h⟩

/-- A client that waits for the second of two bulks, with a NUL in the buffer. -/
def waitingClient : SubClient :=
  { zeroedClient 5 [] with readBuf := ascii "*2\r\n$1\r\n" ++ [0, 13, 10, 36, 51], multiBulkLen := 2, bulkLen := 3 }

theorem parsers_in_bounds_waiting :
    (∀ fuel, Checked.parseLoop fuel waitingClient = some (parseLoop fuel waitingClient)) ∧
    Checked.processInlineBuffer waitingClient = some (processInlineBuffer waitingClient) ∧
    ((waitingClient.multiBulkLen = 0 → waitingClient.readBuf.head? ≠ some CR) →
      Checked.processMultibulkBuffer waitingClient = some (processMultibulkBuffer waitingClient)) ∧
    LengthsOk (processInlineBuffer waitingClient).2 ∧ LengthsOk (processMultibulkBuffer waitingClient).2 ∧
    ∀ c' cmd, processSubReadBuf waitingClient = some (c', cmd) → LengthsOk c' :=
  parsers_in_bounds ⟨by decide, by decide, by decide⟩

end PubsubBroker

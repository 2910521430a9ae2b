/-
The trims of `process_multibulk_buffer`: on every exit the parser removes a prefix of the buffer, and
`consumes_recorded_iff` says for which parser states and buffers it is the one it has recorded.
-/
import PubsubBroker.Common.String2ll
import PubsubBroker.Protocol.Records
import PubsubBroker.Protocol.Wire

namespace PubsubBroker

open CLang Numeral

/-! ## Parser states -/

/-- What earlier calls leave of a new client, with any bytes in the buffer. -/
inductive ParserReached : SubClient → Prop
  | create (junk : Junk) (fd : Nat) (id : Sds) : ParserReached (subCliCreate junk fd id)
  | receive {c : SubClient} (buf : Sds) (h : ParserReached c) : ParserReached { c with readBuf := buf }
  | guess {c : SubClient} (h : ParserReached c) : ParserReached (guessReqType c)
  | inline {c : SubClient} (h : ParserReached c) : ParserReached (processInlineBuffer c).2
  | multibulk {c : SubClient} (h : ParserReached c) : ParserReached (processMultibulkBuffer c).2
  | finish {c : SubClient} (h : ParserReached c) : ParserReached (finishRead c).1

theorem multibulkLoop_bulkLenOk : ∀ (n pos : Nat) {c : SubClient}, BulkLenOk c → BulkLenOk (multibulkLoop n pos c).2
  | 0, pos, c, h => by
    rw [multibulkLoop]
    simpa [BulkLenOk] using h
  | n + 1, pos, c, h => by
    have hrange {ll : Int} {p : Nat} (hb : BodyAt c pos ll p) : -1 ≤ ll ∧ ll ≤ MAX_BULK_LEN := by
      unfold BodyAt at hb
      split at hb
      · have := readBulkLen_length hb
        omega
      · rw [hb.1]
        exact h
    rcases multibulkLoop_cases n pos c with
      ⟨p, -, -, heq⟩ | ⟨-, -, heq⟩ | ⟨ll, p, hb, -, heq⟩ | ⟨ll, p, hb, -, heq⟩ <;> rw [heq]
    · exact h
    · simpa [BulkLenOk] using h
    · simpa [BulkLenOk] using hrange hb
    · exact multibulkLoop_bulkLenOk n _ ⟨le_rfl, by simp only; omega⟩

theorem processMultibulkBuffer_bulkLenOk {c : SubClient} (h : BulkLenOk c) : BulkLenOk (processMultibulkBuffer c).2 := by
  rcases processMultibulkBuffer_cases c with
    ⟨-, p, -, heq⟩ | ⟨-, -, heq⟩ | ⟨-, ll, p, -, -, heq⟩ | ⟨-, ll, p, -, -, heq⟩ | ⟨-, heq⟩ <;> rw [heq]
  · exact h
  · exact h
  · exact h
  · exact multibulkLoop_bulkLenOk ll.toNat p (c := { c with multiBulkLen := ll.toNat, argv := .alloc ll.toNat }) h
  · exact multibulkLoop_bulkLenOk c.multiBulkLen 0 h

theorem ParserReached.bulkLenOk {c : SubClient} (h : ParserReached c) : BulkLenOk c := by
  induction h with
  | create junk fd id => exact ⟨le_rfl, by simp [subCliCreate]⟩
  | receive buf _ ih => exact ih
  | guess _ ih => exact ih
  | @inline c _ ih =>
    rcases processInlineBuffer_cases c with ⟨-, heq⟩ | ⟨-, heq⟩ | ⟨argv, n, -, heq⟩ <;> rw [heq]
    · exact ih
    · exact ih
    · simpa [BulkLenOk] using ih
  | multibulk _ ih => exact processMultibulkBuffer_bulkLenOk ih
  | @finish c _ ih =>
    unfold finishRead
    split
    · exact ih
    · exact ⟨le_rfl, by simp [resetClient]⟩

/-- No call asks for more bulks than a count line can. -/
theorem ParserReached.multiBulkLen_le {c : SubClient} (h : ParserReached c) : c.multiBulkLen ≤ SUB_READ_BUF_LEN := by
  have hloop (n pos : Nat) {c : SubClient} (hm : c.multiBulkLen = n) (hn : n ≤ SUB_READ_BUF_LEN) :
      (multibulkLoop n pos c).2.multiBulkLen ≤ SUB_READ_BUF_LEN := by
    obtain ⟨args, bl, buf, rej, -, -, hshape⟩ := multibulkLoop_shape n pos c hm
    rw [hshape]
    exact (Nat.sub_le _ _).trans hn
  induction h with
  | create junk fd id => exact Nat.zero_le _
  | receive buf _ ih => exact ih
  | guess _ ih => exact ih
  | @inline c _ ih =>
    rcases processInlineBuffer_cases c with ⟨-, heq⟩ | ⟨-, heq⟩ | ⟨argv, n, -, heq⟩ <;> rw [heq]
    · exact ih
    · exact ih
    · simpa using ih
  | @multibulk c _ ih =>
    rcases processMultibulkBuffer_cases c with
      ⟨-, p, -, heq⟩ | ⟨-, -, heq⟩ | ⟨-, ll, p, -, -, heq⟩ | ⟨-, ll, p, hr, -, heq⟩ | ⟨-, heq⟩ <;> rw [heq]
    · exact ih
    · exact ih
    · exact ih
    · have := (readMultibulkLen_length hr).1
      exact hloop ll.toNat p rfl (by omega)
    · -- a call in the middle of a request goes on with what an earlier one has counted
      exact hloop c.multiBulkLen 0 rfl ih
  | @finish c _ ih =>
    unfold finishRead
    split
    · exact ih
    · exact Nat.zero_le _

/-! ## Buffers of `2 ^ 31` bytes and more -/

theorem trimTo_long {c : SubClient} (h : 2 ^ 31 ≤ c.readBuf.length) (h' : c.readBuf.length < 2 ^ 32) {pos : Nat}
    (hpos : pos ≠ 0) : trimTo c pos = { c with readBuf := [] } := by
  unfold trimTo
  rw [if_pos hpos, sdsrange_of_negative h h']

theorem setProtocolErr_long {c : SubClient} (h : 2 ^ 31 ≤ c.readBuf.length) (h' : c.readBuf.length < 2 ^ 32) (pos : Nat) :
    setProtocolErr c pos = { c with readBuf := [], rejected := c.readBuf.drop pos :: c.rejected } := by
  unfold setProtocolErr
  rw [sdsrange_of_negative h h']

/-- Behind its first line the loop empties such a buffer, on every exit. -/
theorem multibulkLoop_long : ∀ (n pos : Nat) {c : SubClient}, 2 ^ 31 ≤ c.readBuf.length → c.readBuf.length < 2 ^ 32 →
    pos ≠ 0 → (multibulkLoop n pos c).2.readBuf = []
  | 0, pos, c, h, h', hpos => by rw [multibulkLoop, trimTo_long h h' hpos]
  | n + 1, pos, c, h, h', hpos => by
    have hbehind {ll : Int} {p : Nat} (hb : BodyAt c pos ll p) : p ≠ 0 := by
      unfold BodyAt at hb
      split at hb
      · have := readBulkLen_length hb
        omega
      · rw [hb.2]
        exact hpos
    rcases multibulkLoop_cases n pos c with
      ⟨p, -, -, heq⟩ | ⟨-, -, heq⟩ | ⟨ll, p, hb, -, heq⟩ | ⟨ll, p, hb, -, heq⟩ <;> rw [heq]
    · rw [setProtocolErr_long h h']
    · rw [trimTo_long h h' hpos]
    · have htrim := trimTo_long (c := { c with bulkLen := ll }) h h' (hbehind hb)
      exact congrArg SubClient.readBuf htrim
    · have hp := hbehind hb
      exact multibulkLoop_long n (p + (ll + 2).toNat) h h' (by omega)

/-- So it does when it starts with a header or a body that is there. -/
theorem multibulkLoop_start_long {n : Nat} {c : SubClient} (hbl : BulkLenOk c) (h : 2 ^ 31 ≤ c.readBuf.length)
    (h' : c.readBuf.length < 2 ^ 32) (hwait : ¬ (c.bulkLen = -1 ∧ readBulkLen c.readBuf 0 = .wait)) :
    (multibulkLoop (n + 1) 0 c).2.readBuf = [] := by
  rcases multibulkLoop_cases n 0 c with
    ⟨p, -, -, heq⟩ | ⟨hm, hw, heq⟩ | ⟨ll, p, hb, hshort, heq⟩ | ⟨ll, p, hb, -, heq⟩
  · rw [heq, setProtocolErr_long h h']
  · exact absurd ⟨hm, hw⟩ hwait
  · obtain ⟨h0, hmax, -, -⟩ := hb.range hbl (Nat.zero_le _)
    simp only [MAX_BULK_LEN] at hmax
    -- a body that is waited for is shorter than such a buffer, so its header has been read
    rw [toUInt_of_lt (by omega) (by omega)] at hshort
    have htrim := trimTo_long (c := { c with bulkLen := ll }) h h' (show p ≠ 0 by omega)
    rw [heq]
    exact congrArg SubClient.readBuf htrim
  · obtain ⟨h0, -, -, -⟩ := hb.range hbl (Nat.zero_le _)
    rw [heq]
    exact multibulkLoop_long n (p + (ll + 2).toNat) h h' (by omega)

/-! ## One call -/

theorem readMultibulkLen_ge {buf : Sds} {ll : Int} {p : Nat} (h : readMultibulkLen buf = .length ll p) : -2 ^ 63 ≤ ll := by
  unfold readMultibulkLen at h
  split at h
  · split at h <;> cases h
  · split at h
    · cases h
    · split at h
      · cases h
      · rename_i hll
        split at h
        · cases h
        · cases h
          exact (string2ll_range hll).1

theorem Recorded.args_nil {bl bl' : Int} {args : List Sds} (h : Recorded bl [] args bl') : args = [] ∧ bl' = bl := by
  generalize hbytes : ([] : List UInt8) = bytes at h
  cases h with
  | done => exact ⟨rfl, rfl⟩
  | header x hll hmax rest => simp [headerLine] at hbytes
  | body arg x y rest => simp at hbytes

/-- A call that leaves the buffer as it was and has recorded something does not remove what it records. -/
theorem not_consumesRecorded {c c' : SubClient} (hbuf : c'.readBuf = c.readBuf)
    (h : c.multiBulkLen < c'.multiBulkLen ∨ c.argc < c'.argc) : ¬ ConsumesRecorded c c' := by
  rintro ⟨line, bytes, args, c1, hcount, hrec, -, hm, -, hargc, hcat⟩
  have hlen := congrArg List.length hcat
  rw [List.length_append, List.length_append, hbuf] at hlen
  obtain rfl : bytes = [] := List.length_eq_zero_iff.1 (by omega)
  obtain rfl : line = [] := List.length_eq_zero_iff.1 (by omega)
  obtain ⟨rfl, -⟩ := hrec.args_nil
  generalize hline : ([] : List UInt8) = line at hcount
  cases hcount with
  | none =>
    simp only [SubClient.pushArgs_nil, List.length_nil] at hargc hm
    omega
  | empty x hb hm0 hll hmin => simp [headerLine] at hline
  | line x hb hm0 hll hmax => simp [headerLine] at hline

theorem readMultibulkLen_reject {buf : Sds} {p : Nat} (h : readMultibulkLen buf = .reject p) : p = 0 := by
  unfold readMultibulkLen at h
  split at h
  · split at h <;> cases h
    rfl
  · split at h
    · cases h
    · split at h
      · cases h
        rfl
      · split at h <;> cases h
        rfl

/-- On a buffer shorter than `2 ^ 31` a call removes what it records exactly when every bulk header it
looks for fits. -/
theorem processMultibulkBuffer_consumes {c : SubClient} (hbl : BulkLenOk c) (hlen : c.readBuf.length < 2 ^ 31) :
    ConsumesRecorded c (processMultibulkBuffer c).2 ↔ ∀ q ∈ bulkHeaderOffsets c, HeaderFits c.readBuf q := by
  unfold bulkHeaderOffsets
  rcases processMultibulkBuffer_cases c with
    ⟨hm, p, hr, heq⟩ | ⟨hm, hr, heq⟩ | ⟨hm, ll, p, hr, hll, heq⟩ | ⟨hm, ll, p, hr, hll, heq⟩ | ⟨hm, heq⟩ <;> rw [heq]
  · obtain rfl := readMultibulkLen_reject hr
    rw [if_pos hm, hr]
    refine iff_of_true ?_ (by simp)
    rw [setProtocolErr_eq hlen]
    exact ⟨[], [], [], c, .none, .done _, Nat.zero_le _, rfl, rfl, rfl, rfl⟩
  · rw [if_pos hm, hr]
    refine iff_of_true ?_ (by simp)
    exact ⟨[], [], [], c, .none, .done _, Nat.zero_le _, rfl, rfl, rfl, rfl⟩
  · obtain ⟨b, x, hline, -, -, hb⟩ := readMultibulkLen_line hr
    rw [if_pos hm, hr]
    simp only
    rw [show ll.toNat = 0 by omega]
    refine iff_of_true ?_ (by simp [headerOffsets])
    refine ⟨_, [], [], c, .empty x hb hm hll (readMultibulkLen_ge hr), .done _, Nat.zero_le _, rfl, rfl, rfl, ?_⟩
    rw [List.append_nil]
    simp only
    rw [sdsrange_drop hlen]
    exact hline
  · obtain ⟨hmax, -, hple⟩ := readMultibulkLen_length hr
    obtain ⟨b, x, hline, hp, -, hb⟩ := readMultibulkLen_line hr
    rw [length_headerLine] at hp
    rw [if_pos hm, hr]
    simp only
    constructor
    · intro hrec
      by_contra hfit
      -- otherwise the loop leaves the whole buffer, the count line with it
      obtain ⟨hbuf, hpos, -⟩ := multibulkLoop_keeps ll.toNat p
        { c with multiBulkLen := ll.toNat, argv := .alloc ll.toNat } hlen hbl hple rfl hfit
      exact not_consumesRecorded (c := c) hbuf (.inl (by omega)) hrec
    · intro hfit
      obtain ⟨bytes, args, hrec, hle, hm', hargv, hargc, hbuf⟩ := multibulkLoop_records ll.toNat p
        { c with multiBulkLen := ll.toNat, argv := .alloc ll.toNat } hlen hbl hple rfl hfit
      refine ⟨_, bytes, args, _, .line x hb hm hll hmax, hrec, hle, hm', hargv, hargc, ?_⟩
      rw [List.append_assoc, ← hbuf]
      exact hline
  · rw [if_neg hm]
    constructor
    · intro hrec
      by_contra hfit
      -- or at least one bulk that is an argument already
      obtain ⟨hbuf, -, hargc⟩ := multibulkLoop_keeps c.multiBulkLen 0 c hlen hbl (Nat.zero_le _) rfl hfit
      exact not_consumesRecorded hbuf (.inr (hargc rfl)) hrec
    · intro hfit
      obtain ⟨bytes, args, hrec, hle, hm', hargv, hargc, hbuf⟩ :=
        multibulkLoop_records c.multiBulkLen 0 c hlen hbl (Nat.zero_le _) rfl hfit
      exact ⟨[], bytes, args, c, .none, hrec, hle, hm', hargv, hargc, hbuf⟩

/-- What is recorded is bounded: a header has 9 bytes at most, and a body with its header `MAX_BULK_LEN + 11`. -/
theorem Recorded.length_le {bl bl' : Int} {bytes : List UInt8} {args : List Sds} (h : Recorded bl bytes args bl')
    (hbl : bl ≤ MAX_BULK_LEN) : bytes.length ≤ args.length * (MAX_BULK_LEN + 11) + if bl = -1 then 9 else 0 := by
  induction h with
  | done bl => exact Nat.zero_le _
  | @header ll bl' bytes args x hll hmax rest ih =>
    have hnum : (decimalInt ll).length ≤ 5 + 1 := by
      simp only [MAX_BULK_LEN] at hmax
      exact length_decimalInt_le (by decide) (by omega)
    have hrest := ih hmax
    rw [if_neg (by omega)] at hrest
    rw [List.length_append, length_headerLine, if_pos rfl]
    omega
  | @body bl' bytes args arg x y rest ih =>
    have hrest := ih (by simp only [MAX_BULK_LEN]; omega)
    rw [if_pos rfl] at hrest
    rw [if_neg (by omega)]
    simp only [List.length_append, List.length_cons, List.length_nil, Nat.succ_mul]
    omega

/-- A count line changes nothing but the number of bulks, which is bounded, as the line is. -/
theorem Counted.bounds {c c1 : SubClient} {line : List UInt8} (h : Counted c line c1) (hm : c.multiBulkLen ≤ SUB_READ_BUF_LEN) :
    line.length ≤ 23 ∧ c1.bulkLen = c.bulkLen ∧ c1.multiBulkLen ≤ SUB_READ_BUF_LEN := by
  cases h with
  | none => exact ⟨Nat.zero_le _, rfl, hm⟩
  | @empty b ll x hb hm0 hll hmin =>
    have hnum : (decimalInt ll).length ≤ 19 + 1 := length_decimalInt_le (by decide) (by omega)
    rw [length_headerLine]
    exact ⟨by omega, rfl, hm⟩
  | @line b ll x hb hm0 hll hmax =>
    have hmax' : ll ≤ 16384 := hmax
    have hnum : (decimalInt ll).length ≤ 19 + 1 := length_decimalInt_le (by decide) (by omega)
    rw [length_headerLine]
    exact ⟨by omega, rfl, by simp only; omega⟩

/-- A call that removes what it records and leaves nothing has had a buffer shorter than `2 ^ 31`. -/
theorem ConsumesRecorded.length_lt {c c' : SubClient} (h : ConsumesRecorded c c') (hbl : BulkLenOk c)
    (hm : c.multiBulkLen ≤ SUB_READ_BUF_LEN) (hbuf : c'.readBuf = []) : c.readBuf.length < 2 ^ 31 := by
  obtain ⟨line, bytes, args, c1, hcount, hrec, hle, -, -, -, hcat⟩ := h
  obtain ⟨hline, hsame, hbulks⟩ := hcount.bounds hm
  have hbytes := hrec.length_le (hsame ▸ hbl.2)
  have hlast : (if c1.bulkLen = -1 then 9 else 0) ≤ 9 := by split <;> omega
  have hargs : args.length * (MAX_BULK_LEN + 11) ≤ SUB_READ_BUF_LEN * (MAX_BULK_LEN + 11) :=
    Nat.mul_le_mul_right _ (hle.trans hbulks)
  have hlimit : SUB_READ_BUF_LEN * (MAX_BULK_LEN + 11) = 268615680 := rfl
  rw [hcat, hbuf, List.append_nil, List.length_append]
  omega

/-- The line that a call looks for first is not complete: the count line, or the header of the next bulk. -/
def LineWaits (c : SubClient) : Prop :=
  if c.multiBulkLen = 0 then readMultibulkLen c.readBuf = .wait else c.bulkLen = -1 ∧ readBulkLen c.readBuf 0 = .wait

/-- From `2 ^ 31` bytes on a call removes what it records exactly when it does nothing: every trim empties the
buffer, and no call records as much. -/
theorem processMultibulkBuffer_consumes_long {c : SubClient} (hbl : BulkLenOk c) (hbulks : c.multiBulkLen ≤ SUB_READ_BUF_LEN)
    (h : 2 ^ 31 ≤ c.readBuf.length) (h' : c.readBuf.length < 2 ^ 32) :
    ConsumesRecorded c (processMultibulkBuffer c).2 ↔ LineWaits c := by
  have hsame : ConsumesRecorded c c := ⟨[], [], [], c, .none, .done _, Nat.zero_le _, rfl, rfl, rfl, rfl⟩
  -- a trim leaves nothing, and what a call records is never so long
  have hempty (hbuf : (processMultibulkBuffer c).2.readBuf = []) : ¬ ConsumesRecorded c (processMultibulkBuffer c).2 := by
    intro hrec
    have := hrec.length_lt hbl hbulks hbuf
    omega
  unfold LineWaits
  rcases processMultibulkBuffer_cases c with
    ⟨hm, p, hr, heq⟩ | ⟨hm, hr, heq⟩ | ⟨hm, ll, p, hr, hll, heq⟩ | ⟨hm, ll, p, hr, hll, heq⟩ | ⟨hm, heq⟩
  · rw [if_pos hm, hr]
    exact iff_of_false (hempty (by rw [heq, setProtocolErr_long h h'])) Header.noConfusion
  · rw [if_pos hm, hr, heq]
    exact iff_of_true hsame rfl
  · rw [if_pos hm, hr]
    exact iff_of_false (hempty (by rw [heq]; exact sdsrange_of_negative h h' p)) Header.noConfusion
  · have hp := (readMultibulkLen_length hr).2.1
    have hloop := multibulkLoop_long ll.toNat p (c := { c with multiBulkLen := ll.toNat, argv := .alloc ll.toNat }) h h'
      (by omega)
    rw [if_pos hm, hr]
    exact iff_of_false (hempty (by rw [heq]; exact hloop)) Header.noConfusion
  · obtain ⟨n, hn⟩ : ∃ n, c.multiBulkLen = n + 1 := ⟨c.multiBulkLen - 1, by omega⟩
    rw [hn] at heq
    rw [if_neg hm]
    by_cases hwait : c.bulkLen = -1 ∧ readBulkLen c.readBuf 0 = .wait
    · rw [heq, multibulkLoop_wait hwait.1 hwait.2]
      exact iff_of_true hsame hwait
    · exact iff_of_false (hempty (by rw [heq]; exact multibulkLoop_start_long hbl h h' hwait)) hwait

/-- The trim of a call on `c` is the right one: every bulk header that the call looks for behind the
start of a buffer has its carriage return, or the buffer has at most `MAX_INLINE_READ` bytes. A buffer
of `2 ^ 31` bytes or more is left alone: the first line in it is waited for. -/
def TrimOk (c : SubClient) : Prop :=
  if c.readBuf.length < 2 ^ 31 then ∀ q ∈ bulkHeaderOffsets c, HeaderFits c.readBuf q else LineWaits c

/-- In every parser state and on every buffer, a call removes exactly the bytes that it records when
its trim is the right one, and only then. The length of a string is an `unsigned int`. -/
theorem consumes_recorded_iff {c : SubClient} (h : ParserReached c) (hlen : c.readBuf.length < 2 ^ 32) :
    ConsumesRecorded c (processMultibulkBuffer c).2 ↔ TrimOk c := by
  unfold TrimOk
  split
  · rename_i hshort
    exact processMultibulkBuffer_consumes h.bulkLenOk hshort
  · rename_i hlong
    exact processMultibulkBuffer_consumes_long h.bulkLenOk h.multiBulkLen_le (by omega) hlen

theorem consumes_recorded_ping :
    let c := { zeroedClient 5 [] with readBuf := ascii "*1\r\n$4\r\nPI" }
    ConsumesRecorded c (processMultibulkBuffer c).2 ↔ TrimOk c :=
  consumes_recorded_iff (.receive _ (.create ⟨0, 0, .alloc 0⟩ 5 [])) (by decide)

/-! ## A bulk that is parsed twice -/

theorem headerOffsets_bulk {buf : Sds} {n pos : Nat} {arg : Sds} {rest : List UInt8}
    (hbuf : buf.drop pos = bulk arg ++ rest) (hlen : buf.length < 2 ^ 31) (harg : arg.length ≤ MAX_BULK_LEN) :
    headerOffsets buf (n + 1) pos (-1) = pos :: headerOffsets buf n (pos + (bulk arg).length) (-1) := by
  rw [bulk, List.append_assoc] at hbuf
  have hhead := readBulkLen_bulkHeader hbuf (Nat.lt_add_right 2 hlen) harg
  have hbody : arg.length + 2 ≤ buf.length - (pos + (bulkHeader arg).length) := by
    rw [← List.length_drop, ← List.drop_drop, hbuf, List.drop_left, List.length_append, length_bulkBody]
    omega
  have hnext : pos + (bulkHeader arg).length + ((arg.length : Int) + 2).toNat = pos + (bulk arg).length := by
    rw [bulk, List.length_append, length_bulkBody]
    omega
  unfold MAX_BULK_LEN at harg
  rw [headerOffsets, if_pos rfl, hhead]
  simp only [if_true]
  rw [if_neg (by rw [toUInt_of_lt (by omega) (by omega)]; omega), hnext, List.singleton_append]

/-- A bulk that is already an argument stays in the buffer when more than `MAX_INLINE_READ` bytes
follow it without the line end of the next header. -/
theorem not_consumesRecorded_bulk {c : SubClient} {arg : Sds} {rest : List UInt8} (hm : c.multiBulkLen = 0)
    (hbl : c.bulkLen = -1) (hbuf : c.readBuf = countLine 2 ++ (bulk arg ++ rest)) (harg : arg.length ≤ MAX_BULK_LEN)
    (hcr : CR ∉ rest) (hlong : MAX_INLINE_READ < rest.length) (hlen : c.readBuf.length < 2 ^ 31) :
    ¬ ConsumesRecorded c (processMultibulkBuffer c).2 := by
  have hlong' : MAX_INLINE_READ < c.readBuf.length := by
    rw [hbuf, List.length_append, List.length_append]
    omega
  have hcount : readMultibulkLen c.readBuf = .length (2 : Nat) (countLine 2).length := by
    rw [hbuf] at hlen ⊢
    exact readMultibulkLen_countLine (by decide) _ (Nat.lt_add_right 2 hlen)
  have hdrop : c.readBuf.drop (countLine 2).length = bulk arg ++ rest := by rw [hbuf, List.drop_left]
  have htail : c.readBuf.drop ((countLine 2).length + (bulk arg).length) = rest := by
    rw [← List.drop_drop, hdrop, List.drop_left]
  -- the second header is looked for behind the first bulk
  have hmem : (countLine 2).length + (bulk arg).length ∈ bulkHeaderOffsets c := by
    unfold bulkHeaderOffsets
    rw [if_pos hm, hcount]
    simp only [Int.toNat_natCast]
    rw [hbl, headerOffsets_bulk hdrop hlen harg, headerOffsets]
    unfold readBulkLen
    rw [if_pos rfl, htail, strchr_none_of_notMem hcr]
    simp [hlong']
  rw [processMultibulkBuffer_consumes ⟨by omega, by rw [hbl]; omega⟩ hlen]
  intro hfit
  rcases hfit _ hmem with h0 | hfound | hshort
  · rw [length_countLine] at h0
    omega
  · exact hfound (htail ▸ strchr_none_of_notMem hcr)
  · omega

theorem bulk_kept :
    let c := { zeroedClient 5 [] with readBuf := countLine 2 ++ (bulk (ascii "a") ++ List.replicate 16385 36) }
    ParserReached c ∧ ¬ ConsumesRecorded c (processMultibulkBuffer c).2 := by
  have hcr : CR ∉ List.replicate 16385 (36 : UInt8) := fun h => absurd (List.eq_of_mem_replicate h) (by decide)
  have hlong : (List.replicate 16385 (36 : UInt8)).length = 16385 := List.length_replicate
  generalize List.replicate 16385 (36 : UInt8) = rest at hcr hlong ⊢
  refine ⟨.receive _ (.create ⟨0, 0, .alloc 0⟩ 5 []), not_consumesRecorded_bulk rfl rfl rfl (by decide) hcr ?_ ?_⟩
  · rw [hlong]
    decide
  · have hline : (countLine 2).length = 4 := by decide
    have hbulk : (bulk (ascii "a")).length = 7 := by decide
    simp only [List.length_append, hline, hbulk, hlong]
    decide

end PubsubBroker

/-
The requests a subscriber may send, as bytes: RESP multibulk requests and inline lines ended by CRLF.
The parsers read back what is encoded here, whatever follows it in the buffer. This is what the
protocol asks for; the parsers themselves are in `Protocol.Parse`.
-/
import PubsubBroker.Protocol.ParseSpec

namespace PubsubBroker

open CLang Numeral

/-! ## Encodings -/

/-- `*n` and a line end. -/
def countLine (n : Nat) : List UInt8 := 42 :: decimal n ++ [CR, LF]

/-- `$len` and a line end. -/
def bulkHeader (arg : Sds) : List UInt8 := 36 :: decimal arg.length ++ [CR, LF]

/-- An argument and the line end behind it. -/
def bulkBody (arg : Sds) : List UInt8 := arg ++ [CR, LF]

def bulk (arg : Sds) : List UInt8 := bulkHeader arg ++ bulkBody arg

/-- A request as its sender means it. -/
inductive Request
  | multibulk (args : List Sds)
  | inline (line : List UInt8)

namespace Request

def encode : Request → List UInt8
  | multibulk args => countLine args.length ++ args.flatMap bulk
  | inline line => line ++ [CR, LF]

/-- Requests that follow one another. -/
def encodeAll (rs : List Request) : List UInt8 := rs.flatMap encode

/-- The request's own arguments: those of a multibulk request, the non-empty tokens of a line. -/
def ownArgs : Request → List Sds
  | multibulk args => args
  | inline line => ((sdssplitargs line).getD []).filter (·.length ≠ 0)

/-- The arguments as `c->argv` holds them: a token of a line is copied up to its first NUL. -/
def args : Request → List Sds
  | multibulk args => args
  | inline line => (ownArgs (inline line)).map cstr

/-- A request that the broker's limits admit: a multibulk request of 1 to `SUB_READ_BUF_LEN` bulks of
at most `MAX_BULK_LEN` bytes, or a line without NUL and LF whose quotes are balanced. A line that
starts with `*` would be a multibulk request. -/
def WellFormed : Request → Prop
  | multibulk args => 1 ≤ args.length ∧ args.length ≤ SUB_READ_BUF_LEN ∧ ∀ arg ∈ args, arg.length ≤ MAX_BULK_LEN
  | inline line => LF ∉ line ∧ 0 ∉ line ∧ line.head? ≠ some 42 ∧ (sdssplitargs line).isSome

@[simp] theorem encodeAll_nil : encodeAll [] = [] := rfl

@[simp] theorem encodeAll_cons (r : Request) (rs : List Request) : encodeAll (r :: rs) = r.encode ++ encodeAll rs := rfl

end Request

/-! ## Header lines -/

theorem not_isDigit_CR : ¬ IsDigit CR := by decide

theorem not_isDigit_zero : ¬ IsDigit 0 := by decide

/-- The numbers within the limits have at most five digits. -/
theorem length_decimal_limit {n : Nat} (h : n ≤ 1024 * 16) : (decimal n).length ≤ 5 :=
  length_decimal_le (by omega) (by omega)

/-- A type byte and a numeral hold no line end. -/
theorem notMem_header {b x : UInt8} (n : Nat) (hb : b ≠ x) (hx : ¬ IsDigit x) : x ∉ b :: decimal n := by
  simp only [List.mem_cons, not_or]
  exact ⟨hb.symm, notMem_decimal n hx⟩

/-- The first CR of a header line is the one that ends it. -/
theorem strchr_header (b : UInt8) (n : Nat) (rest : List UInt8) (hb : b ≠ CR) (hb0 : b ≠ 0) :
    strchr CR ((b :: decimal n ++ [CR, LF]) ++ rest) = some (b :: decimal n).length := by
  have := strchr_hit (LF :: rest) (notMem_header n hb not_isDigit_CR) (notMem_header n hb0 not_isDigit_zero)
  simpa using this

theorem length_countLine (n : Nat) : (countLine n).length = (decimal n).length + 3 := by simp [countLine]

theorem length_bulkHeader (arg : Sds) : (bulkHeader arg).length = (decimal arg.length).length + 3 := by
  simp [bulkHeader]

@[simp] theorem length_bulkBody (arg : Sds) : (bulkBody arg).length = arg.length + 2 := by simp [bulkBody]

theorem readMultibulkLen_countLine {n : Nat} (hn : n ≤ SUB_READ_BUF_LEN) (rest : List UInt8)
    (hlen : (countLine n ++ rest).length < 2 ^ 31 + 2) :
    readMultibulkLen (countLine n ++ rest) = .length n (countLine n).length := by
  have hdrop : ((countLine n ++ rest).drop 1).take ((42 :: decimal n).length - 1) = decimal n := by
    simp [countLine, List.take_left']
  have hlong : (countLine n ++ rest).length = (decimal n).length + 3 + rest.length := by
    rw [List.length_append, length_countLine]
  have hnn : n < 2 ^ 63 := by unfold SUB_READ_BUF_LEN at hn; omega
  unfold readMultibulkLen
  rw [show strchr CR (countLine n ++ rest) = some (42 :: decimal n).length from
    strchr_header 42 n rest (by decide) (by decide)]
  simp only [crLimit_of_lt hlen, hdrop, string2ll_decimal hnn]
  rw [if_neg (by rw [hlong]; simp only [List.length_cons]; omega), if_neg (by omega), length_countLine,
    List.length_cons]

/-- A complete header is accepted exactly when the length on it is within the limit. -/
theorem readBulkLen_header {buf : Sds} {pos : Nat} {arg : Sds} {rest : List UInt8}
    (hbuf : buf.drop pos = bulkHeader arg ++ rest) (hlen : buf.length < 2 ^ 31 + 2) (harg : arg.length < 2 ^ 63) :
    readBulkLen buf pos =
      if arg.length > MAX_BULK_LEN then .reject pos else .length arg.length (pos + (bulkHeader arg).length) := by
  have hlong : buf.length - pos = (decimal arg.length).length + 3 + rest.length := by
    rw [← List.length_drop, hbuf, List.length_append, length_bulkHeader]
  have hdrop : (buf.drop (pos + 1)).take (pos + (36 :: decimal arg.length).length - (pos + 1)) =
      decimal arg.length := by
    rw [← List.drop_drop, hbuf, List.length_cons, show pos + ((decimal arg.length).length + 1) - (pos + 1) =
      (decimal arg.length).length by omega]
    simp [bulkHeader, List.take_left']
  unfold readBulkLen
  rw [hbuf, show strchr CR (bulkHeader arg ++ rest) = some (36 :: decimal arg.length).length from
    strchr_header 36 arg.length rest (by decide) (by decide)]
  simp only [crLimit_of_lt hlen, hdrop, string2ll_decimal harg]
  rw [if_neg (by simp only [List.length_cons]; omega), if_neg (by simp [bulkHeader])]
  by_cases hmax : arg.length > MAX_BULK_LEN
  · rw [if_pos hmax, if_pos (by omega)]
  · rw [if_neg hmax, if_neg (by omega), length_bulkHeader, List.length_cons]
    congr 1

theorem readBulkLen_bulkHeader {buf : Sds} {pos : Nat} {arg : Sds} {rest : List UInt8}
    (hbuf : buf.drop pos = bulkHeader arg ++ rest) (hlen : buf.length < 2 ^ 31 + 2) (harg : arg.length ≤ MAX_BULK_LEN) :
    readBulkLen buf pos = .length arg.length (pos + (bulkHeader arg).length) := by
  rw [readBulkLen_header hbuf hlen (by unfold MAX_BULK_LEN at harg; omega), if_neg (not_lt.2 harg)]

/-! ## Header lines that are cut -/

/-- A cut header line has no line end, or only the first byte of it. -/
theorem strchr_cut {b : UInt8} {n : Nat} {t : List UInt8} (hb : b ≠ CR) (ht : t <+: b :: decimal n) :
    strchr CR t = none :=
  strchr_none_of_notMem fun h => notMem_header n hb not_isDigit_CR (ht.subset h)

theorem strchr_cut_cr {b : UInt8} (n : Nat) (hb : b ≠ CR) (hb0 : b ≠ 0) :
    strchr CR (b :: decimal n ++ [CR]) = some (b :: decimal n).length :=
  strchr_hit [] (notMem_header n hb not_isDigit_CR) (notMem_header n hb0 not_isDigit_zero)

/-- A cut count line is waited for. -/
theorem readMultibulkLen_cut {n : Nat} {t : List UInt8} (hn : n ≤ SUB_READ_BUF_LEN)
    (ht : t <+: 42 :: decimal n ++ [CR]) : readMultibulkLen t = .wait := by
  have hdec := length_decimal_limit hn
  unfold readMultibulkLen
  rcases List.prefix_concat_iff.1 ht with rfl | ht
  · rw [strchr_cut_cr n (by decide) (by decide)]
    have hlen : (42 :: decimal n ++ [CR]).length = (decimal n).length + 2 := by simp
    simp only [List.length_cons]
    rw [if_pos (by rw [crLimit_of_lt] <;> omega)]
  · have hlen := ht.length_le
    rw [strchr_cut (by decide) ht]
    simp only [List.length_cons] at hlen ⊢
    rw [if_neg (by unfold MAX_INLINE_READ; omega)]

/-- A cut bulk header is waited for in a short buffer, and with the first byte of its line end in any. -/
theorem readBulkLen_cut {buf t : List UInt8} {pos n : Nat} (hbuf : buf.drop pos = t) (ht : t <+: 36 :: decimal n) :
    readBulkLen buf pos = if buf.length > MAX_INLINE_READ then .reject 0 else .wait := by
  unfold readBulkLen
  rw [hbuf, strchr_cut (by decide) ht]

theorem readBulkLen_cut_cr {buf : Sds} {pos n : Nat} (hbuf : buf.drop pos = 36 :: decimal n ++ [CR])
    (hlen : buf.length < 2 ^ 31) : readBulkLen buf pos = .wait := by
  have hlong := congrArg List.length hbuf
  simp only [List.length_drop, List.length_append, List.length_cons, List.length_nil] at hlong
  unfold readBulkLen
  rw [hbuf, strchr_cut_cr n (by decide) (by decide)]
  simp only [List.length_cons]
  rw [if_pos (by rw [crLimit_of_lt] <;> omega)]

/-! ## Multibulk requests -/

/-- The bulk loop takes encoded bulks off the buffer, pushes their bodies and goes on behind them. -/
theorem multibulkLoop_skip : ∀ (args : List Sds) (m pos : Nat) (rest : List UInt8) (c : SubClient),
    c.readBuf.drop pos = args.flatMap bulk ++ rest → c.readBuf.length < 2 ^ 31 + 2 → c.bulkLen = -1 →
    c.multiBulkLen = args.length + m → (∀ arg ∈ args, arg.length ≤ MAX_BULK_LEN) →
    multibulkLoop (args.length + m) pos c = multibulkLoop m (pos + (args.flatMap bulk).length)
      { c.pushArgs args with multiBulkLen := m, bulkLen := -1 }
  | [], m, pos, rest, c, _, _, hbl, hm, _ => by
    simp only [List.length_nil, Nat.zero_add] at hm
    rw [SubClient.pushArgs_nil, ← hm, ← hbl, List.length_nil, Nat.zero_add]
    rfl
  | arg :: args, m, pos, rest, c, hbuf, hlen, hbl, hm, hargs => by
    rw [List.forall_mem_cons] at hargs
    rw [List.flatMap_cons, bulk, List.append_assoc, List.append_assoc] at hbuf
    have hhead := readBulkLen_bulkHeader hbuf hlen hargs.1
    have hbody : c.readBuf.drop (pos + (bulkHeader arg).length) = bulkBody arg ++ (args.flatMap bulk ++ rest) := by
      rw [← List.drop_drop, hbuf, List.drop_left]
    -- the body is there with its line end, so the loop takes it
    have hfit : arg.length + 2 ≤ c.readBuf.length - (pos + (bulkHeader arg).length) := by
      rw [← List.length_drop, hbody, List.length_append, length_bulkBody]
      omega
    have htake : (c.readBuf.drop (pos + (bulkHeader arg).length)).take ((arg.length : Int)).toNat = arg := by
      rw [hbody, bulkBody, Int.toNat_natCast, List.append_assoc, List.take_left]
    have hmax : arg.length + 2 < 2 ^ 32 := by have := hargs.1; unfold MAX_BULK_LEN at this; omega
    have hat : BodyAt c pos arg.length (pos + (bulkHeader arg).length) := by
      unfold BodyAt
      rw [if_pos hbl, hhead]
    have hrest : c.readBuf.drop (pos + (bulkHeader arg).length + ((arg.length : Int) + 2).toNat) =
        args.flatMap bulk ++ rest := by
      rw [← List.drop_drop, hbody, show ((arg.length : Int) + 2).toNat = (bulkBody arg).length by
        rw [length_bulkBody]; omega, List.drop_left]
    have hih := multibulkLoop_skip args m (pos + (bulkHeader arg).length + ((arg.length : Int) + 2).toNat) rest
      { c.pushArg arg with bulkLen := -1, multiBulkLen := args.length + m } hrest hlen rfl rfl hargs.2
    have hpos : pos + (bulkHeader arg).length + ((arg.length : Int) + 2).toNat + (args.flatMap bulk).length =
        pos + ((arg :: args).flatMap bulk).length := by
      rw [List.flatMap_cons, List.length_append, bulk, List.length_append, length_bulkBody]
      omega
    rw [List.length_cons, Nat.add_right_comm, multibulkLoop_take hat (by rw [toUInt_of_lt (by omega) (by omega)]; omega),
      htake, hih, hpos, SubClient.pushArgs_update _ args (args.length + m) (-1) _, SubClient.pushArgs_cons]
    simp only [SubClient.pushArgs_readBuf]

/-- The bulk loop succeeds behind the last bulk. -/
theorem multibulkLoop_bulks (args : List Sds) (rest : List UInt8) (pos : Nat) (c : SubClient)
    (hbuf : c.readBuf.drop pos = args.flatMap bulk ++ rest) (hlen : c.readBuf.length < 2 ^ 31) (hbl : c.bulkLen = -1)
    (hm : c.multiBulkLen = args.length) (hargs : ∀ arg ∈ args, arg.length ≤ MAX_BULK_LEN) :
    multibulkLoop args.length pos c =
      (.ok, { c.pushArgs args with multiBulkLen := 0, bulkLen := -1, readBuf := rest }) := by
  have hend : c.readBuf.drop (pos + (args.flatMap bulk).length) = rest := by
    rw [← List.drop_drop, hbuf, List.drop_left]
  have hskip := multibulkLoop_skip args 0 pos rest c hbuf (Nat.lt_add_right 2 hlen) hbl hm hargs
  rw [Nat.add_zero] at hskip
  rw [hskip, multibulkLoop, trimTo_eq (by simpa using hlen)]
  simp only [SubClient.pushArgs_readBuf, hend]

/-- The bulk loop goes on with a body whose header it has read before. -/
theorem multibulkLoop_resume {c : SubClient} {arg : Sds} {args : List Sds} {rest : List UInt8}
    (hbuf : c.readBuf = bulkBody arg ++ (args.flatMap bulk ++ rest)) (hlen : c.readBuf.length < 2 ^ 31)
    (hbl : c.bulkLen = arg.length) (hargs : ∀ a ∈ arg :: args, a.length ≤ MAX_BULK_LEN) :
    multibulkLoop (args.length + 1) 0 c =
      (.ok, { c.pushArgs (arg :: args) with multiBulkLen := 0, bulkLen := -1, readBuf := rest }) := by
  rw [List.forall_mem_cons] at hargs
  have hdrop : c.readBuf.drop (0 + ((arg.length : Int) + 2).toNat) = args.flatMap bulk ++ rest := by
    rw [hbuf, show 0 + ((arg.length : Int) + 2).toNat = (bulkBody arg).length by rw [length_bulkBody]; omega,
      List.drop_left]
  have htake : (c.readBuf.drop 0).take ((arg.length : Int)).toNat = arg := by
    rw [hbuf, List.drop_zero, Int.toNat_natCast, bulkBody, List.append_assoc, List.take_left]
  have hfit : arg.length + 2 ≤ c.readBuf.length := by rw [hbuf, List.length_append, length_bulkBody]; omega
  have hat : BodyAt c 0 arg.length 0 := by
    unfold BodyAt
    rw [if_neg (by omega)]
    exact ⟨hbl.symm, rfl⟩
  have hmax := hargs.1
  unfold MAX_BULK_LEN at hmax
  have hloop := multibulkLoop_bulks args rest (0 + ((arg.length : Int) + 2).toNat)
    { c.pushArg arg with bulkLen := -1, multiBulkLen := args.length } hdrop hlen rfl rfl hargs.2
  rw [multibulkLoop_take hat (by rw [toUInt_of_lt (by omega) (by omega)]; omega), htake, hloop,
    SubClient.pushArgs_update _ args args.length (-1) _, SubClient.pushArgs_cons]

/-- A call on a request without arguments so far takes the count line and the bulks that are complete. -/
theorem processMultibulkBuffer_skip {c : SubClient} {args : List Sds} {m : Nat} {rest : List UInt8}
    (hm : c.multiBulkLen = 0) (hbl : c.bulkLen = -1)
    (hbuf : c.readBuf = countLine (args.length + m) ++ (args.flatMap bulk ++ rest)) (h1 : 1 ≤ args.length + m)
    (hn : args.length + m ≤ SUB_READ_BUF_LEN) (hargs : ∀ arg ∈ args, arg.length ≤ MAX_BULK_LEN)
    (hlen : c.readBuf.length < 2 ^ 31 + 2) :
    processMultibulkBuffer c =
      multibulkLoop m ((countLine (args.length + m)).length + (args.flatMap bulk).length)
        { SubClient.pushArgs { c with argv := .alloc (args.length + m) } args with
          multiBulkLen := m, bulkLen := -1, readBuf := c.readBuf } := by
  have hhead : readMultibulkLen c.readBuf = .length (args.length + m : Nat) (countLine (args.length + m)).length := by
    rw [hbuf] at hlen ⊢
    exact readMultibulkLen_countLine hn _ hlen
  have hskip := multibulkLoop_skip args m (countLine (args.length + m)).length rest
    { c with multiBulkLen := args.length + m, argv := .alloc (args.length + m) }
    (by simp only [hbuf, List.drop_left]) hlen hbl rfl hargs
  unfold processMultibulkBuffer
  rw [if_pos hm, hhead]
  simp only [Int.toNat_natCast]
  rw [if_neg (by omega), hskip, SubClient.pushArgs_update { c with argv := .alloc (args.length + m) } args
    (args.length + m) c.bulkLen c.readBuf]

/-- `process_multibulk_buffer` reads back an encoded request and leaves what follows it. -/
theorem processMultibulkBuffer_encode {c : SubClient} {args : List Sds} {rest : List UInt8}
    (hwf : (Request.multibulk args).WellFormed) (hm : c.multiBulkLen = 0) (hbl : c.bulkLen = -1)
    (hbuf : c.readBuf = (Request.multibulk args).encode ++ rest) (hlen : c.readBuf.length < 2 ^ 31) :
    processMultibulkBuffer c = (.ok, { SubClient.pushArgs { c with argv := .alloc args.length } args with
      multiBulkLen := 0, bulkLen := -1, readBuf := rest }) := by
  obtain ⟨h1, h2, h3⟩ := hwf
  rw [Request.encode, List.append_assoc] at hbuf
  have hskip := processMultibulkBuffer_skip (m := 0) hm hbl hbuf h1 h2 h3 (Nat.lt_add_right 2 hlen)
  have hend : c.readBuf.drop ((countLine args.length).length + (args.flatMap bulk).length) = rest := by
    rw [← List.drop_drop, hbuf, List.drop_left, List.drop_left]
  rw [Nat.add_zero] at hskip
  rw [hskip, multibulkLoop, trimTo_eq]
  · simp only [hend]
  · exact hlen

/-- Decoding undoes encoding: on an idle client the encoding of 1 to `SUB_READ_BUF_LEN` arguments, each
of any bytes and at most `MAX_BULK_LEN` of them, is read back as these arguments, in an array of as many
slots, and what follows the encoding stays. -/
theorem multibulk_decode {c : SubClient} {args : List Sds} {rest : List UInt8} (hidle : c.Idle) (h1 : 1 ≤ args.length)
    (hn : args.length ≤ SUB_READ_BUF_LEN) (hargs : ∀ arg ∈ args, arg.length ≤ MAX_BULK_LEN)
    (hbuf : c.readBuf = (Request.multibulk args).encode ++ rest) (hlen : c.readBuf.length < 2 ^ 31) :
    ∃ c', processMultibulkBuffer c = (.ok, c') ∧ c'.args = args.map some ∧ c'.argv.slots = args.length ∧
      c'.argc = args.length ∧ c'.multiBulkLen = 0 ∧ c'.bulkLen = -1 ∧ c'.readBuf = rest := by
  refine ⟨_, processMultibulkBuffer_encode ⟨h1, hn, hargs⟩ hidle.multiBulkLen hidle.bulkLen hbuf hlen,
    ?_, ?_, ?_, rfl, rfl, rfl⟩
  · exact SubClient.args_pushArgs { c with argv := .alloc args.length } args hidle.argc
  · simp only [SubClient.pushArgs_slots]
    rfl
  · simp only [SubClient.pushArgs_argc, hidle.argc, zero_add]

theorem multibulk_decode_crlf :
    ∃ c', processMultibulkBuffer { zeroedClient 5 [] with readBuf := ascii "*2\r\n$3\r\nsub\r\n$4\r\n$1\r\n\r\nPING" } = (.ok, c') ∧
      c'.args = [ascii "sub", ascii "$1\r\n"].map some ∧ c'.argv.slots = 2 ∧ c'.argc = 2 ∧ c'.multiBulkLen = 0 ∧
      c'.bulkLen = -1 ∧ c'.readBuf = ascii "PING" :=
  multibulk_decode ⟨rfl, rfl, rfl⟩ (by decide) (by decide) (by decide) (by decide)
    (by decide)

/-! ## Inline requests -/

/-- The line that CRLF ends is read whole, whatever follows it. -/
theorem readLine_encode {line : List UInt8} {argv : List Sds} (hlf : LF ∉ line) (h0 : 0 ∉ line)
    (hargv : sdssplitargs line = some argv) (rest : List UInt8) :
    readLine (line ++ [CR, LF] ++ rest) = .tokens argv line.length := by
  have hnl : strchr LF (line ++ [CR, LF] ++ rest) = some (line ++ [CR]).length := by
    have hlf' : LF ∉ line ++ [CR] := by
      simp only [List.mem_append, List.mem_singleton, not_or]
      exact ⟨hlf, by decide⟩
    have h0' : 0 ∉ line ++ [CR] := by
      simp only [List.mem_append, List.mem_singleton, not_or]
      exact ⟨h0, by decide⟩
    simpa using strchr_hit rest hlf' h0'
  have hend : lineEnd (line ++ [CR, LF] ++ rest) (line ++ [CR]).length = line.length := by
    unfold lineEnd
    rw [if_pos]
    · simp
    · simp
  unfold readLine
  rw [hnl]
  simp only [hend]
  rw [List.append_assoc, List.take_left, hargv]

/-! ## Requests -/

/-- No request is under way, the arguments `args` are held and the buffer is `buf`. -/
structure Holding (c : SubClient) (args : List Sds) (buf : List UInt8) : Prop where
  multiBulkLen : c.multiBulkLen = 0
  bulkLen : c.bulkLen = -1
  argc : c.argc = args.length
  held : c.args = args.map some
  readBuf : c.readBuf = buf

theorem Holding.of_idle {c : SubClient} (h : c.Idle) : Holding c [] c.readBuf := by
  refine ⟨h.multiBulkLen, h.bulkLen, h.argc, ?_, rfl⟩
  unfold SubClient.args
  rw [h.argc]
  rfl

theorem Holding.idle {c : SubClient} {buf : List UInt8} (h : Holding c [] buf) : c.Idle :=
  ⟨h.argc, h.multiBulkLen, h.bulkLen⟩

theorem Request.length_bulk_le {arg : Sds} (h : arg.length ≤ MAX_BULK_LEN) :
    (bulk arg).length ≤ MAX_BULK_LEN + 10 := by
  have hdec := length_decimal_limit h
  rw [bulk, List.length_append, length_bulkHeader, length_bulkBody]
  omega

/-- A well-formed multibulk request is shorter than `2 ^ 31` bytes. -/
theorem Request.length_multibulk_lt {args : List Sds} (hwf : (Request.multibulk args).WellFormed) :
    (Request.multibulk args).encode.length < 2 ^ 31 := by
  obtain ⟨-, h2, h3⟩ := hwf
  have hdec := length_decimal_limit h2
  have hbulks : (args.flatMap bulk).length ≤ args.length * (MAX_BULK_LEN + 10) := by
    rw [List.length_flatMap]
    refine (List.sum_le_card_nsmul _ (MAX_BULK_LEN + 10) fun x hx => ?_).trans (by simp)
    obtain ⟨arg, harg, rfl⟩ := List.mem_map.1 hx
    exact length_bulk_le (h3 arg harg)
  have hmul : args.length * (MAX_BULK_LEN + 10) ≤ SUB_READ_BUF_LEN * (MAX_BULK_LEN + 10) :=
    Nat.mul_le_mul_right _ h2
  rw [encode, List.length_append, length_countLine]
  unfold SUB_READ_BUF_LEN MAX_BULK_LEN at *
  omega

/-- A request that is complete at the start of the buffer of an idle client is parsed into exactly its
arguments, all within the slots, and what follows it stays. -/
theorem processRequest_encode {c : SubClient} {r : Request} {rest : List UInt8} (hwf : r.WellFormed)
    (hc : Holding c [] (r.encode ++ rest)) (hlen : (r.encode ++ rest).length < 2 ^ 31 ∨ rest = []) :
    ∃ c', processRequest c = (.ok, c') ∧ Holding c' r.args rest ∧ c'.strays = c.strays := by
  rw [processRequest_eq]
  have hbuf := hc.readBuf
  have hargc : c.argc = 0 := hc.argc
  cases r with
  | multibulk args =>
    -- one request alone is never too long for `sdsrange`
    have hlen' : c.readBuf.length < 2 ^ 31 := by
      rw [hbuf]
      rcases hlen with h | rfl
      · exact h
      · rw [List.append_nil]; exact Request.length_multibulk_lt hwf
    rw [if_pos (by rw [hbuf]; rfl)]
    refine ⟨_, processMultibulkBuffer_encode (c := { c with reqType := REQ_MULTIBULK }) hwf hc.multiBulkLen
      hc.bulkLen hbuf hlen', ⟨rfl, rfl, ?_, ?_, rfl⟩, ?_⟩
    · simp only [SubClient.pushArgs_argc, hargc, Request.args, zero_add]
    · exact SubClient.args_pushArgs _ _ hargc
    · exact SubClient.pushArgs_strays _ _ hargc.ge (by simp only [hargc, Argv.alloc]; omega)
  | inline line =>
    obtain ⟨hlf, h0, h42, hsome⟩ := hwf
    obtain ⟨argv, hargv⟩ := Option.isSome_iff_exists.1 hsome
    have hhead : c.readBuf.head? ≠ some 42 := by
      rw [hbuf, Request.encode]
      cases line with
      | nil => exact fun h => absurd (Option.some.inj h) (by decide)
      | cons b line => simpa using h42
    -- the line feed of the line is the first one in the buffer
    have hline : readLine c.readBuf = .tokens argv line.length := by
      rw [hbuf]
      exact readLine_encode hlf h0 hargv rest
    have hrest : sdsrange c.readBuf (toInt (line.length + 2 : Nat)) (-1) = rest := by
      have hfull : (Request.inline line).encode.length = line.length + 2 := by simp [Request.encode]
      rw [hbuf]
      rcases hlen with h | rfl
      · rw [List.length_append] at h
        rw [toInt_of_lt (by omega) (by omega), sdsrange_drop (by rw [List.length_append]; omega), ← hfull,
          List.drop_left]
      · rw [List.append_nil, ← hfull, sdsrange_length]
    rw [if_neg hhead]
    unfold processInlineBuffer
    simp only [hline, hrest]
    refine ⟨_, rfl, ⟨?_, ?_, ?_, ?_, ?_⟩, ?_⟩
    · simpa [copyTokens_eq] using hc.multiBulkLen
    · simpa [copyTokens_eq] using hc.bulkLen
    · simp [copyTokens_eq, Request.args, Request.ownArgs, hargv]
    · rw [copyTokens_eq, SubClient.args_pushArgs _ _ rfl]
      simp [Request.args, Request.ownArgs, hargv]
    · simp [copyTokens_eq]
    · -- the array has a slot for every token, the empty ones included
      have hle := List.length_filter_le (fun token : Sds => token.length ≠ 0) argv
      rw [copyTokens_eq]
      refine SubClient.pushArgs_strays _ _ le_rfl ?_
      simp only [Argv.alloc, List.length_map]
      omega

end PubsubBroker

/-
Inline requests: what `process_inline_buffer` takes off the buffer for a line, and how its arguments
compare with those of the multibulk request for the same strings.

The parser accepts a line that LF ends as well as one that CRLF ends, but always trims two bytes more
than the line. Its tokens are copied with `strlen`, those of `process_multibulk_buffer` with the length
on the wire, and only the latter are checked against the limits.
-/
import PubsubBroker.Common.Repr
import PubsubBroker.Protocol.Termination
import PubsubBroker.Protocol.Consumed

namespace PubsubBroker

open CLang Numeral

/-! ## The line and its end -/

section
variable {c : SubClient} {line t rest : List UInt8} {argv : List Sds}

/-- The line is read whole and alone, whichever terminator ends it. -/
theorem readLine_line (hlf : LF ∉ line) (h0 : 0 ∉ line) (hcr : line.getLast? ≠ some CR)
    (hargv : sdssplitargs line = some argv) (ht : t = [LF] ∨ t = [CR, LF]) :
    readLine (line ++ t ++ rest) = .tokens argv line.length := by
  rcases ht with rfl | rfl
  · have hnl : strchr LF (line ++ [LF] ++ rest) = some line.length := by
      simpa using strchr_hit rest hlf h0
    have hend : lineEnd (line ++ [LF] ++ rest) line.length = line.length := by
      unfold lineEnd
      rw [if_neg]
      rintro ⟨hne, hlast⟩
      rw [List.append_assoc, List.getElem?_append_left (by omega)] at hlast
      rw [List.getLast?_eq_getElem?] at hcr
      exact hcr hlast
    unfold readLine
    rw [hnl]
    simp only [hend]
    rw [List.append_assoc, List.take_left, hargv]
  · exact readLine_encode hlf h0 hargv rest

/-- Behind a CRLF the trim of a buffer shorter than `2 ^ 31` leaves what follows. -/
theorem trim_crlf {buf : Sds} (hbuf : buf = line ++ [CR, LF] ++ rest) (hshort : buf.length < 2 ^ 31) :
    sdsrange buf (toInt (line.length + 2 : Nat)) (-1) = rest := by
  have hsplit : buf.length = line.length + 2 + rest.length := by
    rw [hbuf, List.length_append, List.length_append]
    rfl
  have hdrop : buf.drop (line.length + 2) = rest := by
    rw [hbuf, ← List.drop_drop, List.append_assoc, List.drop_left]
    rfl
  rw [toInt_of_lt (by omega) (by omega), sdsrange_drop hshort, hdrop]

/-- Behind an LF it takes one byte more, unless its index wraps: it leaves what follows only when that is
nothing. -/
theorem trim_lf_iff {buf : Sds} (hbuf : buf = line ++ [LF] ++ rest) (hshort : buf.length < 2 ^ 31) :
    sdsrange buf (toInt (line.length + 2 : Nat)) (-1) = rest ↔ rest = [] ∧ buf.length ≠ 2 ^ 31 - 1 := by
  have hsplit : buf.length = line.length + 1 + rest.length := by
    rw [hbuf, List.length_append, List.length_append]
    rfl
  by_cases hwrap : line.length + 2 = 2 ^ 31
  · -- the index of the byte behind the terminator is not an `int`, and nothing is trimmed
    have hmax : buf.length = 2 ^ 31 - 1 := by omega
    rw [hwrap, sdsrange_stalls hmax]
    constructor
    · intro h
      have := congrArg List.length h
      omega
    · rintro ⟨-, h⟩
      exact absurd hmax h
  · have hdrop : buf.drop (line.length + 2) = rest.drop 1 := by
      rw [hbuf, ← List.drop_drop, List.append_assoc, List.drop_left]
      rfl
    rw [toInt_of_lt (by omega) (by omega), sdsrange_drop hshort, hdrop]
    constructor
    · intro h
      have hrest : rest = [] := by
        rcases rest with - | ⟨b, rest⟩
        · rfl
        · simpa using congrArg List.length h
      rw [hrest, List.length_nil] at hsplit
      exact ⟨hrest, by omega⟩
    · rintro ⟨rfl, -⟩
      rfl

/-- The trim behind the line leaves what follows it when the terminator has two bytes and the length
is an `int`, or when nothing follows it and no index wraps. -/
theorem trim_line_iff {buf : Sds} (ht : t = [LF] ∨ t = [CR, LF]) (hbuf : buf = line ++ t ++ rest)
    (hlen : buf.length < 2 ^ 32) : sdsrange buf (toInt (line.length + 2 : Nat)) (-1) = rest ↔
      t = [CR, LF] ∧ (rest = [] ∨ buf.length < 2 ^ 31) ∨ t = [LF] ∧ rest = [] ∧ buf.length ≠ 2 ^ 31 - 1 := by
  have hne : [LF] ≠ [CR, LF] := by decide
  rcases Nat.lt_or_ge buf.length (2 ^ 31) with hshort | hlong
  · rcases ht with rfl | rfl
    · rw [trim_lf_iff hbuf hshort]
      simp only [hne, false_and, false_or, true_and]
    · refine iff_of_true (trim_crlf hbuf hshort) ?_
      exact .inl ⟨rfl, .inr hshort⟩
  · -- a length beyond `int` is negative, and everything is trimmed
    rw [sdsrange_of_negative hlong hlen]
    have hnotmax : buf.length ≠ 2 ^ 31 - 1 := by omega
    simp only [not_lt.2 hlong, hnotmax, or_false, ne_eq, not_false_eq_true, and_true]
    constructor
    · rintro rfl
      exact ht.symm.imp (⟨·, rfl⟩) (⟨·, rfl⟩)
    · rintro (⟨-, h⟩ | ⟨-, h⟩) <;> exact h.symm

/-- The call accepts the line `line` at the start of the buffer, splits exactly it, and leaves `rest`. -/
structure ConsumesLine (c : SubClient) (line rest : List UInt8) (argv : List Sds) : Prop where
  status : (processInlineBuffer c).1 = .ok
  splits : readLine c.readBuf = .tokens argv line.length
  args : (processInlineBuffer c).2.args = ((argv.filter (·.length ≠ 0)).map cstr).map some
  readBuf : (processInlineBuffer c).2.readBuf = rest

/-- A complete line is always accepted and split; only what is left of the buffer may be wrong. -/
theorem consumesLine_iff_trim (h : readLine c.readBuf = .tokens argv line.length) :
    ConsumesLine c line rest argv ↔ sdsrange c.readBuf (toInt (line.length + 2 : Nat)) (-1) = rest := by
  have hcall : processInlineBuffer c = (.ok, SubClient.pushArgs
      { c with readBuf := sdsrange c.readBuf (toInt (line.length + 2 : Nat)) (-1), argv := .alloc argv.length, argc := 0 }
      ((argv.filter (·.length ≠ 0)).map cstr)) := by
    unfold processInlineBuffer
    rw [h]
    simp only [copyTokens_eq]
  constructor
  · intro hc
    have := hc.readBuf
    rw [hcall] at this
    simpa using this
  · intro hrest
    refine ⟨by rw [hcall], h, ?_, ?_⟩
    · rw [hcall]
      exact SubClient.args_pushArgs _ _ rfl
    · rw [hcall, SubClient.pushArgs_readBuf, hrest]

/-- An inline request of a line without NUL and LF takes exactly its own line if it ends with CRLF; if
it ends with LF, only when nothing follows it, since one byte more is taken. -/
theorem inline_consumes_iff (hlf : LF ∉ line) (h0 : 0 ∉ line) (hcr : line.getLast? ≠ some CR)
    (hargv : sdssplitargs line = some argv) (ht : t = [LF] ∨ t = [CR, LF]) (hbuf : c.readBuf = line ++ t ++ rest)
    (hlen : c.readBuf.length < 2 ^ 32) : ConsumesLine c line rest argv ↔
      t = [CR, LF] ∧ (rest = [] ∨ c.readBuf.length < 2 ^ 31) ∨
        t = [LF] ∧ rest = [] ∧ c.readBuf.length ≠ 2 ^ 31 - 1 := by
  have hread : readLine c.readBuf = .tokens argv line.length := by
    rw [hbuf]
    exact readLine_line hlf h0 hcr hargv ht
  rw [consumesLine_iff_trim hread]
  exact trim_line_iff ht hbuf hlen

end

/-- A client that has received `PING` behind a line feed and `GET` behind it. -/
def bareNewline : SubClient := { zeroedClient 5 [] with readBuf := ascii "PING\nGET\r\n" }

theorem inline_consumes_bare_newline : ConsumesLine bareNewline (ascii "PING") (ascii "GET\r\n") [ascii "PING"] ↔
    [LF] = [CR, LF] ∧ (ascii "GET\r\n" = [] ∨ bareNewline.readBuf.length < 2 ^ 31) ∨
      [LF] = [LF] ∧ ascii "GET\r\n" = [] ∧ bareNewline.readBuf.length ≠ 2 ^ 31 - 1 :=
  inline_consumes_iff (by decide) (by decide) (by decide) (by decide) (.inl rfl) (by decide) (by decide)

/-- The `G` of the second line is lost. -/
theorem bareNewline_eats_byte : LF ∉ ascii "PING" ∧ 0 ∉ ascii "PING" ∧ (ascii "PING").getLast? ≠ some CR ∧
    sdssplitargs (ascii "PING") = some [ascii "PING"] ∧ bareNewline.readBuf = ascii "PING" ++ [LF] ++ ascii "GET\r\n" ∧
    (processInlineBuffer bareNewline).2.readBuf = ascii "ET\r\n" ∧
    ¬ ConsumesLine bareNewline (ascii "PING") (ascii "GET\r\n") [ascii "PING"] := by
  have hleft : (processInlineBuffer bareNewline).2.readBuf = ascii "ET\r\n" := by decide +kernel
  refine ⟨by decide, by decide, by decide, by decide, by decide, hleft, fun h => ?_⟩
  exact absurd (hleft.symm.trans h.readBuf) (by decide)

/-! ## Requests beyond the limits -/

/-- A count line is accepted for at most `SUB_READ_BUF_LEN` bulks. -/
theorem processMultibulkBuffer_argc_le {c : SubClient} (hm : c.multiBulkLen = 0) :
    (processMultibulkBuffer c).2.argc ≤ c.argc + SUB_READ_BUF_LEN := by
  rcases processMultibulkBuffer_cases c with ⟨-, p, -, heq⟩ | ⟨-, -, heq⟩ | ⟨-, ll, p, -, -, heq⟩ |
    ⟨-, ll, p, hread, hpos, heq⟩ | ⟨hne, -⟩
  · rw [heq]
    simp [setProtocolErr]
  · rw [heq]
    simp
  · rw [heq]
    simp
  · obtain ⟨args, bl, buf, rej, hle, -, hshape⟩ := multibulkLoop_shape ll.toNat p
      { c with multiBulkLen := ll.toNat, argv := .alloc ll.toNat } rfl
    have hmax := (readMultibulkLen_length hread).1
    rw [heq, hshape]
    simp only [SubClient.pushArgs_argc]
    omega
  · exact absurd hm hne

/-- A bulk that is longer than `MAX_BULK_LEN` is rejected at its header. -/
theorem multibulkLoop_tooLong {c : SubClient} {n pos : Nat} {arg : Sds} {rest : List UInt8}
    (hbuf : c.readBuf.drop pos = bulk arg ++ rest) (hlen : c.readBuf.length < 2 ^ 31 + 2) (hbl : c.bulkLen = -1)
    (harg : MAX_BULK_LEN < arg.length) : multibulkLoop (n + 1) pos c = (.err, setProtocolErr c pos) := by
  have hbound : arg.length ≤ c.readBuf.length := by
    have := congrArg List.length hbuf
    rw [List.length_drop, List.length_append, bulk, List.length_append, length_bulkBody] at this
    omega
  rw [bulk, List.append_assoc] at hbuf
  apply multibulkLoop_reject hbl
  rw [readBulkLen_header hbuf hlen (by omega), if_pos harg]

/-- The bulks before the first one that is too long are taken, and no more. -/
theorem multibulk_tooLong {c : SubClient} {pre post : List Sds} {arg : Sds} (hidle : c.Idle)
    (hbuf : c.readBuf = (Request.multibulk (pre ++ arg :: post)).encode) (hlen : c.readBuf.length < 2 ^ 31 + 2)
    (hn : (pre ++ arg :: post).length ≤ SUB_READ_BUF_LEN) (hpre : ∀ a ∈ pre, a.length ≤ MAX_BULK_LEN)
    (harg : MAX_BULK_LEN < arg.length) : (processMultibulkBuffer c).2.argc = pre.length := by
  rw [List.length_append, List.length_cons] at hn
  have hbuf' : c.readBuf = countLine (pre.length + (post.length + 1)) ++
      (pre.flatMap bulk ++ (bulk arg ++ post.flatMap bulk)) := by
    rw [hbuf, Request.encode, List.length_append, List.length_cons, List.flatMap_append, List.flatMap_cons]
  have hdrop : c.readBuf.drop ((countLine (pre.length + (post.length + 1))).length + (pre.flatMap bulk).length) =
      bulk arg ++ post.flatMap bulk := by
    rw [← List.drop_drop, hbuf', List.drop_left, List.drop_left]
  have hstop : ∀ c' : SubClient, c'.readBuf = c.readBuf → c'.bulkLen = -1 →
      (multibulkLoop (post.length + 1)
        ((countLine (pre.length + (post.length + 1))).length + (pre.flatMap bulk).length) c').2.argc = c'.argc := by
    intro c' hread hbl
    rw [multibulkLoop_tooLong (hread ▸ hdrop) (hread ▸ hlen) hbl harg]
    rfl
  rw [processMultibulkBuffer_skip hidle.multiBulkLen hidle.bulkLen hbuf' (by omega) hn hpre hlen]
  refine (hstop _ ?_ ?_).trans ?_
  · rfl
  · rfl
  · simp only [SubClient.pushArgs_argc, hidle.argc, zero_add]

/-- From here on no line is ever complete: it is waited for, or rejected if it has no carriage return. -/
theorem readMultibulkLen_long {buf : Sds} (h : 2 ^ 31 + 2 ≤ buf.length) (h' : buf.length < 2 ^ 32) :
    readMultibulkLen buf = if strchr CR buf = none then .reject 0 else .wait := by
  have hneg := crLimit_of_long h h'
  unfold readMultibulkLen
  cases strchr CR buf with
  | none => simp only [if_true]; rw [if_pos (by unfold MAX_INLINE_READ; omega)]
  | some newline => simp only; rw [if_pos (by omega), if_neg (by simp)]

/-- A request beyond the limits never gets all its arguments: it is refused at the count line or at the
first bulk that is too long. -/
theorem multibulk_beyond {c : SubClient} {args : List Sds} (hidle : c.Idle) (hne : args ≠ [])
    (hbuf : c.readBuf = (Request.multibulk args).encode) (hlen : c.readBuf.length < 2 ^ 32)
    (hlim : ¬ (args.length ≤ SUB_READ_BUF_LEN ∧ ∀ arg ∈ args, arg.length ≤ MAX_BULK_LEN)) :
    (processMultibulkBuffer c).2.argc < args.length := by
  have hpos : 0 < args.length := List.length_pos_iff.2 hne
  by_cases hn : args.length ≤ SUB_READ_BUF_LEN
  · rcases Nat.lt_or_ge c.readBuf.length (2 ^ 31 + 2) with hshort | hlong
    · have hsome : (args.find? (MAX_BULK_LEN < ·.length)).isSome := by
        rw [List.find?_isSome]
        by_contra hnone
        push Not at hnone
        exact hlim ⟨hn, fun arg harg => by simpa using hnone arg harg⟩
      -- the first bulk that is too long stops the loop
      obtain ⟨arg, hfind⟩ := Option.isSome_iff_exists.1 hsome
      obtain ⟨harg, pre, post, rfl, hpre⟩ := List.find?_eq_some_iff_append.1 hfind
      rw [multibulk_tooLong hidle hbuf hshort hn (fun a ha => by simpa using hpre a ha) (by simpa using harg),
        List.length_append, List.length_cons]
      omega
    · -- a buffer whose length is no `int` is not read at all
      have hstop : (processMultibulkBuffer c).2.argc = c.argc := by
        unfold processMultibulkBuffer
        rw [if_pos hidle.multiBulkLen, readMultibulkLen_long hlong hlen]
        by_cases hcr : strchr CR c.readBuf = none
        · rw [if_pos hcr]
          rfl
        · rw [if_neg hcr]
      rw [hstop, hidle.argc]
      omega
  · have := processMultibulkBuffer_argc_le hidle.multiBulkLen
    rw [hidle.argc] at this
    omega

/-! ## Two encodings of the same arguments -/

/-- What the quoted arguments on a line are parsed into. -/
def inlineParse (c : SubClient) (args : List Sds) : SubClient :=
  (processInlineBuffer { c with readBuf := reprLine args ++ [CR, LF] }).2

/-- What the multibulk request for the arguments is parsed into. -/
def multibulkParse (c : SubClient) (args : List Sds) : SubClient :=
  (processMultibulkBuffer { c with readBuf := (Request.multibulk args).encode }).2

section
variable {c : SubClient} {args : List Sds}

/-- A line gives its arguments back up to their first NUL. -/
theorem inlineParse_args (hargs : ∀ arg ∈ args, arg ≠ []) :
    (inlineParse c args).argc = args.length ∧ (inlineParse c args).args = (args.map cstr).map some := by
  obtain ⟨h0, hlf⟩ := reprLine_clean args
  have hread : readLine (reprLine args ++ [CR, LF]) = .tokens args (reprLine args).length := by
    simpa using readLine_encode hlf h0 (sdssplitargs_reprLine args) []
  have hkeep : args.filter (·.length ≠ 0) = args := by
    rw [List.filter_eq_self]
    intro arg harg
    simpa using hargs arg harg
  unfold inlineParse processInlineBuffer
  simp only [hread, copyTokens_eq, hkeep]
  refine ⟨?_, SubClient.args_pushArgs _ _ rfl⟩
  rw [SubClient.pushArgs_argc, List.length_map, zero_add]

theorem multibulkParse_args (hidle : c.Idle) (hne : args ≠ []) (hn : args.length ≤ SUB_READ_BUF_LEN)
    (hargs : ∀ arg ∈ args, arg.length ≤ MAX_BULK_LEN) :
    (multibulkParse c args).argc = args.length ∧ (multibulkParse c args).args = args.map some := by
  have hwf : (Request.multibulk args).WellFormed := ⟨List.length_pos_iff.2 hne, hn, hargs⟩
  have hrest : (Request.multibulk args).encode = (Request.multibulk args).encode ++ [] := (List.append_nil _).symm
  have hcall := processMultibulkBuffer_encode (c := { c with readBuf := (Request.multibulk args).encode })
    hwf hidle.multiBulkLen hidle.bulkLen hrest (Request.length_multibulk_lt hwf)
  unfold multibulkParse
  rw [hcall]
  refine ⟨?_, SubClient.args_pushArgs _ _ hidle.argc⟩
  simp only [SubClient.pushArgs_argc, hidle.argc, zero_add]

theorem multibulkParse_beyond (hidle : c.Idle) (hne : args ≠ []) (hlen : (Request.multibulk args).encode.length < 2 ^ 32)
    (hlim : ¬ (args.length ≤ SUB_READ_BUF_LEN ∧ ∀ arg ∈ args, arg.length ≤ MAX_BULK_LEN)) :
    (multibulkParse c args).argc < args.length :=
  multibulk_beyond (c := { c with readBuf := (Request.multibulk args).encode })
    ⟨hidle.argc, hidle.multiBulkLen, hidle.bulkLen⟩ hne rfl hlen hlim

/-- The two parsers agree on the arguments exactly when these are within the limits of a multibulk
request and none of them contains a NUL. -/
theorem parses_agree_iff (hidle : c.Idle) (hne : args ≠ []) (hargs : ∀ arg ∈ args, arg ≠ [])
    (hlen : (Request.multibulk args).encode.length < 2 ^ 32) :
    ((inlineParse c args).argc = (multibulkParse c args).argc ∧ (inlineParse c args).args = (multibulkParse c args).args) ↔
      (args.length ≤ SUB_READ_BUF_LEN ∧ ∀ arg ∈ args, arg.length ≤ MAX_BULK_LEN) ∧ ∀ arg ∈ args, 0 ∉ arg := by
  obtain ⟨hargc, hinline⟩ := inlineParse_args (c := c) hargs
  by_cases hlim : args.length ≤ SUB_READ_BUF_LEN ∧ ∀ arg ∈ args, arg.length ≤ MAX_BULK_LEN
  · obtain ⟨hargc', hmulti⟩ := multibulkParse_args hidle hne hlim.1 hlim.2
    have hcopy : args.map cstr = args.map id ↔ ∀ arg ∈ args, 0 ∉ arg := by
      rw [List.map_inj_left]
      exact forall₂_congr fun arg _ => cstr_eq_self
    rw [hargc, hargc', hinline, hmulti, (List.map_injective_iff.2 (Option.some_injective _)).eq_iff, ← hcopy,
      List.map_id]
    simp only [true_and, and_iff_right hlim]
  · have hless := multibulkParse_beyond hidle hne hlen hlim
    constructor
    · rintro ⟨h, -⟩
      rw [hargc] at h
      omega
    · rintro ⟨h, -⟩
      exact absurd h hlim

/-- On arguments without a NUL the two parsers agree within the limits of a multibulk request; beyond
them only the inline request is accepted. -/
theorem inline_multibulk_agree (hidle : c.Idle) (hne : args ≠ []) (hargs : ∀ arg ∈ args, arg ≠ [])
    (hnul : ∀ arg ∈ args, 0 ∉ arg) (hlen : (Request.multibulk args).encode.length < 2 ^ 32) :
    ((inlineParse c args).argc = (multibulkParse c args).argc ∧ (inlineParse c args).args = (multibulkParse c args).args) ↔
      args.length ≤ SUB_READ_BUF_LEN ∧ ∀ arg ∈ args, arg.length ≤ MAX_BULK_LEN := by
  rw [parses_agree_iff hidle hne hargs hlen, and_iff_left hnul]

end

theorem inline_multibulk_agree_quoted :
    ((inlineParse (zeroedClient 5 []) [ascii "sub", ascii "a \"
"]).argc =
        (multibulkParse (zeroedClient 5 []) [ascii "sub", ascii "a \"
"]).argc ∧
      (inlineParse (zeroedClient 5 []) [ascii "sub", ascii "a \"
"]).args =
        (multibulkParse (zeroedClient 5 []) [ascii "sub", ascii "a \"
"]).args) ↔
      [ascii "sub", ascii "a \"
"].length ≤ SUB_READ_BUF_LEN ∧
        ∀ arg ∈ [ascii "sub", ascii "a \"
"], arg.length ≤ MAX_BULK_LEN :=
  inline_multibulk_agree ⟨rfl, rfl, rfl⟩ (by decide) (by decide) (by decide) (by decide)

/-- An argument of one byte more than `MAX_BULK_LEN`. -/
def longArg : Sds := List.replicate (MAX_BULK_LEN + 1) 97

theorem length_longArg : longArg.length = MAX_BULK_LEN + 1 := List.length_replicate

/-- The long argument is accepted on a line and refused as a bulk, and one with a NUL is cut there on a
line only. -/
theorem inline_multibulk_differ : (zeroedClient 5 []).Idle ∧
    (inlineParse (zeroedClient 5 []) [longArg]).argc = 1 ∧ (multibulkParse (zeroedClient 5 []) [longArg]).argc < 1 ∧
    (inlineParse (zeroedClient 5 []) [[97, 0, 98]]).args = [some [97]] ∧
    (multibulkParse (zeroedClient 5 []) [[97, 0, 98]]).args = [some [97, 0, 98]] := by
  have hidle : (zeroedClient 5 []).Idle := ⟨rfl, rfl, rfl⟩
  have hne : ∀ arg ∈ [longArg], arg ≠ [] := by
    intro arg harg hnil
    rw [List.mem_singleton.1 harg] at hnil
    exact absurd (hnil ▸ length_longArg) (by decide)
  have hlen : (Request.multibulk [longArg]).encode.length < 2 ^ 32 := by
    have hdec : (decimal longArg.length).length ≤ 5 := length_decimal_le (by omega) (by rw [length_longArg]; decide)
    have hone : (decimal [longArg].length).length ≤ 5 := length_decimal_le (by omega) (by decide)
    rw [Request.encode, List.length_append, length_countLine, List.flatMap_singleton, bulk, List.length_append,
      length_bulkHeader, length_bulkBody]
    rw [length_longArg] at *
    unfold MAX_BULK_LEN at *
    omega
  have hlim : ¬ ([longArg].length ≤ SUB_READ_BUF_LEN ∧ ∀ arg ∈ [longArg], arg.length ≤ MAX_BULK_LEN) := by
    intro hlim
    have := hlim.2 longArg (List.mem_singleton_self _)
    rw [length_longArg] at this
    omega
  have hbeyond := multibulkParse_beyond hidle (List.cons_ne_nil _ _) hlen hlim
  rw [List.length_singleton] at hbeyond
  exact ⟨hidle, (inlineParse_args hne).1, hbeyond, (inlineParse_args (by decide)).2,
    (multibulkParse_args hidle (by decide) (by decide) (by decide)).2⟩

end PubsubBroker

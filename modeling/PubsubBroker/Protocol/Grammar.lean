/-
What `process_multibulk_buffer` accepts. The numbers on the header lines are checked digit by digit,
the two bytes behind a header or a body are stepped over: `accepts_grammar_iff` says that an accepted
request is an encoding exactly when they are line ends, and the length of the buffer is an `int`.
-/
import PubsubBroker.Protocol.Inline

namespace PubsubBroker

open CLang Numeral

/-! ## The bytes that are stepped over -/

/-- The two bytes before the offset `pos`. -/
def lineEndBefore (buf : Sds) (pos : Nat) : List UInt8 := (buf.drop (pos - 2)).take 2

/-- The places of the line ends of `n` bulks from `pos` on: behind every header and every body. -/
def bulkLineEnds (buf : Sds) : Nat → Nat → List (List UInt8)
  | 0, _ => []
  | n + 1, pos =>
    match readBulkLen buf pos with
    | .length ll p =>
      lineEndBefore buf p :: lineEndBefore buf (p + (ll + 2).toNat) :: bulkLineEnds buf n (p + (ll + 2).toNat)
    | _ => []

/-- What stands in the places of the line ends of the request at the start of the buffer. -/
def requestLineEnds (buf : Sds) : List (List UInt8) :=
  match readMultibulkLen buf with
  | .length ll p => lineEndBefore buf p :: bulkLineEnds buf ll.toNat p
  | _ => []

theorem lineEndBefore_eq {buf l rest : List UInt8} {pos p : Nat} {x y : UInt8}
    (hbuf : buf.drop pos = l ++ [x, y] ++ rest) (hp : p = pos + l.length + 2) : lineEndBefore buf p = [x, y] := by
  have hdrop : buf.drop (p - 2) = [x, y] ++ rest := by
    rw [hp, Nat.add_sub_cancel, ← List.drop_drop, hbuf, List.append_assoc, List.drop_left]
  rw [lineEndBefore, hdrop]
  rfl

theorem lineEndBefore_headerLine {buf rest : List UInt8} (pos : Nat) {p : Nat} {b x : UInt8} {ll : Int}
    (hbuf : buf.drop pos = headerLine b ll x ++ rest) (hp : p = pos + (headerLine b ll x).length) :
    lineEndBefore buf p = [CR, x] := by
  rw [length_headerLine] at hp
  rw [headerLine] at hbuf
  exact lineEndBefore_eq hbuf (by rw [hp, List.length_cons]; omega)

/-! ## Accepted requests -/

/-- A bulk with any bytes behind its header and its body is an encoded one exactly when these are line
ends. -/
theorem eq_bulk_append_iff (arg w w' : List UInt8) (x y z : UInt8) :
    headerLine 36 arg.length x ++ (arg ++ [y, z] ++ w) = bulk arg ++ w' ↔
      [CR, x] = [CR, LF] ∧ [y, z] = [CR, LF] ∧ w = w' := by
  have hhead : headerLine 36 arg.length x = 36 :: decimal arg.length ++ [CR, x] := by
    rw [headerLine, decimalInt_natCast]
  rw [hhead, bulk, bulkHeader, bulkBody]
  simp only [List.append_assoc, List.append_cancel_left_eq, List.cons_append, List.nil_append, List.cons.injEq,
    true_and, and_true, and_assoc]

/-- What the bulk loop takes when it succeeds, and when that is the encoding of the arguments. -/
theorem multibulkLoop_accepts : ∀ (n pos : Nat) {c c' : SubClient}, c.readBuf.length < 2 ^ 31 → c.bulkLen = -1 →
    c.multiBulkLen = n → pos ≤ c.readBuf.length → multibulkLoop n pos c = (.ok, c') →
    ∃ w args, c.readBuf.drop pos = w ++ c'.readBuf ∧ args.length = n ∧ c'.argv = (c.pushArgs args).argv ∧
      c'.argc = (c.pushArgs args).argc ∧
      (w = args.flatMap bulk ↔ ∀ e ∈ bulkLineEnds c.readBuf n pos, e = [CR, LF])
  | 0, pos, c, c', hlen, _, _, _, h => by
    rw [multibulkLoop, trimTo_eq hlen] at h
    cases h
    exact ⟨[], [], rfl, rfl, rfl, rfl, by simp [bulkLineEnds]⟩
  | n + 1, pos, c, c', hlen, hbl, hn, hpos, h => by
    rcases multibulkLoop_cases n pos c with
      ⟨p, -, -, heq⟩ | ⟨-, -, heq⟩ | ⟨ll, p, -, -, heq⟩ | ⟨ll, p, hb, hfull, heq⟩ <;> rw [heq] at h
    · cases h
    · cases h
    · cases h
    · obtain ⟨h0, hmax, hp, hple⟩ := hb.range ⟨by omega, by rw [hbl]; omega⟩ hpos
      rw [toUInt_of_lt (by omega) (by simp only [MAX_BULK_LEN] at hmax; omega)] at hfull
      unfold BodyAt at hb
      rw [if_pos hbl] at hb
      obtain ⟨x, hline, hplen⟩ := readBulkLen_line hb
      obtain ⟨l, rfl⟩ := Int.eq_ofNat_of_zero_le h0
      simp only [Int.toNat_natCast, show ((l : Int) + 2).toNat = l + 2 by omega] at hfull h
      -- the two bytes behind the body are taken whatever they are
      obtain ⟨y, z, hbody⟩ := drop_body hfull
      obtain ⟨w, args, hbuf, hargs, hargv, hargc, hiff⟩ := multibulkLoop_accepts n (p + (l + 2))
        (c := { c.pushArg ((c.readBuf.drop p).take l) with bulkLen := -1, multiBulkLen := n }) hlen rfl rfl
        (by change _ ≤ c.readBuf.length; omega) h
      have hbuf : c.readBuf.drop (p + (l + 2)) = w ++ c'.readBuf := hbuf
      have hiff : w = args.flatMap bulk ↔ ∀ e ∈ bulkLineEnds c.readBuf n (p + (l + 2)), e = [CR, LF] := hiff
      have harg : ((c.readBuf.drop p).take l).length = l := by
        rw [List.length_take, List.length_drop]
        omega
      refine ⟨headerLine 36 l x ++ ((c.readBuf.drop p).take l ++ [y, z] ++ w), (c.readBuf.drop p).take l :: args,
        ?_, by rw [List.length_cons, hargs], ?_, ?_, ?_⟩
      · rw [List.append_assoc, List.append_assoc _ w, ← hbuf, ← hbody]
        exact hline
      · rw [hargv, SubClient.pushArgs_update _ args n (-1) _, SubClient.pushArgs_cons]
      · rw [hargc, SubClient.pushArgs_update _ args n (-1) _, SubClient.pushArgs_cons]
      · -- this header and body have one line end each
        have hends : bulkLineEnds c.readBuf (n + 1) pos = [CR, x] :: [y, z] :: bulkLineEnds c.readBuf n (p + (l + 2)) := by
          rw [bulkLineEnds, hb]
          simp only [show ((l : Int) + 2).toNat = l + 2 by omega]
          rw [lineEndBefore_headerLine pos hline hplen, lineEndBefore_eq hbody (by rw [harg]; omega)]
        have hbulk := eq_bulk_append_iff ((c.readBuf.drop p).take l) w (args.flatMap bulk) x y z
        rw [harg] at hbulk
        rw [List.flatMap_cons, hbulk, hiff, hends, List.forall_mem_cons, List.forall_mem_cons]

theorem processMultibulkBuffer_of_ok {c : SubClient} (h : (processMultibulkBuffer c).1 = .ok) :
    processMultibulkBuffer c = (.ok, (processMultibulkBuffer c).2) := Prod.ext h rfl

/-- The bytes that a call has removed, and the arguments it has produced, are a request of the grammar:
a count line of zero or a negative number and no arguments, or the encoding of the arguments. -/
def RemovesRequest (c c' : SubClient) : Prop :=
  ∃ w args, c.readBuf = w ++ c'.readBuf ∧ c'.args = args.map some ∧
    ((args = [] ∧ ∃ k ≤ (0 : Int), w = 42 :: decimalInt k ++ [CR, LF]) ∨ w = (Request.multibulk args).encode)

/-- The removed bytes and the arguments are determined by what the call leaves. -/
theorem removesRequest_iff {c c' : SubClient} {w : List UInt8} {args : List Sds} (hbuf : c.readBuf = w ++ c'.readBuf)
    (hargs : c'.args = args.map some) : RemovesRequest c c' ↔
      (args = [] ∧ ∃ k ≤ (0 : Int), w = 42 :: decimalInt k ++ [CR, LF]) ∨ w = (Request.multibulk args).encode := by
  constructor
  · rintro ⟨w', args', hbuf', hargs', h⟩
    obtain rfl : w = w' := List.append_cancel_right (hbuf.symm.trans hbuf')
    obtain rfl : args = args' := List.map_injective_iff.2 (Option.some_injective _) (hargs.symm.trans hargs')
    exact h
  · intro h
    exact ⟨w, args, hbuf, hargs, h⟩

theorem lineEnd_of_headerLine {b x : UInt8} {ll : Int} {l : List UInt8} (h : headerLine b ll x = l ++ [CR, LF]) :
    [CR, x] = [CR, LF] := (List.append_inj' h rfl).2

theorem headerLine_append_eq_iff {n : Nat} {x : UInt8} {w w' : List UInt8} :
    headerLine 42 n x ++ w = countLine n ++ w' ↔ [CR, x] = [CR, LF] ∧ w = w' := by
  rw [headerLine, countLine, decimalInt_natCast]
  simp only [List.append_assoc, List.append_cancel_left_eq, List.cons_append, List.nil_append, List.cons.injEq,
    true_and, and_true]

/-- A count line of zero or a negative number: it is all that is removed. -/
theorem removesRequest_empty_iff {c : SubClient} {ll : Int} {p : Nat} (hidle : c.Idle)
    (hstar : c.readBuf.head? = some 42) (hshort : c.readBuf.length < 2 ^ 31)
    (hr : readMultibulkLen c.readBuf = .length ll p) (hll : ll ≤ 0) :
    RemovesRequest c { c with readBuf := sdsrange c.readBuf p (-1) } ↔ ∀ e ∈ requestLineEnds c.readBuf, e = [CR, LF] := by
  obtain ⟨b, x, hline, hp, hhead, -⟩ := readMultibulkLen_line hr
  obtain rfl := Option.some.inj (hhead.symm.trans hstar)
  have hargs : ({ c with readBuf := sdsrange c.readBuf p (-1) } : SubClient).args = ([] : List Sds).map some := by
    unfold SubClient.args
    rw [hidle.argc]
    rfl
  have hbuf : c.readBuf = headerLine 42 ll x ++ sdsrange c.readBuf p (-1) := by
    rw [sdsrange_drop hshort]
    exact hline
  have hends : requestLineEnds c.readBuf = [[CR, x]] := by
    rw [requestLineEnds, hr]
    simp only
    rw [lineEndBefore_headerLine 0 hline (by omega), show ll.toNat = 0 by omega, bulkLineEnds]
  rw [removesRequest_iff hbuf hargs, hends, List.forall_mem_singleton]
  constructor
  · rintro (⟨-, k, -, hw⟩ | hw)
    · exact lineEnd_of_headerLine hw
    · exact lineEnd_of_headerLine (l := 42 :: decimal 0) hw
  · intro hx
    exact .inl ⟨rfl, ll, hll, by rw [headerLine, hx]⟩

/-- A count line of a positive number: the bulks behind it are removed with it. -/
theorem removesRequest_bulks_iff {c c' : SubClient} {n p : Nat} (hidle : c.Idle) (hstar : c.readBuf.head? = some 42)
    (hshort : c.readBuf.length < 2 ^ 31) (hr : readMultibulkLen c.readBuf = .length n p) (hpos : 0 < n)
    (hok : multibulkLoop n p { c with multiBulkLen := n, argv := .alloc n } = (.ok, c')) :
    RemovesRequest c c' ↔ ∀ e ∈ requestLineEnds c.readBuf, e = [CR, LF] := by
  obtain ⟨b, x, hline, hp, hhead, -⟩ := readMultibulkLen_line hr
  obtain rfl := Option.some.inj (hhead.symm.trans hstar)
  obtain ⟨-, -, hple⟩ := readMultibulkLen_length hr
  obtain ⟨w, args, hbuf, hn, hargv, hargc, hiff⟩ := multibulkLoop_accepts n p
    (c := { c with multiBulkLen := n, argv := .alloc n }) hshort hidle.bulkLen rfl hple hok
  have hargs : c'.args = args.map some := by
    rw [← SubClient.args_pushArgs { c with multiBulkLen := n, argv := .alloc n } args hidle.argc]
    unfold SubClient.args
    rw [hargv, hargc]
  have hbuf : c.readBuf = headerLine 42 n x ++ w ++ c'.readBuf := by
    rw [List.append_assoc, ← hbuf]
    exact hline
  have hends : requestLineEnds c.readBuf = [CR, x] :: bulkLineEnds c.readBuf n p := by
    rw [requestLineEnds, hr]
    simp only [Int.toNat_natCast]
    rw [lineEndBefore_headerLine 0 hline (by omega)]
  rw [removesRequest_iff hbuf hargs, hends, List.forall_mem_cons, ← hiff, Request.encode, hn, headerLine_append_eq_iff]
  constructor
  · -- a positive count is not that of a request without arguments
    rintro (⟨rfl, -⟩ | h)
    · rw [List.length_nil] at hn
      omega
    · exact h
  · exact .inr

theorem strchr_headerLine {b : UInt8} (hb : b ≠ CR ∧ b ≠ 0) (ll : Int) (x : UInt8) (rest : List UInt8) :
    strchr CR (headerLine b ll x ++ rest) = some ((decimalInt ll).length + 1) := by
  have hnum (y : UInt8) (hy : ¬ IsDigit y) (h45 : y ≠ 45) (hne : b ≠ y) : y ∉ b :: decimalInt ll := by
    refine List.not_mem_cons_of_ne_of_not_mem (Ne.symm hne) ?_
    unfold decimalInt
    split
    · exact List.not_mem_cons_of_ne_of_not_mem h45 (notMem_decimal _ hy)
    · exact notMem_decimal _ hy
  have hhit := strchr_hit (x :: rest) (hnum CR not_isDigit_CR (by decide) hb.1) (hnum 0 not_isDigit_zero (by decide) hb.2)
  rw [List.length_cons] at hhit
  rw [← hhit, headerLine, List.append_assoc]
  rfl

/-- A request that is accepted in a buffer of `2 ^ 31` bytes or more is none of the grammar: the whole buffer is
removed, which is longer than any request within the limits. -/
theorem not_removesRequest_long {c c' : SubClient} (hidle : c.Idle) (hlong : 2 ^ 31 ≤ c.readBuf.length)
    (hlen : c.readBuf.length < 2 ^ 32) (hok : processMultibulkBuffer c = (.ok, c')) : ¬ RemovesRequest c c' := by
  obtain ⟨ll, p, hr, hempty⟩ : ∃ ll p, readMultibulkLen c.readBuf = .length ll p ∧ c'.readBuf = [] := by
    rcases processMultibulkBuffer_cases c with
      ⟨-, p, -, heq⟩ | ⟨-, -, heq⟩ | ⟨-, ll, p, hr, hll, heq⟩ | ⟨-, ll, p, hr, hll, heq⟩ | ⟨hm, -⟩
    · cases heq.symm.trans hok
    · cases heq.symm.trans hok
    · cases heq.symm.trans hok
      exact ⟨ll, p, hr, sdsrange_of_negative hlong hlen p⟩
    · have hp := (readMultibulkLen_length hr).2.1
      have hloop := multibulkLoop_long ll.toNat p (c := { c with multiBulkLen := ll.toNat, argv := .alloc ll.toNat }) hlong hlen
        (by omega)
      rw [← heq, hok] at hloop
      exact ⟨ll, p, hr, hloop⟩
    · exact absurd hidle.multiBulkLen hm
  rintro ⟨w, args, hbuf, hargs, hw⟩
  rw [hempty, List.append_nil] at hbuf
  rcases hw with ⟨-, k, -, rfl⟩ | rfl
  · -- the count line that has been read is the whole buffer
    obtain ⟨b, x, hline, -, hhead, hb⟩ := readMultibulkLen_line hr
    have hnum := length_decimalInt_le (k := 19) (by decide) (n := ll)
      (by have := readMultibulkLen_ge hr; have := (readMultibulkLen_length hr).1; simp only [SUB_READ_BUF_LEN] at this; omega)
    have hcr := strchr_headerLine hb ll x (c.readBuf.drop p)
    have hcr' := strchr_headerLine (b := 42) (by decide) k LF []
    rw [List.append_nil, headerLine, ← hbuf] at hcr'
    rw [← hline, hcr', Option.some.injEq] at hcr
    rw [hbuf, List.length_append, List.length_cons] at hlong
    simp only [List.length_cons, List.length_nil] at hlong
    omega
  · have hne : args ≠ [] := by
      rintro rfl
      rw [hbuf, show (Request.multibulk []).encode.length = 4 by decide] at hlong
      omega
    have hargc : c'.argc.toNat = args.length := by
      have hlist := congrArg List.length hargs
      rwa [SubClient.args, List.length_map, List.length_map, List.length_range] at hlist
    -- beyond the limits not all of the arguments are read
    have hlim : args.length ≤ SUB_READ_BUF_LEN ∧ ∀ arg ∈ args, arg.length ≤ MAX_BULK_LEN := by
      by_contra hlim
      have hpos := List.length_pos_iff.2 hne
      have hless := multibulk_beyond hidle hne hbuf hlen hlim
      rw [hok] at hless
      simp only at hless
      omega
    have hshort := Request.length_multibulk_lt ⟨List.length_pos_iff.2 hne, hlim.1, hlim.2⟩
    rw [hbuf] at hlong
    omega

/-- A request that a call on an idle client accepts is one of the grammar exactly when the bytes in the
places of its line ends are line ends, and the length of the buffer is an `int`. -/
theorem accepts_grammar_iff {c c' : SubClient} (hidle : c.Idle) (hstar : c.readBuf.head? = some 42)
    (hlen : c.readBuf.length < 2 ^ 32) (hok : processMultibulkBuffer c = (.ok, c')) :
    RemovesRequest c c' ↔ c.readBuf.length < 2 ^ 31 ∧ ∀ e ∈ requestLineEnds c.readBuf, e = [CR, LF] := by
  rcases Nat.lt_or_ge c.readBuf.length (2 ^ 31) with hshort | hlong
  · rw [and_iff_right hshort]
    rcases processMultibulkBuffer_cases c with
      ⟨-, p, -, heq⟩ | ⟨-, -, heq⟩ | ⟨-, ll, p, hr, hll, heq⟩ | ⟨-, ll, p, hr, hll, heq⟩ | ⟨hm, -⟩
    · rw [heq] at hok
      cases hok
    · rw [heq] at hok
      cases hok
    · rw [heq] at hok
      obtain ⟨-, rfl⟩ := Prod.mk.inj hok
      exact removesRequest_empty_iff hidle hstar hshort hr hll
    · obtain ⟨n, rfl⟩ := Int.eq_ofNat_of_zero_le hll.le
      rw [heq] at hok
      exact removesRequest_bulks_iff hidle hstar hshort hr (by omega) hok
    · exact absurd hidle.multiBulkLen hm
  · exact iff_of_false (not_removesRequest_long hidle hlong hlen hok) fun h => absurd h.1 (not_lt.2 hlong)

theorem accepts_grammar_ping :
    let c := { zeroedClient 5 [] with readBuf := ascii "*1\r\n$4\r\nPING\r\nrest" }
    RemovesRequest c (processMultibulkBuffer c).2 ↔
      c.readBuf.length < 2 ^ 31 ∧ ∀ e ∈ requestLineEnds c.readBuf, e = [CR, LF] := by
  intro c
  have hok : (processMultibulkBuffer c).1 = .ok := by decide
  exact accepts_grammar_iff ⟨rfl, rfl, rfl⟩ rfl (by decide) (processMultibulkBuffer_of_ok hok)

/-- A payload without a line end: its two bytes are taken off the bytes that follow it. -/
theorem swallowed_bytes :
    let c := { zeroedClient 5 [] with readBuf := ascii "*1\r\n$4\r\nPINGxyz" }
    c.Idle ∧ c.readBuf.head? = some 42 ∧ (processMultibulkBuffer c).1 = .ok ∧ (processMultibulkBuffer c).2.readBuf = ascii "z" ∧
      (processMultibulkBuffer c).2.args = [some (ascii "PING")] ∧ ¬ RemovesRequest c (processMultibulkBuffer c).2 := by
  intro c
  have hargs : (processMultibulkBuffer c).2.args = [ascii "PING"].map some := by decide
  have hbuf : c.readBuf = ascii "*1\r\n$4\r\nPINGxy" ++ (processMultibulkBuffer c).2.readBuf := by decide
  refine ⟨⟨rfl, rfl, rfl⟩, rfl, by decide, by decide, hargs, ?_⟩
  rw [removesRequest_iff hbuf hargs]
  rintro (⟨h, -⟩ | h)
  · cases h
  · exact absurd h (by decide)

end PubsubBroker

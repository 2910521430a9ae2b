/-
A stream of requests cut into reads. A parser that stops inside a request leaves it to the next read
to go on, but the loop executes whatever `argv` holds by then and the next read guesses the request
type from the first byte that is left. A cut is harmless where neither can go wrong (`CleanRead`), and
then every read executes exactly the requests that end in it.
-/
import PubsubBroker.Protocol.Pipeline

namespace PubsubBroker

open CLang Numeral

/-! ## Requests cut by a read -/

/-- Where the first bulk of a multibulk request has been announced and `k` bytes of its body and line
end are in the buffer. -/
structure FirstBody (c : SubClient) (args : List Sds) (arg : Sds) (k : Nat) : Prop where
  multiBulkLen : c.multiBulkLen = args.length + 1
  bulkLen : c.bulkLen = arg.length
  argc : c.argc = 0
  readBuf : c.readBuf = (bulkBody arg).take k

/-- A cut line is waited for. -/
theorem processRequest_cut_line {c : SubClient} {args : List Sds} {line : List UInt8} {off : Nat}
    (hwf : (Request.inline line).WellFormed) (hc : Holding c args ((Request.inline line).encode.take off))
    (h0 : 0 < off) (hoff : off < (Request.inline line).encode.length) (hlen : off < 2 ^ 31) :
    ∃ c', processRequest c = (.err, c') ∧ Holding c' args ((Request.inline line).encode.take off) := by
  obtain ⟨hlf, -, h42, -⟩ := hwf
  have hfull : (Request.inline line).encode = (line ++ [CR]) ++ [LF] := by simp [Request.encode]
  have hcut : (Request.inline line).encode.take off = (line ++ [CR]).take off := by
    rw [hfull] at hoff ⊢
    rw [List.take_append_of_le_length]
    rw [List.length_append, List.length_singleton] at hoff
    omega
  -- the cut has left the line feed behind, which is the only one
  have hnl : LF ∉ c.readBuf := by
    rw [hc.readBuf, hcut]
    intro hmem
    have := List.mem_of_mem_take hmem
    simp only [List.mem_append, List.mem_singleton] at this
    exact this.elim hlf (by decide)
  have hhead : c.readBuf.head? ≠ some 42 := by
    rw [hc.readBuf, hcut, List.head?_take, if_neg (by omega)]
    cases line with
    | nil => exact fun h => absurd (Option.some.inj h) (by decide)
    | cons b line => simpa using h42
  have hbuf : c.readBuf.length < 2 ^ 31 := by
    rw [hc.readBuf, List.length_take]
    omega
  rw [processRequest_eq, if_neg hhead]
  unfold processInlineBuffer readLine
  simp only [strchr_none_of_notMem hnl]
  -- also a line that is rejected for its length stays as it is, so it is read again with the rest
  by_cases hbig : c.readBuf.length > SUB_READ_BUF_LEN
  · simp only [if_pos hbig]
    refine ⟨_, rfl, hc.multiBulkLen, hc.bulkLen, hc.argc, hc.held, ?_⟩
    rw [setProtocolErr_eq (c := { c with reqType := REQ_INLINE }) hbuf]
    exact hc.readBuf
  · simp only [if_neg hbig]
    exact ⟨_, rfl, hc.multiBulkLen, hc.bulkLen, hc.argc, hc.held, hc.readBuf⟩

/-- A cut count line is waited for. -/
theorem processRequest_cut_countLine {c : SubClient} {args : List Sds} {n off : Nat} (hn : n ≤ SUB_READ_BUF_LEN)
    (hc : Holding c args ((countLine n).take off)) (h0 : 0 < off) (hoff : off < (countLine n).length) :
    ∃ c', processRequest c = (.err, c') ∧ Holding c' args ((countLine n).take off) := by
  have hline : countLine n = (42 :: decimal n ++ [CR]) ++ [LF] := by simp [countLine]
  have hcut : (countLine n).take off <+: 42 :: decimal n ++ [CR] := by
    rw [hline] at hoff ⊢
    rw [List.length_append, List.length_singleton] at hoff
    rw [List.take_append_of_le_length (by omega)]
    exact List.take_prefix ..
  have hhead : c.readBuf.head? = some 42 := by
    rw [hc.readBuf, List.head?_take, if_neg (by omega)]
    rfl
  have hwait : readMultibulkLen c.readBuf = .wait := by
    rw [hc.readBuf]
    exact readMultibulkLen_cut hn hcut
  rw [processRequest_eq, if_pos hhead]
  refine ⟨{ c with reqType := REQ_MULTIBULK }, ?_, hc.multiBulkLen, hc.bulkLen, hc.argc, hc.held, hc.readBuf⟩
  unfold processMultibulkBuffer
  rw [if_pos hc.multiBulkLen, hwait]

/-- A request cut inside the body of its first bulk leaves the counters and that part of the body. -/
theorem processRequest_cut_body {c : SubClient} {arg : Sds} {args : List Sds} {k : Nat}
    (hwf : (Request.multibulk (arg :: args)).WellFormed) (hk : k < arg.length + 2)
    (hc : Holding c [] (countLine (args.length + 1) ++ (bulkHeader arg ++ (bulkBody arg).take k))) :
    ∃ c', processRequest c = (.err, c') ∧ FirstBody c' args arg k := by
  obtain ⟨-, h2, h3⟩ := hwf
  rw [List.forall_mem_cons] at h3
  have hlen : c.readBuf.length < 2 ^ 31 := by
    have hd1 := length_decimal_limit (n := args.length + 1) h2
    have hd2 := length_decimal_limit h3.1
    have := h3.1
    rw [hc.readBuf, List.length_append, List.length_append, length_countLine, length_bulkHeader, List.length_take]
    unfold MAX_BULK_LEN at this
    omega
  have hhead : c.readBuf.head? = some 42 := by rw [hc.readBuf]; rfl
  have hcount : readMultibulkLen c.readBuf = .length (args.length + 1 : Nat) (countLine (args.length + 1)).length := by
    rw [hc.readBuf] at hlen ⊢
    exact readMultibulkLen_countLine h2 _ (Nat.lt_add_right 2 hlen)
  have hdrop : c.readBuf.drop (countLine (args.length + 1)).length = bulkHeader arg ++ (bulkBody arg).take k := by
    rw [hc.readBuf, List.drop_left]
  -- behind the count line and the header, which are whole, there is the part of the body
  have hdrop' : c.readBuf.drop ((countLine (args.length + 1)).length + (bulkHeader arg).length) =
      (bulkBody arg).take k := by
    rw [← List.drop_drop, hdrop, List.drop_left]
  have hbulk := readBulkLen_bulkHeader hdrop (Nat.lt_add_right 2 hlen) h3.1
  rw [processRequest_eq, if_pos hhead]
  unfold processMultibulkBuffer
  rw [if_pos hc.multiBulkLen, hcount]
  simp only [Int.toNat_natCast]
  rw [if_neg (by omega), multibulkLoop_short (l := arg.length)
    (p := (countLine (args.length + 1)).length + (bulkHeader arg).length)]
  · refine ⟨_, rfl, by rw [trimTo_multiBulkLen], by rw [trimTo_bulkLen], by rw [trimTo_argc]; exact hc.argc, ?_⟩
    rw [trimTo_eq]
    · exact hdrop'
    · exact hlen
  · unfold BodyAt
    rw [if_pos hc.bulkLen]
    exact hbulk
  · have := h3.1
    unfold MAX_BULK_LEN at this
    rw [toUInt_of_lt (by omega) (by omega), ← List.length_drop]
    change (c.readBuf.drop _).length < _
    rw [hdrop', List.length_take]
    omega

/-- A body that is still cut stays waited for, if its first byte makes the parser go on with it. -/
theorem processRequest_resume_cut {c : SubClient} {arg : Sds} {args : List Sds} {k : Nat}
    (harg : arg.length ≤ MAX_BULK_LEN) (h42 : arg.head? = some 42) (h0 : 0 < k) (hk : k < arg.length + 2)
    (hc : FirstBody c args arg k) : ∃ c', processRequest c = (.err, c') ∧ FirstBody c' args arg k := by
  have hlen : c.readBuf.length = k := by
    rw [hc.readBuf, List.length_take, length_bulkBody]
    omega
  have hhead : c.readBuf.head? = some 42 := by
    rw [hc.readBuf, List.head?_take, if_neg (by omega), bulkBody, List.head?_append, h42]
    rfl
  rw [processRequest_eq, if_pos hhead]
  unfold processMultibulkBuffer
  rw [if_neg (by have := hc.multiBulkLen; simp only; omega)]
  simp only [hc.multiBulkLen]
  rw [multibulkLoop_short (l := arg.length) (p := 0)]
  · refine ⟨_, rfl, by rw [trimTo_multiBulkLen], by rw [trimTo_bulkLen],
      by rw [trimTo_argc]; exact hc.argc, hc.readBuf⟩
  · unfold BodyAt
    rw [if_neg (by simp only [hc.bulkLen]; omega)]
    exact ⟨hc.bulkLen.symm, rfl⟩
  · unfold MAX_BULK_LEN at harg
    rw [toUInt_of_lt (by omega) (by omega)]
    change c.readBuf.length - 0 < _
    omega

/-- A body that is complete is taken, with the bulks behind it. -/
theorem processRequest_resume {c : SubClient} {arg : Sds} {args : List Sds} {rest : List UInt8}
    (hwf : (Request.multibulk (arg :: args)).WellFormed) (h42 : arg.head? = some 42)
    (hm : c.multiBulkLen = args.length + 1) (hbl : c.bulkLen = arg.length) (hargc : c.argc = 0)
    (hbuf : c.readBuf = bulkBody arg ++ (args.flatMap bulk ++ rest)) (hlen : c.readBuf.length < 2 ^ 31) :
    ∃ c', processRequest c = (.ok, c') ∧ Holding c' (arg :: args) rest := by
  obtain ⟨-, -, h3⟩ := hwf
  have hhead : c.readBuf.head? = some 42 := by
    rw [hbuf, bulkBody, List.append_assoc, List.head?_append, h42]
    rfl
  rw [processRequest_eq, if_pos hhead]
  unfold processMultibulkBuffer
  have hloop := multibulkLoop_resume (c := { c with reqType := REQ_MULTIBULK }) hbuf hlen hbl h3
  rw [← hm] at hloop
  rw [if_neg (by simp only; omega)]
  refine ⟨_, hloop, rfl, rfl, ?_, ?_, rfl⟩
  · simp only [SubClient.pushArgs_argc, hargc, zero_add]
  · exact SubClient.args_pushArgs { c with reqType := REQ_MULTIBULK } (arg :: args) hargc

/-! ## Positions in a stream -/

/-- What a number of bytes of a stream amounts to: the requests that are complete, those that are not,
and how far the first of these has come. -/
structure Receipt where
  done : List Request
  rest : List Request
  off : Nat

/-- What the first `n` bytes of the requests amount to. -/
def receive : List Request → Nat → Receipt
  | [], n => ⟨[], [], n⟩
  | r :: rs, n =>
    if n < r.encode.length then ⟨[], r :: rs, n⟩
    else
      let t := receive rs (n - r.encode.length)
      { t with done := r :: t.done }

theorem receive_of_lt {r : Request} {n : Nat} (rs : List Request) (h : n < r.encode.length) :
    receive (r :: rs) n = ⟨[], r :: rs, n⟩ := by rw [receive, if_pos h]

theorem receive_of_le {r : Request} {n : Nat} (rs : List Request) (h : r.encode.length ≤ n) :
    receive (r :: rs) n =
      ⟨r :: (receive rs (n - r.encode.length)).done, (receive rs (n - r.encode.length)).rest,
        (receive rs (n - r.encode.length)).off⟩ := by
  rw [receive, if_neg (by omega)]

/-- More bytes add to what was received. -/
theorem receive_add : ∀ (rs : List Request) (n m : Nat), receive rs (n + m) =
    let t := receive (receive rs n).rest ((receive rs n).off + m)
    { t with done := (receive rs n).done ++ t.done }
  | [], n, m => rfl
  | r :: rs, n, m => by
    by_cases h : n < r.encode.length
    · rw [receive_of_lt rs h]
      rfl
    · rw [receive_of_le rs (by omega), receive_of_le rs (by omega), show n + m - r.encode.length =
        n - r.encode.length + m by omega, receive_add rs (n - r.encode.length) m]
      rfl

/-- What is left of the stream is what is left of its requests. -/
theorem drop_encodeAll : ∀ (rs : List Request) (n : Nat),
    (Request.encodeAll rs).drop n = (Request.encodeAll (receive rs n).rest).drop (receive rs n).off
  | [], n => rfl
  | r :: rs, n => by
    by_cases h : n < r.encode.length
    · rw [receive_of_lt rs h]
    · rw [receive_of_le rs (by omega), Request.encodeAll_cons, ← drop_encodeAll rs (n - r.encode.length),
        List.drop_append, List.drop_of_length_le (by omega), List.nil_append]

/-- What is left holds no complete request. -/
theorem receive_rest : ∀ (rs : List Request) (n : Nat),
    (receive (receive rs n).rest (receive rs n).off).done = []
  | [], n => rfl
  | r :: rs, n => by
    by_cases h : n < r.encode.length
    · rw [receive_of_lt rs h]
      simp only [receive_of_lt rs h]
    · rw [receive_of_le rs (by omega)]
      exact receive_rest rs (n - r.encode.length)

theorem receive_wellFormed : ∀ {rs : List Request} {n : Nat}, (∀ r ∈ rs, r.WellFormed) →
    ∀ r ∈ (receive rs n).rest, r.WellFormed
  | [], _, h => h
  | r :: rs, n, h => by
    by_cases hn : n < r.encode.length
    · rw [receive_of_lt rs hn]
      exact h
    · rw [receive_of_le rs (by omega)]
      exact receive_wellFormed (List.forall_mem_cons.1 h).2

/-- A stream that starts with a multibulk request, taken apart up to the body of its first bulk. -/
theorem encodeAll_multibulk (arg : Sds) (args : List Sds) (rs : List Request) :
    Request.encodeAll (.multibulk (arg :: args) :: rs) =
      countLine (args.length + 1) ++ (bulkHeader arg ++ (bulkBody arg ++ (args.flatMap bulk ++ Request.encodeAll rs))) := by
  rw [Request.encodeAll_cons, Request.encode, List.flatMap_cons, bulk, List.length_cons]
  simp only [List.append_assoc]

theorem length_encode_multibulk (arg : Sds) (args : List Sds) : (Request.multibulk (arg :: args)).encode.length =
    (countLine (args.length + 1)).length + (bulkHeader arg).length + (arg.length + 2) + (args.flatMap bulk).length := by
  rw [Request.encode, List.flatMap_cons, bulk, List.length_cons]
  simp only [List.length_append, length_bulkBody]
  omega

/-! ## Harmless cuts -/

/-- The stream stops between two requests, inside a line, or inside a count line. -/
def LineStop (rest : List Request) (off : Nat) : Prop :=
  off = 0 ∨ (∃ line rs, rest = .inline line :: rs ∧ off < (Request.inline line).encode.length) ∨
    ∃ args rs, rest = .multibulk args :: rs ∧ off < (countLine args.length).length

/-- The stream stops behind the header of the first bulk of a request and before the end of that bulk,
and the first byte of the bulk is `*`. -/
def BodyStop (rest : List Request) (off : Nat) : Prop :=
  ∃ arg args rs k, rest = .multibulk (arg :: args) :: rs ∧ arg.head? = some 42 ∧ k < arg.length + 2 ∧
    off = (countLine (args.length + 1)).length + (bulkHeader arg).length + k

/-- Of the requests that end in a read only the last one has arguments, and the read stops where no
argument is held and the next read goes on with the same parser. -/
structure CleanStop (t : Receipt) : Prop where
  single : ∀ r ∈ t.done.dropLast, r.args = []
  stop : LineStop t.rest t.off ∨ (∀ r ∈ t.done, r.args = []) ∧ BodyStop t.rest t.off

/-- A read of `n` bytes is harmless at `off` in the stream. -/
structure CleanRead (rest : List Request) (off n : Nat) : Prop where
  small : off + n < 2 ^ 31
  stop : CleanStop (receive rest (off + n))

/-- Every read of a cut is harmless. -/
def CleanCut : List Request → Nat → List (List UInt8) → Prop
  | _, _, [] => True
  | rest, off, chunk :: chunks =>
    CleanRead rest off chunk.length ∧
      CleanCut (receive rest (off + chunk.length)).rest (receive rest (off + chunk.length)).off chunks

/-- The client that a read stopping inside the body of a first bulk leaves. -/
def InBody (c : SubClient) (rest : List Request) (off : Nat) : Prop :=
  ∃ arg args rs k, rest = .multibulk (arg :: args) :: rs ∧ arg.head? = some 42 ∧ k < arg.length + 2 ∧
    off = (countLine (args.length + 1)).length + (bulkHeader arg).length + k ∧ FirstBody c args arg k

/-- The client between two reads of a harmless cut. -/
def At (c : SubClient) (rest : List Request) (off : Nat) : Prop :=
  Holding c [] ((Request.encodeAll rest).take off) ∨ InBody c rest off

/-- The client after the loop over a harmless read, before anything is executed. -/
def Parsed (c : SubClient) (t : Receipt) : Prop :=
  (∃ args, Holding c args ((Request.encodeAll t.rest).take t.off) ∧
    (if args = [] then none else some (args.map some)).toList = t.done.filterMap Request.command) ∨
  t.done.filterMap Request.command = [] ∧ InBody c t.rest t.off

/-- The loop leaves a cut line or count line where it is. -/
theorem drives_lineStop {c : SubClient} {args : List Sds} {rest : List Request} {off : Nat}
    (hwf : ∀ r ∈ rest, r.WellFormed) (hoff : off < 2 ^ 31) (hstop : LineStop rest off)
    (hc : Holding c args ((Request.encodeAll rest).take off)) :
    ∃ c', Drives c c' ∧ Holding c' args ((Request.encodeAll rest).take off) := by
  rcases Nat.eq_zero_or_pos off with rfl | hpos
  · exact ⟨c, .nil (by rw [hc.readBuf, List.take_zero]), hc⟩
  have hne : ∀ r rs, rest = r :: rs → c.readBuf ≠ [] := by
    rintro r rs rfl hnil
    have := congrArg List.length (hc.readBuf.symm.trans hnil)
    have hr := List.length_pos_of_ne_nil r.encode_ne_nil
    rw [List.length_take, Request.encodeAll_cons, List.length_append, List.length_nil] at this
    omega
  rcases hstop with h0 | ⟨line, rs, rfl, hlt⟩ | ⟨largs, rs, rfl, hlt⟩
  · omega
  · rw [Request.encodeAll_cons, List.take_append_of_le_length (by omega)] at hc ⊢
    obtain ⟨c', hreq, hc'⟩ := processRequest_cut_line (hwf _ List.mem_cons_self) hc hpos hlt hoff
    exact ⟨c', .err hreq (hne _ rs rfl), hc'⟩
  · have hcut : (Request.encodeAll (.multibulk largs :: rs)).take off = (countLine largs.length).take off := by
      rw [Request.encodeAll_cons, Request.encode, List.append_assoc, List.take_append_of_le_length (by omega)]
    rw [hcut] at hc ⊢
    obtain ⟨c', hreq, hc'⟩ := processRequest_cut_countLine (hwf _ List.mem_cons_self).2.1 hc hpos hlt
    exact ⟨c', .err hreq (hne _ rs rfl), hc'⟩

/-- Behind a request with arguments a harmless read has nothing complete left. -/
theorem drives_taken {c c1 : SubClient} {r : Request} {rs : List Request} {n : Nat} (hwf : ∀ r ∈ rs, r.WellFormed)
    (hle : r.encode.length ≤ n) (hn : n < 2 ^ 31) (hne : r.args ≠ []) (hclean : CleanStop (receive (r :: rs) n))
    (hreq : processRequest c = (.ok, c1)) (hlt : c1.readBuf.length < c.readBuf.length)
    (hc1 : Holding c1 r.args ((Request.encodeAll rs).take (n - r.encode.length))) :
    ∃ c', Drives c c' ∧ Parsed c' (receive (r :: rs) n) := by
  obtain ⟨hsingle, hstop⟩ := hclean
  rw [receive_of_le rs hle] at hsingle hstop ⊢
  simp only at hsingle hstop
  -- the read stops where one command is complete, so none is behind it
  have hdone : (receive rs (n - r.encode.length)).done = [] := by
    by_contra hdone
    rw [List.dropLast_cons_of_ne_nil hdone] at hsingle
    exact hne (hsingle r List.mem_cons_self)
  have hrest : (Request.encodeAll rs).take (n - r.encode.length) =
      (Request.encodeAll (receive rs (n - r.encode.length)).rest).take (receive rs (n - r.encode.length)).off ∧
      (receive rs (n - r.encode.length)).off = n - r.encode.length := by
    cases rs with
    | nil => exact ⟨rfl, rfl⟩
    | cons r' rs =>
      by_cases h : n - r.encode.length < r'.encode.length
      · rw [receive_of_lt rs h]
        exact ⟨rfl, rfl⟩
      · rw [receive_of_le rs (by omega)] at hdone
        cases hdone
  rw [hrest.1] at hc1
  have hline := hstop.resolve_right fun h => hne (h.1 r List.mem_cons_self)
  obtain ⟨c', hdrive, hc'⟩ := drives_lineStop (receive_wellFormed hwf) (by rw [hrest.2]; omega) hline hc1
  refine ⟨c', .ok hreq hlt hdrive, .inl ⟨r.args, hc', ?_⟩⟩
  simp only [hdone, List.filterMap_cons, List.filterMap_nil, Request.command, if_neg hne, Option.toList_some]

/-- The loop over a harmless read that starts with a whole request. -/
theorem drives_idle : ∀ (rest : List Request) (n : Nat) (c : SubClient), (∀ r ∈ rest, r.WellFormed) →
    n < 2 ^ 31 → n ≤ (Request.encodeAll rest).length → CleanStop (receive rest n) →
    Holding c [] ((Request.encodeAll rest).take n) → ∃ c', Drives c c' ∧ Parsed c' (receive rest n)
  | [], n, c, _, _, _, _, hc => by
    exact ⟨c, .nil (by rw [hc.readBuf]; exact List.take_nil), .inl ⟨[], hc, rfl⟩⟩
  | r :: rs, n, c, hwf, hn, hle, hclean, hc => by
    have hwf' := List.forall_mem_cons.1 hwf
    by_cases hlt : n < r.encode.length
    · rw [receive_of_lt rs hlt] at hclean ⊢
      rcases hclean.stop with hline | ⟨-, arg, args, rs', k, heq, h42, hk, hoff⟩
      · obtain ⟨c', hdrive, hc'⟩ := drives_lineStop hwf hn hline hc
        exact ⟨c', hdrive, .inl ⟨[], hc', rfl⟩⟩
      · obtain ⟨rfl, rfl⟩ := List.cons.inj heq
        simp only at hoff
        have hcut : (Request.encodeAll (.multibulk (arg :: args) :: rs)).take n =
            countLine (args.length + 1) ++ (bulkHeader arg ++ (bulkBody arg).take k) := by
          rw [encodeAll_multibulk, hoff, Nat.add_assoc, List.take_length_add_append, List.take_length_add_append,
            List.take_append_of_le_length (by rw [length_bulkBody]; omega)]
        rw [hcut] at hc
        obtain ⟨c', hreq, hc'⟩ := processRequest_cut_body hwf'.1 hk hc
        refine ⟨c', .err hreq (by rw [hc.readBuf]; simp [countLine]), .inr ⟨rfl, ?_⟩⟩
        exact ⟨arg, args, rs, k, rfl, h42, hk, hoff, hc'⟩
    · have hcut : (Request.encodeAll (r :: rs)).take n =
          r.encode ++ (Request.encodeAll rs).take (n - r.encode.length) := by
        rw [Request.encodeAll_cons, List.take_append, List.take_of_length_le (by omega)]
      rw [Request.encodeAll_cons, List.length_append] at hle
      rw [hcut] at hc
      have hlen : (r.encode ++ (Request.encodeAll rs).take (n - r.encode.length)).length = n := by
        rw [List.length_append, List.length_take]
        omega
      -- the first request is whole
      obtain ⟨c1, hreq, hc1, -⟩ := processRequest_encode hwf'.1 hc (.inl (by omega))
      have hshort : c1.readBuf.length < c.readBuf.length := by
        have := List.length_pos_of_ne_nil r.encode_ne_nil
        rw [hc1.readBuf, hc.readBuf, List.length_append]
        omega
      by_cases hne : r.args = []
      · rw [hne] at hc1
        rw [receive_of_le rs (by omega)] at hclean ⊢
        -- an empty line executes nothing, so the requests behind it are as in a read of their own
        have hclean' : CleanStop (receive rs (n - r.encode.length)) := by
          refine ⟨fun q hq => hclean.single q ?_, by simpa [hne] using hclean.stop⟩
          rw [List.dropLast_cons_of_ne_nil (by rintro h; rw [h] at hq; cases hq)]
          exact List.mem_cons_of_mem _ hq
        obtain ⟨c', hdrive, hc'⟩ := drives_idle rs (n - r.encode.length) c1 hwf'.2 (by omega) (by omega) hclean' hc1
        refine ⟨c', .ok hreq hshort hdrive, ?_⟩
        unfold Parsed at hc' ⊢
        simpa only [List.filterMap_cons, Request.command, hne, if_true] using hc'
      · exact drives_taken hwf'.2 (by omega) hn hne hclean hreq hshort hc1

/-- A read that goes on with the body of a first bulk brings the rest of the body, the bulks behind it and
the requests behind those, as far as it reaches. -/
theorem FirstBody.append {c : SubClient} {arg : Sds} {args : List Sds} {k : Nat} {rest chunk : List UInt8}
    (hc : FirstBody c args arg k) (hk : k < arg.length + 2) (hchunk : chunk <+: (bulkBody arg ++ rest).drop k) :
    c.readBuf ++ chunk = (bulkBody arg ++ rest).take (k + chunk.length) := by
  obtain ⟨tail, htail⟩ := hchunk
  rw [List.take_add, ← htail, List.take_left, hc.readBuf,
    List.take_append_of_le_length (by rw [length_bulkBody]; omega)]

/-- Where nothing has ended in a harmless read, it stops in the body of the first bulk if it reaches it. -/
theorem CleanStop.lt_body {arg : Sds} {args : List Sds} {rs : List Request} {k : Nat}
    (h : CleanStop ⟨[], .multibulk (arg :: args) :: rs, (countLine (args.length + 1)).length + (bulkHeader arg).length + k⟩) :
    k < arg.length + 2 := by
  have hpos : 0 < (bulkHeader arg).length := by rw [length_bulkHeader]; omega
  rcases h.stop with (h0 | ⟨line, rs', heq, -⟩ | ⟨args', rs', heq, hlt⟩) | ⟨-, arg', args', rs', k', heq, -, hk', hoff⟩
  · simp only at h0
    omega
  · simp at heq
  · obtain ⟨rfl, -⟩ := by simpa using heq
    simp only [List.length_cons] at hlt
    omega
  · obtain ⟨⟨rfl, rfl⟩, rfl⟩ := by simpa using heq
    simp only at hoff
    omega

/-- The loop over a harmless read that goes on with the body of a first bulk. -/
theorem drives_body {c : SubClient} {rest : List Request} {off n : Nat} {chunk : List UInt8}
    (hwf : ∀ r ∈ rest, r.WellFormed) (hn : n < 2 ^ 31) (hoff : off + chunk.length = n) (hne : chunk ≠ [])
    (hchunk : chunk <+: (Request.encodeAll rest).drop off) (hclean : CleanStop (receive rest n))
    (hc : InBody c rest off) :
    ∃ c', Drives { c with readBuf := c.readBuf ++ chunk } c' ∧ Parsed c' (receive rest n) := by
  obtain ⟨arg, args, rs, k, rfl, h42, hk, rfl, hbody⟩ := hc
  have hpos := List.length_pos_of_ne_nil hne
  have hwf' := List.forall_mem_cons.1 hwf
  have hlen := length_encode_multibulk arg args
  rw [encodeAll_multibulk, Nat.add_assoc, List.drop_length_add_append, List.drop_length_add_append] at hchunk
  have hbuf := hbody.append hk hchunk
  by_cases hlt : n < (Request.multibulk (arg :: args)).encode.length
  · -- the request is still incomplete, so the read stops in the same body
    rw [receive_of_lt rs hlt] at hclean ⊢
    rw [← hoff, Nat.add_assoc _ k] at hclean
    have hk' := hclean.lt_body
    rw [List.take_append_of_le_length (by rw [length_bulkBody]; omega)] at hbuf
    have hbody' : FirstBody { c with readBuf := c.readBuf ++ chunk } args arg (k + chunk.length) :=
      ⟨hbody.multiBulkLen, hbody.bulkLen, hbody.argc, hbuf⟩
    have harg := (List.forall_mem_cons.1 hwf'.1.2.2).1
    obtain ⟨c', hreq, hc'⟩ := processRequest_resume_cut harg h42 (by omega) hk' hbody'
    refine ⟨c', .err hreq (by simp [hne]), .inr ⟨rfl, arg, args, rs, k + chunk.length, rfl, h42, hk', ?_, hc'⟩⟩
    simp only
    omega
  · -- the request ends in this read
    have hrest : c.readBuf ++ chunk = bulkBody arg ++ (args.flatMap bulk ++
        (Request.encodeAll rs).take (n - (Request.multibulk (arg :: args)).encode.length)) := by
      rw [hbuf, List.take_append, List.take_of_length_le (by rw [length_bulkBody]; omega), List.take_append,
        List.take_of_length_le (by rw [length_bulkBody]; omega), length_bulkBody]
      congr 3
      omega
    have hsize : (c.readBuf ++ chunk).length < 2 ^ 31 := by
      rw [List.length_append, hbody.readBuf, List.length_take]
      omega
    obtain ⟨c1, hreq, hc1⟩ := processRequest_resume (c := { c with readBuf := c.readBuf ++ chunk }) hwf'.1 h42
      hbody.multiBulkLen hbody.bulkLen hbody.argc hrest hsize
    refine drives_taken hwf'.2 (by omega) hn (by simp [Request.args]) hclean hreq ?_ hc1
    simp only [hc1.readBuf, hrest, List.length_append, length_bulkBody]
    omega

/-- A harmless read executes the requests that end in it. -/
theorem subRead_clean {c : SubClient} {rest : List Request} {off : Nat} {chunk : List UInt8}
    (hwf : ∀ r ∈ rest, r.WellFormed) (hne : chunk ≠ []) (hchunk : chunk <+: (Request.encodeAll rest).drop off)
    (hclean : CleanRead rest off chunk.length) (hc : At c rest off) :
    ∃ c' cmd, subRead c chunk = some (c', cmd) ∧
      cmd.toList = (receive rest (off + chunk.length)).done.filterMap Request.command ∧
      At c' (receive rest (off + chunk.length)).rest (receive rest (off + chunk.length)).off := by
  have hpos := List.length_pos_of_ne_nil hne
  have hle : off + chunk.length ≤ (Request.encodeAll rest).length := by
    have := hchunk.length_le
    rw [List.length_drop] at this
    omega
  have hloop : ∃ c', Drives { c with readBuf := c.readBuf ++ chunk } c' ∧
      Parsed c' (receive rest (off + chunk.length)) := by
    rcases hc with hidle | hbody
    · refine drives_idle rest (off + chunk.length) _ hwf hclean.small hle hclean.stop
        ⟨hidle.multiBulkLen, hidle.bulkLen, hidle.argc, hidle.held, ?_⟩
      obtain ⟨tail, htail⟩ := hchunk
      rw [List.take_add, ← htail, List.take_left, hidle.readBuf]
    · exact drives_body hwf hclean.small rfl hne hchunk hclean.stop hbody
  obtain ⟨c', hdrive, hparsed⟩ := hloop
  refine ⟨(finishRead c').1, (finishRead c').2, hdrive.processSubReadBuf, ?_⟩
  -- the loop stops behind a request or in the body of a first bulk, where nothing is executed
  rcases hparsed with ⟨args, hc', hcmd⟩ | ⟨hcmd, arg, args, rs, k, hrest, h42, hk, hoff, hbody⟩
  · obtain ⟨hexec, hidle⟩ := hc'.finishRead
    exact ⟨by rw [hexec, hcmd], .inl hidle⟩
  · have hfin : finishRead c' = (freeClientArgv c', none) := by
      unfold finishRead
      rw [if_pos hbody.argc]
    rw [hfin]
    exact ⟨hcmd.symm, .inr ⟨arg, args, rs, k, hrest, h42, hk, hoff, hbody.multiBulkLen, hbody.bulkLen, rfl,
      hbody.readBuf⟩⟩

/-! ## Runs -/

/-- A run of harmless reads executes the requests that are complete by its end, each once and in order. -/
theorem feed_clean : ∀ (chunks : List (List UInt8)) {c : SubClient} {rest : List Request} {off : Nat},
    (∀ r ∈ rest, r.WellFormed) → [] ∉ chunks → (receive rest off).done = [] →
    chunks.flatten <+: (Request.encodeAll rest).drop off → CleanCut rest off chunks → At c rest off →
    (feed c chunks).map Prod.snd =
      some ((receive rest (off + chunks.flatten.length)).done.filterMap Request.command)
  | [], c, rest, off, _, _, hdone, _, _, _ => by simp [feed, hdone]
  | chunk :: chunks, c, rest, off, hwf, hne, hdone, hpre, hclean, hc => by
    simp only [List.mem_cons, not_or] at hne
    rw [List.flatten_cons] at hpre
    obtain ⟨c', cmd, hread, hcmd, hc'⟩ :=
      subRead_clean hwf (Ne.symm hne.1) ((List.prefix_append ..).trans hpre) hclean.1 hc
    -- what is still to come goes on from where this read has stopped
    have hpre' : chunks.flatten <+: (Request.encodeAll (receive rest (off + chunk.length)).rest).drop
        (receive rest (off + chunk.length)).off := by
      obtain ⟨tail, htail⟩ := hpre
      refine ⟨tail, ?_⟩
      rw [← drop_encodeAll, ← List.drop_drop, ← htail, List.append_assoc, List.drop_left]
    have hih := feed_clean chunks (receive_wellFormed hwf) hne.2 (receive_rest rest _) hpre' hclean.2 hc'
    obtain ⟨⟨c'', cmds⟩, hfeed, rfl⟩ := Option.map_eq_some_iff.1 hih
    rw [List.flatten_cons, List.length_append, ← Nat.add_assoc, receive_add, List.filterMap_append]
    simp only [feed, hread, hfeed, Option.map_some, hcmd]

/-- Whatever number of reads has been made, exactly the requests whose last byte has arrived are
executed, each once and in order. -/
def InTime (c : SubClient) (rs : List Request) (cut : List (List UInt8)) : Prop :=
  ∀ k, (feed c (cut.take k)).map Prod.snd =
    some ((receive rs (cut.take k).flatten.length).done.filterMap Request.command)

theorem CleanCut.take : ∀ {cut : List (List UInt8)} {rest : List Request} {off : Nat} (k : Nat),
    CleanCut rest off cut → CleanCut rest off (cut.take k)
  | _, _, _, 0, _ => trivial
  | [], _, _, _ + 1, _ => trivial
  | _ :: _, _, _, k + 1, h => ⟨h.1, h.2.take k⟩

/-- Two harmless cuts of a stream of requests execute the same commands, and neither executes one
before its last byte has arrived. -/
theorem fragmentation {c : SubClient} {rs : List Request} {cut₁ cut₂ : List (List UInt8)} (hidle : c.Idle)
    (hbuf : c.readBuf = []) (hwf : ∀ r ∈ rs, r.WellFormed)
    (h₁ : cut₁.flatten = Request.encodeAll rs) (h₂ : cut₂.flatten = Request.encodeAll rs)
    (hne₁ : [] ∉ cut₁) (hne₂ : [] ∉ cut₂) (hclean₁ : CleanCut rs 0 cut₁) (hclean₂ : CleanCut rs 0 cut₂) :
    (feed c cut₁).map Prod.snd = (feed c cut₂).map Prod.snd ∧ InTime c rs cut₁ ∧ InTime c rs cut₂ := by
  have hc : At c rs 0 := .inl (by
    rw [List.take_zero, ← hbuf]
    exact .of_idle hidle)
  have hdone : (receive rs 0).done = [] := by
    cases rs with
    | nil => rfl
    | cons r rs => rw [receive_of_lt rs (List.length_pos_of_ne_nil r.encode_ne_nil)]
  -- a part of the reads is a harmless cut too, of what they have brought
  have hrun : ∀ {cut : List (List UInt8)}, cut.flatten = Request.encodeAll rs → [] ∉ cut → CleanCut rs 0 cut →
      InTime c rs cut := by
    intro cut hcut hne hclean k
    have hpre : (cut.take k).flatten <+: Request.encodeAll rs := by
      rw [← hcut]
      conv_rhs => rw [← List.take_append_drop k cut, List.flatten_append]
      exact List.prefix_append ..
    have := feed_clean (cut.take k) hwf (fun h => hne (List.mem_of_mem_take h)) hdone hpre (hclean.take k) hc
    rwa [Nat.zero_add] at this
  have ht₁ := hrun h₁ hne₁ hclean₁
  have ht₂ := hrun h₂ hne₂ hclean₂
  refine ⟨?_, ht₁, ht₂⟩
  have e₁ := ht₁ cut₁.length
  have e₂ := ht₂ cut₂.length
  rw [List.take_length] at e₁ e₂
  rw [e₁, e₂, h₁, h₂]

theorem fragmentation_ping :
    let rs := [Request.inline (ascii "ping")]
    (feed (zeroedClient 5 []) [ascii "ping\r\n"]).map Prod.snd =
        (feed (zeroedClient 5 []) [ascii "pi", ascii "ng\r\n"]).map Prod.snd ∧
      InTime (zeroedClient 5 []) rs [ascii "ping\r\n"] ∧
      InTime (zeroedClient 5 []) rs [ascii "pi", ascii "ng\r\n"] := by
  intro rs
  have hwf : ∀ r ∈ rs, r.WellFormed := by
    simp only [rs, List.mem_singleton, forall_eq]
    exact ⟨by decide, by decide, by decide, by decide +kernel⟩
  have hclean₁ : CleanCut rs 0 [ascii "ping\r\n"] :=
    ⟨⟨by decide +kernel, by decide +kernel, .inl (.inl (by decide +kernel))⟩, trivial⟩
  have hclean₂ : CleanCut rs 0 [ascii "pi", ascii "ng\r\n"] :=
    ⟨⟨by decide +kernel, by decide +kernel, .inl (.inr (.inl ⟨ascii "ping", [], rfl, by decide +kernel⟩))⟩,
      ⟨by decide +kernel, by decide +kernel, .inl (.inl (by decide +kernel))⟩, trivial⟩
  exact fragmentation ⟨rfl, rfl, rfl⟩ rfl hwf (by decide +kernel) (by decide +kernel) (by decide +kernel)
    (by decide +kernel) hclean₁ hclean₂

/-- A subscription cut between its two bulks is executed as two commands, the first one too early. -/
theorem fragmentation_subscribe :
    let c := zeroedClient 5 []
    let r := Request.multibulk [ascii "subscribe", ascii "news"]
    let whole := [ascii "*2\r\n$9\r\nsubscribe\r\n$4\r\nnews\r\n"]
    let cut := [ascii "*2\r\n$9\r\nsubscribe\r\n", ascii "$4\r\nnews\r\n"]
    c.Idle ∧ c.readBuf = [] ∧ r.WellFormed ∧ whole.flatten = r.encode ∧ cut.flatten = r.encode ∧
      (feed c whole).map Prod.snd = some [[some (ascii "subscribe"), some (ascii "news")]] ∧
      (feed c (cut.take 1)).map Prod.snd = some [[some (ascii "subscribe")]] ∧
      (feed c whole).map Prod.snd ≠ (feed c cut).map Prod.snd := by
  intro c r whole cut
  refine ⟨⟨rfl, rfl, rfl⟩, rfl, ⟨by decide, by decide, by decide⟩, ?_, ?_, ?_, ?_, ?_⟩ <;> decide +kernel

end PubsubBroker

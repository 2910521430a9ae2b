/-
Termination of request processing: the bulk loop ends after at most `multi_bulk_len` bulks, and the
driver loop ends because every accepted request takes a byte. Both hold in every parser state and on
every buffer shorter than `2 ^ 31` but one kind of line (`Stalls`), for which the trim of
`process_inline_buffer` starts at an offset that no `int` holds.
-/
import PubsubBroker.Protocol.Runs
import PubsubBroker.Protocol.ParseSpec

namespace PubsubBroker

open CLang

/-! ## The bulk loop -/

/-- One pass of `while (c->multi_bulk_len)`: it leaves the function, or takes a bulk and goes on behind it. -/
def bulkPass (pos : Nat) (c : SubClient) : (Status × SubClient) ⊕ (Nat × SubClient) :=
  match (if c.bulkLen = -1 then readBulkLen c.readBuf pos else .length c.bulkLen pos) with
  | .reject p => .inl (.err, setProtocolErr c p)
  | .wait => .inl (.err, trimTo c pos)
  | .length ll p =>
    let c := { c with bulkLen := ll }
    if c.readBuf.length - p < toUInt (ll + 2) then .inl (.err, trimTo c p)
    else
      .inr (p + (ll + 2).toNat,
        { c.pushArg ((c.readBuf.drop p).take ll.toNat) with bulkLen := -1, multiBulkLen := c.multiBulkLen - 1 })

/-- `while (c->multi_bulk_len)` from an offset on, with the number of passes that take a bulk and the
outcome of the call. -/
inductive BulkLoop : Nat → Nat → SubClient → Status × SubClient → Prop
  | done {pos : Nat} {c : SubClient} (hm : c.multiBulkLen = 0) : BulkLoop 0 pos c (.ok, trimTo c pos)
  | leave {pos : Nat} {c : SubClient} {r : Status × SubClient} (hm : c.multiBulkLen ≠ 0)
    (hp : bulkPass pos c = .inl r) : BulkLoop 0 pos c r
  | take {k pos pos' : Nat} {c c' : SubClient} {r : Status × SubClient} (hm : c.multiBulkLen ≠ 0)
    (hp : bulkPass pos c = .inr (pos', c')) (rest : BulkLoop k pos' c' r) : BulkLoop (k + 1) pos c r

theorem multibulkLoop_bulkPass {n : Nat} {c : SubClient} (hm : c.multiBulkLen = n + 1) (pos : Nat) :
    multibulkLoop (n + 1) pos c =
      match bulkPass pos c with
      | .inl r => r
      | .inr (pos', c') => multibulkLoop n pos' c' := by
  rw [multibulkLoop, bulkPass]
  cases (if c.bulkLen = -1 then readBulkLen c.readBuf pos else .length c.bulkLen pos) with
  | reject p => rfl
  | wait => rfl
  | length ll p =>
    simp only [hm, Nat.add_sub_cancel]
    split
    · rfl
    · rfl

theorem bulkPass_multiBulkLen {pos pos' : Nat} {c c' : SubClient} (h : bulkPass pos c = .inr (pos', c')) :
    c'.multiBulkLen = c.multiBulkLen - 1 := by
  unfold bulkPass at h
  split at h
  · cases h
  · cases h
  · simp only at h
    split at h
    · cases h
    · cases h
      rfl

/-- The bulk loop ends, after at most `multi_bulk_len` passes that take a bulk. -/
theorem multibulkLoop_ends : ∀ (n pos : Nat) (c : SubClient), c.multiBulkLen = n →
    ∃ k ≤ n, BulkLoop k pos c (multibulkLoop n pos c)
  | 0, pos, c, hm => ⟨0, le_rfl, .done hm⟩
  | n + 1, pos, c, hm => by
    rw [multibulkLoop_bulkPass hm]
    cases hp : bulkPass pos c with
    | inl r => exact ⟨0, Nat.zero_le _, .leave (by omega) hp⟩
    | inr next =>
      obtain ⟨pos', c'⟩ := next
      have hm' : c'.multiBulkLen = n := by
        rw [bulkPass_multiBulkLen hp, hm, Nat.add_sub_cancel]
      obtain ⟨k, hk, hloop⟩ := multibulkLoop_ends n pos' c' hm'
      exact ⟨k + 1, Nat.succ_le_succ hk, .take (by omega) hp hloop⟩

/-- Where a call enters the bulk loop: at the start of a buffer that goes on with a request, or behind
the count line of a new one. -/
inductive EntersLoop (c : SubClient) : Nat → SubClient → Prop
  | resume (hm : c.multiBulkLen ≠ 0) : EntersLoop c 0 c
  | count {ll : Int} {p : Nat} (hm : c.multiBulkLen = 0) (hr : readMultibulkLen c.readBuf = .length ll p) (hll : 0 < ll) :
    EntersLoop c p { c with multiBulkLen := ll.toNat, argv := .alloc ll.toNat }

/-- A call that enters the bulk loop leaves it, with the loop's outcome. -/
theorem EntersLoop.ends {c c0 : SubClient} {pos : Nat} (h : EntersLoop c pos c0) :
    ∃ k ≤ c0.multiBulkLen, BulkLoop k pos c0 (processMultibulkBuffer c) := by
  cases h with
  | resume hm =>
    unfold processMultibulkBuffer
    rw [if_neg hm]
    exact multibulkLoop_ends c.multiBulkLen 0 c rfl
  | @count ll _ hm hr hll =>
    unfold processMultibulkBuffer
    rw [if_pos hm, hr]
    simp only
    rw [if_neg (by omega)]
    exact multibulkLoop_ends ll.toNat pos { c with multiBulkLen := ll.toNat, argv := .alloc ll.toNat } rfl

/-! ## Accepted requests take bytes -/

/-- `bulk_len` is -1 or a length, as far as an `int` goes. -/
def BulkLenInt (c : SubClient) : Prop := -1 ≤ c.bulkLen ∧ c.bulkLen < 2 ^ 31

theorem BodyAt.le {c : SubClient} {pos p : Nat} {ll : Int} (hbl : BulkLenInt c) (hpos : pos ≤ c.readBuf.length)
    (h : BodyAt c pos ll p) : 0 ≤ ll ∧ ll < 2 ^ 31 ∧ pos ≤ p ∧ p ≤ c.readBuf.length := by
  unfold BodyAt at h
  split at h
  · have := readBulkLen_length h
    unfold MAX_BULK_LEN at this
    omega
  · obtain ⟨rfl, rfl⟩ := h
    obtain ⟨h1, h2⟩ := hbl
    omega

/-- The bulk loop takes at least the two line end bytes of every bulk. -/
theorem multibulkLoop_takes : ∀ (n pos : Nat) {c c' : SubClient}, c.readBuf.length < 2 ^ 31 → BulkLenInt c →
    pos ≤ c.readBuf.length → multibulkLoop n pos c = (.ok, c') →
    c'.readBuf.length + (pos + 2 * n) ≤ c.readBuf.length ∧ BulkLenInt c'
  | 0, pos, c, c', hlen, hbl, hpos, h => by
    rw [multibulkLoop, trimTo_eq hlen] at h
    cases h
    refine ⟨?_, hbl⟩
    rw [List.length_drop]
    omega
  | n + 1, pos, c, c', hlen, hbl, hpos, h => by
    rcases multibulkLoop_cases n pos c with
      ⟨p, -, -, heq⟩ | ⟨-, -, heq⟩ | ⟨ll, p, -, -, heq⟩ | ⟨ll, p, hb, hfull, heq⟩ <;> rw [heq] at h
    · cases h
    · cases h
    · cases h
    · obtain ⟨h0, hmax, hp, hple⟩ := hb.le hbl hpos
      rw [toUInt_of_lt (by omega) (by omega)] at hfull
      obtain ⟨htake, hbl'⟩ := multibulkLoop_takes n (p + (ll + 2).toNat)
        (c := { c.pushArg ((c.readBuf.drop p).take ll.toNat) with bulkLen := -1, multiBulkLen := n }) hlen
        ⟨le_rfl, by simp only; omega⟩ (by change _ ≤ c.readBuf.length; omega) h
      refine ⟨?_, hbl'⟩
      change c'.readBuf.length + (p + (ll + 2).toNat + 2 * n) ≤ c.readBuf.length at htake
      omega

theorem processMultibulkBuffer_takes {c c' : SubClient} (hlen : c.readBuf.length < 2 ^ 31) (hbl : BulkLenInt c)
    (h : processMultibulkBuffer c = (.ok, c')) : c'.readBuf.length < c.readBuf.length ∧ BulkLenInt c' := by
  rcases processMultibulkBuffer_cases c with
    ⟨-, p, -, heq⟩ | ⟨-, -, heq⟩ | ⟨-, ll, p, hr, -, heq⟩ | ⟨-, ll, p, hr, hll, heq⟩ | ⟨hm, heq⟩ <;> rw [heq] at h
  · cases h
  · cases h
  · cases h
    have hp := readMultibulkLen_length hr
    refine ⟨?_, hbl⟩
    simp only
    rw [sdsrange_drop hlen, List.length_drop]
    omega
  · have hp := readMultibulkLen_length hr
    obtain ⟨htake, hbl'⟩ := multibulkLoop_takes ll.toNat p
      (c := { c with multiBulkLen := ll.toNat, argv := .alloc ll.toNat }) hlen hbl hp.2.2 h
    refine ⟨?_, hbl'⟩
    simp only at htake
    omega
  · obtain ⟨htake, hbl'⟩ := multibulkLoop_takes c.multiBulkLen 0 hlen hbl (Nat.zero_le _) h
    exact ⟨by omega, hbl'⟩

/-! ## The line that is not taken -/

/-- A buffer of `2 ^ 31 - 1` bytes that is one line: the first newline is its last byte, no carriage
return stands before it, and the quotes of the line are balanced. -/
structure Stalls (buf : Sds) : Prop where
  length : buf.length = 2 ^ 31 - 1
  star : buf.head? ≠ some 42
  newline : strchr LF buf = some (2 ^ 31 - 2)
  noReturn : buf[(2 ^ 31 - 3 : Nat)]? ≠ some CR
  balanced : (sdssplitargs (buf.take (2 ^ 31 - 2))).isSome

/-- The end of the trim, `querylen + 2`, wraps to a negative index and the whole buffer is kept. -/
theorem sdsrange_stalls {buf : Sds} (h : buf.length = 2 ^ 31 - 1) : sdsrange buf (toInt (2 ^ 31 : Nat)) (-1) = buf := by
  have hstart : toInt ((2 ^ 31 : Nat) : Int) = -2 ^ 31 := by decide
  have hneg : toInt ((buf.length : Int) + -2 ^ 31) = -1 := by rw [h]; decide
  have hlast : toInt ((buf.length : Int) + -1) = 2 ^ 31 - 2 := by rw [h]; decide
  have hlen : toInt (buf.length : Int) = 2 ^ 31 - 1 := by rw [h]; decide
  unfold sdsrange
  simp only [hstart, hneg, hlast, hlen]
  rw [if_neg (by omega)]
  norm_num
  exact h.le

theorem Stalls.readLine {buf : Sds} (h : Stalls buf) : ∃ argv, readLine buf = .tokens argv (2 ^ 31 - 2) := by
  obtain ⟨argv, hargv⟩ := Option.isSome_iff_exists.1 h.balanced
  have hend : lineEnd buf (2 ^ 31 - 2) = 2 ^ 31 - 2 := by
    unfold lineEnd
    exact if_neg fun hcr => h.noReturn hcr.2
  refine ⟨argv, ?_⟩
  unfold PubsubBroker.readLine
  rw [h.newline]
  simp only
  rw [hend, hargv]

/-- The line is shorter behind the trim, or it is the one that is kept. -/
theorem readLine_trim {buf : Sds} {argv : List Sds} {n : Nat} (hlen : buf.length < 2 ^ 31) (h42 : buf.head? ≠ some 42)
    (h : readLine buf = .tokens argv n) :
    (sdsrange buf (toInt (n + 2 : Nat)) (-1)).length < buf.length ∧ ¬ Stalls buf ∨
      sdsrange buf (toInt (n + 2 : Nat)) (-1) = buf ∧ Stalls buf := by
  have hn := readLine_tokens h
  by_cases hbig : n + 2 < 2 ^ 31
  · refine .inl ⟨?_, fun hstall => ?_⟩
    · rw [toInt_of_lt (by omega) (by omega), sdsrange_drop hlen, List.length_drop]
      omega
    · obtain ⟨argv', h'⟩ := hstall.readLine
      have hsame := (InlineLine.tokens.inj (h.symm.trans h')).2
      omega
  · -- the index behind the line end is not an `int` only for the longest line that there is
    obtain rfl : n = 2 ^ 31 - 2 := by omega
    have hall : buf.length = 2 ^ 31 - 1 := by omega
    refine .inr ⟨sdsrange_stalls hall, ?_⟩
    unfold readLine at h
    split at h
    · split at h <;> cases h
    · rename_i nl hnl
      have hlt := strchr_lt hnl
      simp only at h
      split at h
      · cases h
      · rename_i args hargs
        obtain ⟨-, hend⟩ := InlineLine.tokens.inj h
        rw [hend] at hargs
        unfold lineEnd at hend
        split at hend
        · omega
        · rename_i hcr
          subst hend
          refine ⟨hall, h42, hnl, fun hret => hcr ⟨by omega, hret⟩, ?_⟩
          rw [hargs]
          rfl

/-! ## The driver loop -/

/-- A call on a line that stalls accepts it and leaves the buffer as it is. -/
theorem Stalls.processRequest {c : SubClient} (h : Stalls c.readBuf) :
    ∃ c', processRequest c = (.ok, c') ∧ c'.readBuf = c.readBuf := by
  obtain ⟨argv, hline⟩ := h.readLine
  rw [processRequest_eq, if_neg h.star]
  unfold processInlineBuffer
  simp only [hline]
  refine ⟨_, rfl, ?_⟩
  rw [copyTokens_eq, SubClient.pushArgs_readBuf]
  exact sdsrange_stalls h.length

/-- The driver loop on such a line never ends. -/
theorem Stalls.parseLoop : ∀ (fuel : Nat) {c : SubClient}, Stalls c.readBuf → parseLoop fuel c = none
  | 0, c, h => by
    unfold PubsubBroker.parseLoop
    rw [if_neg (by rw [h.length]; omega)]
  | fuel + 1, c, h => by
    obtain ⟨c', hreq, hbuf⟩ := h.processRequest
    unfold PubsubBroker.parseLoop
    rw [if_neg (by rw [h.length]; omega), hreq]
    exact Stalls.parseLoop fuel (hbuf ▸ h)

/-- The client while the driver loop is working, on any buffer but one that stalls. -/
structure Driven (c : SubClient) : Prop where
  length : c.readBuf.length < 2 ^ 31
  bulkLen : BulkLenInt c
  moves : ¬ Stalls c.readBuf

/-- Every accepted request takes a byte. -/
theorem Driven.takes {c c' : SubClient} (h : Driven c) (hreq : processRequest c = (.ok, c')) :
    c'.readBuf.length < c.readBuf.length ∧ Driven c' := by
  have htake : c'.readBuf.length < c.readBuf.length ∧ BulkLenInt c' := by
    rw [processRequest_eq] at hreq
    split at hreq
    · exact processMultibulkBuffer_takes (c := { c with reqType := REQ_MULTIBULK }) h.length h.bulkLen hreq
    · rename_i h42
      rcases processInlineBuffer_cases { c with reqType := REQ_INLINE } with
        ⟨-, heq⟩ | ⟨-, heq⟩ | ⟨argv, n, hr, heq⟩ <;> rw [heq] at hreq
      · cases hreq
      · cases hreq
      · cases hreq
        simp only [SubClient.pushArgs_readBuf, BulkLenInt, SubClient.pushArgs_bulkLen]
        refine ⟨?_, h.bulkLen⟩
        rcases readLine_trim h.length h42 hr with ⟨hlt, -⟩ | ⟨-, hstall⟩
        · exact hlt
        · exact absurd hstall h.moves
  have hlen := h.length
  exact ⟨htake.1, by omega, htake.2, fun hstall => by have := hstall.length; omega⟩

theorem Driven.parseLoop : ∀ {fuel : Nat} {c : SubClient}, c.readBuf.length ≤ fuel → Driven c → (parseLoop fuel c).isSome
  | 0, c, hfuel, _ => by
    unfold PubsubBroker.parseLoop
    rw [if_pos (by omega)]
    rfl
  | fuel + 1, c, hfuel, h => by
    unfold PubsubBroker.parseLoop
    split
    · rfl
    · split
      · rename_i c' heq
        obtain ⟨hlt, h'⟩ := h.takes heq
        exact Driven.parseLoop (by omega) h'
      · rfl

theorem Driven.callStates : ∀ (fuel : Nat) {c : SubClient}, Driven c → ∀ s ∈ callStates fuel c, Driven s
  | 0, c, _ => by simp [PubsubBroker.callStates]
  | fuel + 1, c, h => by
    unfold PubsubBroker.callStates
    split
    · simp
    · rw [List.forall_mem_cons]
      refine ⟨h, ?_⟩
      split
      · rename_i c' heq
        exact Driven.callStates fuel (h.takes heq).2
      · simp

/-- `process_sub_read_buf` on `c` returns, every call of a parser that succeeds leaves a strictly shorter
buffer, and in every call of `process_multibulk_buffer` the bulk loop ends after at most
`multi_bulk_len` passes that take a bulk. -/
structure Terminates (c : SubClient) : Prop where
  returns : ∃ fuel, (parseLoop fuel c).isSome
  takes : ∀ fuel, ∀ s ∈ callStates fuel c, ∀ s', processRequest s = (.ok, s') → s'.readBuf.length < s.readBuf.length
  loops : ∀ fuel, ∀ s ∈ callStates fuel c, ∀ pos s0, EntersLoop (guessReqType s) pos s0 →
    ∃ k ≤ s0.multiBulkLen, BulkLoop k pos s0 (processMultibulkBuffer (guessReqType s))

/-- On every buffer shorter than `2 ^ 31` and in every parser state, the processing of requests terminates
exactly when the buffer is not a line that stalls. -/
theorem terminates_iff {c : SubClient} (hlen : c.readBuf.length < 2 ^ 31) (hbl : -1 ≤ c.bulkLen ∧ c.bulkLen < 2 ^ 31) :
    Terminates c ↔ ¬ Stalls c.readBuf := by
  constructor
  · rintro ⟨⟨fuel, hsome⟩, -, -⟩ hstall
    rw [hstall.parseLoop] at hsome
    cases hsome
  · intro hmoves
    have hc : Driven c := ⟨hlen, hbl, hmoves⟩
    refine ⟨⟨_, hc.parseLoop le_rfl⟩, fun fuel s hs s' hreq => ?_, fun fuel s hs pos s0 h => h.ends⟩
    exact ((hc.callStates fuel s hs).takes hreq).1

theorem terminates_ping : Terminates { zeroedClient 5 [] with readBuf := ascii "ping\r\n" } ↔ ¬ Stalls (ascii "ping\r\n") :=
  terminates_iff (c := { zeroedClient 5 [] with readBuf := ascii "ping\r\n" }) (by decide) (by decide)

/-! ## A line of letters -/

theorem splitToken_letters (n : Nat) (current : Sds) :
    splitToken .plain current (List.replicate n 97) = some (current ++ List.replicate n 97, []) := by
  induction n generalizing current with
  | zero => simp [splitToken]
  | succ n ih =>
    rw [List.replicate_succ, splitToken, if_neg (by decide), if_neg (by decide), if_neg (by decide), ih]
    simp

/-- A line of letters is one argument. -/
theorem sdssplitargs_letters (n : Nat) : sdssplitargs (List.replicate (n + 1) 97) = some [List.replicate (n + 1) 97] := by
  have hcstr : cstr (List.replicate (n + 1) 97) = List.replicate (n + 1) 97 :=
    cstr_eq_self.2 fun h => absurd (List.eq_of_mem_replicate h) (by decide)
  have hspace : (List.replicate (n + 1) (97 : UInt8)).dropWhile isspace = 97 :: List.replicate n 97 := by
    rw [List.replicate_succ, List.dropWhile_cons_of_neg (by decide)]
  unfold sdssplitargs
  rw [hcstr, splitLoop, hspace]
  simp only
  rw [← List.replicate_succ, splitToken_letters, List.length_replicate]
  simp only [List.nil_append]
  rw [splitLoop]
  rfl

theorem stalls_letters {n : Nat} (hn : n + 1 = 2 ^ 31 - 2) : Stalls (List.replicate (n + 1) 97 ++ [LF]) := by
  have hnotin {b : UInt8} (hb : b ≠ 97) : b ∉ List.replicate (n + 1) (97 : UInt8) :=
    fun h => hb (List.eq_of_mem_replicate h)
  have hlen : (List.replicate (n + 1) (97 : UInt8)).length = 2 ^ 31 - 2 := by rw [List.length_replicate, hn]
  refine ⟨?_, ?_, ?_, ?_, ?_⟩
  · rw [List.length_append, hlen, List.length_singleton]
    norm_num
  · rw [List.replicate_succ]
    exact fun h => absurd (Option.some.inj h) (by decide)
  · rw [strchr_hit [] (hnotin (by decide)) (hnotin (by decide)), hlen]
  · rw [List.getElem?_append_left (by omega)]
    exact fun h => hnotin (b := CR) (by decide) (List.mem_of_getElem? h)
  · rw [← hlen, List.take_left, sdssplitargs_letters]
    rfl

/-- A line of `2 ^ 31 - 2` letters and a newline is processed for ever. -/
theorem endless_line :
    ∃ buf : Sds, buf.length < 2 ^ 31 ∧ buf = List.replicate (2 ^ 31 - 2) 97 ++ [LF] ∧
      ¬ Terminates { zeroedClient 5 [] with readBuf := buf } := by
  obtain ⟨n, hn⟩ : ∃ n, n + 1 = 2 ^ 31 - 2 := ⟨2 ^ 31 - 3, by norm_num⟩
  have hstall := stalls_letters hn
  rw [hn] at hstall
  refine ⟨_, ?_, rfl, fun h => ?_⟩
  · rw [hstall.length]
    norm_num
  · obtain ⟨fuel, hsome⟩ := h.returns
    rw [Stalls.parseLoop fuel hstall] at hsome
    cases hsome

end PubsubBroker

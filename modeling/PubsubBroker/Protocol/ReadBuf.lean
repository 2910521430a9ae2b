/-
What the parsers do to `read_buf`. Every call drops a prefix of the buffer: a positive one when it
succeeds, and when it fails what is left either waits for more bytes or was just rejected. A buffer
that waits is short, or ends with its first carriage return; a rejected one is kept from the
rejected bytes on, so it is bounded only in runs where nothing is rejected.
-/
import PubsubBroker.Protocol.ParseSpec
import PubsubBroker.Protocol.Runs

namespace PubsubBroker

open CLang

/-! ## Buffers that wait -/

/-- A buffer that a parser waits on: shorter than the longest bulk with its line end, or the line end
it looks for is cut between its two bytes. -/
def Waits (buf : Sds) : Prop := buf.length ≤ MAX_BULK_LEN + 1 ∨ strchr CR buf = some (buf.length - 1)

theorem readMultibulkLen_wait {buf : Sds} (h : buf.length < 2 ^ 31) (hw : readMultibulkLen buf = .wait) :
    Waits buf := by
  have hlimit := crLimit_of_lt (Nat.lt_add_right 2 h)
  unfold readMultibulkLen at hw
  split at hw
  · split at hw
    · cases hw
    · have : MAX_INLINE_READ = MAX_BULK_LEN := rfl
      exact .inl (by omega)
  · rename_i newline hcr
    split at hw
    · have := strchr_lt hcr
      exact .inr (by rw [hcr, Option.some_inj]; omega)
    · split at hw
      · cases hw
      · split at hw <;> cases hw

theorem readBulkLen_wait {buf : Sds} {pos : Nat} (h : buf.length < 2 ^ 31) (hw : readBulkLen buf pos = .wait) :
    Waits (buf.drop pos) := by
  have hlimit := crLimit_of_lt (Nat.lt_add_right 2 h)
  unfold readBulkLen at hw
  split at hw
  · split at hw
    · cases hw
    · have : MAX_INLINE_READ = MAX_BULK_LEN := rfl
      exact .inl (by rw [List.length_drop]; omega)
  · rename_i k hcr
    simp only at hw
    split at hw
    · have := strchr_lt hcr
      rw [List.length_drop] at this
      exact .inr (by rw [hcr, List.length_drop, Option.some_inj]; omega)
    · split at hw
      · cases hw
      · split at hw
        · cases hw
        · split at hw <;> cases hw

theorem readLine_wait {buf : Sds} (hw : readLine buf = .wait) : Waits buf := by
  unfold readLine at hw
  split at hw
  · split at hw
    · cases hw
    · have : SUB_READ_BUF_LEN = MAX_BULK_LEN := rfl
      exact .inl (by omega)
  · simp only at hw
    split at hw <;> cases hw

/-! ## The buffer across one call -/

/-- What a call that finds `buf` and `rejected` and leaves `c` does to the buffer: it drops at least
`m` bytes on success and otherwise some prefix, before bytes that wait or bytes that are rejected. -/
inductive BufferStep (m : Nat) (buf : Sds) (rejected : List Sds) (c : SubClient) : Status → Prop
  | ok (p : Nat) (hp : m ≤ p) (hbuf : c.readBuf = buf.drop p) (hrej : c.rejected = rejected) :
    BufferStep m buf rejected c .ok
  | wait (p : Nat) (hbuf : c.readBuf = buf.drop p) (hrej : c.rejected = rejected) (hw : Waits c.readBuf) :
    BufferStep m buf rejected c .err
  | reject (p : Nat) (hbuf : c.readBuf = buf.drop p) (hrej : c.rejected = c.readBuf :: rejected) :
    BufferStep m buf rejected c .err

theorem BufferStep.mono {m m' : Nat} {buf : Sds} {rejected : List Sds} {c : SubClient} {st : Status} (hm : m' ≤ m)
    (h : BufferStep m buf rejected c st) : BufferStep m' buf rejected c st := by
  cases h with
  | ok p hp hbuf hrej => exact .ok p (hm.trans hp) hbuf hrej
  | wait p hbuf hrej hw => exact .wait p hbuf hrej hw
  | reject p hbuf hrej => exact .reject p hbuf hrej

theorem BufferStep.setProtocolErr {m : Nat} {c : SubClient} (h : c.readBuf.length < 2 ^ 31) (p : Nat) :
    BufferStep m c.readBuf c.rejected (setProtocolErr c p) .err := by
  rw [setProtocolErr_eq h]
  exact .reject p rfl rfl

theorem BufferStep.trimTo {m : Nat} {c : SubClient} (h : c.readBuf.length < 2 ^ 31) {p : Nat}
    (hw : Waits (c.readBuf.drop p)) : BufferStep m c.readBuf c.rejected (trimTo c p) .err := by
  rw [trimTo_eq h]
  exact .wait p rfl rfl hw

/-- `bulk_len` is -1 or the length of a bulk. -/
def BulkLenOk (c : SubClient) : Prop := -1 ≤ c.bulkLen ∧ c.bulkLen ≤ MAX_BULK_LEN

/-- The body of the next bulk starts behind `pos` and within the buffer. -/
theorem BodyAt.range {c : SubClient} {pos p : Nat} {ll : Int} (hbl : BulkLenOk c) (hpos : pos ≤ c.readBuf.length)
    (h : BodyAt c pos ll p) : 0 ≤ ll ∧ ll ≤ MAX_BULK_LEN ∧ pos ≤ p ∧ p ≤ c.readBuf.length := by
  unfold BodyAt at h
  split at h
  · have := readBulkLen_length h
    omega
  · obtain ⟨rfl, rfl⟩ := h
    obtain ⟨h1, h2⟩ := hbl
    omega

/-- The bulk loop takes at least the two line end bytes of every bulk. -/
theorem multibulkLoop_buffer : ∀ (n pos : Nat) (c : SubClient), c.readBuf.length < 2 ^ 31 → BulkLenOk c →
    pos ≤ c.readBuf.length →
    BufferStep (pos + 2 * n) c.readBuf c.rejected (multibulkLoop n pos c).2 (multibulkLoop n pos c).1 ∧
      BulkLenOk (multibulkLoop n pos c).2
  | 0, pos, c, hlen, hbl, _ => by
    rw [multibulkLoop, trimTo_eq hlen]
    exact ⟨.ok pos le_rfl rfl rfl, hbl⟩
  | n + 1, pos, c, hlen, hbl, hpos => by
    rcases multibulkLoop_cases n pos c with
      ⟨p, -, hr, heq⟩ | ⟨-, hw, heq⟩ | ⟨ll, p, hb, hshort, heq⟩ | ⟨ll, p, hb, hfull, heq⟩ <;> rw [heq]
    · exact ⟨.setProtocolErr hlen p, hbl⟩
    · exact ⟨.trimTo hlen (readBulkLen_wait hlen hw), by simpa [BulkLenOk] using hbl⟩
    · obtain ⟨h0, hmax, hp, hple⟩ := hb.range hbl hpos
      rw [toUInt_of_lt (by omega) (by simp only [MAX_BULK_LEN] at hmax; omega)] at hshort
      have hw : Waits (c.readBuf.drop p) := .inl (by rw [List.length_drop]; omega)
      exact ⟨BufferStep.trimTo (c := { c with bulkLen := ll }) hlen hw, by
        simp only [BulkLenOk, trimTo_bulkLen]
        omega⟩
    · obtain ⟨h0, hmax, hp, hple⟩ := hb.range hbl hpos
      rw [toUInt_of_lt (by omega) (by simp only [MAX_BULK_LEN] at hmax; omega)] at hfull
      obtain ⟨hstep, hbl'⟩ := multibulkLoop_buffer n (p + (ll + 2).toNat)
        { c.pushArg ((c.readBuf.drop p).take ll.toNat) with bulkLen := -1, multiBulkLen := n } hlen
        ⟨le_rfl, by simp only; omega⟩ (by change _ ≤ c.readBuf.length; omega)
      exact ⟨hstep.mono (by omega), hbl'⟩

/-- A parser call on a buffer shorter than `2 ^ 31 - 1` that succeeds takes at least one byte. -/
theorem processRequest_buffer {c : SubClient} (hlen : c.readBuf.length < 2 ^ 31 - 1) (hbl : BulkLenOk c) :
    BufferStep 1 c.readBuf c.rejected (processRequest c).2 (processRequest c).1 ∧ BulkLenOk (processRequest c).2 := by
  have hlen' : c.readBuf.length < 2 ^ 31 := by omega
  rw [processRequest_eq]
  split
  · rcases processMultibulkBuffer_cases { c with reqType := REQ_MULTIBULK } with
      ⟨hm, p, hr, heq⟩ | ⟨hm, hr, heq⟩ | ⟨hm, ll, p, hr, hll, heq⟩ | ⟨hm, ll, p, hr, hll, heq⟩ | ⟨hm, heq⟩ <;>
      rw [heq]
    · exact ⟨BufferStep.setProtocolErr (c := { c with reqType := REQ_MULTIBULK }) hlen' p, hbl⟩
    · exact ⟨.wait 0 rfl rfl (readMultibulkLen_wait hlen' hr), hbl⟩
    · have hp := readMultibulkLen_length hr
      exact ⟨.ok p (by omega) (sdsrange_drop hlen' p) rfl, hbl⟩
    · have hp := readMultibulkLen_length hr
      obtain ⟨hstep, hbl'⟩ := multibulkLoop_buffer ll.toNat p { c with
        reqType := REQ_MULTIBULK, multiBulkLen := ll.toNat, argv := .alloc ll.toNat } hlen' hbl hp.2.2
      exact ⟨hstep.mono (by omega), hbl'⟩
    · obtain ⟨hstep, hbl'⟩ := multibulkLoop_buffer c.multiBulkLen 0 { c with reqType := REQ_MULTIBULK } hlen' hbl
        (Nat.zero_le _)
      simp only at hm
      exact ⟨hstep.mono (by omega), hbl'⟩
  · rcases processInlineBuffer_cases { c with reqType := REQ_INLINE } with ⟨hr, heq⟩ | ⟨hr, heq⟩ | ⟨argv, n, hr, heq⟩ <;>
      rw [heq]
    · exact ⟨BufferStep.setProtocolErr (c := { c with reqType := REQ_INLINE }) hlen' 0, hbl⟩
    · exact ⟨.wait 0 rfl rfl (readLine_wait hr), hbl⟩
    · have hn : n < c.readBuf.length := readLine_tokens hr
      have hint : toInt ((n + 2 : Nat) : Int) = (n + 2 : Nat) := toInt_of_lt (by omega) (by omega)
      refine ⟨.ok (n + 2) (by omega) ?_ (by simp), ?_⟩
      · simp only [SubClient.pushArgs_readBuf, hint]
        exact sdsrange_drop hlen' (n + 2)
      · exact ⟨by simpa using hbl.1, by simpa using hbl.2⟩

/-- The driver loop ends on a buffer shorter than `2 ^ 31 - 1`. -/
theorem parseLoop_isSome : ∀ {fuel : Nat} {c : SubClient}, c.readBuf.length ≤ fuel →
    c.readBuf.length < 2 ^ 31 - 1 → BulkLenOk c → (parseLoop fuel c).isSome
  | 0, c, hfuel, _, _ => by
    unfold parseLoop
    rw [if_pos (by omega)]
    rfl
  | fuel + 1, c, hfuel, hlen, hbl => by
    unfold parseLoop
    split
    · rfl
    · obtain ⟨hstep, hbl'⟩ := processRequest_buffer hlen hbl
      split
      · rename_i c' heq
        rw [heq] at hstep hbl'
        cases hstep with
        | ok p hp hbuf hrej =>
          have : c'.readBuf.length = c.readBuf.length - p := by rw [hbuf, List.length_drop]
          exact parseLoop_isSome (by omega) (by omega) hbl'
      · rfl

/-! ## What is rejected -/

/-- The offsets at which the bulk loop looks for a header line. -/
def headerOffsets (buf : Sds) : Nat → Nat → Int → List Nat
  | 0, _, _ => []
  | n + 1, pos, bl =>
    match (if bl = -1 then readBulkLen buf pos else .length bl pos) with
    | .length ll p =>
      (if bl = -1 then [pos] else []) ++
        if buf.length - p < toUInt (ll + 2) then [] else headerOffsets buf n (p + (ll + 2).toNat) (-1)
    | _ => [pos]

/-- The offsets at which a call looks for a bulk header. -/
def bulkHeaderOffsets (c : SubClient) : List Nat :=
  if c.multiBulkLen = 0 then
    match readMultibulkLen c.readBuf with
    | .length ll p => headerOffsets c.readBuf ll.toNat p c.bulkLen
    | _ => []
  else headerOffsets c.readBuf c.multiBulkLen 0 c.bulkLen

/-- The call finds nothing to reject in the buffer: neither a count line nor a bulk header, or not the line of an
inline request. -/
def NothingRejected (c : SubClient) : Prop :=
  if c.readBuf.head? = some 42 then
    (c.multiBulkLen = 0 → ∀ p, readMultibulkLen c.readBuf ≠ .reject p) ∧
      ∀ q ∈ bulkHeaderOffsets c, ∀ p, readBulkLen c.readBuf q ≠ .reject p
  else readLine c.readBuf ≠ .reject

theorem headerOffsets_body {c : SubClient} {n pos p : Nat} {ll : Int} (h : BodyAt c pos ll p) :
    headerOffsets c.readBuf (n + 1) pos c.bulkLen = (if c.bulkLen = -1 then [pos] else []) ++
      if c.readBuf.length - p < toUInt (ll + 2) then [] else headerOffsets c.readBuf n (p + (ll + 2).toNat) (-1) := by
  unfold BodyAt at h
  rw [headerOffsets]
  split at h
  · rename_i hbl
    simp only [if_pos hbl, h]
  · rename_i hbl
    obtain ⟨rfl, rfl⟩ := h
    simp only [if_neg hbl]

/-- The bulk loop rejects what one of the headers it looks for is rejected for. -/
theorem multibulkLoop_rejected : ∀ (n pos : Nat) (c : SubClient), (multibulkLoop n pos c).2.rejected = c.rejected ↔
    ∀ q ∈ headerOffsets c.readBuf n pos c.bulkLen, ∀ p, readBulkLen c.readBuf q ≠ .reject p
  | 0, pos, c => by
    rw [multibulkLoop, headerOffsets]
    simp
  | n + 1, pos, c => by
    -- where a header is not read, no other is looked for
    have hone {h : Header} (hbl : c.bulkLen = -1) (hr : readBulkLen c.readBuf pos = h) (hne : ∀ ll p, h ≠ .length ll p) :
        headerOffsets c.readBuf (n + 1) pos c.bulkLen = [pos] := by
      rw [headerOffsets, if_pos hbl, hr]
      cases h with
      | length ll p => exact absurd rfl (hne ll p)
      | _ => rfl
    -- a header that is read is not rejected
    have hfirst {ll : Int} {p : Nat} (hb : BodyAt c pos ll p) :
        ∀ q ∈ (if c.bulkLen = -1 then [pos] else []), ∀ p', readBulkLen c.readBuf q ≠ .reject p' := by
      intro q hq p'
      unfold BodyAt at hb
      split at hq
      · rename_i hbl
        rw [if_pos hbl] at hb
        rw [List.mem_singleton.1 hq, hb]
        exact fun h => by cases h
      · cases hq
    rcases multibulkLoop_cases n pos c with
      ⟨p, hbl, hr, heq⟩ | ⟨hbl, hw, heq⟩ | ⟨ll, p, hb, hshort, heq⟩ | ⟨ll, p, hb, hfull, heq⟩ <;> rw [heq]
    · rw [hone hbl hr (by simp), List.forall_mem_singleton]
      refine iff_of_false (fun h => ?_) fun h => h p hr
      exact absurd (congrArg List.length h) (by simp [setProtocolErr])
    · rw [hone hbl hw (by simp), List.forall_mem_singleton, hw]
      simp
    · rw [headerOffsets_body hb, if_pos hshort, List.append_nil]
      exact iff_of_true (by simp) (hfirst hb)
    · rw [headerOffsets_body hb, if_neg (not_lt.2 hfull), List.forall_mem_append, and_iff_right (hfirst hb)]
      exact multibulkLoop_rejected n (p + (ll + 2).toNat)
        { c.pushArg ((c.readBuf.drop p).take ll.toNat) with bulkLen := -1, multiBulkLen := n }

theorem processMultibulkBuffer_rejected (c : SubClient) : (processMultibulkBuffer c).2.rejected = c.rejected ↔
    (c.multiBulkLen = 0 → ∀ p, readMultibulkLen c.readBuf ≠ .reject p) ∧
      ∀ q ∈ bulkHeaderOffsets c, ∀ p, readBulkLen c.readBuf q ≠ .reject p := by
  unfold bulkHeaderOffsets
  rcases processMultibulkBuffer_cases c with
    ⟨hm, p, hr, heq⟩ | ⟨hm, hr, heq⟩ | ⟨hm, ll, p, hr, hll, heq⟩ | ⟨hm, ll, p, hr, hll, heq⟩ | ⟨hm, heq⟩ <;> rw [heq]
  · refine iff_of_false (fun h => ?_) fun h => h.1 hm p hr
    exact absurd (congrArg List.length h) (by simp [setProtocolErr])
  · rw [if_pos hm, hr]
    exact iff_of_true rfl ⟨fun _ _ h => (by cases h), fun _ hq => (by cases hq)⟩
  · rw [if_pos hm, hr]
    refine iff_of_true rfl ⟨fun _ _ h => (by cases h), fun q hq => ?_⟩
    simp only at hq
    rw [show ll.toNat = 0 by omega, headerOffsets] at hq
    cases hq
  · rw [if_pos hm, hr]
    exact (multibulkLoop_rejected ll.toNat p { c with multiBulkLen := ll.toNat, argv := .alloc ll.toNat }).trans
      (and_iff_right fun _ _ h => by cases h).symm
  · rw [if_neg hm]
    exact (multibulkLoop_rejected c.multiBulkLen 0 c).trans (and_iff_right fun h => absurd h hm).symm

/-- A call takes the `set_protocol_err` branch when there is something to reject. -/
theorem processRequest_rejected (s : SubClient) : (processRequest s).2.rejected = s.rejected ↔ NothingRejected s := by
  rw [processRequest_eq, NothingRejected]
  split
  · exact processMultibulkBuffer_rejected { s with reqType := REQ_MULTIBULK }
  · rcases processInlineBuffer_cases { s with reqType := REQ_INLINE } with ⟨hr, heq⟩ | ⟨hr, heq⟩ | ⟨argv, n, hr, heq⟩ <;>
      simp only at hr <;> rw [heq, hr]
    · refine iff_of_false (fun h => ?_) fun h => h rfl
      exact absurd (congrArg List.length h) (by simp [setProtocolErr])
    · exact iff_of_true rfl fun h => by cases h
    · exact iff_of_true (by simp) fun h => by cases h

/-! ## The bound -/

/-- What a buffer between two reads is: short, or of one more read and cut inside a line end. -/
def BufOk (buf : Sds) : Prop :=
  buf.length ≤ MAX_BULK_LEN + 1 ∨ buf.length ≤ 2 * SUB_READ_BUF_LEN + 1 ∧ buf.getLast? = some CR

theorem BufOk.length_le {buf : Sds} (h : BufOk buf) : buf.length ≤ 2 * SUB_READ_BUF_LEN + 1 := by
  have : MAX_BULK_LEN = SUB_READ_BUF_LEN := rfl
  rcases h with h | h <;> omega

/-- A line end that was cut is whole after the next read, so it is not waited on twice. -/
theorem BufOk.of_waits {old chunk buf : Sds} (hold : BufOk old) (hchunk : chunk.length ≤ SUB_READ_BUF_LEN)
    (hsuf : buf <:+ old ++ chunk) (hw : Waits buf) : BufOk buf := by
  have heq : MAX_BULK_LEN = SUB_READ_BUF_LEN := rfl
  rcases hw with hshort | hcr
  · exact .inl hshort
  -- the buffer ends with its first carriage return
  obtain ⟨l, r, rfl, hl, hnot, -⟩ := strchr_some hcr
  have hr : r = [] := by
    rw [List.length_append, List.length_cons] at hl
    exact List.length_eq_zero_iff.1 (by omega)
  subst hr
  have hlast : (l ++ [CR]).getLast? = some CR := by simp
  obtain ⟨t, ht⟩ := hsuf
  rcases List.append_eq_append_iff.1 ht with ⟨a, rfl, hb⟩ | ⟨a, -, rfl⟩
  · rcases chunk.eq_nil_or_concat' with rfl | ⟨chunk, b, rfl⟩
    · have := hold.length_le
      refine .inr ⟨?_, hlast⟩
      rw [hb]
      simp only [List.length_append, List.length_nil] at this ⊢
      omega
    · -- a cut line end in the old bytes would be the first carriage return
      rw [← List.append_assoc] at hb
      obtain ⟨rfl, -⟩ := List.append_inj' hb rfl
      rcases hold with hold | ⟨-, hcr'⟩
      · refine .inr ⟨?_, hlast⟩
        simp only [List.length_append, List.length_cons, List.length_nil] at hold hchunk ⊢
        omega
      · rcases a.eq_nil_or_concat' with rfl | ⟨a, x, rfl⟩
        · refine .inr ⟨?_, hlast⟩
          simp only [List.length_append, List.length_cons, List.length_nil] at hchunk ⊢
          omega
        · rw [← List.append_assoc, List.getLast?_concat] at hcr'
          cases hcr'
          exact absurd hnot (by simp)
  · rw [List.length_append] at hchunk
    refine .inr ⟨by omega, hlast⟩

/-- The bytes that a call rejects are discarded: what is left is shorter than the buffer from the
rejected bytes on. -/
def Discards (s : SubClient) : Prop :=
  ∀ r, (processRequest s).2.rejected = r :: s.rejected → (processRequest s).2.readBuf.length < r.length

/-- Every read of the run returns and leaves at most `B` bytes in the buffer, and no rejected byte
stays in it. -/
structure BoundedRun (B : Nat) (c : SubClient) (chunks : List (List UInt8)) : Prop where
  returns : (readStates c chunks).length = chunks.length
  bounded : ∀ s ∈ readStates c chunks, s.readBuf.length ≤ B
  discards : ∀ s ∈ runCalls c chunks, Discards s

/-- The client between two reads. -/
structure Resting (c : SubClient) : Prop where
  bulkLen : BulkLenOk c
  buf : BufOk c.readBuf

/-- The client while the loop is working on a read. -/
structure Working (c : SubClient) : Prop where
  bulkLen : BulkLenOk c
  buf : ∃ old chunk, BufOk old ∧ chunk.length ≤ SUB_READ_BUF_LEN ∧ c.readBuf <:+ old ++ chunk

theorem Working.length_lt {c : SubClient} (h : Working c) : c.readBuf.length < 2 ^ 31 - 1 := by
  obtain ⟨old, chunk, hold, hchunk, hsuf⟩ := h.buf
  have h1 := hold.length_le
  have h2 := hsuf.length_le
  rw [List.length_append] at h2
  unfold SUB_READ_BUF_LEN at *
  omega

/-- A short buffer keeps whatever is rejected. -/
theorem Working.discards_iff {s : SubClient} (h : Working s) : Discards s ↔ NothingRejected s := by
  rw [← processRequest_rejected]
  obtain ⟨hstep, -⟩ := processRequest_buffer h.length_lt h.bulkLen
  unfold Discards
  generalize processRequest s = r at hstep ⊢
  obtain ⟨st, c⟩ := r
  cases hstep with
  | ok p hp hbuf hrej =>
    simp only at hrej ⊢
    simp [hrej]
  | wait p hbuf hrej hw =>
    simp only at hrej ⊢
    simp [hrej]
  | reject p hbuf hrej =>
    simp only at hrej ⊢
    rw [hrej]
    constructor
    · intro hd
      exact absurd (hd _ rfl) (lt_irrefl _)
    · intro he
      exact absurd (congrArg List.length he) (by simp)

theorem Working.ok {s c : SubClient} (h : Working s) (heq : processRequest s = (.ok, c)) : Working c := by
  obtain ⟨hstep, hbl⟩ := processRequest_buffer h.length_lt h.bulkLen
  rw [heq] at hstep hbl
  obtain ⟨old, chunk, hold, hchunk, hsuf⟩ := h.buf
  cases hstep with
  | ok p hp hbuf hrej => exact ⟨hbl, old, chunk, hold, hchunk, hbuf ▸ (List.drop_suffix ..).trans hsuf⟩

theorem Working.err {s c : SubClient} (h : Working s) (hnone : NothingRejected s) (heq : processRequest s = (.err, c)) :
    Resting c := by
  have hrej' := (processRequest_rejected s).2 hnone
  obtain ⟨hstep, hbl⟩ := processRequest_buffer h.length_lt h.bulkLen
  rw [heq] at hstep hbl hrej'
  obtain ⟨old, chunk, hold, hchunk, hsuf⟩ := h.buf
  cases hstep with
  | wait p hbuf hrej hw => exact ⟨hbl, hold.of_waits hchunk (hbuf ▸ (List.drop_suffix ..).trans hsuf) hw⟩
  | reject p hbuf hrej =>
    rw [hrej] at hrej'
    exact absurd (congrArg List.length hrej') (by simp)

theorem Resting.finishRead {c : SubClient} (h : Resting c) : Resting (finishRead c).1 := by
  have h0 : BulkLenOk (resetClient c) := ⟨le_rfl, by simp [resetClient]⟩
  unfold PubsubBroker.finishRead
  split
  · exact ⟨h.bulkLen, h.buf⟩
  · exact ⟨h0, h.buf⟩

theorem Resting.append {c : SubClient} {chunk : List UInt8} (h : Resting c) (hc : chunk.length ≤ SUB_READ_BUF_LEN) :
    Working { c with readBuf := c.readBuf ++ chunk } :=
  ⟨h.bulkLen, c.readBuf, chunk, h.buf, hc, List.suffix_rfl⟩

/-- As long as every read leaves a resting client, every read returns. -/
theorem readStates_length : ∀ {chunks : List (List UInt8)} {c : SubClient},
    (∀ chunk ∈ chunks, chunk.length ≤ SUB_READ_BUF_LEN) → Resting c → (∀ s ∈ readStates c chunks, Resting s) →
    (readStates c chunks).length = chunks.length
  | [], _, _, _, _ => rfl
  | chunk :: chunks, c, hchunks, hc, hall => by
    rw [List.forall_mem_cons] at hchunks
    have hwork := hc.append hchunks.1
    have hsome : (subRead c chunk).isSome := by
      unfold subRead processSubReadBuf
      rw [Option.isSome_map]
      exact parseLoop_isSome le_rfl hwork.length_lt hwork.bulkLen
    obtain ⟨r, hr⟩ := Option.isSome_iff_exists.1 hsome
    unfold readStates at hall ⊢
    simp only [hr, List.forall_mem_cons] at hall ⊢
    rw [List.length_cons, List.length_cons, readStates_length hchunks.2 hall.1 hall.2]

/-- From a new client, a run of reads is bounded and discards what it rejects exactly when no call finds
anything to reject. -/
theorem readBuf_bounded (junk : Junk) (fd : Nat) (id : Sds) {chunks : List (List UInt8)}
    (hchunks : ∀ chunk ∈ chunks, chunk.length ≤ SUB_READ_BUF_LEN) :
    BoundedRun (2 * SUB_READ_BUF_LEN + 1) (subCliCreate junk fd id) chunks ↔
      ∀ s ∈ runCalls (subCliCreate junk fd id) chunks, NothingRejected s := by
  have hnew : Resting (subCliCreate junk fd id) := ⟨⟨le_rfl, by simp [subCliCreate]⟩, .inl (Nat.zero_le _)⟩
  have hrule := runCalls_rule (R := Resting) (L := Working) (P := Discards)
    (Q := NothingRejected) (C := fun chunk => chunk.length ≤ SUB_READ_BUF_LEN)
    (fun _ _ h hc => h.append hc) (fun _ h => h.discards_iff) (fun _ _ h _ heq => h.ok heq)
    (fun _ _ h hq heq => (h.err hq heq).finishRead)
    (fun s h hnil => Resting.finishRead ⟨h.bulkLen, .inl (by rw [hnil]; exact Nat.zero_le _)⟩) chunks _ hnew hchunks
  constructor
  · intro h
    exact hrule.1.1 h.discards
  · intro hq
    have hrest := hrule.2 hq
    exact ⟨readStates_length hchunks hnew hrest, fun s hs => (hrest s hs).buf.length_le, hrule.1.2 hq⟩

theorem readBuf_bounded_ping :
    (∀ chunk ∈ [ascii "PING\r", ascii "\n"], chunk.length ≤ SUB_READ_BUF_LEN) ∧
      (BoundedRun (2 * SUB_READ_BUF_LEN + 1) (zeroedClient 5 []) [ascii "PING\r", ascii "\n"] ↔
        ∀ s ∈ runCalls (zeroedClient 5 []) [ascii "PING\r", ascii "\n"], NothingRejected s) :=
  ⟨by decide +kernel, readBuf_bounded ⟨0, 0, .alloc 0⟩ 5 [] (by decide +kernel)⟩

/-- A line that does not end is rejected once it is too long, and kept. -/
theorem subRead_no_newline (c : SubClient) (chunk : List UInt8) (hlen : (c.readBuf ++ chunk).length < 2 ^ 31)
    (h42 : (c.readBuf ++ chunk).head? ≠ some 42) (hlf : LF ∉ c.readBuf ++ chunk) :
    ∃ c' cmd, subRead c chunk = some (c', cmd) ∧ c'.readBuf = c.readBuf ++ chunk := by
  have hfin : ∀ s : SubClient, (finishRead s).1.readBuf = s.readBuf := fun s => by
    unfold finishRead
    split <;> rfl
  have hcall : ∃ c1, processRequest { c with readBuf := c.readBuf ++ chunk } = (.err, c1) ∧
      c1.readBuf = c.readBuf ++ chunk := by
    rw [processRequest_eq, if_neg h42]
    unfold processInlineBuffer readLine
    simp only [strchr_none_of_notMem hlf]
    split
    · exact ⟨_, rfl, by rw [setProtocolErr_eq hlen]; rfl⟩
    · exact ⟨_, rfl, rfl⟩
    · rename_i heq
      split at heq <;> cases heq
  obtain ⟨c1, heq, hbuf⟩ := hcall
  have hloop : ∃ c2, parseLoop (c.readBuf ++ chunk).length { c with readBuf := c.readBuf ++ chunk } = some c2 ∧
      c2.readBuf = c.readBuf ++ chunk := by
    cases hn : (c.readBuf ++ chunk).length with
    | zero => exact ⟨_, by simp only [parseLoop, hn, if_true]; rfl, rfl⟩
    | succ n => exact ⟨c1, by simp only [parseLoop, hn, Nat.add_one_ne_zero, if_false, heq], hbuf⟩
  obtain ⟨c2, hc2, hbuf2⟩ := hloop
  refine ⟨(finishRead c2).1, (finishRead c2).2, ?_, by rw [hfin, hbuf2]⟩
  unfold subRead processSubReadBuf
  rw [hc2]
  rfl

/-- Short of `2 ^ 31` bytes no length bounds the buffer of a client whose line does not end. -/
theorem readBuf_grows : ∀ (n m : Nat) (c : SubClient), c.readBuf = List.replicate m 97 →
    m + (n + 1) * SUB_READ_BUF_LEN < 2 ^ 31 →
    ∃ s ∈ readStates c (List.replicate (n + 1) (List.replicate SUB_READ_BUF_LEN 97)),
      s.readBuf.length = m + (n + 1) * SUB_READ_BUF_LEN
  | n, m, c, hbuf, hlt => by
    have hcat : c.readBuf ++ List.replicate SUB_READ_BUF_LEN 97 = List.replicate (m + SUB_READ_BUF_LEN) 97 := by
      rw [hbuf, List.replicate_append_replicate]
    obtain ⟨c', cmd, hread, hbuf'⟩ := subRead_no_newline c (List.replicate SUB_READ_BUF_LEN 97)
      (by rw [hcat, List.length_replicate]; rw [Nat.add_mul] at hlt; omega)
      (by rw [hcat, List.head?_replicate]; split <;> simp)
      (by rw [hcat]; exact fun h => absurd (List.eq_of_mem_replicate h) (by decide))
    rw [List.replicate_succ]
    unfold readStates
    simp only [hread, List.exists_mem_cons_iff]
    rw [hcat] at hbuf'
    cases n with
    | zero => exact .inl (by rw [hbuf', List.length_replicate]; omega)
    | succ n =>
      obtain ⟨s, hs, hlen⟩ := readBuf_grows n (m + SUB_READ_BUF_LEN) c' hbuf' (by
        rw [Nat.succ_mul (n + 1)] at hlt
        omega)
      exact .inr ⟨s, hs, by rw [hlen, Nat.succ_mul (n + 1)]; omega⟩

/-- A count line that is no number stays in the buffer, and the request behind it is never executed. -/
theorem rejected_kept :
    (¬ ∃ B, ∀ chunks : List (List UInt8), (∀ chunk ∈ chunks, chunk.length ≤ SUB_READ_BUF_LEN) →
      BoundedRun B (zeroedClient 5 []) chunks) ∧
    (feed (zeroedClient 5 []) [ascii "*x\r\n", ascii "PING\r\n"]).map (fun r => (r.1.readBuf, r.2)) =
      some (ascii "*x\r\nPING\r\n", []) := by
  refine ⟨?_, by decide +kernel⟩
  rintro ⟨B, h⟩
  have hkept : ∃ s ∈ runCalls (zeroedClient 5 []) [ascii "*x\r\n"],
      (processRequest s).2.rejected = ascii "*x\r\n" :: s.rejected ∧ (processRequest s).2.readBuf = ascii "*x\r\n" := by
    decide +kernel
  obtain ⟨s, hs, hrej, hbuf⟩ := hkept
  have := (h [ascii "*x\r\n"] (by decide +kernel)).discards s hs _ hrej
  rw [hbuf] at this
  exact lt_irrefl _ this

end PubsubBroker

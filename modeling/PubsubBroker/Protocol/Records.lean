/-
What a call of `process_multibulk_buffer` records of the bytes it removes: the count line in
`multi_bulk_len`, a bulk header in `bulk_len`, a bulk body in `argv`. Every exit of the parser trims
the buffer by hand, and `consumes_recorded_iff` says for which calls the trim is the right one.
-/
import PubsubBroker.Protocol.ReadBuf

namespace PubsubBroker

open CLang Numeral

/-! ## Header lines that are read -/

/-- A header line as the parser reads it: the byte behind the carriage return may be any. -/
def headerLine (b : UInt8) (ll : Int) (x : UInt8) : List UInt8 := b :: decimalInt ll ++ [CR, x]

theorem length_headerLine (b : UInt8) (ll : Int) (x : UInt8) :
    (headerLine b ll x).length = (decimalInt ll).length + 3 := by simp [headerLine]

/-- A line up to its carriage return, a number on it and one more byte: a header line. -/
theorem eq_headerLine {buf : Sds} {newline : Nat} {ll : Int} (hcr : strchr CR buf = some newline)
    (hlf : newline + 2 ≤ buf.length) (hll : string2ll ((buf.drop 1).take (newline - 1)) = some ll) :
    ∃ b x, buf = headerLine b ll x ++ buf.drop (newline + 2) ∧ newline + 2 = (headerLine b ll x).length ∧
      buf.head? = some b ∧ b ≠ CR ∧ b ≠ 0 := by
  obtain ⟨l, r, rfl, rfl, hno, h0⟩ := strchr_some hcr
  cases l with
  | nil => cases hll
  | cons b s =>
    have hs : ((b :: s ++ CR :: r).drop 1).take ((b :: s).length - 1) = s := by simp
    rw [hs] at hll
    obtain rfl := string2ll_some hll
    cases r with
    | nil => simp at hlf
    | cons x rest =>
      simp only [List.mem_cons, not_or] at hno h0
      refine ⟨b, x, ?_, by rw [length_headerLine, List.length_cons], rfl, Ne.symm hno.1, Ne.symm h0.1⟩
      simp [headerLine]

theorem readMultibulkLen_line {buf : Sds} {ll : Int} {p : Nat} (h : readMultibulkLen buf = .length ll p) :
    ∃ b x, buf = headerLine b ll x ++ buf.drop p ∧ p = (headerLine b ll x).length ∧ buf.head? = some b ∧
      b ≠ CR ∧ b ≠ 0 := by
  unfold readMultibulkLen at h
  split at h
  · split at h <;> cases h
  · rename_i newline hcr
    split at h
    · cases h
    · rename_i hlf
      split at h
      · cases h
      · rename_i ll' hll
        split at h
        · cases h
        · cases h
          have := crLimit_le buf
          exact eq_headerLine hcr (by omega) hll

theorem readBulkLen_line {buf : Sds} {pos p : Nat} {ll : Int} (h : readBulkLen buf pos = .length ll p) :
    ∃ x, buf.drop pos = headerLine 36 ll x ++ buf.drop p ∧ p = pos + (headerLine 36 ll x).length := by
  unfold readBulkLen at h
  split at h
  · split at h <;> cases h
  · rename_i k hcr
    simp only at h
    split at h
    · cases h
    · rename_i hlf
      split at h
      · cases h
      · rename_i hdollar
        split at h
        · cases h
        · rename_i ll' hll
          split at h
          · cases h
          · cases h
            have := crLimit_le buf
            rw [show pos + k - (pos + 1) = k - 1 by omega, ← List.drop_drop] at hll
            obtain ⟨b, x, hbuf, hlen, hhead, -, -⟩ := eq_headerLine hcr (by rw [List.length_drop]; omega) hll
            rw [not_not.1 hdollar] at hhead
            cases hhead
            rw [List.drop_drop] at hbuf
            exact ⟨x, hbuf, by omega⟩

/-! ## What is recorded -/

/-- From `bulk_len = bl` on, the bytes are bulk headers and bulk bodies, of which `args` and, in the
end, `bulk_len = bl'` are recorded. The two bytes behind a body may be any. -/
inductive Recorded : Int → List UInt8 → List Sds → Int → Prop
  | done (bl : Int) : Recorded bl [] [] bl
  | header {ll bl' : Int} {bytes : List UInt8} {args : List Sds} (x : UInt8) (hll : 0 ≤ ll) (hmax : ll ≤ MAX_BULK_LEN)
      (rest : Recorded ll bytes args bl') : Recorded (-1) (headerLine 36 ll x ++ bytes) args bl'
  | body {bl' : Int} {bytes : List UInt8} {args : List Sds} (arg : Sds) (x y : UInt8)
      (rest : Recorded (-1) bytes args bl') : Recorded arg.length (arg ++ [x, y] ++ bytes) (arg :: args) bl'

/-- The count line at the start of the buffer and the client that has recorded it, or no line. The number on
the line is a `long long`, and of the positive ones only those up to `SUB_READ_BUF_LEN` are recorded. -/
inductive Counted (c : SubClient) : List UInt8 → SubClient → Prop
  | none : Counted c [] c
  | empty {b : UInt8} {ll : Int} (x : UInt8) (hb : b ≠ CR ∧ b ≠ 0) (hm : c.multiBulkLen = 0) (hll : ll ≤ 0)
      (hmin : -2 ^ 63 ≤ ll) : Counted c (headerLine b ll x) c
  | line {b : UInt8} {ll : Int} (x : UInt8) (hb : b ≠ CR ∧ b ≠ 0) (hm : c.multiBulkLen = 0) (hll : 0 < ll)
      (hmax : ll ≤ SUB_READ_BUF_LEN) : Counted c (headerLine b ll x) { c with multiBulkLen := ll.toNat, argv := .alloc ll.toNat }

/-- The bytes that a call takes off the buffer of `c` are those of the count line, the bulk headers and
the bulk bodies that it has recorded in the counters and in `argv` of `c'`. -/
def ConsumesRecorded (c c' : SubClient) : Prop :=
  ∃ line bytes args c1, Counted c line c1 ∧ Recorded c1.bulkLen bytes args c'.bulkLen ∧
    args.length ≤ c1.multiBulkLen ∧ c'.multiBulkLen = c1.multiBulkLen - args.length ∧
    c'.argv = (c1.pushArgs args).argv ∧ c'.argc = (c1.pushArgs args).argc ∧
    c.readBuf = line ++ bytes ++ c'.readBuf

/-! ## The bulk loop -/

/-- The header line at the offset has its carriage return, or the buffer is not too long to go on
without. At the start of the buffer nothing depends on it. -/
def HeaderFits (buf : Sds) (pos : Nat) : Prop :=
  pos = 0 ∨ strchr CR (buf.drop pos) ≠ none ∨ buf.length ≤ MAX_INLINE_READ

instance (buf : Sds) (pos : Nat) : Decidable (HeaderFits buf pos) := inferInstanceAs (Decidable (_ ∨ _ ∨ _))

/-- A header line that is read is there. -/
theorem BodyAt.headerFits {c : SubClient} {pos p : Nat} {ll : Int} (h : BodyAt c pos ll p) :
    ∀ q ∈ (if c.bulkLen = -1 then [pos] else []), HeaderFits c.readBuf q := by
  intro q hq
  unfold BodyAt at h
  split at hq
  · rename_i hbl
    rw [if_pos hbl] at h
    rw [List.mem_singleton.1 hq]
    refine .inr (.inl fun hcr => ?_)
    unfold readBulkLen at h
    rw [hcr] at h
    simp only at h
    split at h <;> cases h
  · cases hq

/-- What is rejected is a header line that is there, or a buffer that is too long to wait for one. -/
theorem readBulkLen_reject {buf : Sds} {pos p : Nat} (h : readBulkLen buf pos = .reject p) :
    p = pos ∧ strchr CR (buf.drop pos) ≠ none ∨
      p = 0 ∧ strchr CR (buf.drop pos) = none ∧ MAX_INLINE_READ < buf.length := by
  unfold readBulkLen at h
  split at h
  · rename_i hcr
    split at h
    · rename_i hlong
      cases h
      exact .inr ⟨rfl, hcr, hlong⟩
    · cases h
  · rename_i hcr
    have hfound : strchr CR (buf.drop pos) ≠ none := by simp [hcr]
    simp only at h
    split at h
    · cases h
    · split at h
      · cases h
        exact .inl ⟨rfl, hfound⟩
      · split at h
        · cases h
          exact .inl ⟨rfl, hfound⟩
        · split at h
          · cases h
            exact .inl ⟨rfl, hfound⟩
          · cases h

/-- The offset that a rejection trims to is that of the header line exactly when the line fits. -/
theorem reject_headerFits {buf : Sds} {pos p : Nat} (h : readBulkLen buf pos = .reject p) :
    p = pos ∧ HeaderFits buf pos ∨ p = 0 ∧ ¬ HeaderFits buf pos := by
  unfold HeaderFits
  rcases readBulkLen_reject h with ⟨hp, hcr⟩ | ⟨hp, hcr, hlong⟩
  · exact .inl ⟨hp, .inr (.inl hcr)⟩
  · by_cases hpos : pos = 0
    · exact .inl ⟨hp.trans hpos.symm, .inl hpos⟩
    · refine .inr ⟨hp, ?_⟩
      simp only [hpos, hcr, ne_eq, not_true_eq_false, false_or]
      omega

/-- A body and the two bytes behind it. -/
theorem drop_body {buf : Sds} {p l : Nat} (h : l + 2 ≤ buf.length - p) :
    ∃ x y, buf.drop p = (buf.drop p).take l ++ [x, y] ++ buf.drop (p + (l + 2)) := by
  have hlen : 2 ≤ (buf.drop (p + l)).length := by
    rw [List.length_drop]
    omega
  obtain ⟨x, y, rest, hrest⟩ : ∃ x y rest, buf.drop (p + l) = x :: y :: rest := by
    match hd : buf.drop (p + l) with
    | [] => simp [hd] at hlen
    | [_] => simp [hd] at hlen
    | x :: y :: rest => exact ⟨x, y, rest, rfl⟩
  have htail : buf.drop (p + (l + 2)) = rest := by
    rw [← Nat.add_assoc, ← List.drop_drop, hrest]
    rfl
  refine ⟨x, y, ?_⟩
  rw [htail, List.append_assoc, List.cons_append, List.cons_append, List.nil_append, ← hrest, ← List.drop_drop,
    List.take_append_drop]

/-- A bulk that the loop takes: its header, if it was not known, its body and the two bytes behind it. -/
theorem BodyAt.recorded {c : SubClient} {pos p : Nat} {ll bl' : Int} {bytes rest : List UInt8} {args : List Sds}
    (h : BodyAt c pos ll p) (h0 : 0 ≤ ll) (hmax : ll ≤ MAX_BULK_LEN) (hfull : (ll + 2).toNat ≤ c.readBuf.length - p)
    (hbytes : c.readBuf.drop (p + (ll + 2).toNat) = bytes ++ rest) (hrec : Recorded (-1) bytes args bl') :
    ∃ bytes', c.readBuf.drop pos = bytes' ++ rest ∧
      Recorded c.bulkLen bytes' ((c.readBuf.drop p).take ll.toNat :: args) bl' := by
  obtain ⟨l, rfl⟩ := Int.eq_ofNat_of_zero_le h0
  simp only [Int.toNat_natCast, show ((l : Int) + 2).toNat = l + 2 by omega] at hfull hbytes ⊢
  obtain ⟨x, y, hbody⟩ := drop_body hfull
  have hlen : ((c.readBuf.drop p).take l).length = l := by
    rw [List.length_take, List.length_drop]
    omega
  have hrec' := Recorded.body ((c.readBuf.drop p).take l) x y hrec
  rw [hlen] at hrec'
  rw [hbytes, ← List.append_assoc] at hbody
  unfold BodyAt at h
  split at h
  · rename_i hbl
    obtain ⟨z, hline, -⟩ := readBulkLen_line h
    rw [hbl]
    refine ⟨_, ?_, Recorded.header z h0 hmax hrec'⟩
    rw [List.append_assoc, ← hbody]
    exact hline
  · obtain ⟨hl, rfl⟩ := h
    exact ⟨_, hbody, hl ▸ hrec'⟩

/-- When every header line fits, the bulk loop removes what it records. -/
theorem multibulkLoop_records : ∀ (n pos : Nat) (c : SubClient), c.readBuf.length < 2 ^ 31 → BulkLenOk c →
    pos ≤ c.readBuf.length → c.multiBulkLen = n → (∀ q ∈ headerOffsets c.readBuf n pos c.bulkLen, HeaderFits c.readBuf q) →
    ∃ bytes args, Recorded c.bulkLen bytes args (multibulkLoop n pos c).2.bulkLen ∧ args.length ≤ n ∧
      (multibulkLoop n pos c).2.multiBulkLen = n - args.length ∧
      (multibulkLoop n pos c).2.argv = (c.pushArgs args).argv ∧
      (multibulkLoop n pos c).2.argc = (c.pushArgs args).argc ∧
      c.readBuf.drop pos = bytes ++ (multibulkLoop n pos c).2.readBuf
  | 0, pos, c, hlen, _, _, hn, _ => by
    rw [multibulkLoop, trimTo_eq hlen]
    exact ⟨[], [], .done _, le_rfl, hn, rfl, rfl, rfl⟩
  | n + 1, pos, c, hlen, hbl, hpos, hn, hfit => by
    rcases multibulkLoop_cases n pos c with
      ⟨p, hm, hr, heq⟩ | ⟨hm, hw, heq⟩ | ⟨ll, p, hb, hshort, heq⟩ | ⟨ll, p, hb, hfull, heq⟩ <;> rw [heq]
    · have hoff : headerOffsets c.readBuf (n + 1) pos c.bulkLen = [pos] := by
        rw [headerOffsets, if_pos hm, hr]
      rw [hoff] at hfit
      -- a header that fits is rejected only at the start of the buffer, where `pos` is right
      rcases reject_headerFits hr with ⟨rfl, -⟩ | ⟨-, hnot⟩
      · rw [setProtocolErr_eq hlen]
        exact ⟨[], [], .done _, Nat.zero_le _, hn, rfl, rfl, rfl⟩
      · exact absurd (hfit pos (List.mem_singleton_self _)) hnot
    · rw [trimTo_eq hlen]
      exact ⟨[], [], .done _, Nat.zero_le _, hn, rfl, rfl, rfl⟩
    · obtain ⟨h0, hmax, hp, hple⟩ := hb.range hbl hpos
      rw [trimTo_eq (c := { c with bulkLen := ll }) hlen]
      unfold BodyAt at hb
      split at hb
      · rename_i hm
        obtain ⟨x, hline, -⟩ := readBulkLen_line hb
        refine ⟨headerLine 36 ll x, [], ?_, Nat.zero_le _, hn, rfl, rfl, hline⟩
        have hrec := Recorded.header x h0 hmax (Recorded.done ll)
        rwa [List.append_nil, ← hm] at hrec
      · obtain ⟨rfl, rfl⟩ := hb
        exact ⟨[], [], .done _, Nat.zero_le _, hn, rfl, rfl, rfl⟩
    · obtain ⟨h0, hmax, hp, hple⟩ := hb.range hbl hpos
      have hshort : ¬ c.readBuf.length - p < toUInt (ll + 2) := not_lt.2 hfull
      rw [headerOffsets_body hb, if_neg hshort] at hfit
      rw [toUInt_of_lt (by omega) (by simp only [MAX_BULK_LEN] at hmax; omega)] at hfull
      -- the body is taken, and the rest is recorded behind it
      obtain ⟨bytes, args, hrec, hle, hm', hargv, hargc, hbuf⟩ := multibulkLoop_records n (p + (ll + 2).toNat)
        { c.pushArg ((c.readBuf.drop p).take ll.toNat) with bulkLen := -1, multiBulkLen := n } hlen
        ⟨le_rfl, by simp only; omega⟩ (by change _ ≤ c.readBuf.length; omega) rfl
        (fun q hq => hfit q (List.mem_append_right _ hq))
      obtain ⟨bytes', hbuf', hrec'⟩ := hb.recorded h0 hmax hfull hbuf hrec
      refine ⟨bytes', _, hrec', by simpa using hle, ?_, ?_, ?_, hbuf'⟩
      · rw [hm', List.length_cons, Nat.add_sub_add_right]
      · rw [hargv, SubClient.pushArgs_update _ args n (-1) _, SubClient.pushArgs_cons]
      · rw [hargc, SubClient.pushArgs_update _ args n (-1) _, SubClient.pushArgs_cons]

/-- When a header line does not fit, the whole buffer is kept, whatever the loop has recorded of it. -/
theorem multibulkLoop_keeps : ∀ (n pos : Nat) (c : SubClient), c.readBuf.length < 2 ^ 31 → BulkLenOk c →
    pos ≤ c.readBuf.length → c.multiBulkLen = n →
    (¬ ∀ q ∈ headerOffsets c.readBuf n pos c.bulkLen, HeaderFits c.readBuf q) →
    (multibulkLoop n pos c).2.readBuf = c.readBuf ∧ 0 < (multibulkLoop n pos c).2.multiBulkLen ∧
      (pos = 0 → c.argc < (multibulkLoop n pos c).2.argc)
  | 0, pos, c, _, _, _, _, hfit => absurd (by simp [headerOffsets]) hfit
  | n + 1, pos, c, hlen, hbl, hpos, hn, hfit => by
    rcases multibulkLoop_cases n pos c with
      ⟨p, hm, hr, heq⟩ | ⟨hm, hw, heq⟩ | ⟨ll, p, hb, hshort, heq⟩ | ⟨ll, p, hb, hfull, heq⟩
    · have hoff : headerOffsets c.readBuf (n + 1) pos c.bulkLen = [pos] := by
        rw [headerOffsets, if_pos hm, hr]
      rw [hoff, List.forall_mem_singleton] at hfit
      rcases reject_headerFits hr with ⟨-, hyes⟩ | ⟨rfl, -⟩
      · exact absurd hyes hfit
      · rw [heq, setProtocolErr_eq hlen]
        refine ⟨rfl, by simp only [hn]; omega, fun h0 => absurd (.inl h0) hfit⟩
    · have hoff : headerOffsets c.readBuf (n + 1) pos c.bulkLen = [pos] := by
        rw [headerOffsets, if_pos hm, hw]
      rw [hoff, List.forall_mem_singleton] at hfit
      refine absurd ?_ hfit
      unfold HeaderFits
      by_contra hnot
      push Not at hnot
      unfold readBulkLen at hw
      simp [hnot.2.1, hnot.2.2] at hw
    · rw [headerOffsets_body hb, if_pos hshort, List.append_nil] at hfit
      exact absurd hb.headerFits hfit
    · obtain ⟨h0, hmax, hp, hple⟩ := hb.range hbl hpos
      have hshort : ¬ c.readBuf.length - p < toUInt (ll + 2) := not_lt.2 hfull
      rw [headerOffsets_body hb, if_neg hshort, List.forall_mem_append] at hfit
      rw [toUInt_of_lt (by omega) (by simp only [MAX_BULK_LEN] at hmax; omega)] at hfull
      obtain ⟨hbuf, hpos', -⟩ := multibulkLoop_keeps n (p + (ll + 2).toNat)
        { c.pushArg ((c.readBuf.drop p).take ll.toNat) with bulkLen := -1, multiBulkLen := n } hlen
        ⟨le_rfl, by simp only; omega⟩ (by change _ ≤ c.readBuf.length; omega) rfl
        (fun hall => hfit ⟨hb.headerFits, hall⟩)
      -- the body is an argument by then, whatever the passes behind it do
      obtain ⟨args, bl, buf, rej, -, -, hshape⟩ := multibulkLoop_shape n (p + (ll + 2).toNat)
        { c.pushArg ((c.readBuf.drop p).take ll.toNat) with bulkLen := -1, multiBulkLen := n } rfl
      rw [heq]
      refine ⟨hbuf, hpos', fun _ => ?_⟩
      rw [hshape]
      simp only [SubClient.pushArgs_argc, SubClient.pushArg]
      omega

end PubsubBroker

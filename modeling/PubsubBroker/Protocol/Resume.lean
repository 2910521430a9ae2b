/-
A multibulk request cut in two. The first call leaves in the counters, in `argv` and in the buffer how
far it has come and the second call goes on from there, wherever the cut is, except behind more than
`MAX_INLINE_READ` bytes and before the line end of a bulk header: the size check looks at the whole
buffer, and the error trims nothing (`resumable_iff`).
-/
import PubsubBroker.Protocol.Wire

namespace PubsubBroker

open CLang Numeral

/-! ## Where the bulks are cut -/

/-- The first bytes of the encoded bulks `args`: they end behind the last bulk, before or inside the
line end of a header, or behind a header and before the end of its body. -/
inductive Cut : List Sds → List UInt8 → Prop
  | whole (args : List Sds) : Cut args (args.flatMap bulk)
  | header (pre : List Sds) (arg : Sds) (post : List Sds) {t : List UInt8} (ht : t <+: 36 :: decimal arg.length) :
    Cut (pre ++ arg :: post) (pre.flatMap bulk ++ t)
  | lineEnd (pre : List Sds) (arg : Sds) (post : List Sds) :
    Cut (pre ++ arg :: post) (pre.flatMap bulk ++ (36 :: decimal arg.length ++ [CR]))
  | body (pre : List Sds) (arg : Sds) (post : List Sds) {t : List UInt8} (ht : t <+: bulkBody arg)
    (hlt : t.length < arg.length + 2) : Cut (pre ++ arg :: post) (pre.flatMap bulk ++ (bulkHeader arg ++ t))

theorem Cut.cons {args : List Sds} {u : List UInt8} (a : Sds) (h : Cut args u) : Cut (a :: args) (bulk a ++ u) := by
  cases h with
  | whole => exact .whole (a :: args)
  | header pre arg post ht =>
    rw [← List.append_assoc, ← List.flatMap_cons]
    exact .header (a :: pre) arg post ht
  | lineEnd pre arg post =>
    rw [← List.append_assoc, ← List.flatMap_cons]
    exact .lineEnd (a :: pre) arg post
  | body pre arg post ht hlt =>
    rw [← List.append_assoc, ← List.flatMap_cons]
    exact .body (a :: pre) arg post ht hlt

/-- A cut inside the first bulk. -/
theorem cut_bulk {arg : Sds} {u : List UInt8} (args : List Sds) (h : u <+: bulk arg) (hlt : u.length < (bulk arg).length) :
    Cut (arg :: args) u := by
  have hbulk : bulk arg = (36 :: decimal arg.length) ++ ([CR, LF] ++ bulkBody arg) := by simp [bulk, bulkHeader]
  have hbulk' : bulk arg = (36 :: decimal arg.length ++ [CR]) ++ ([LF] ++ bulkBody arg) := by simp [bulk, bulkHeader]
  have hheader := length_bulkHeader arg
  rcases Nat.lt_trichotomy u.length (36 :: decimal arg.length ++ [CR]).length with hu | hu | hu
  · have ht : u <+: 36 :: decimal arg.length := by
      refine List.prefix_of_prefix_length_le h (hbulk ▸ List.prefix_append ..) ?_
      rw [List.length_append, List.length_singleton] at hu
      omega
    exact .header [] arg args ht
  · have ht : u = 36 :: decimal arg.length ++ [CR] := by
      refine List.IsPrefix.eq_of_length ?_ hu
      exact List.prefix_of_prefix_length_le h (hbulk' ▸ List.prefix_append ..) hu.le
    rw [ht]
    exact .lineEnd [] arg args
  · have hle : bulkHeader arg <+: u := by
      have hheader' : bulkHeader arg <+: bulk arg := List.prefix_append ..
      refine List.prefix_of_prefix_length_le hheader' h ?_
      rw [hheader]
      simp only [List.length_append, List.length_cons, List.length_nil] at hu
      omega
    obtain ⟨t, rfl⟩ := hle
    rw [bulk, List.length_append, List.length_append, length_bulkBody] at hlt
    exact .body [] arg args ((List.prefix_append_right_inj _).1 h) (by omega)

theorem cut_cases : ∀ {args : List Sds} {u : List UInt8}, u <+: args.flatMap bulk → Cut args u
  | [], u, h => by
    rw [List.prefix_nil.1 h]
    exact .whole []
  | arg :: args, u, h => by
    rw [List.flatMap_cons] at h
    rcases Nat.lt_or_ge u.length (bulk arg).length with hlt | hge
    · exact cut_bulk args (List.prefix_of_prefix_length_le h (List.prefix_append ..) hlt.le) hlt
    · obtain ⟨t, rfl⟩ := List.prefix_of_prefix_length_le (List.prefix_append ..) h hge
      exact (cut_cases ((List.prefix_append_right_inj _).1 h)).cons arg

/-! ## The two calls -/

/-- `c` with the arguments `args` of a request of `n`, with `m` bulks to come and `buf` left. -/
def partway (c : SubClient) (n : Nat) (args : List Sds) (m : Nat) (bl : Int) (buf : Sds) : SubClient :=
  { SubClient.pushArgs { c with argv := .alloc n } args with multiBulkLen := m, bulkLen := bl, readBuf := buf }

theorem partway_pushArgs (c : SubClient) (n m : Nat) (args args' : List Sds) (bl : Int) (buf : Sds) :
    (partway c n args m bl buf).pushArgs args' = partway c n (args ++ args') m bl buf := by
  unfold partway
  rw [SubClient.pushArgs_update, SubClient.pushArgs_append]

/-- The outcome of a call on the whole request. -/
theorem processMultibulkBuffer_whole {c : SubClient} {args : List Sds} (hidle : c.Idle)
    (hwf : (Request.multibulk args).WellFormed) :
    processMultibulkBuffer { c with readBuf := (Request.multibulk args).encode } =
      (.ok, partway c args.length args 0 (-1) []) := by
  have hlen := Request.length_multibulk_lt hwf
  rw [processMultibulkBuffer_encode (c := { c with readBuf := (Request.multibulk args).encode }) hwf
    hidle.multiBulkLen hidle.bulkLen (List.append_nil _).symm hlen,
    SubClient.pushArgs_update { c with argv := .alloc args.length } args c.multiBulkLen c.bulkLen _]
  rfl

/-- The outcome of a call on `u` and, where it fails, of a second call with `v` behind what it left. -/
def resumed (c : SubClient) (u v : List UInt8) : Status × SubClient :=
  match processMultibulkBuffer { c with readBuf := u } with
  | (.ok, c') => (.ok, c')
  | (.err, c') => processMultibulkBuffer { c' with readBuf := c'.readBuf ++ v }

section
variable {c : SubClient} {pre post : List Sds} {arg : Sds} {n : Nat} {buf t v : List UInt8}

/-- The second call goes on in front of a header. -/
theorem processMultibulkBuffer_header (hargs : ∀ a ∈ arg :: post, a.length ≤ MAX_BULK_LEN)
    (hbuf : buf = (arg :: post).flatMap bulk) (hlen : buf.length < 2 ^ 31) :
    processMultibulkBuffer (partway c n pre (post.length + 1) (-1) buf) =
      (.ok, partway c n (pre ++ arg :: post) 0 (-1) []) := by
  have hloop := multibulkLoop_bulks (arg :: post) [] 0 (partway c n pre (post.length + 1) (-1) buf)
    (by rw [List.append_nil]; exact hbuf) hlen rfl rfl hargs
  rw [partway_pushArgs] at hloop
  rw [processMultibulkBuffer_resume (n := post.length) rfl]
  exact hloop

/-- The second call goes on in front of a body. -/
theorem processMultibulkBuffer_body (hargs : ∀ a ∈ arg :: post, a.length ≤ MAX_BULK_LEN)
    (hbuf : buf = bulkBody arg ++ post.flatMap bulk) (hlen : buf.length < 2 ^ 31) :
    processMultibulkBuffer (partway c n pre (post.length + 1) arg.length buf) =
      (.ok, partway c n (pre ++ arg :: post) 0 (-1) []) := by
  have hbuf' : buf = bulkBody arg ++ (post.flatMap bulk ++ []) := by rw [List.append_nil, hbuf]
  have hloop := multibulkLoop_resume (c := partway c n pre (post.length + 1) arg.length buf) hbuf' hlen rfl hargs
  rw [partway_pushArgs] at hloop
  rw [processMultibulkBuffer_resume (n := post.length) rfl]
  exact hloop

/-- The first call takes the bulks in front of the cut. -/
theorem processMultibulkBuffer_cut (hidle : c.Idle) (hwf : (Request.multibulk (pre ++ arg :: post)).WellFormed)
    (hn : n = (pre ++ arg :: post).length) (hbuf : buf = countLine n ++ (pre.flatMap bulk ++ t))
    (hlen : buf.length < 2 ^ 31) :
    processMultibulkBuffer { c with readBuf := buf } =
      multibulkLoop (post.length + 1) ((countLine n).length + (pre.flatMap bulk).length)
        (partway c n pre (post.length + 1) (-1) buf) := by
  obtain ⟨h1, h2, h3⟩ := hwf
  have hlong : pre.length + (post.length + 1) = n := by rw [hn, List.length_append, List.length_cons]
  have hbuf' : buf = countLine (pre.length + (post.length + 1)) ++ (pre.flatMap bulk ++ t) := by rw [hlong, hbuf]
  have hskip := processMultibulkBuffer_skip (c := { c with readBuf := buf }) hidle.multiBulkLen hidle.bulkLen hbuf'
    (by omega) (by omega) (fun a ha => h3 a (List.mem_append_left _ ha)) (Nat.lt_add_right 2 hlen)
  rw [hlong] at hskip
  rw [hskip, SubClient.pushArgs_update { c with argv := .alloc n } pre c.multiBulkLen c.bulkLen buf]
  rfl

theorem drop_cut (hbuf : buf = countLine n ++ (pre.flatMap bulk ++ t)) :
    buf.drop ((countLine n).length + (pre.flatMap bulk).length) = t := by
  rw [← List.drop_drop, hbuf, List.drop_left, List.drop_left]

/-- In front of a header that is not complete the first call waits, and trims what it has taken. -/
theorem processMultibulkBuffer_wait (hidle : c.Idle) (hwf : (Request.multibulk (pre ++ arg :: post)).WellFormed)
    (hn : n = (pre ++ arg :: post).length) (hbuf : buf = countLine n ++ (pre.flatMap bulk ++ t))
    (hlen : buf.length < 2 ^ 31)
    (hw : readBulkLen buf ((countLine n).length + (pre.flatMap bulk).length) = .wait) :
    processMultibulkBuffer { c with readBuf := buf } = (.err, partway c n pre (post.length + 1) (-1) t) := by
  rw [processMultibulkBuffer_cut hidle hwf hn hbuf hlen, multibulkLoop_wait rfl hw, trimTo_eq hlen]
  exact congrArg (fun buf => (Status.err, partway c n pre (post.length + 1) (-1) buf)) (drop_cut hbuf)

/-- Behind a header and in front of the end of its body the first call waits, and trims what it has taken. -/
theorem processMultibulkBuffer_short (hidle : c.Idle) (hwf : (Request.multibulk (pre ++ arg :: post)).WellFormed)
    (hn : n = (pre ++ arg :: post).length) (hbuf : buf = countLine n ++ (pre.flatMap bulk ++ (bulkHeader arg ++ t)))
    (hlen : buf.length < 2 ^ 31) (hlt : t.length < arg.length + 2) :
    processMultibulkBuffer { c with readBuf := buf } = (.err, partway c n pre (post.length + 1) arg.length t) := by
  have harg : arg.length ≤ MAX_BULK_LEN := hwf.2.2 arg (by simp)
  have hdrop : buf.drop ((countLine n).length + (pre.flatMap bulk).length + (bulkHeader arg).length) = t := by
    rw [← List.drop_drop, drop_cut hbuf, List.drop_left]
  have hat : BodyAt (partway c n pre (post.length + 1) (-1) buf) ((countLine n).length + (pre.flatMap bulk).length)
      arg.length ((countLine n).length + (pre.flatMap bulk).length + (bulkHeader arg).length) :=
    (if_pos rfl).mpr (readBulkLen_bulkHeader (drop_cut hbuf) (Nat.lt_add_right 2 hlen) harg)
  have hshort : buf.length - ((countLine n).length + (pre.flatMap bulk).length + (bulkHeader arg).length) <
      toUInt ((arg.length : Int) + 2) := by
    unfold MAX_BULK_LEN at harg
    rw [← List.length_drop, hdrop, toUInt_of_lt (by omega) (by omega)]
    omega
  rw [processMultibulkBuffer_cut hidle hwf hn hbuf hlen, multibulkLoop_short hat hshort, trimTo_eq hlen]
  exact congrArg (fun buf => (Status.err, partway c n pre (post.length + 1) arg.length buf)) hdrop

/-- A count line is not a bulk header. -/
theorem readBulkLen_countLine (hbuf : buf = countLine n ++ v) (hlen : buf.length < 2 ^ 31) :
    readBulkLen buf 0 = .reject 0 := by
  have hlong : (42 :: decimal n).length + 2 ≤ buf.length := by
    rw [hbuf, List.length_append, length_countLine, List.length_cons]
    omega
  have hcr : strchr CR (buf.drop 0) = some (42 :: decimal n).length := by
    rw [List.drop_zero, hbuf]
    exact strchr_header 42 n v (by decide) (by decide)
  have hhead : (buf.drop 0).head? = some 42 := by
    rw [List.drop_zero, hbuf]
    rfl
  unfold readBulkLen
  rw [hcr]
  simp only [crLimit_of_lt (Nat.lt_add_right 2 hlen)]
  rw [if_neg (by omega), hhead, if_pos (by decide)]

/-- Behind more than `MAX_INLINE_READ` bytes and in front of the line end of a header the first call
rejects the whole buffer, and the second call rejects it again. -/
theorem resumed_reject (hidle : c.Idle) (hwf : (Request.multibulk (pre ++ arg :: post)).WellFormed)
    (hn : n = (pre ++ arg :: post).length) (hbuf : buf = countLine n ++ (pre.flatMap bulk ++ t))
    (hlen : (buf ++ v).length < 2 ^ 31) (ht : t <+: 36 :: decimal arg.length) (hlong : MAX_INLINE_READ < buf.length) :
    (resumed c buf v).1 = .err := by
  have hlen' : buf.length < 2 ^ 31 := by
    rw [List.length_append] at hlen
    omega
  have hreject : readBulkLen buf ((countLine n).length + (pre.flatMap bulk).length) = .reject 0 := by
    rw [readBulkLen_cut (drop_cut hbuf) ht, if_pos hlong]
  have hfirst : processMultibulkBuffer { c with readBuf := buf } =
      (.err, setProtocolErr (partway c n pre (post.length + 1) (-1) buf) 0) := by
    rw [processMultibulkBuffer_cut hidle hwf hn hbuf hlen', multibulkLoop_reject rfl hreject]
  have hagain : readBulkLen (buf ++ v) 0 = .reject 0 := by
    refine readBulkLen_countLine (n := n) (v := pre.flatMap bulk ++ t ++ v) ?_ hlen
    rw [hbuf, List.append_assoc]
  unfold resumed
  rw [hfirst, setProtocolErr_eq hlen']
  have hsecond (rej : List Sds) :
      (processMultibulkBuffer { partway c n pre (post.length + 1) (-1) (buf ++ v) with rejected := rej }).1 = .err := by
    rw [processMultibulkBuffer_resume (n := post.length) rfl, multibulkLoop_reject rfl hagain]
  exact hsecond _

end

/-! ## The request in two calls -/

/-- The cut is inside a bulk header, before its line end. -/
def InHeader (args : List Sds) (u : List UInt8) : Prop :=
  ∃ pre arg post t, args = pre ++ arg :: post ∧ t <+: 36 :: decimal arg.length ∧
    u = countLine args.length ++ (pre.flatMap bulk ++ t)

/-- The return values of two runs agree, and so do the request states they leave. -/
structure SameRequest (r r' : Status × SubClient) : Prop where
  status : r.1 = r'.1
  argc : r.2.argc = r'.2.argc
  argv : r.2.argv = r'.2.argv
  multiBulkLen : r.2.multiBulkLen = r'.2.multiBulkLen
  bulkLen : r.2.bulkLen = r'.2.bulkLen
  readBuf : r.2.readBuf = r'.2.readBuf

theorem SameRequest.of_eq {r r' : Status × SubClient} (h : r = r') : SameRequest r r' := by
  rw [h]
  exact ⟨rfl, rfl, rfl, rfl, rfl, rfl⟩

/-- Behind the count line the second call goes on wherever the cut is, if it is not rejected. -/
theorem resumed_cut {c : SubClient} {args : List Sds} {u v : List UInt8} {n : Nat} (hidle : c.Idle)
    (hwf : (Request.multibulk args).WellFormed) (hn : n = args.length) (hcut : Cut args u)
    (hw : args.flatMap bulk = u ++ v) (hlen : (countLine n ++ u ++ v).length < 2 ^ 31)
    (hok : (countLine n ++ u).length ≤ MAX_INLINE_READ ∨ ¬ InHeader args (countLine n ++ u)) :
    resumed c (countLine n ++ u) v = (.ok, partway c n args 0 (-1) []) := by
  have hlen' : (countLine n ++ u).length < 2 ^ 31 := by
    rw [List.length_append] at hlen
    omega
  have hrest (t w : List UInt8) (h : (countLine n ++ (w ++ t) ++ v).length < 2 ^ 31) : (t ++ v).length < 2 ^ 31 := by
    simp only [List.length_append] at h ⊢
    omega
  have hargs := hwf.2.2
  unfold resumed
  cases hcut with
  | whole =>
    have hwhole := processMultibulkBuffer_whole hidle hwf
    rw [Request.encode, ← hn] at hwhole
    rw [hwhole]
  | header pre arg post ht =>
    rw [List.flatMap_append, List.append_assoc, List.append_cancel_left_eq] at hw
    -- inside a header the first piece must not be too long to wait
    have hshort : (countLine n ++ (pre.flatMap bulk ++ _)).length ≤ MAX_INLINE_READ :=
      hok.resolve_right (not_not.2 ⟨pre, arg, post, _, rfl, ht, by rw [hn]⟩)
    rw [processMultibulkBuffer_wait hidle hwf hn rfl hlen' (by rw [readBulkLen_cut (drop_cut rfl) ht, if_neg (by omega)])]
    exact processMultibulkBuffer_header (fun a ha => hargs a (List.mem_append_right _ ha)) hw.symm (hrest _ _ hlen)
  | lineEnd pre arg post =>
    rw [List.flatMap_append, List.append_assoc, List.append_cancel_left_eq] at hw
    rw [processMultibulkBuffer_wait hidle hwf hn rfl hlen' (readBulkLen_cut_cr (drop_cut rfl) hlen')]
    exact processMultibulkBuffer_header (fun a ha => hargs a (List.mem_append_right _ ha)) hw.symm (hrest _ _ hlen)
  | body pre arg post ht hlt =>
    rw [List.flatMap_append, List.flatMap_cons, bulk, List.append_assoc, List.append_assoc, List.append_assoc,
      List.append_cancel_left_eq, List.append_cancel_left_eq] at hw
    rw [← List.append_assoc (pre.flatMap bulk)] at hlen
    rw [processMultibulkBuffer_short hidle hwf hn rfl hlen' hlt]
    exact processMultibulkBuffer_body (fun a ha => hargs a (List.mem_append_right _ ha)) hw.symm (hrest _ _ hlen)

/-- A count line that is cut is waited for, and read again from its start. -/
theorem processMultibulkBuffer_cut_countLine {c : SubClient} {args : List Sds} {u : List UInt8} (hidle : c.Idle)
    (hwf : (Request.multibulk args).WellFormed) (hu : u <+: countLine args.length ++ args.flatMap bulk)
    (hcount : u.length < (countLine args.length).length) :
    processMultibulkBuffer { c with readBuf := u } = (.err, { c with readBuf := u }) ∧ u.length ≤ MAX_INLINE_READ := by
  have hline : countLine args.length = (42 :: decimal args.length ++ [CR]) ++ [LF] := by simp [countLine]
  have hpre : u <+: 42 :: decimal args.length ++ [CR] := by
    refine List.prefix_of_prefix_length_le hu ?_ ?_
    · rw [hline, List.append_assoc]
      exact List.prefix_append ..
    · rw [hline, List.length_append, List.length_singleton] at hcount
      omega
  constructor
  · unfold processMultibulkBuffer
    rw [if_pos hidle.multiBulkLen, readMultibulkLen_cut hwf.2.1 hpre]
  · have hdec := length_decimal_limit hwf.2.1
    rw [length_countLine] at hcount
    unfold MAX_INLINE_READ
    omega

/-- A request that reaches an idle client in two pieces is parsed as in one exactly when the first piece
has at most `MAX_INLINE_READ` bytes or does not end inside a bulk header before its line end. -/
theorem resumable_iff {c : SubClient} {args : List Sds} {u v : List UInt8} (hidle : c.Idle)
    (hwf : (Request.multibulk args).WellFormed) (hu : u ≠ []) (hw : (Request.multibulk args).encode = u ++ v) :
    SameRequest (resumed c u v) (processMultibulkBuffer { c with readBuf := u ++ v }) ↔
      (u.length ≤ MAX_INLINE_READ ∨ ¬ InHeader args u) := by
  have hlen : (u ++ v).length < 2 ^ 31 := hw ▸ Request.length_multibulk_lt hwf
  have hlen' : u.length < 2 ^ 31 := by
    rw [List.length_append] at hlen
    omega
  have hwhole : processMultibulkBuffer { c with readBuf := u ++ v } = (.ok, partway c args.length args 0 (-1) []) :=
    hw ▸ processMultibulkBuffer_whole hidle hwf
  rw [Request.encode] at hw
  rcases Nat.lt_or_ge u.length (countLine args.length).length with hcount | hcount
  · obtain ⟨hfirst, hfits⟩ := processMultibulkBuffer_cut_countLine hidle hwf (hw ▸ List.prefix_append u v) hcount
    refine iff_of_true (.of_eq ?_) (.inl hfits)
    unfold resumed
    rw [hfirst]
  · obtain ⟨u', rfl⟩ := List.prefix_of_prefix_length_le (List.prefix_append ..) (hw ▸ List.prefix_append u v) hcount
    rw [List.append_assoc, List.append_cancel_left_eq] at hw
    rw [hwhole]
    constructor
    · -- a rejected request is not accepted
      intro hsame
      by_contra hbad
      push Not at hbad
      obtain ⟨hlong, pre, arg, post, t, rfl, ht, hbuf⟩ := hbad
      cases hsame.status.symm.trans (resumed_reject hidle hwf rfl hbuf hlen ht hlong)
    · intro hok
      exact .of_eq (resumed_cut hidle hwf rfl (cut_cases (hw ▸ List.prefix_append u' v)) hw hlen hok)

theorem resumable_ping :
    let u := ascii "*1\r\n$4\r\nPI"
    let v := ascii "NG\r\n"
    SameRequest (resumed (zeroedClient 5 []) u v) (processMultibulkBuffer { zeroedClient 5 [] with readBuf := u ++ v }) ↔
      (u.length ≤ MAX_INLINE_READ ∨ ¬ InHeader [ascii "PING"] u) :=
  resumable_iff ⟨rfl, rfl, rfl⟩ ⟨by decide, by decide, by decide⟩ (by decide) (by decide)

/-- A request of a long bulk and a short one, cut between them. -/
theorem rejected_at_cut :
    let args := [List.replicate 16384 97, [98]]
    let u := countLine 2 ++ bulk (List.replicate 16384 97)
    (zeroedClient 5 []).Idle ∧ (Request.multibulk args).WellFormed ∧ (Request.multibulk args).encode = u ++ bulk [98] ∧
      ¬ SameRequest (resumed (zeroedClient 5 []) u (bulk [98]))
        (processMultibulkBuffer { zeroedClient 5 [] with readBuf := u ++ bulk [98] }) := by
  have hlong : (List.replicate 16384 (97 : UInt8)).length = 16384 := List.length_replicate
  generalize List.replicate 16384 (97 : UInt8) = arg at hlong ⊢
  intro args u
  have hidle : (zeroedClient 5 []).Idle := ⟨rfl, rfl, rfl⟩
  have hwf : (Request.multibulk args).WellFormed := by
    refine ⟨Nat.le_add_left 1 1, show 2 ≤ SUB_READ_BUF_LEN by decide, ?_⟩
    simp only [args, List.forall_mem_cons, List.not_mem_nil, false_implies, implies_true, and_true]
    exact ⟨by rw [hlong]; decide, by decide⟩
  have hw : (Request.multibulk args).encode = u ++ bulk [98] := by simp [Request.encode, args, u]
  have hlen := Request.length_multibulk_lt hwf
  refine ⟨hidle, hwf, hw, fun hsame => ?_⟩
  have hu : MAX_INLINE_READ < u.length := by
    simp only [u, bulk, List.length_append, length_bulkBody, hlong]
    unfold MAX_INLINE_READ
    omega
  have hwf' : (Request.multibulk ([arg] ++ [98] :: [])).WellFormed := hwf
  have hcut : u = countLine 2 ++ ([arg].flatMap bulk ++ []) := by simp [u]
  have herr : (resumed (zeroedClient 5 []) u (bulk [98])).1 = .err :=
    resumed_reject hidle hwf' rfl hcut (hw ▸ hlen) List.nil_prefix hu
  have hwhole := processMultibulkBuffer_whole hidle hwf
  rw [hw] at hwhole
  have hstatus := hsame.status
  rw [herr, hwhole] at hstatus
  cases hstatus

end PubsubBroker

/-
What one call of a parser can do. `multibulkLoop_cases` says it once for a pass of the loop over
the bulks; the lemmas on `argv`, on the buffer and on progress are inductions over that. On a buffer
shorter than `2 ^ 31 - 1` every accepted request takes a byte, so the driver loop ends.
-/
import PubsubBroker.Protocol.Parse

namespace PubsubBroker

open CLang

/-! ## Pushed arguments -/

namespace SubClient

variable (c : SubClient) (args : List Sds)

@[simp] theorem pushArgs_nil : c.pushArgs [] = c := rfl

@[simp] theorem pushArgs_cons (a : Sds) : c.pushArgs (a :: args) = (c.pushArg a).pushArgs args := rfl

theorem pushArgs_append (args' : List Sds) : c.pushArgs (args ++ args') = (c.pushArgs args).pushArgs args' :=
  List.foldl_append

/-- Pushing touches only the array and its count. -/
theorem pushArgs_eq : c.pushArgs args =
    { c with argv := (c.pushArgs args).argv, strays := (c.pushArgs args).strays, argc := c.argc + args.length } := by
  induction args generalizing c with
  | nil => simp
  | cons a args ih =>
    rw [pushArgs_cons, ih]
    simp only [pushArg, List.length_cons, SubClient.mk.injEq, and_true, true_and]
    push_cast; ring

/-- Pushing does not look at the buffer or the counters of the parser. -/
theorem pushArgs_update (n : Nat) (bl : Int) (buf : Sds) :
    ({ c with multiBulkLen := n, bulkLen := bl, readBuf := buf } : SubClient).pushArgs args =
      { c.pushArgs args with multiBulkLen := n, bulkLen := bl, readBuf := buf } := by
  induction args generalizing c with
  | nil => rfl
  | cons a args ih => exact ih (c.pushArg a)

@[simp] theorem pushArgs_argc : (c.pushArgs args).argc = c.argc + args.length := by rw [pushArgs_eq]

@[simp] theorem pushArgs_readBuf : (c.pushArgs args).readBuf = c.readBuf := by rw [pushArgs_eq]

@[simp] theorem pushArgs_multiBulkLen : (c.pushArgs args).multiBulkLen = c.multiBulkLen := by rw [pushArgs_eq]

@[simp] theorem pushArgs_bulkLen : (c.pushArgs args).bulkLen = c.bulkLen := by rw [pushArgs_eq]

@[simp] theorem pushArgs_rejected : (c.pushArgs args).rejected = c.rejected := by rw [pushArgs_eq]

@[simp] theorem pushArgs_slots : (c.pushArgs args).argv.slots = c.argv.slots := by
  induction args generalizing c with
  | nil => rfl
  | cons a args ih => rw [pushArgs_cons, ih]; rfl

/-- Within the slots nothing is missed. -/
theorem pushArgs_strays (h0 : 0 ≤ c.argc) (hroom : c.argc + args.length ≤ c.argv.slots) :
    (c.pushArgs args).strays = c.strays := by
  induction args generalizing c with
  | nil => rfl
  | cons a args ih =>
    rw [List.length_cons] at hroom
    push_cast at hroom
    have hargc : (c.pushArg a).argc = c.argc + 1 := rfl
    have hstrays : (c.pushArg a).strays = c.strays := if_pos ⟨h0, by omega⟩
    have hslots : (c.pushArg a).argv.slots = c.argv.slots := rfl
    rw [pushArgs_cons, ih (c.pushArg a) (by omega) (by omega), hstrays]

/-- The cells after the pushes: the arguments from index `argc` on, the old ones elsewhere. -/
theorem pushArgs_cells (i : Int) : (c.pushArgs args).argv.cells i =
    if c.argc ≤ i ∧ i < c.argc + args.length then args[(i - c.argc).toNat]? else c.argv.cells i := by
  induction args generalizing c with
  | nil => simp only [pushArgs_nil, List.length_nil]; rw [if_neg (by push_cast; omega)]
  | cons a args ih =>
    rw [pushArgs_cons, ih]
    have hargc : (c.pushArg a).argc = c.argc + 1 := rfl
    have hcells : (c.pushArg a).argv.cells i = if i = c.argc then some a else c.argv.cells i := rfl
    rw [hargc, hcells]
    simp only [List.length_cons]
    push_cast
    by_cases hi : i = c.argc
    · subst hi
      rw [if_neg (by omega), if_pos rfl, if_pos (by omega)]
      simp
    · by_cases hlt : c.argc + 1 ≤ i ∧ i < c.argc + 1 + args.length
      · rw [if_pos hlt, if_pos (by omega), show (i - c.argc).toNat = (i - (c.argc + 1)).toNat + 1 by omega,
          List.getElem?_cons_succ]
      · rw [if_neg hlt, if_neg hi, if_neg (by omega)]

/-- What a command sees of a request whose arguments were pushed onto an empty `argv`. -/
theorem args_pushArgs (h : c.argc = 0) : (c.pushArgs args).args = args.map some := by
  unfold SubClient.args
  rw [pushArgs_argc, h, zero_add, Int.toNat_natCast]
  apply List.ext_getElem
  · simp
  · intro i hi _
    have hi' : i < args.length := by simpa using hi
    simp only [List.getElem_map, List.getElem_range, pushArgs_cells, h]
    rw [if_pos (by omega)]
    simp [hi']

end SubClient

/-- The copied tokens are pushed arguments. -/
theorem copyTokens_eq (c : SubClient) (tokens : List Sds) :
    copyTokens c tokens = c.pushArgs ((tokens.filter (·.length ≠ 0)).map cstr) := by
  unfold copyTokens
  induction tokens generalizing c with
  | nil => rfl
  | cons t tokens ih =>
    rw [List.foldl_cons, ih, List.filter_cons]
    by_cases ht : t.length = 0
    · rw [if_neg (not_not.2 ht), if_neg (by simpa using ht)]
    · rw [if_pos ht, if_pos (by simpa using ht), List.map_cons, SubClient.pushArgs_cons]

/-! ## Trimming -/

theorem trimTo_eq {c : SubClient} (h : c.readBuf.length < 2 ^ 31) (pos : Nat) :
    trimTo c pos = { c with readBuf := c.readBuf.drop pos } := by
  unfold trimTo
  split
  · rw [sdsrange_drop h]
  · rename_i hp
    rw [not_not.1 hp, List.drop_zero]

section
variable (c : SubClient) (pos : Nat)

@[simp] theorem trimTo_multiBulkLen : (trimTo c pos).multiBulkLen = c.multiBulkLen := by unfold trimTo; split <;> rfl

@[simp] theorem trimTo_bulkLen : (trimTo c pos).bulkLen = c.bulkLen := by unfold trimTo; split <;> rfl

@[simp] theorem trimTo_argc : (trimTo c pos).argc = c.argc := by unfold trimTo; split <;> rfl

@[simp] theorem trimTo_rejected : (trimTo c pos).rejected = c.rejected := by unfold trimTo; split <;> rfl

end

theorem setProtocolErr_eq {c : SubClient} (h : c.readBuf.length < 2 ^ 31) (pos : Nat) :
    setProtocolErr c pos = { c with readBuf := c.readBuf.drop pos, rejected := c.readBuf.drop pos :: c.rejected } := by
  unfold setProtocolErr; rw [sdsrange_drop h]

theorem finishRead_strays (c : SubClient) : (finishRead c).1.strays = c.strays := by
  unfold finishRead
  split <;> rfl

/-! ## One pass of the bulk loop -/

/-- A bulk length that is read is in range, and its line lies within the buffer. -/
theorem readBulkLen_length {buf : Sds} {pos p : Nat} {ll : Int} (h : readBulkLen buf pos = .length ll p) :
    0 ≤ ll ∧ ll ≤ MAX_BULK_LEN ∧ pos < p ∧ p ≤ buf.length := by
  unfold readBulkLen at h
  split at h
  · split at h <;> cases h
  · rename_i k _
    simp only at h
    split at h
    · cases h
    · rename_i hnl
      split at h
      · cases h
      · split at h
        · cases h
        · split at h
          · cases h
          · rename_i hll
            cases h
            have := crLimit_le buf
            exact ⟨by omega, by omega, by omega, by omega⟩

/-- The next bulk of `c` at `pos` has length `ll` and its body starts at `p`. -/
def BodyAt (c : SubClient) (pos : Nat) (ll : Int) (p : Nat) : Prop :=
  if c.bulkLen = -1 then readBulkLen c.readBuf pos = .length ll p else ll = c.bulkLen ∧ p = pos

section
variable {n pos p : Nat} {c : SubClient} {l : Int}

theorem multibulkLoop_reject {q : Nat} (hbl : c.bulkLen = -1) (h : readBulkLen c.readBuf pos = .reject q) :
    multibulkLoop (n + 1) pos c = (.err, setProtocolErr c q) := by rw [multibulkLoop, if_pos hbl, h]

theorem multibulkLoop_wait (hbl : c.bulkLen = -1) (h : readBulkLen c.readBuf pos = .wait) :
    multibulkLoop (n + 1) pos c = (.err, trimTo c pos) := by rw [multibulkLoop, if_pos hbl, h]

theorem multibulkLoop_body (hb : BodyAt c pos l p) : multibulkLoop (n + 1) pos c =
    if c.readBuf.length - p < toUInt (l + 2) then (.err, trimTo { c with bulkLen := l } p)
    else multibulkLoop n (p + (l + 2).toNat)
      { c.pushArg ((c.readBuf.drop p).take l.toNat) with bulkLen := -1, multiBulkLen := n } := by
  unfold BodyAt at hb
  rw [multibulkLoop]
  split at hb
  · rename_i hbl; rw [if_pos hbl, hb]; rfl
  · rename_i hbl; obtain ⟨rfl, rfl⟩ := hb; rw [if_neg hbl]

/-- A body that is not all there is waited for, behind its header. -/
theorem multibulkLoop_short (hb : BodyAt c pos l p) (h : c.readBuf.length - p < toUInt (l + 2)) :
    multibulkLoop (n + 1) pos c = (.err, trimTo { c with bulkLen := l } p) := by
  rw [multibulkLoop_body hb, if_pos h]

/-- A body that is all there is pushed, and the loop goes on behind it. -/
theorem multibulkLoop_take (hb : BodyAt c pos l p) (h : toUInt (l + 2) ≤ c.readBuf.length - p) :
    multibulkLoop (n + 1) pos c = multibulkLoop n (p + (l + 2).toNat)
      { c.pushArg ((c.readBuf.drop p).take l.toNat) with bulkLen := -1, multiBulkLen := n } := by
  rw [multibulkLoop_body hb, if_neg (not_lt.2 h)]

end

/-- What one pass of the bulk loop can do: reject, wait for a header, wait for a body, or take a
bulk and go on. -/
theorem multibulkLoop_cases (n pos : Nat) (c : SubClient) :
    (∃ p, c.bulkLen = -1 ∧ readBulkLen c.readBuf pos = .reject p ∧
      multibulkLoop (n + 1) pos c = (.err, setProtocolErr c p)) ∨
    (c.bulkLen = -1 ∧ readBulkLen c.readBuf pos = .wait ∧ multibulkLoop (n + 1) pos c = (.err, trimTo c pos)) ∨
    (∃ ll p, BodyAt c pos ll p ∧ c.readBuf.length - p < toUInt (ll + 2) ∧
      multibulkLoop (n + 1) pos c = (.err, trimTo { c with bulkLen := ll } p)) ∨
    (∃ ll p, BodyAt c pos ll p ∧ toUInt (ll + 2) ≤ c.readBuf.length - p ∧
      multibulkLoop (n + 1) pos c = multibulkLoop n (p + (ll + 2).toNat)
        { c.pushArg ((c.readBuf.drop p).take ll.toNat) with bulkLen := -1, multiBulkLen := n }) := by
  by_cases hbody : ∃ ll p, BodyAt c pos ll p
  · obtain ⟨ll, p, hb⟩ := hbody
    rcases Nat.lt_or_ge (c.readBuf.length - p) (toUInt (ll + 2)) with h | h
    · exact .inr (.inr (.inl ⟨ll, p, hb, h, multibulkLoop_short hb h⟩))
    · exact .inr (.inr (.inr ⟨ll, p, hb, h, multibulkLoop_take hb h⟩))
  · have hbl : c.bulkLen = -1 := by
      by_contra hbl
      exact hbody ⟨c.bulkLen, pos, by unfold BodyAt; rw [if_neg hbl]; exact ⟨rfl, rfl⟩⟩
    cases hr : readBulkLen c.readBuf pos with
    | reject p => exact .inl ⟨p, hbl, rfl, multibulkLoop_reject hbl hr⟩
    | wait => exact .inr (.inl ⟨hbl, rfl, multibulkLoop_wait hbl hr⟩)
    | length ll p => exact absurd ⟨ll, p, by unfold BodyAt; rw [if_pos hbl]; exact hr⟩ hbody

/-- What the bulk loop leaves: the bulks it took are pushed, and it succeeds when they are all it was
asked for. -/
theorem multibulkLoop_shape : ∀ (n pos : Nat) (c : SubClient), c.multiBulkLen = n →
    ∃ args bl buf rej, args.length ≤ n ∧ ((multibulkLoop n pos c).1 = .ok ↔ args.length = n) ∧
      (multibulkLoop n pos c).2 = { c.pushArgs args with
        multiBulkLen := n - args.length, bulkLen := bl, readBuf := buf, rejected := rej }
  | 0, pos, c, hn => by
    refine ⟨[], c.bulkLen, (trimTo c pos).readBuf, c.rejected, le_rfl, by simp [multibulkLoop], ?_⟩
    rw [multibulkLoop, SubClient.pushArgs_nil, ← hn]
    unfold trimTo
    split <;> rfl
  | n + 1, pos, c, hn => by
    -- a pass that takes no bulk ends the loop
    have hstop : ∀ c', (∃ bl buf rej, c' = { c with bulkLen := bl, readBuf := buf, rejected := rej }) →
        multibulkLoop (n + 1) pos c = (.err, c') →
        ∃ args bl buf rej, args.length ≤ n + 1 ∧ ((multibulkLoop (n + 1) pos c).1 = .ok ↔ args.length = n + 1) ∧
          (multibulkLoop (n + 1) pos c).2 = { c.pushArgs args with
            multiBulkLen := n + 1 - args.length, bulkLen := bl, readBuf := buf, rejected := rej } := by
      rintro c' ⟨bl, buf, rej, rfl⟩ heq
      exact ⟨[], bl, buf, rej, Nat.zero_le _, by simp [heq], by rw [heq, SubClient.pushArgs_nil, ← hn]; rfl⟩
    rcases multibulkLoop_cases n pos c with ⟨p, -, -, heq⟩ | ⟨-, -, heq⟩ | ⟨ll, p, -, -, heq⟩ | ⟨ll, p, -, -, heq⟩
    · exact hstop _ ⟨c.bulkLen, _, _, rfl⟩ heq
    · exact hstop _ (by unfold trimTo; split <;> exact ⟨_, _, _, rfl⟩) heq
    · exact hstop _ (by unfold trimTo; split <;> exact ⟨_, _, _, rfl⟩) heq
    · obtain ⟨args, bl, buf, rej, hle, hok, hc⟩ := multibulkLoop_shape n (p + (ll + 2).toNat)
        { c.pushArg ((c.readBuf.drop p).take ll.toNat) with bulkLen := -1, multiBulkLen := n } rfl
      refine ⟨(c.readBuf.drop p).take ll.toNat :: args, bl, buf, rej, by simp [hle], ?_, ?_⟩
      · rw [heq, hok]; simp
      · rw [heq, hc, SubClient.pushArgs_update _ args n (-1) _, SubClient.pushArgs_cons, List.length_cons,
          Nat.add_sub_add_right]

/-! ## One call of a parser -/

/-- An accepted count line lies within the buffer and asks for at most `SUB_READ_BUF_LEN` bulks. -/
theorem readMultibulkLen_length {buf : Sds} {ll : Int} {p : Nat} (h : readMultibulkLen buf = .length ll p) :
    ll ≤ SUB_READ_BUF_LEN ∧ 2 ≤ p ∧ p ≤ buf.length := by
  unfold readMultibulkLen at h
  split at h
  · split at h <;> cases h
  · rename_i newline _
    split at h
    · cases h
    · split at h
      · cases h
      · split at h
        · cases h
        · have := crLimit_le buf
          cases h
          exact ⟨by omega, by omega, by omega⟩

/-- An accepted line is shorter than the buffer. -/
theorem readLine_tokens {buf : Sds} {argv : List Sds} {n : Nat} (h : readLine buf = .tokens argv n) :
    n < buf.length := by
  unfold readLine at h
  split at h
  · split at h <;> cases h
  · rename_i nl hnl
    simp only at h
    split at h
    · cases h
    · cases h
      have := strchr_lt hnl
      unfold lineEnd
      split <;> omega

/-- What one call of `process_multibulk_buffer` can do: reject the count line, wait for it, accept an
empty request, start the bulk loop on a fresh array, or resume it. -/
theorem processMultibulkBuffer_cases (c : SubClient) :
    (c.multiBulkLen = 0 ∧ ∃ p, readMultibulkLen c.readBuf = .reject p ∧
      processMultibulkBuffer c = (.err, setProtocolErr c p)) ∨
    (c.multiBulkLen = 0 ∧ readMultibulkLen c.readBuf = .wait ∧ processMultibulkBuffer c = (.err, c)) ∨
    (c.multiBulkLen = 0 ∧ ∃ ll p, readMultibulkLen c.readBuf = .length ll p ∧ ll ≤ 0 ∧
      processMultibulkBuffer c = (.ok, { c with readBuf := sdsrange c.readBuf p (-1) })) ∨
    (c.multiBulkLen = 0 ∧ ∃ ll p, readMultibulkLen c.readBuf = .length ll p ∧ 0 < ll ∧
      processMultibulkBuffer c =
        multibulkLoop ll.toNat p { c with multiBulkLen := ll.toNat, argv := .alloc ll.toNat }) ∨
    (c.multiBulkLen ≠ 0 ∧ processMultibulkBuffer c = multibulkLoop c.multiBulkLen 0 c) := by
  unfold processMultibulkBuffer
  by_cases hm : c.multiBulkLen = 0
  · simp only [hm, true_and, ne_eq, not_true_eq_false, false_and, or_false]
    cases hr : readMultibulkLen c.readBuf with
    | reject p => exact .inl ⟨p, rfl, rfl⟩
    | wait => exact .inr (.inl ⟨rfl, rfl⟩)
    | length ll p =>
      by_cases hll : ll ≤ 0
      · exact .inr (.inr (.inl ⟨ll, p, rfl, hll, if_pos hll⟩))
      · exact .inr (.inr (.inr ⟨ll, p, rfl, by omega, if_neg hll⟩))
  · exact .inr (.inr (.inr (.inr ⟨hm, if_neg hm⟩)))

/-- A request that is under way is gone on with at the start of the buffer. -/
theorem processMultibulkBuffer_resume {c : SubClient} {n : Nat} (hm : c.multiBulkLen = n + 1) :
    processMultibulkBuffer c = multibulkLoop (n + 1) 0 c := by
  unfold processMultibulkBuffer
  rw [if_neg (by omega), hm]

/-- What one call of `process_inline_buffer` can do: reject the line, wait for it, or push its tokens
onto a fresh array. -/
theorem processInlineBuffer_cases (c : SubClient) :
    (readLine c.readBuf = .reject ∧ processInlineBuffer c = (.err, setProtocolErr c 0)) ∨
    (readLine c.readBuf = .wait ∧ processInlineBuffer c = (.err, c)) ∨
    (∃ argv n, readLine c.readBuf = .tokens argv n ∧ processInlineBuffer c =
      (.ok, SubClient.pushArgs
        { c with readBuf := sdsrange c.readBuf (toInt (n + 2 : Nat)) (-1), argv := .alloc argv.length, argc := 0 }
        ((argv.filter (·.length ≠ 0)).map cstr))) := by
  unfold processInlineBuffer
  cases hr : readLine c.readBuf with
  | reject => exact .inl ⟨rfl, rfl⟩
  | wait => exact .inr (.inl ⟨rfl, rfl⟩)
  | tokens argv n => exact .inr (.inr ⟨argv, n, rfl, by rw [← copyTokens_eq]⟩)

/-- The parser is chosen by the first byte alone, whatever is under way. -/
theorem processRequest_eq (c : SubClient) : processRequest c =
    if c.readBuf.head? = some 42 then processMultibulkBuffer { c with reqType := REQ_MULTIBULK }
    else processInlineBuffer { c with reqType := REQ_INLINE } := by
  unfold processRequest guessReqType
  by_cases h : c.readBuf.head? = some 42
  · simp only [if_pos h]; rfl
  · simp only [if_neg h]; rfl

end PubsubBroker

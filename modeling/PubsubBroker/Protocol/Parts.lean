/-
The two parts of a subscriber's record: the request that is under way, which the parsers work on, and the rest,
which the replies and the flushes work on. Neither looks at the other part, so a record may be put together
from the request of one client and the rest of another.
-/
import PubsubBroker.Protocol.Lifetime
import PubsubBroker.Protocol.Parse

namespace PubsubBroker

open CLang

/-! ## Requests and the rest -/

/-- The record `d` with the state of the request that is under way in `c`. -/
def SubClient.over (c d : SubClient) : SubClient :=
  { d with
    readBuf := c.readBuf
    reqType := c.reqType
    multiBulkLen := c.multiBulkLen
    bulkLen := c.bulkLen
    argc := c.argc
    argv := c.argv
    rejected := c.rejected
    strays := c.strays }

theorem trimTo_over (c d : SubClient) (pos : Nat) : trimTo (c.over d) pos = (trimTo c pos).over d := by
  unfold trimTo
  split <;> rfl

theorem multibulkLoop_over (d : SubClient) : ∀ (n pos : Nat) (c : SubClient),
    multibulkLoop n pos (c.over d) = ((multibulkLoop n pos c).1, (multibulkLoop n pos c).2.over d)
  | 0, pos, c => by
    rw [multibulkLoop, multibulkLoop, trimTo_over]
  | n + 1, pos, c => by
    rw [multibulkLoop, multibulkLoop]
    rw [show (c.over d).bulkLen = c.bulkLen from rfl, show (c.over d).readBuf = c.readBuf from rfl]
    generalize (if c.bulkLen = -1 then readBulkLen c.readBuf pos else Header.length c.bulkLen pos) = header
    cases header with
    | reject p => rfl
    | wait =>
      simp only
      rw [trimTo_over]
    | length ll q =>
      simp only
      split
      · simp only
        rw [← trimTo_over]
        rfl
      · rw [← multibulkLoop_over d n]
        rfl

theorem processMultibulkBuffer_over (c d : SubClient) : processMultibulkBuffer (c.over d) =
    ((processMultibulkBuffer c).1, (processMultibulkBuffer c).2.over d) := by
  unfold processMultibulkBuffer
  rw [show (c.over d).multiBulkLen = c.multiBulkLen from rfl, show (c.over d).readBuf = c.readBuf from rfl]
  split
  · cases readMultibulkLen c.readBuf with
    | reject p => rfl
    | wait => rfl
    | length ll pos =>
      simp only
      split
      · rfl
      · rw [← multibulkLoop_over d]
        rfl
  · exact multibulkLoop_over d c.multiBulkLen 0 c

theorem copyTokens_over (d : SubClient) (tokens : List Sds) (c : SubClient) :
    copyTokens (c.over d) tokens = (copyTokens c tokens).over d := by
  induction tokens generalizing c with
  | nil => rfl
  | cons token tokens ih =>
    change copyTokens (if token.length ≠ 0 then (c.over d).pushArg (cstr token) else c.over d) tokens =
      (copyTokens (if token.length ≠ 0 then c.pushArg (cstr token) else c) tokens).over d
    rw [← ih]
    split <;> rfl

theorem processInlineBuffer_over (c d : SubClient) : processInlineBuffer (c.over d) =
    ((processInlineBuffer c).1, (processInlineBuffer c).2.over d) := by
  unfold processInlineBuffer
  rw [show (c.over d).readBuf = c.readBuf from rfl]
  cases readLine c.readBuf with
  | reject => rfl
  | wait => rfl
  | tokens argv querylen =>
    simp only
    rw [← copyTokens_over]
    rfl

theorem processRequest_over (c d : SubClient) :
    processRequest (c.over d) = ((processRequest c).1, (processRequest c).2.over d) := by
  unfold processRequest
  simp only
  rw [show guessReqType (c.over d) = (guessReqType c).over d from rfl]
  change (if (guessReqType c).reqType = REQ_INLINE then _ else _) = _
  split
  · exact processInlineBuffer_over _ d
  · exact processMultibulkBuffer_over _ d

theorem parseLoop_over (d : SubClient) : ∀ (fuel : Nat) (c : SubClient),
    parseLoop fuel (c.over d) = (parseLoop fuel c).map (·.over d)
  | 0, c => by
    unfold parseLoop
    change (if c.readBuf.length = 0 then _ else _) = _
    split <;> rfl
  | fuel + 1, c => by
    unfold parseLoop
    change (if c.readBuf.length = 0 then _ else _) = _
    split
    · rfl
    · rw [processRequest_over]
      cases processRequest c with
      | mk st c' =>
        cases st with
        | ok => exact parseLoop_over d fuel c'
        | err => rfl

/-- What a read does to the request that is under way depends on nothing else of the record. -/
theorem subRead_over (c d : SubClient) (chunk : List UInt8) :
    subRead (c.over d) chunk = (subRead c chunk).map fun r => (r.1.over d, r.2) := by
  have hfinish (c : SubClient) : finishRead (c.over d) = ((finishRead c).1.over d, (finishRead c).2) := by
    unfold finishRead
    change (if c.argc = 0 then _ else _) = _
    split
    · unfold freeClientArgv
      rfl
    · rfl
  unfold subRead processSubReadBuf
  change (parseLoop (c.readBuf ++ chunk).length (SubClient.over { c with readBuf := c.readBuf ++ chunk } d)).map finishRead = _
  rw [parseLoop_over]
  simp only [Option.map_map]
  refine Option.map_congr fun c' _ => ?_
  exact hfinish c'

/-! ## What the other events do to a record -/

theorem subcliEventUpdate_over (reg : Nat → RegOutcome) (c d : SubClient) (e : Events) :
    subcliEventUpdate reg (c.over d) e = ((subcliEventUpdate reg d e).1, c.over (subcliEventUpdate reg d e).2) := by
  unfold subcliEventUpdate
  rw [show (c.over d).regs = d.regs from rfl]
  cases reg d.regs <;> rfl

theorem addReplyString_over (reg : Nat → RegOutcome) (c d : SubClient) (p : Sds) :
    addReplyString reg (c.over d) p = c.over (addReplyString reg d p) := by
  have hbuf (d : SubClient) : (addReplyToBuf (c.over d) p).2 = c.over (addReplyToBuf d p).2 := by
    unfold addReplyToBuf
    by_cases h : p.length ≤ d.wbuf.available
    · rw [dif_pos h, dif_pos (show p.length ≤ (c.over d).wbuf.available from h)]
      rfl
    · rw [dif_neg h, dif_neg (show ¬ p.length ≤ (c.over d).wbuf.available from h)]
  have hprep : prepareToWrite reg (c.over d) = ((prepareToWrite reg d).1, c.over (prepareToWrite reg d).2) := by
    by_cases hw : d.ev.write = true
    · rw [prepareToWrite_of_write hw, prepareToWrite_of_write (show (c.over d).ev.write = true from hw)]
      rfl
    · rw [prepareToWrite_of_not hw, prepareToWrite_of_not (show ¬ (c.over d).ev.write = true from hw)]
      exact subcliEventUpdate_over reg c d.access _
  unfold addReplyString addReply
  rw [hprep]
  rcases prepareToWrite reg d with ⟨st, d'⟩
  cases st with
  | ok => exact hbuf d'
  | err => rfl

theorem addPieces_over (reg : Nat → RegOutcome) (c : SubClient) : ∀ (ps : List Sds) (d : SubClient),
    addPieces reg (c.over d) ps = c.over (addPieces reg d ps)
  | [], _ => rfl
  | p :: ps, d => by
    change addPieces reg (addReplyString reg (c.over d) p) ps = c.over (addPieces reg (addReplyString reg d p) ps)
    rw [addReplyString_over, addPieces_over reg c ps]

/-- A flush reads nothing of the request, and loses it only together with the record. -/
theorem sendReplyToSubcli_over (reg : Nat → RegOutcome) (junk : WriteEnd) (c d : SubClient) (ws : List WriteRes) :
    sendReplyToSubcli reg junk (c.over d) ws =
      if flushEnd d ws junk = .error then SubClient.over { c with readBuf := [] } (sendReplyToSubcli reg junk d ws)
      else c.over (sendReplyToSubcli reg junk d ws) := by
  have hwritten : (c.over d).access.written ws = c.over (d.access.written ws) := by
    unfold SubClient.written
    change (if d.wbuf.bytes.length > 0 then _ else _) = c.over (if d.wbuf.bytes.length > 0 then _ else _)
    split <;> rfl
  rw [sendReplyToSubcli_eq, sendReplyToSubcli_eq, hwritten, show flushEnd (c.over d) ws junk = flushEnd d ws junk from rfl]
  cases flushEnd d ws junk with
  | again => rfl
  | error => rfl
  | count =>
    rw [if_neg (by decide)]
    exact congrArg Prod.snd (subcliEventUpdate_over reg c (d.access.written ws) _)

/-- What an event other than a read does to a record: as long as it lives, the request under way is left alone. -/
structure RestChanges (c c' : SubClient) : Prop where
  continues : Continues c c'
  request : c'.live = true → c.over c' = c'

theorem RestChanges.refl (c : SubClient) : RestChanges c c := ⟨.refl c, fun _ => rfl⟩

theorem RestChanges.trans {c c' c'' : SubClient} (h : RestChanges c c') (h' : RestChanges c' c'') : RestChanges c c'' := by
  refine ⟨h.continues.trans h'.continues, fun hl => ?_⟩
  have hover : (c.over c').over c'' = c'' := by
    rw [h.request (h'.continues.live hl)]
    exact h'.request hl
  exact hover

theorem restChanges_addPieces (reg : Nat → RegOutcome) (ps : List Sds) (c : SubClient) :
    RestChanges c (addPieces reg c ps) :=
  ⟨continues_addPieces reg ps c, fun _ => (addPieces_over reg c ps c).symm⟩

theorem restChanges_sendReplyToSubcli (reg : Nat → RegOutcome) (c : SubClient) (ws : List WriteRes) (junk : WriteEnd) :
    RestChanges c (sendReplyToSubcli reg junk c ws) := by
  refine ⟨continues_sendReplyToSubcli reg c ws junk, fun hl => ?_⟩
  have hover := sendReplyToSubcli_over reg junk c c ws
  by_cases hend : flushEnd c ws junk = .error
  · rw [sendReplyToSubcli_eq, hend] at hl
    cases hl
  · rw [if_neg hend] at hover
    exact hover.symm

theorem restChanges_subCliRelease (c : SubClient) : RestChanges c (subCliRelease c) :=
  ⟨continues_subCliRelease c, fun hl => by cases hl⟩

end PubsubBroker

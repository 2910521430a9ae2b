/-
Replies: `prepare_to_write`, `subcli_event_update` and the `add_reply` family of `protocol/subcli.c`.
A reply is a list of pieces, each appended on its own when the event registration succeeds and the
piece fits. `addPieces_appended` says which bytes of a reply get through.
-/
import PubsubBroker.Protocol.SubClient
import PubsubBroker.Protocol.Wire

namespace PubsubBroker

open CLang Numeral

/-! ## Events -/

/-- What `event_add` does for one registration. Where `event_new` fails there is no outcome: the process ends in the
`free` of the record (`eventUpdate_newFails`), and so does the run. -/
inductive RegOutcome
  | ok
  | addFails
  deriving DecidableEq, Repr

/-- A use of the record. -/
def SubClient.access (c : SubClient) : SubClient := { c with touched := c.touched || !c.live }

/-- `free(c)` -/
def SubClient.free (c : SubClient) : SubClient := { c with live := false }

section
/- `reg n` is the outcome of the `n`-th registration made for the client. -/
variable (reg : Nat → RegOutcome)

/-- `subcli_event_update(c, event)`, where `event_new` succeeds -/
def subcliEventUpdate (c : SubClient) (event : Events) : Status × SubClient :=
  let c' := { c.access with added := false, regs := c.regs + 1 }
  match reg c.regs with
  | .addFails => (.err, c')
  | .ok => (.ok, { c' with ev := event, added := true })

/-- `prepare_to_write(c)` -/
def prepareToWrite (c : SubClient) : Status × SubClient :=
  let c := c.access
  if c.ev.write then (.ok, c) else subcliEventUpdate reg c { c.ev with write := true }

/-! ## Appending -/

/-- `add_reply_to_buf(c, s, len)` -/
def addReplyToBuf (c : SubClient) (s : Sds) : Status × SubClient :=
  if h : s.length ≤ c.wbuf.available then
    (.ok, { c with wbuf := c.wbuf.append s h, appended := c.appended ++ s })
  else (.err, c)

/-- `add_reply(c, cnt)` -/
def addReply (c : SubClient) (cnt : Sds) : SubClient :=
  match prepareToWrite reg c with
  | (.err, c) => c
  -- the piece is dropped if it does not fit, and the caller goes on with the next one
  | (.ok, c) => (addReplyToBuf c cnt).2

/-- `add_reply_string(c, s, len)`, which is `add_reply` without its log line. -/
def addReplyString (c : SubClient) (s : Sds) : SubClient := addReply reg c s

/-- The pieces of a reply, one after the other. -/
def addPieces (c : SubClient) (pieces : List Sds) : SubClient := pieces.foldl (addReplyString reg) c

end

/-! ## Replies -/

def crlf : Sds := [CR, LF]
def pong : Sds := ascii "+PONG\r\n"

/-- The pieces of `add_reply_bulk(c, cnt)`. -/
def bulkPieces (cnt : Sds) : List Sds := [bulkHeader cnt, cnt, crlf]

/-- The pieces of `add_reply_error_fmt`, for the text it has formatted: line ends become spaces. -/
def errorPieces (text : Sds) : List Sds :=
  [ascii "-ERR ", text.map fun b => if b = CR ∨ b = LF then 32 else b, crlf]

/-- The pieces of `ping_command`. -/
def pongPieces : List Sds := [pong]

/-- The pieces of `subscribe_command`. -/
def subscribePieces : List Sds := [ascii "+subscribe", crlf]

/-- The pieces of `unsubscribe_command`. -/
def unsubscribePieces : List Sds := [ascii "+unsubscribe", crlf]

/-! ## What gets through -/

/-- The pieces that fit into `a` bytes, each tried in turn. -/
def fitting : Nat → List Sds → List UInt8
  | _, [] => []
  | a, p :: ps => if p.length ≤ a then p ++ fitting (a - p.length) ps else fitting a ps

/-- The pieces that are left when the registrations from the `n`-th on have been refused until one
succeeds. -/
def afterRefusals (reg : Nat → RegOutcome) : Nat → List Sds → List Sds
  | _, [] => []
  | n, p :: ps => if reg n = .ok then p :: ps else afterRefusals reg (n + 1) ps

/-- The pieces that get past `prepare_to_write`. -/
def served (reg : Nat → RegOutcome) (c : SubClient) (ps : List Sds) : List Sds :=
  if c.ev.write then ps else afterRefusals reg c.regs ps

variable {reg : Nat → RegOutcome}

@[simp] theorem access_ev (c : SubClient) : c.access.ev = c.ev := rfl
@[simp] theorem access_regs (c : SubClient) : c.access.regs = c.regs := rfl
@[simp] theorem access_wbuf (c : SubClient) : c.access.wbuf = c.wbuf := rfl
@[simp] theorem access_appended (c : SubClient) : c.access.appended = c.appended := rfl

theorem fitting_cons (a : Nat) (p : Sds) (ps : List Sds) :
    fitting a (p :: ps) = fitting a [p] ++ fitting (a - (fitting a [p]).length) ps := by
  by_cases h : p.length ≤ a <;> simp [fitting, h]

/-- What `add_reply_to_buf` does to the space and to the bytes appended. -/
theorem addReplyToBuf_spec (c : SubClient) (s : Sds) :
    (addReplyToBuf c s).2.ev = c.ev ∧
    (addReplyToBuf c s).2.wbuf.available = c.wbuf.available - (fitting c.wbuf.available [s]).length ∧
    (addReplyToBuf c s).2.appended = c.appended ++ fitting c.wbuf.available [s] := by
  unfold addReplyToBuf
  by_cases h : s.length ≤ c.wbuf.available
  · rw [dif_pos h]
    exact ⟨rfl, by simp [fitting, h], by simp [fitting, h]⟩
  · rw [dif_neg h]
    exact ⟨rfl, by simp [fitting, h], by simp [fitting, h]⟩

theorem subcliEventUpdate_ok {c : SubClient} (e : Events) (h : reg c.regs = .ok) : subcliEventUpdate reg c.access e =
    (.ok, { c.access with ev := e, added := true, regs := c.regs + 1, touched := c.access.access.touched }) := by
  unfold subcliEventUpdate
  rw [access_regs, h]
  rfl

/-- A refused registration leaves the flags and the write buffer. -/
theorem subcliEventUpdate_err {c : SubClient} {e : Events} (h : reg c.regs ≠ .ok) :
    subcliEventUpdate reg c.access e = (.err, (subcliEventUpdate reg c.access e).2) ∧
    (subcliEventUpdate reg c.access e).2.ev = c.ev ∧ (subcliEventUpdate reg c.access e).2.regs = c.regs + 1 ∧
    (subcliEventUpdate reg c.access e).2.wbuf = c.wbuf ∧
    (subcliEventUpdate reg c.access e).2.appended = c.appended := by
  unfold subcliEventUpdate
  rw [access_regs]
  cases hreg : reg c.regs with
  | ok => exact absurd hreg h
  | addFails => exact ⟨rfl, rfl, rfl, rfl, rfl⟩

theorem prepareToWrite_of_write {c : SubClient} (h : c.ev.write = true) : prepareToWrite reg c = (.ok, c.access) :=
  if_pos h

theorem prepareToWrite_of_not {c : SubClient} (h : ¬ c.ev.write = true) :
    prepareToWrite reg c = subcliEventUpdate reg c.access { c.ev with write := true } := if_neg h

/-- A client that waits for writability, or gets registered for it, gets past `prepare_to_write`. -/
theorem prepareToWrite_served {c : SubClient} (h : c.ev.write = true ∨ reg c.regs = .ok) :
    ∃ c1, prepareToWrite reg c = (.ok, c1) ∧ c1.ev.write = true ∧ c1.wbuf = c.wbuf ∧ c1.appended = c.appended ∧
      c1.live = c.live ∧ (c.added = true → c1.added = true) := by
  by_cases hw : c.ev.write = true
  · exact ⟨c.access, prepareToWrite_of_write hw, hw, rfl, rfl, rfl, id⟩
  · rw [prepareToWrite_of_not hw, subcliEventUpdate_ok _ (h.resolve_left hw)]
    exact ⟨_, rfl, rfl, rfl, rfl, rfl, fun _ => rfl⟩

/-- A piece that gets past `prepare_to_write` is appended if it fits, and the next one gets past it. -/
theorem addReplyString_served {c : SubClient} (p : Sds) (h : c.ev.write = true ∨ reg c.regs = .ok) :
    (addReplyString reg c p).ev.write = true ∧
    (addReplyString reg c p).wbuf.available = c.wbuf.available - (fitting c.wbuf.available [p]).length ∧
    (addReplyString reg c p).appended = c.appended ++ fitting c.wbuf.available [p] := by
  obtain ⟨c1, hc1, hev, hwbuf, happ, -, -⟩ := prepareToWrite_served h
  have hspec := addReplyToBuf_spec c1 p
  rw [hwbuf, happ] at hspec
  unfold addReplyString addReply
  rw [hc1]
  exact ⟨by rw [hspec.1, hev], hspec.2⟩

/-- A piece whose registration is refused is dropped, and the next one tries again. -/
theorem addReplyString_refused {c : SubClient} (p : Sds) (hw : ¬ c.ev.write = true) (h : reg c.regs ≠ .ok) :
    (addReplyString reg c p).ev = c.ev ∧ (addReplyString reg c p).regs = c.regs + 1 ∧
    (addReplyString reg c p).wbuf = c.wbuf ∧ (addReplyString reg c p).appended = c.appended := by
  have hprep : prepareToWrite reg c = (.err, (prepareToWrite reg c).2) ∧ (prepareToWrite reg c).2.ev = c.ev ∧
      (prepareToWrite reg c).2.regs = c.regs + 1 ∧ (prepareToWrite reg c).2.wbuf = c.wbuf ∧
      (prepareToWrite reg c).2.appended = c.appended := by
    rw [prepareToWrite_of_not hw]
    exact subcliEventUpdate_err h
  unfold addReplyString addReply
  rw [hprep.1]
  exact hprep.2

/-- The bytes of a reply that are appended: those of the pieces that get past `prepare_to_write` and
fit. -/
theorem addPieces_appended (ps : List Sds) (c : SubClient) :
    (addPieces reg c ps).appended = c.appended ++ fitting c.wbuf.available (served reg c ps) := by
  induction ps generalizing c with
  | nil => simp [addPieces, served, afterRefusals, fitting]
  | cons p ps ih =>
    change (addPieces reg (addReplyString reg c p) ps).appended = _
    rw [ih]
    by_cases h : c.ev.write = true ∨ reg c.regs = .ok
    · obtain ⟨hev, havail, happ⟩ := addReplyString_served p h
      have hserved : served reg c (p :: ps) = p :: ps := by
        unfold served afterRefusals
        rcases h with hw | hreg
        · rw [if_pos hw]
        · rw [if_pos hreg, ite_self]
      rw [served, if_pos hev, hserved, havail, happ, fitting_cons _ p ps, List.append_assoc]
    · rw [not_or] at h
      obtain ⟨hev, hregs, hwbuf, happ⟩ := addReplyString_refused p h.1 h.2
      rw [served, served, hev, if_neg h.1, if_neg h.1, afterRefusals, if_neg h.2, hregs, hwbuf, happ]

end PubsubBroker

/-
Sending the write buffer: `send_reply_to_subcli` and `sub_cli_release`. The loop counts the bytes it
has sent in a local variable and the buffer is emptied only when all of it is sent, so a flush that is
interrupted half way is started over by the next one.
-/
import PubsubBroker.Protocol.Reply
import PubsubBroker.Lib.Run

namespace PubsubBroker

open CLang

/-! ## `send_reply_to_subcli` -/

/-- What one call of `write` does: it takes a number of bytes (at most what it is offered), or returns
-1 with `EAGAIN`, or with another error. -/
inductive WriteRes
  | count (n : Nat)
  | again
  | error
  deriving DecidableEq, Repr

/-- What `nwritelen` and `errno` say behind the loop. -/
inductive WriteEnd
  | count
  | again
  | error
  deriving DecidableEq, Repr

/-- The loop of `send_reply_to_subcli` on a buffer that is not empty, with the outcomes of the calls of
`write` to come; when none is left, `write` would block. -/
def sendLoop (c : SubClient) (sentlen : Nat) : List WriteRes → SubClient × WriteEnd
  | [] => (c, .again)
  | .again :: _ => (c, .again)
  | .error :: _ => (c, .error)
  | .count n :: ws =>
    let nwritelen := min n (c.wbuf.bytes.length - sentlen)
    if nwritelen = 0 then (c, .count)
    else
      -- the bytes stay in the buffer until the last of them is sent
      let c := { c with sent := c.sent ++ (c.wbuf.bytes.drop sentlen).take nwritelen }
      let sentlen := sentlen + nwritelen
      if sentlen = c.wbuf.bytes.length then ({ c with wbuf := .empty }, .count)
      else sendLoop c sentlen ws

/-- `sub_cli_release(c)` -/
def subCliRelease (c : SubClient) : SubClient := { c.access with readBuf := [], added := false }.free

/-- `send_reply_to_subcli(c)`. With an empty buffer the result of `write` that is looked at behind the
loop was never assigned: it is `junk`. -/
def sendReplyToSubcli (reg : Nat → RegOutcome) (junk : WriteEnd) (c : SubClient) (ws : List WriteRes) : SubClient :=
  let c := c.access
  match (if c.wbuf.bytes.length > 0 then sendLoop c 0 ws else (c, junk)) with
  -- `EAGAIN`: what was sent is forgotten
  | (c, .again) => c
  | (c, .error) => subCliRelease c
  | (c, .count) => (subcliEventUpdate reg c { c.ev with write := false }).2

/-! ## One flush -/

/-- How many of the `pending` bytes the calls of `write` take before the loop ends. -/
def accepted : Nat → List WriteRes → Nat
  | pending, .count n :: ws => min n pending + if min n pending = 0 then 0 else accepted (pending - min n pending) ws
  | _, _ => 0

theorem accepted_zero (ws : List WriteRes) : accepted 0 ws = 0 := by
  cases ws with
  | nil => rfl
  | cons w ws => cases w <;> simp [accepted]

theorem accepted_le (pending : Nat) (ws : List WriteRes) : accepted pending ws ≤ pending := by
  induction ws generalizing pending with
  | nil => simp [accepted]
  | cons w ws ih =>
    cases w with
    | count n =>
      unfold accepted
      have := ih (pending - min n pending)
      split <;> omega
    | again => simp [accepted]
    | error => simp [accepted]

/-- The client after `k` of the bytes behind `sentlen` are sent, which are all that was left or not. -/
def SubClient.flushed (c : SubClient) (sentlen k : Nat) : SubClient :=
  { c with
    sent := c.sent ++ (c.wbuf.bytes.drop sentlen).take k
    wbuf := if k = c.wbuf.bytes.length - sentlen then .empty else c.wbuf }

theorem flushed_zero {c : SubClient} {sentlen : Nat} (h : sentlen < c.wbuf.bytes.length) : c.flushed sentlen 0 = c := by
  unfold SubClient.flushed
  rw [if_neg (by omega), List.take_zero, List.append_nil]

/-- The loop sends the bytes that are accepted from `sentlen` on, and empties the buffer when they are
all that was left. -/
theorem sendLoop_spec : ∀ (ws : List WriteRes) (c : SubClient) (sentlen : Nat), sentlen < c.wbuf.bytes.length →
    (sendLoop c sentlen ws).1 = c.flushed sentlen (accepted (c.wbuf.bytes.length - sentlen) ws)
  | [], c, sentlen, h => by
    rw [show accepted _ [] = 0 from rfl, flushed_zero h]
    rfl
  | .again :: _, c, sentlen, h => by
    rw [show accepted _ (.again :: _) = 0 from rfl, flushed_zero h]
    rfl
  | .error :: _, c, sentlen, h => by
    rw [show accepted _ (.error :: _) = 0 from rfl, flushed_zero h]
    rfl
  | .count n :: ws, c, sentlen, h => by
    simp only [sendLoop, accepted]
    generalize hk : min n (c.wbuf.bytes.length - sentlen) = k
    by_cases h0 : k = 0
    · rw [if_pos h0, if_pos h0, h0, Nat.add_zero, flushed_zero h]
    · rw [if_neg h0, if_neg h0]
      -- the buffer is emptied with the last byte, otherwise the loop goes on behind the bytes sent
      by_cases hall : sentlen + k = c.wbuf.bytes.length
      · have hrest : c.wbuf.bytes.length - sentlen - k = 0 := by omega
        rw [if_pos hall, hrest, accepted_zero, Nat.add_zero, SubClient.flushed, if_pos (by omega)]
      · have hle := accepted_le (c.wbuf.bytes.length - sentlen - k) ws
        rw [if_neg hall, sendLoop_spec ws _ (sentlen + k) (by simp only; omega)]
        unfold SubClient.flushed
        simp only [List.append_assoc]
        rw [Nat.sub_add_eq, List.take_add, List.drop_drop]
        congr 1
        split <;> split <;> first | rfl | omega

/-- What the calls of `write` for `pending` bytes end with. -/
def writesEnd : Nat → List WriteRes → WriteEnd
  | pending, .count n :: ws =>
    if min n pending = 0 ∨ min n pending = pending then .count else writesEnd (pending - min n pending) ws
  | _, .error :: _ => .error
  | _, _ => .again

theorem sendLoop_end : ∀ (ws : List WriteRes) (c : SubClient) (sentlen : Nat), sentlen < c.wbuf.bytes.length →
    (sendLoop c sentlen ws).2 = writesEnd (c.wbuf.bytes.length - sentlen) ws
  | [], _, _, _ => rfl
  | .again :: _, _, _, _ => rfl
  | .error :: _, _, _, _ => rfl
  | .count n :: ws, c, sentlen, h => by
    simp only [sendLoop, writesEnd]
    generalize hk : min n (c.wbuf.bytes.length - sentlen) = k
    by_cases h0 : k = 0
    · rw [if_pos h0, if_pos (.inl h0)]
    · rw [if_neg h0]
      by_cases hall : sentlen + k = c.wbuf.bytes.length
      · rw [if_pos hall, if_pos (.inr (by omega))]
      · rw [if_neg hall, if_neg (by omega), sendLoop_end ws _ (sentlen + k) (by simp only; omega), Nat.sub_add_eq]

/-- What a flush of the client ends with. Nothing is written from an empty buffer. -/
def flushEnd (c : SubClient) (ws : List WriteRes) (junk : WriteEnd) : WriteEnd :=
  if c.wbuf.bytes.length > 0 then writesEnd c.wbuf.bytes.length ws else junk

/-- The client behind the loop of a flush. -/
def SubClient.written (c : SubClient) (ws : List WriteRes) : SubClient :=
  if c.wbuf.bytes.length > 0 then c.flushed 0 (accepted c.wbuf.bytes.length ws) else c

/-- A flush sends the bytes that are accepted, and goes on as the calls of `write` have ended. -/
theorem sendReplyToSubcli_eq (reg : Nat → RegOutcome) (junk : WriteEnd) (c : SubClient) (ws : List WriteRes) :
    sendReplyToSubcli reg junk c ws =
      match flushEnd c ws junk with
      | .again => c.access.written ws
      | .error => subCliRelease (c.access.written ws)
      | .count => (subcliEventUpdate reg (c.access.written ws) { c.ev with write := false }).2 := by
  have hloop : (if c.access.wbuf.bytes.length > 0 then sendLoop c.access 0 ws else (c.access, junk)) =
      (c.access.written ws, flushEnd c ws junk) := by
    unfold flushEnd SubClient.written
    rw [access_wbuf]
    split
    · rename_i hpos
      exact Prod.ext (sendLoop_spec ws c.access 0 hpos) (sendLoop_end ws c.access 0 hpos)
    · rfl
  have hev : (c.access.written ws).ev = c.ev := by
    unfold SubClient.written
    split <;> rfl
  unfold sendReplyToSubcli
  simp only
  rw [hloop]
  cases flushEnd c ws junk with
  | again => rfl
  | error => rfl
  | count => simp only [hev]

/-- Every pending byte is taken in one flush, or none is. -/
def FlushOk (c : SubClient) (ws : List WriteRes) : Prop :=
  accepted c.wbuf.bytes.length ws = 0 ∨ accepted c.wbuf.bytes.length ws = c.wbuf.bytes.length

instance (c : SubClient) (ws : List WriteRes) : Decidable (FlushOk c ws) := inferInstanceAs (Decidable (_ ∨ _))

/-- The bytes appended are those sent and those pending. -/
def Accounted (c : SubClient) : Prop := c.appended = c.sent ++ c.wbuf.bytes

/-- Neither the registration of events nor a release touches the buffer. -/
theorem Accounted.congr {c c' : SubClient} (h : Accounted c) (ha : c'.appended = c.appended) (hs : c'.sent = c.sent)
    (hw : c'.wbuf = c.wbuf) : Accounted c' := by
  unfold Accounted at *
  rw [ha, hs, hw, h]

theorem Accounted.subcliEventUpdate {reg : Nat → RegOutcome} {c : SubClient} (h : Accounted c) (e : Events) :
    Accounted (subcliEventUpdate reg c e).2 := by
  unfold PubsubBroker.subcliEventUpdate
  cases reg c.regs <;> exact h.congr rfl rfl rfl

theorem Accounted.flushed {c : SubClient} {k : Nat} (h : Accounted c) (hk : k = 0 ∨ k = c.wbuf.bytes.length)
    (hpos : 0 < c.wbuf.bytes.length) : Accounted (c.flushed 0 k) := by
  rcases hk with rfl | rfl
  · rw [flushed_zero hpos]
    exact h
  · unfold Accounted SubClient.flushed at *
    simp [h]

/-- A flush that sends all or nothing keeps the account. -/
theorem Accounted.sendReplyToSubcli {reg : Nat → RegOutcome} {junk : WriteEnd} {c : SubClient} {ws : List WriteRes}
    (h : Accounted c) (hok : FlushOk c ws) : Accounted (sendReplyToSubcli reg junk c ws) := by
  have haccess : Accounted c.access := h.congr rfl rfl rfl
  have hwritten : Accounted (c.access.written ws) := by
    unfold SubClient.written
    split
    · rename_i hpos
      exact haccess.flushed hok hpos
    · exact haccess
  rw [sendReplyToSubcli_eq]
  cases flushEnd c ws junk with
  | again => exact hwritten
  | error => exact hwritten.congr rfl rfl rfl
  | count => exact hwritten.subcliEventUpdate _

theorem Accounted.addReplyToBuf {c : SubClient} (h : Accounted c) (s : Sds) : Accounted (addReplyToBuf c s).2 := by
  unfold PubsubBroker.addReplyToBuf
  split
  · unfold Accounted at *
    simp [h]
  · exact h

/-! ## Runs -/

/-- What happens to a write buffer: bytes are appended, or it is flushed against some outcomes of
`write`. -/
inductive BufOp
  | append (s : Sds)
  | flush (ws : List WriteRes) (junk : WriteEnd)

def bufStep (reg : Nat → RegOutcome) (c : SubClient) : BufOp → SubClient
  | .append s => (addReplyToBuf c s).2
  | .flush ws junk => sendReplyToSubcli reg junk c ws

/-- The condition on a step: a flush takes every pending byte or none. -/
def BufOpOk (c : SubClient) : BufOp → Prop
  | .append _ => True
  | .flush ws _ => FlushOk c ws

/-- In a run in which no flush stops half way, the bytes sent are always a prefix of those appended. -/
theorem sent_prefix_appended (reg : Nat → RegOutcome) (junk : Junk) (fd : Nat) (id : Sds) {ops : List BufOp}
    (hok : Machine.AllSteps (bufStep reg) BufOpOk (subCliCreate junk fd id) ops) :
    (Machine.run (bufStep reg) (subCliCreate junk fd id) ops).sent <+:
      (Machine.run (bufStep reg) (subCliCreate junk fd id) ops).appended := by
  have hacc : Accounted (Machine.run (bufStep reg) (subCliCreate junk fd id) ops) := by
    refine hok.invariant (I := Accounted) (fun c op hc hop => ?_) rfl
    cases op with
    | append s => exact hc.addReplyToBuf s
    | flush ws _ => exact hc.sendReplyToSubcli hop
  rw [hacc]
  exact List.prefix_append ..

theorem sent_prefix_appended_pong :
    let ops := [.append pong, .flush [.count 7] .count, .append pong, .flush [.again] .count]
    (Machine.run (bufStep fun _ => .ok) (zeroedClient 5 []) ops).sent <+:
      (Machine.run (bufStep fun _ => .ok) (zeroedClient 5 []) ops).appended :=
  sent_prefix_appended (fun _ => .ok) ⟨0, 0, .alloc 0⟩ 5 [] ⟨trivial, .inr (by decide +kernel), trivial,
    .inl (by decide +kernel), trivial⟩

/-- A flush that takes one byte is started over by the next one. -/
theorem resent_byte :
    let c := Machine.run (bufStep fun _ => .ok) (zeroedClient 5 [])
      [.append (ascii "abc"), .flush [.count 1, .again] .count, .flush [.count 3] .count]
    c.sent = ascii "aabc" ∧ c.appended = ascii "abc" ∧ ¬ c.sent <+: c.appended := by decide +kernel

end PubsubBroker

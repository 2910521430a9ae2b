/-
What a failed `subcli_event_update` leaves behind. The old event is unregistered before the two steps
that may fail. After `event_new` has failed the process ends: the record is behind the prefix of its block,
and `free` aborts. After `event_add` has failed the call returns, with a live record that has no event.
-/
import PubsubBroker.Common.Zmalloc
import PubsubBroker.Protocol.Lifetime

namespace PubsubBroker

open Buffer

/-! ## Failures -/

section
variable (m : Zmem) (p : Nat) (reg : Nat → RegOutcome)

/-- `subcli_event_update(c, event)`, where the record is behind the prefix of the block at `p` and `made` says
whether `event_new` returns an event. -/
def eventUpdate (made : Bool) (c : SubClient) (event : Events) : Except MemFault (Status × SubClient) :=
  if made then .ok (subcliEventUpdate reg c event)
  else do
    -- `free(c)`, not `zfree(c)`
    let _ ← m.free (p + PREFIX_SIZE)
    -- `close(c->fd)`
    let c := { c.access with added := false, regs := c.regs + 1 }.free.access
    return (.err, { c with closed := c.closed + 1 })

variable (c : SubClient) (event : Events)

/-- The record is still live, with its event registered for the mask it had. -/
structure Kept (c' : SubClient) : Prop where
  live : c'.live = true
  added : c'.added = true
  ev : c'.ev = c.ev

/-- The record is released, and no one accesses it afterwards: not the update itself, nor the callers
that make this call. These are the replies, which a command follows by `reset_client` and a publish by
the next client of the set, and the flush. -/
structure ReleasedForGood (c' : SubClient) : Prop where
  freed : c'.live = false
  update : c'.touched = false
  replies : c.ev.write = false → event = { c.ev with write := true } → ∀ s ss, (addPieces reg c (s :: ss)).touched = false
  commands : c.ev.write = false → event = { c.ev with write := true } → ∀ s ss,
    (resetClient (addPieces reg c (s :: ss)).access).touched = false
  flushes : event = { c.ev with write := false } → ∀ ws junk, flushEnd c ws junk = .count →
    (sendReplyToSubcli reg junk c ws).touched = false

/-- If the update returns `SUBCLI_ERR`, the client is as before, or gone for good. -/
def FailsAtomically (made : Bool) : Prop := ∀ c', eventUpdate m p reg made c event = .ok (.err, c') →
  Kept c c' ∨ ReleasedForGood reg c event c'

variable {m p reg c event}

/-- Where `event_new` fails the call does not return: `c` is not the address of its block. -/
theorem eventUpdate_newFails (hm : m.Apart) {block : Cells} (hp : m.blocks.lookup p = some block)
    (hlen : PREFIX_SIZE < block.length) : eventUpdate m p reg false c event = .error .assert := by
  unfold eventUpdate
  rw [free_behind_header hm hp hlen]
  rfl

/-- Where `event_add` fails the record stays, and its event is lost. -/
theorem subcliEventUpdate_addFails (h : reg c.regs = .addFails) :
    subcliEventUpdate reg c event = (.err, { c.access with added := false, regs := c.regs + 1 }) := by
  unfold subcliEventUpdate
  rw [h]

/-- Only a failing `event_add` makes `subcli_event_update` return `SUBCLI_ERR`, and then the client, which stays
live without its event, is neither as before nor gone. -/
theorem fails_atomically_iff (hm : m.Apart) {block : Cells} (hp : m.blocks.lookup p = some block)
    (hlen : PREFIX_SIZE < block.length) (hlive : c.live = true) (made : Bool) :
    FailsAtomically m p reg c event made ↔ (made = true → reg c.regs ≠ .addFails) := by
  constructor
  · rintro hatomic rfl hreg
    have herr : eventUpdate m p reg true c event = .ok (.err, { c.access with added := false, regs := c.regs + 1 }) :=
      congrArg Except.ok (subcliEventUpdate_addFails hreg)
    rcases hatomic _ herr with hkept | hreleased
    · cases hkept.added
    · have hfreed : c.live = false := hreleased.freed
      rw [hlive] at hfreed
      cases hfreed
  · intro hreg c' herr
    cases made with
    | false =>
      rw [eventUpdate_newFails hm hp hlen] at herr
      cases herr
    | true =>
      have hok : reg c.regs = .ok := by
        cases h : reg c.regs with
        | ok => rfl
        | addFails => exact absurd h (hreg rfl)
      unfold eventUpdate subcliEventUpdate at herr
      rw [hok] at herr
      cases herr

end

/-- A client that listens for reading. -/
def listeningClient : SubClient := { zeroedClient 5 [] with ev := ⟨true, false, true⟩, added := true }

/-- The block of a record, at the address 16. -/
def recordMem : Zmem := ⟨0, (∅ : Heap Cells).insert 16 (List.replicate 24 none)⟩

theorem recordMem_apart : recordMem.Apart := by
  have hlookup (q : Nat) : recordMem.blocks.lookup q = if q = 16 then some (List.replicate 24 none) else none := by
    unfold recordMem
    rw [Heap.lookup_insert_eq, AList.lookup_empty]
  intro q block hq i hi _
  rw [hlookup] at hq ⊢
  have h16 : q = 16 := by
    by_contra hne
    rw [if_neg hne] at hq
    cases hq
  rw [if_neg (by omega)]

/-- Where `event_new` fails, nothing is returned that could be wrong; nor where both calls succeed. -/
theorem fails_atomically_served :
    (FailsAtomically recordMem 16 (fun _ => .ok) listeningClient ⟨true, true, true⟩ false ∧
      FailsAtomically recordMem 16 (fun _ => .ok) listeningClient ⟨true, true, true⟩ true) ∧
    eventUpdate recordMem 16 (fun _ => .ok) false listeningClient ⟨true, true, true⟩ = .error .assert := by
  have hp : recordMem.blocks.lookup 16 = some (List.replicate 24 none) := by decide
  have hiff (made : Bool) : FailsAtomically recordMem 16 (fun _ => .ok) listeningClient ⟨true, true, true⟩ made ↔
      (made = true → RegOutcome.ok ≠ .addFails) := fails_atomically_iff recordMem_apart hp (by decide) rfl made
  exact ⟨⟨(hiff false).2 fun _ => by decide, (hiff true).2 fun _ => by decide⟩, rfl⟩

/-- `event_add` fails for a client that is alive and listens: the call returns, the record stays live, and its
event is registered no more. -/
theorem event_update_failures : listeningClient.live = true ∧ listeningClient.added = true ∧
    ¬ FailsAtomically recordMem 16 (fun _ => .addFails) listeningClient ⟨true, true, true⟩ true ∧
    (subcliEventUpdate (fun _ => .addFails) listeningClient ⟨true, true, true⟩).1 = .err ∧
    (subcliEventUpdate (fun _ => .addFails) listeningClient ⟨true, true, true⟩).2.live = true ∧
    (subcliEventUpdate (fun _ => .addFails) listeningClient ⟨true, true, true⟩).2.added = false := by
  refine ⟨rfl, rfl, fun h => ?_, rfl, rfl, rfl⟩
  rcases h _ rfl with hkept | hreleased
  · exact absurd hkept.added (by decide)
  · exact absurd hreleased.freed (by decide)

end PubsubBroker

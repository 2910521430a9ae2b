/-
The life of a client record: which operations free it and which only use it. A reply leaves the record
alive, and a flush frees it exactly when `write` fails for good.
-/
import PubsubBroker.Protocol.Flush

namespace PubsubBroker

/-- The record is not freed, and was never used after a `free`. -/
structure Healthy (c : SubClient) : Prop where
  live : c.live = true
  untouched : c.touched = false

section
variable (reg : Nat → RegOutcome)

theorem Healthy.access {c : SubClient} (h : Healthy c) : Healthy c.access :=
  ⟨h.live, by simp [SubClient.access, h.live, h.untouched]⟩

/-- Neither the buffers nor the flags are part of a record's life. -/
theorem Healthy.congr {c c' : SubClient} (h : Healthy c) (hl : c'.live = c.live) (ht : c'.touched = c.touched) :
    Healthy c' := ⟨hl.trans h.live, ht.trans h.untouched⟩

theorem Healthy.subcliEventUpdate {c : SubClient} (h : Healthy c) (e : Events) : Healthy (subcliEventUpdate reg c e).2 := by
  unfold PubsubBroker.subcliEventUpdate
  cases reg c.regs with
  | addFails => exact h.access.congr rfl rfl
  | ok => exact h.access.congr rfl rfl

theorem Healthy.prepareToWrite {c : SubClient} (h : Healthy c) : Healthy (prepareToWrite reg c).2 := by
  unfold PubsubBroker.prepareToWrite
  simp only
  split
  · exact h.access
  · exact h.access.subcliEventUpdate reg _

theorem Healthy.addReplyToBuf {c : SubClient} (h : Healthy c) (s : Sds) : Healthy (addReplyToBuf c s).2 := by
  unfold PubsubBroker.addReplyToBuf
  split
  · exact h.congr rfl rfl
  · exact h

theorem Healthy.addReplyString {c : SubClient} (h : Healthy c) (s : Sds) : Healthy (addReplyString reg c s) := by
  have hprep := h.prepareToWrite reg
  unfold PubsubBroker.addReplyString addReply
  cases hc : PubsubBroker.prepareToWrite reg c with
  | mk st c1 =>
    rw [hc] at hprep
    cases st with
    | ok => exact hprep.addReplyToBuf s
    | err => exact hprep

/-- A reply does not free the record it is made to. -/
theorem Healthy.addPieces : ∀ (ps : List Sds) {c : SubClient}, Healthy c → Healthy (addPieces reg c ps)
  | [], _, h => h
  | p :: ps, _, h => Healthy.addPieces ps (h.addReplyString reg p)

/-! ## Flushes -/

theorem Healthy.written {c : SubClient} (h : Healthy c) (ws : List WriteRes) : Healthy (c.written ws) := by
  unfold SubClient.written
  split
  · exact h.congr rfl rfl
  · exact h

theorem Healthy.subCliRelease {c : SubClient} (h : Healthy c) :
    (subCliRelease c).live = false ∧ (subCliRelease c).touched = false :=
  ⟨rfl, h.access.untouched⟩

/-- A flush of a live record frees it exactly when `write` fails for good. -/
theorem Healthy.sendReplyToSubcli {c : SubClient} (h : Healthy c)
    (ws : List WriteRes) (junk : WriteEnd) :
    (sendReplyToSubcli reg junk c ws).touched = false ∧
    ((sendReplyToSubcli reg junk c ws).live = true ↔ flushEnd c ws junk ≠ .error) := by
  have hwritten := h.access.written ws
  rw [sendReplyToSubcli_eq]
  cases flushEnd c ws junk with
  | again => exact ⟨hwritten.untouched, by simp [hwritten.live]⟩
  | error => exact ⟨hwritten.subCliRelease.2, by simp [hwritten.subCliRelease.1]⟩
  | count =>
    have := hwritten.subcliEventUpdate reg { c.ev with write := false }
    exact ⟨this.untouched, by simp [this.live]⟩

end

/-! ## What stays -/

/-- A later state of the same record: no use of a record changes its id or its descriptor, closes the
descriptor, or brings the record back to life. -/
structure Continues (c c' : SubClient) : Prop where
  id : c'.id = c.id
  fd : c'.fd = c.fd
  live : c'.live = true → c.live = true
  closed : c'.closed = c.closed

theorem Continues.refl (c : SubClient) : Continues c c := ⟨rfl, rfl, fun h => h, rfl⟩

theorem Continues.trans {c c' c'' : SubClient} (h : Continues c c') (h' : Continues c' c'') : Continues c c'' :=
  ⟨h'.id.trans h.id, h'.fd.trans h.fd, fun hl => h.live (h'.live hl), h'.closed.trans h.closed⟩

section
variable (reg : Nat → RegOutcome)

theorem continues_subcliEventUpdate (c : SubClient) (e : Events) : Continues c (subcliEventUpdate reg c e).2 := by
  unfold subcliEventUpdate
  cases reg c.regs with
  | ok => exact ⟨rfl, rfl, fun h => h, rfl⟩
  | addFails => exact ⟨rfl, rfl, fun h => h, rfl⟩

theorem continues_prepareToWrite (c : SubClient) : Continues c (prepareToWrite reg c).2 := by
  have haccess : Continues c c.access := ⟨rfl, rfl, fun h => h, rfl⟩
  unfold prepareToWrite
  simp only
  split
  · exact haccess
  · exact haccess.trans (continues_subcliEventUpdate ..)

theorem continues_addReplyToBuf (c : SubClient) (s : Sds) : Continues c (addReplyToBuf c s).2 := by
  unfold addReplyToBuf
  split <;> exact ⟨rfl, rfl, fun h => h, rfl⟩

theorem continues_addReplyString (c : SubClient) (s : Sds) : Continues c (addReplyString reg c s) := by
  have hprep := continues_prepareToWrite reg c
  unfold addReplyString addReply
  cases hc : prepareToWrite reg c with
  | mk st c1 =>
    rw [hc] at hprep
    cases st with
    | ok => exact hprep.trans (continues_addReplyToBuf c1 s)
    | err => exact hprep

theorem continues_addPieces : ∀ (ps : List Sds) (c : SubClient), Continues c (addPieces reg c ps)
  | [], c => .refl c
  | p :: ps, c => (continues_addReplyString reg c p).trans (continues_addPieces ps _)

/-- A reply leaves the record live, or released as it was. -/
theorem live_addReplyString (c : SubClient) (s : Sds) : (addReplyString reg c s).live = c.live := by
  have hbuf (d : SubClient) : (addReplyToBuf d s).2.live = d.live := by
    unfold addReplyToBuf
    split <;> rfl
  unfold addReplyString addReply
  by_cases hw : c.ev.write = true
  · rw [prepareToWrite_of_write hw]
    exact hbuf c.access
  · rw [prepareToWrite_of_not hw]
    unfold subcliEventUpdate
    rw [access_regs]
    cases reg c.regs with
    | ok => exact hbuf _
    | addFails => rfl

theorem live_addPieces : ∀ (ps : List Sds) (c : SubClient), (addPieces reg c ps).live = c.live
  | [], _ => rfl
  | p :: ps, c => (live_addPieces ps (addReplyString reg c p)).trans (live_addReplyString reg c p)

theorem continues_subCliRelease (c : SubClient) : Continues c (subCliRelease c) :=
  ⟨rfl, rfl, (fun h => by cases h), rfl⟩

theorem continues_sendReplyToSubcli (c : SubClient) (ws : List WriteRes) (junk : WriteEnd) :
    Continues c (sendReplyToSubcli reg junk c ws) := by
  have hwritten : Continues c (c.access.written ws) := by
    unfold SubClient.written
    split <;> exact ⟨rfl, rfl, fun h => h, rfl⟩
  rw [sendReplyToSubcli_eq]
  cases flushEnd c ws junk with
  | again => exact hwritten
  | error => exact hwritten.trans (continues_subCliRelease _)
  | count => exact hwritten.trans (continues_subcliEventUpdate ..)

end

end PubsubBroker

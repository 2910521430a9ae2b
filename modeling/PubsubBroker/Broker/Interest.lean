/-
Write interest: `prepare_to_write` asks for `EV_WRITE` before a piece is appended, and
`send_reply_to_subcli` gives it up on one of its exits only. `write_interest` says that between two
events a client waits for writability exactly when it has bytes to send.
-/
import PubsubBroker.Broker.Publish
import PubsubBroker.Broker.Subscribe

namespace PubsubBroker

open CLang Numeral

/-! ## Clients -/

/-- The event registered for the client contains `EV_WRITE`. -/
def SubClient.WaitsWrite (c : SubClient) : Prop := c.added = true ∧ c.ev.write = true

/-- The event of the client is registered, and waits for writability when there are bytes to send. -/
structure Interested (c : SubClient) : Prop where
  added : c.added = true
  write : c.ev.write = true ↔ 0 < c.wbuf.bytes.length

/-- The client waits for writability and has bytes to send. -/
structure Writing (c : SubClient) : Prop where
  added : c.added = true
  write : c.ev.write = true
  pending : 0 < c.wbuf.bytes.length

theorem Writing.interested {c : SubClient} (h : Writing c) : Interested c :=
  ⟨h.added, iff_of_true h.write h.pending⟩

section
variable {reg : Nat → RegOutcome}

/-- A registration that succeeds. -/
theorem subcliEventUpdate_registered {c : SubClient} (e : Events) (h : reg c.regs = .ok) :
    (subcliEventUpdate reg c e).2.live = c.live ∧ (subcliEventUpdate reg c e).2.added = true ∧
    (subcliEventUpdate reg c e).2.ev = e ∧ (subcliEventUpdate reg c e).2.wbuf = c.wbuf := by
  unfold subcliEventUpdate
  rw [h]
  exact ⟨rfl, rfl, rfl, rfl⟩

variable (hreg : ∀ n, reg n = .ok)
include hreg

/-! ## Replies -/

/-- With registrations that succeed, `add_reply` asks for writability and appends the piece if it fits. -/
theorem addReplyString_registered (c : SubClient) (p : Sds) :
    (addReplyString reg c p).live = c.live ∧ (c.added = true → (addReplyString reg c p).added = true) ∧
    (addReplyString reg c p).ev.write = true ∧
    (addReplyString reg c p).wbuf.bytes = c.wbuf.bytes ++ if p.length ≤ c.wbuf.available then p else [] := by
  obtain ⟨c1, hc1, hwrite, hwbuf, -, hlive, hadded⟩ := prepareToWrite_served (.inr (hreg c.regs))
  unfold addReplyString addReply addReplyToBuf
  rw [hc1]
  simp only
  by_cases hfit : p.length ≤ c.wbuf.available
  · rw [dif_pos (hwbuf ▸ hfit), if_pos hfit]
    refine ⟨hlive, hadded, hwrite, ?_⟩
    simp only [WriteBuf.bytes_append, hwbuf]
  · rw [dif_neg (hwbuf ▸ hfit), if_neg hfit]
    refine ⟨hlive, hadded, hwrite, ?_⟩
    rw [hwbuf, List.append_nil]

/-- Nothing that is appended later takes bytes away. -/
theorem Writing.addReplyString {c : SubClient} (h : Writing c) (p : Sds) : Writing (addReplyString reg c p) := by
  obtain ⟨-, hadded, hwrite, hbytes⟩ := addReplyString_registered hreg c p
  refine ⟨hadded h.added, hwrite, ?_⟩
  rw [hbytes, List.length_append]
  have := h.pending
  omega

theorem Writing.addPieces : ∀ (ps : List Sds) {c : SubClient}, Writing c → Writing (addPieces reg c ps)
  | [], _, h => h
  | p :: ps, _, h => Writing.addPieces ps (h.addReplyString hreg p)

theorem addPieces_live (ps : List Sds) (c : SubClient) : (addPieces reg c ps).live = c.live := by
  induction ps generalizing c with
  | nil => rfl
  | cons p ps ih => exact (ih _).trans (addReplyString_registered hreg c p).1

omit hreg in
/-- The first piece of a reply is not empty and fits into an empty buffer. -/
def Opens : List Sds → Prop
  | [] => False
  | p :: _ => 0 < p.length ∧ p.length ≤ SUB_WRITE_BUF_LEN

omit hreg in
theorem CommandReply.opens {ps : List Sds} (h : CommandReply ps) : Opens ps := by
  cases h with
  | pong => exact ⟨by decide, by decide⟩
  | subscribe => exact ⟨by decide, by decide⟩
  | unsubscribe => exact ⟨by decide, by decide⟩
  | error text => exact ⟨by decide, by decide⟩

omit hreg in
theorem opens_bulkPieces {msg : Sds} (h : msg.length ≤ PUB_READ_BUF_LEN) : Opens (bulkPieces msg) := by
  have hdigits := length_decimal_limit h
  have hlen : (bulkHeader msg).length = (decimal msg.length).length + 3 := by simp [bulkHeader]
  refine ⟨by omega, ?_⟩
  unfold SUB_WRITE_BUF_LEN
  omega

/-- A reply is never refused as a whole: if the buffer is empty its first piece fits, and otherwise there is
something to send already. -/
theorem Interested.addPieces {c : SubClient} (h : Interested c) {ps : List Sds} (hps : Opens ps) :
    Writing (addPieces reg c ps) := by
  cases ps with
  | nil => exact hps.elim
  | cons p ps =>
    obtain ⟨-, hadded, hwrite, hbytes⟩ := addReplyString_registered hreg c p
    have hfirst : Writing (addReplyString reg c p) := by
      refine ⟨hadded h.added, hwrite, ?_⟩
      rw [hbytes, List.length_append]
      by_cases hempty : c.wbuf.bytes.length = 0
      · have hfit : p.length ≤ c.wbuf.available := by
          unfold WriteBuf.available
          have := hps.2
          omega
        rw [if_pos hfit]
        have := hps.1
        omega
      · omega
    exact hfirst.addPieces hreg ps

/-! ## Flushes -/

omit hreg in
/-- When the calls of `write` end without an error, and none of them takes nothing, all bytes are sent. -/
theorem accepted_of_count : ∀ (ws : List WriteRes) {pending : Nat}, (∀ n, .count n ∈ ws → 1 ≤ n) → 0 < pending →
    writesEnd pending ws = .count → accepted pending ws = pending
  | .count n :: ws, pending, hws, hpos, hend => by
    have hn := hws n (List.mem_cons_self ..)
    have hrest := fun m hm => hws m (List.mem_cons_of_mem _ hm)
    unfold accepted
    unfold writesEnd at hend
    rw [if_neg (by omega)]
    split at hend
    · rw [show pending - min n pending = 0 by omega, accepted_zero]
      omega
    · rw [accepted_of_count ws hrest (by omega) hend]
      omega

omit hreg in
/-- When `write` would block, bytes are left. -/
theorem accepted_of_again : ∀ (ws : List WriteRes) {pending : Nat}, 0 < pending → writesEnd pending ws = .again →
    accepted pending ws < pending
  | [], pending, hpos, _ => hpos
  | .again :: _, pending, hpos, _ => hpos
  | .count n :: ws, pending, hpos, hend => by
    unfold accepted
    unfold writesEnd at hend
    split at hend
    · cases hend
    · rename_i hmore
      have hleft : 0 < pending - min n pending := by omega
      have := accepted_of_again ws hleft hend
      split <;> omega

omit hreg in
/-- What is left in the buffer behind a flush that was not ended by an error. -/
theorem length_written (c : SubClient) (ws : List WriteRes) (junk : WriteEnd) (hws : ∀ n, .count n ∈ ws → 1 ≤ n) :
    (flushEnd c ws junk = .again → (c.written ws).wbuf = c.wbuf) ∧
    (flushEnd c ws junk = .count → (c.written ws).wbuf.bytes.length = 0) := by
  unfold flushEnd SubClient.written
  by_cases hpos : c.wbuf.bytes.length > 0
  · rw [if_pos hpos, if_pos hpos]
    unfold SubClient.flushed
    constructor
    · intro hend
      have := accepted_of_again ws hpos hend
      rw [if_neg (by omega)]
    · intro hend
      rw [if_pos (by rw [accepted_of_count ws hws hpos hend]; rfl)]
      rfl
  · rw [if_neg hpos, if_neg hpos]
    exact ⟨fun _ => rfl, fun _ => by omega⟩

/-- A flush releases the client, or keeps its interest in step with its bytes. -/
theorem Interested.sendReplyToSubcli {c : SubClient} (h : Interested c) {ws : List WriteRes}
    (hws : ∀ n, .count n ∈ ws → 1 ≤ n) (junk : WriteEnd) (hlive : (sendReplyToSubcli reg junk c ws).live = true) :
    Interested (sendReplyToSubcli reg junk c ws) := by
  obtain ⟨hagain, hcount⟩ := length_written c ws junk hws
  have hfields : (c.access.written ws).added = c.added ∧ (c.access.written ws).ev = c.ev := by
    unfold SubClient.written
    split <;> exact ⟨rfl, rfl⟩
  have hwbuf : (c.access.written ws).wbuf = (c.written ws).wbuf := by
    unfold SubClient.written
    rw [access_wbuf]
    split <;> rfl
  -- by what the last `write` has returned: bytes are left, or the client is gone, or all were sent
  rw [sendReplyToSubcli_eq] at hlive ⊢
  cases hend : flushEnd c ws junk with
  | again =>
    refine ⟨hfields.1.trans h.added, ?_⟩
    rw [hfields.2, hwbuf, hagain hend]
    exact h.write
  | error =>
    rw [hend] at hlive
    cases hlive
  | count =>
    obtain ⟨-, hadded, hev, hw⟩ := subcliEventUpdate_registered { c.ev with write := false }
      (hreg (c.access.written ws).regs)
    refine ⟨hadded, ?_⟩
    rw [hev, hw, hwbuf, hcount hend]
    exact iff_of_false (by simp) (by omega)

omit hreg in
/-- With bytes to send, `send_reply_to_subcli` looks at results of `write` only. -/
theorem sendReplyToSubcli_junk {c : SubClient} (h : 0 < c.wbuf.bytes.length) (ws : List WriteRes)
    (junk junk' : WriteEnd) : sendReplyToSubcli reg junk c ws = sendReplyToSubcli reg junk' c ws := by
  have hend (junk : WriteEnd) : flushEnd c ws junk = writesEnd c.wbuf.bytes.length ws := if_pos h
  rw [sendReplyToSubcli_eq, sendReplyToSubcli_eq, hend, hend]

end

/-! ## Runs -/

/-- `event_new` and `event_add` succeed, a publisher sends at most one buffer of bytes, and `write` takes
something or fails. -/
def Op.Admitted : Op → Prop
  | .accept _ _ _ _ out => out = .ok
  | .publish msg _ => 1 ≤ msg.length ∧ msg.length ≤ PUB_READ_BUF_LEN
  | .writable _ ws _ => ∀ n, .count n ∈ ws → 1 ≤ n
  | _ => True

section
variable {T : Datrie} {reg : Nat → Nat → RegOutcome} (hreg : ∀ r n, reg r n = .ok)
include hreg

/-- The live clients wait for writability when they have bytes to send. -/
def AllInterested (b : Broker T) : Prop := ∀ c ∈ b.subClis, c.live = true → Interested c

theorem AllInterested.step (conv : Iconv) {b : Broker T} (h : AllInterested b) {op : Op} (hop : op.Admitted) :
    AllInterested (step conv reg b op) := by
  have hreply (r : Nat) {ps : List Sds} (hps : Opens ps) (c : SubClient) (hc : c.live = true → Interested c)
      (hlive : (addPieces (reg r) c ps).live = true) : Interested (addPieces (reg r) c ps) := by
    rw [addPieces_live (hreg r)] at hlive
    exact ((hc hlive).addPieces (hreg r) hps).interested
  cases op with
  | accept fd sec pid junk out =>
    obtain rfl : out = .ok := hop
    intro c hc
    rcases List.mem_append.1 hc with hc | hc
    · exact h c hc
    · obtain rfl := List.mem_singleton.1 hc
      -- nothing is pending yet
      exact fun _ => ⟨rfl, by simp [subCliCreate]⟩
  | command r argv0 topics =>
    rcases step_command conv reg b r argv0 topics with ⟨-, heq⟩ | ⟨c, -, -, heq⟩
    · rwa [heq]
    · rw [heq]
      have htopics : AllInterested { b with toTopics := commandTopics conv b.toTopics r c.id argv0 topics } := h
      exact forall_reply reg htopics (hreply r (commandReply_commandPieces argv0 topics).opens)
  | publish msg junk =>
    simp only [PubsubBroker.step]
    rw [processPubReadBuf_eq]
    refine forall_replyAll reg _ h fun r hr => ?_
    obtain ⟨x, -, rfl⟩ := List.mem_map.1 hr
    exact hreply x (opens_bulkPieces hop.2)
  | readFail r =>
    simp only [PubsubBroker.step]
    split
    · refine Broker.forall_update h fun c _ _ hlive => ?_
      cases hlive
    · exact h
  | writable r ws junk =>
    simp only [PubsubBroker.step]
    split
    · rename_i hr
      obtain ⟨d, hd, hdl⟩ := hr
      refine Broker.forall_update h fun c hc hold => ?_
      rw [hd] at hc
      cases hc
      exact (hold hdl).sendReplyToSubcli (hreg r) hop junk
    · exact h

/-- When registrations succeed, messages fit into a buffer and `write` takes something or fails, in every
state of a run a live client waits for writability exactly when it has bytes to send. So nothing pending
is ever stranded, and no flush looks at a result that `write` has not returned. A record is taken to be at an
address where no released one was. -/
theorem write_interest (conv : Iconv) (counter : Int) {ops : List Op} (hops : ∀ op ∈ ops, op.Admitted) {r : Nat}
    {c : SubClient} (hc : (serve T conv reg counter ops).subClis[r]? = some c) (hlive : c.live = true) :
    (c.WaitsWrite ↔ 0 < c.wbuf.bytes.length) ∧
    (c.WaitsWrite → ∀ ws junk junk', sendReplyToSubcli (reg r) junk c ws = sendReplyToSubcli (reg r) junk' c ws) := by
  have hrun : AllInterested (serve T conv reg counter ops) := by
    refine (Machine.AllSteps.of_forall hops).invariant (I := AllInterested) (fun b op h hop => h.step hreg conv hop) ?_
    simp [AllInterested, Broker.init]
  have h := hrun c (List.mem_of_getElem? hc) hlive
  refine ⟨⟨fun hw => h.write.1 hw.2, fun hpos => ⟨h.added, h.write.2 hpos⟩⟩, ?_⟩
  intro hw ws junk junk'
  exact sendReplyToSubcli_junk (h.write.1 hw.2) ws junk junk'

end

/-- A subscriber with a reply half sent and another one behind it. -/
theorem write_interest_published :
    ∃ c, (serve listTrie asciiConv (fun _ _ => .ok) 0 (connectAndSubscribe (ascii "n") ++
      [.writable 0 [.count 3] .error, .publish (ascii "n") fun _ => 7])).subClis[0]? = some c ∧ c.WaitsWrite := by
  have hclient : ∃ c, (serve listTrie asciiConv (fun _ _ => .ok) 0 (connectAndSubscribe (ascii "n") ++
      [.writable 0 [.count 3] .error, .publish (ascii "n") fun _ => 7])).subClis[0]? = some c ∧
      c.live = true ∧ 0 < c.wbuf.bytes.length := by
    have : ((serve listTrie asciiConv (fun _ _ => .ok) 0 (connectAndSubscribe (ascii "n") ++
        [.writable 0 [.count 3] .error, .publish (ascii "n") fun _ => 7])).subClis[0]?.map fun c =>
        (c.live, decide (0 < c.wbuf.bytes.length))) = some (true, true) := by decide +kernel
    obtain ⟨c, hc, heq⟩ := Option.map_eq_some_iff.1 this
    simp only [Prod.mk.injEq, decide_eq_true_eq] at heq
    exact ⟨c, hc, heq⟩
  obtain ⟨c, hc, hlive, hpos⟩ := hclient
  refine ⟨c, hc, (write_interest (fun _ _ => rfl) asciiConv 0 ?_ hc hlive).1.2 hpos⟩
  intro op hop
  simp only [connectAndSubscribe, List.cons_append, List.nil_append, List.mem_cons, List.not_mem_nil, or_false] at hop
  rcases hop with rfl | rfl | rfl | rfl
  · rfl
  · trivial
  · intro n hn
    simp only [List.mem_cons, List.not_mem_nil, or_false, WriteRes.count.injEq] at hn
    omega
  · exact ⟨by decide, by decide⟩

end PubsubBroker

/-
The descriptors of the connections. `sub_cli_release` and `pub_cli_release` free their record without
closing its descriptor, and nothing else closes it. `descriptors_iff` says for which runs the open
descriptors are those of the listening sockets and of the records not yet released.
-/
import PubsubBroker.Lib.Ledger
import PubsubBroker.Broker.Clients

namespace PubsubBroker

open CLang

/-! ## The process -/

/-- The two listening sockets. -/
structure Listeners where
  pub : Nat
  sub : Nat
  ne : pub ≠ sub

/-- The server with its publishers and its open descriptors. -/
structure Process (T : Datrie) where
  broker : Broker T
  /-- Every `pub_client` ever created, of which only the descriptor and its fate matter here. -/
  pubClis : List Slot
  listeners : Listeners
  fds : List Nat

/-- What the process reacts to. -/
inductive SocketOp
  /-- An event of the subscribers, or a message of a publisher. -/
  | broker (op : Op)
  /-- A publisher connects. -/
  | acceptPub (fd : Nat)
  /-- End of file, or a read error, on the publisher at `r`. -/
  | pubReadFail (r : Nat)

section
variable {T : Datrie} (conv : Iconv) (reg : Nat → Nat → RegOutcome)

/-- `pub_cli_release(c)` -/
def pubCliRelease (c : Slot) : Slot := { c with live := false }

/-- `accept_pub_handler`, when a connection was accepted as `fd`. Where `event_new` fails, the process ends in `free(c)`
before it comes to `close(cfd)`. -/
def acceptPub (s : Process T) (fd : Nat) : Process T :=
  { s with pubClis := s.pubClis ++ [⟨fd, true, 0⟩], fds := fd :: s.fds }

/-- The descriptor that the event is accepted as. -/
def acceptedAs : Op → List Nat
  | .accept fd _ _ _ _ => [fd]
  | _ => []

/-- One event. `accept` returns a descriptor that is not open, and a publisher that is freed has no events. -/
def socketStep (s : Process T) : SocketOp → Process T
  | .broker op =>
    if ∃ fd ∈ acceptedAs op, fd ∈ s.fds then s
    else { s with broker := step conv reg s.broker op, fds := acceptedAs op ++ s.fds }
  | .acceptPub fd => if fd ∈ s.fds then s else acceptPub s fd
  | .pubReadFail r => { s with pubClis := s.pubClis.modify r fun c => if c.live then pubCliRelease c else c }

variable (T) in
/-- The process after `server_init`. -/
def Process.init (listeners : Listeners) (counter : Int) : Process T :=
  ⟨.init T counter, [], listeners, [listeners.pub, listeners.sub]⟩

/-- The record of a subscriber as the holder of its descriptor. -/
def SubClient.slot (c : SubClient) : Slot := ⟨c.fd, c.live, c.closed⟩

/-- The open descriptors are the listening ones and those of the records that are not released, and a record
closes its descriptor once, when it is released. -/
structure SocketsAccounted (s : Process T) : Prop where
  isOpen : ∀ fd, fd ∈ s.fds ↔ fd = s.listeners.pub ∨ fd = s.listeners.sub ∨
    (∃ c ∈ s.pubClis, c.live = true ∧ c.fd = fd) ∨ ∃ c ∈ s.broker.subClis, c.live = true ∧ c.fd = fd
  pubs : ∀ c ∈ s.pubClis, c.closed = if c.live then 0 else 1
  subs : ∀ c ∈ s.broker.subClis, c.closed = if c.live then 0 else 1

/-! ## Settled records -/

/-- The records close their descriptors when they are released, and only once. -/
def AllSettled (l : List SubClient) : Prop := ∀ c ∈ l, c.slot.Settled

/-- No client is released by `sub_cli_release`, at the end of file, on a read error or when `write` fails for
good. -/
def ClosesReleased (b : Broker T) : Op → Prop
  | .readFail r => ¬ b.Live r
  | .writable r ws junk => ∀ c, b.subClis[r]? = some c → c.live = true → flushEnd c ws junk ≠ .error
  | _ => True

/-- Settled records are so by what they hold. -/
theorem allSettled_iff {l : List SubClient} : AllSettled l ↔ ∀ d ∈ l.map SubClient.slot, d.Settled := by
  simp [AllSettled]

theorem map_slot_update (b : Broker T) (r : Nat) {f : SubClient → SubClient}
    (hf : ∀ c, b.subClis[r]? = some c → (f c).slot = c.slot) :
    (b.update r f).subClis.map SubClient.slot = b.subClis.map SubClient.slot := by
  refine List.ext_getElem? fun i => ?_
  rw [List.getElem?_map, List.getElem?_map, Broker.update, List.getElem?_modify]
  cases hc : b.subClis[i]? with
  | none => rfl
  | some c =>
    by_cases hi : r = i
    · subst hi
      simp [hf c hc]
    · simp [hi]

/-- A reply neither closes a descriptor nor releases a client. -/
theorem slot_addPieces (reg : Nat → RegOutcome) (ps : List Sds) (c : SubClient) : (addPieces reg c ps).slot = c.slot := by
  have hcont := continues_addPieces reg ps c
  rw [SubClient.slot, SubClient.slot, hcont.fd, hcont.closed, live_addPieces]

theorem map_slot_replyAll : ∀ (rs : List (Nat × List Sds)) (b : Broker T),
    (replyAll reg b rs).subClis.map SubClient.slot = b.subClis.map SubClient.slot
  | [], _ => rfl
  | r :: rs, b => by
    have hreply : (replyStep reg b r).subClis.map SubClient.slot = b.subClis.map SubClient.slot := by
      rw [replyStep, reply_subClis]
      exact map_slot_update b r.1 fun c _ => slot_addPieces (reg r.1) r.2 c
    exact (map_slot_replyAll rs (replyStep reg b r)).trans hreply

/-- A flush leaves what a live client holds, unless `write` fails for good. -/
theorem slot_sendReplyToSubcli (reg : Nat → RegOutcome) {c : SubClient} (hl : c.live = true) (ws : List WriteRes)
    (junk : WriteEnd) (hend : flushEnd c ws junk ≠ .error) : (sendReplyToSubcli reg junk c ws).slot = c.slot := by
  have hcont := continues_sendReplyToSubcli reg c ws junk
  have hlive : (sendReplyToSubcli reg junk c ws).live = true := by
    have hwritten : (c.access.written ws).live = true := by
      unfold SubClient.written
      split <;> exact hl
    rw [sendReplyToSubcli_eq]
    cases hf : flushEnd c ws junk with
    | again => exact hwritten
    | error => exact absurd hf hend
    | count =>
      simp only
      unfold subcliEventUpdate
      cases reg (c.access.written ws).regs <;> exact hwritten
  rw [SubClient.slot, SubClient.slot, hcont.fd, hcont.closed, hlive, hl]

/-- An event under the condition leaves what the records hold, and may put a new record behind them. -/
theorem map_slot_step {b : Broker T} {op : Op} (hop : ClosesReleased b op) :
    (step conv reg b op).subClis.map SubClient.slot = (b.subClis ++ created b op).map SubClient.slot := by
  rw [step_subClis]
  cases op with
  | accept fd sec pid junk out => simp [acceptSub, created, SubClient.slot, subCliCreate]
  | command r argv0 topics =>
    simp only [created, List.append_nil]
    exact map_slot_replyAll reg _ b
  | publish msg junk =>
    simp only [created, List.append_nil]
    exact map_slot_replyAll reg _ b
  | readFail r =>
    simp only [created, List.append_nil]
    rw [if_neg hop]
  | writable r ws junk =>
    simp only [created, List.append_nil]
    split
    · rename_i hlive
      obtain ⟨d, hd, hl⟩ := hlive
      refine map_slot_update b r fun c hc => ?_
      rw [hd] at hc
      cases hc
      exact slot_sendReplyToSubcli (reg r) hl ws junk (hop d hd hl)
    · rfl

/-- A client that is released has not closed its descriptor. -/
theorem not_settled_of_released {c c' : SubClient} (h : c.slot.Settled) (hl : c.live = true) (hcont : Continues c c')
    (hdead : c'.live = false) : ¬ c'.slot.Settled := by
  intro h'
  have hclosed : c.closed = 0 := h.of_live hl
  have hclosed' : c'.closed = if c'.live then 0 else 1 := h'
  rw [hcont.closed, hclosed, hdead] at hclosed'
  cases hclosed'

/-- An event leaves the records settled exactly when it meets the condition. -/
theorem settled_step_iff {b : Broker T} (h : AllSettled b.subClis) (op : Op) :
    AllSettled (step conv reg b op).subClis ↔ ClosesReleased b op := by
  constructor
  · intro hall
    rw [step_subClis] at hall
    cases op with
    | readFail r =>
      rintro ⟨c, hc, hl⟩
      simp only at hall
      rw [if_pos ⟨c, hc, hl⟩] at hall
      exact not_settled_of_released (h c (List.mem_of_getElem? hc)) hl (continues_subCliRelease c) rfl
        (hall _ (List.mem_of_getElem? (Broker.getElem?_update hc subCliRelease)))
    | writable r ws junk =>
      intro c hc hl hend
      simp only at hall
      rw [if_pos ⟨c, hc, hl⟩] at hall
      have hdead : (sendReplyToSubcli (reg r) junk c ws).live = false := by
        rw [sendReplyToSubcli_eq, hend]
        rfl
      exact not_settled_of_released (h c (List.mem_of_getElem? hc)) hl (continues_sendReplyToSubcli (reg r) c ws junk) hdead
        (hall _ (List.mem_of_getElem? (Broker.getElem?_update hc (sendReplyToSubcli (reg r) junk · ws))))
    | accept | command | publish => trivial
  · intro hop
    -- no other event changes what the records keep, but for the record that it makes
    rw [allSettled_iff, map_slot_step conv reg hop, ← allSettled_iff]
    intro c hc
    rcases List.mem_append.1 hc with hc | hc
    · exact h c hc
    · cases op with
      | accept fd sec pid junk out =>
        rw [created, List.mem_singleton] at hc
        rw [hc]
        rfl
      | _ => cases hc

/-! ## The books of the process -/

/-- Who keeps a descriptor. -/
inductive Holder
  | pubListener
  | subListener
  | pub (i : Nat)
  | sub (i : Nat)
  deriving DecidableEq

/-- What the holders keep. -/
def slots (listeners : Listeners) (pubs : List Slot) (subs : List SubClient) : Holder → Option Slot
  | .pubListener => some ⟨listeners.pub, true, 0⟩
  | .subListener => some ⟨listeners.sub, true, 0⟩
  | .pub i => pubs[i]?
  | .sub i => subs[i]?.map SubClient.slot

def Process.Books (s : Process T) : Prop := Ledger (slots s.listeners s.pubClis s.broker.subClis) s.fds

theorem Process.Books.accounted {s : Process T} (h : s.Books) : SocketsAccounted s := by
  constructor
  · intro fd
    rw [h.isOpen]
    constructor
    · rintro ⟨k, c, hk, hl, rfl⟩
      cases k with
      | pubListener => exact .inl (by cases hk; rfl)
      | subListener => exact .inr (.inl (by cases hk; rfl))
      | pub i => exact .inr (.inr (.inl ⟨c, List.mem_of_getElem? hk, hl, rfl⟩))
      | sub i =>
        obtain ⟨d, hd, rfl⟩ := Option.map_eq_some_iff.1 hk
        exact .inr (.inr (.inr ⟨d, List.mem_of_getElem? hd, hl, rfl⟩))
    · rintro (rfl | rfl | ⟨c, hc, hl, rfl⟩ | ⟨c, hc, hl, rfl⟩)
      · exact ⟨.pubListener, _, rfl, rfl, rfl⟩
      · exact ⟨.subListener, _, rfl, rfl, rfl⟩
      · obtain ⟨i, hi⟩ := List.mem_iff_getElem?.1 hc
        exact ⟨.pub i, c, hi, hl, rfl⟩
      · obtain ⟨i, hi⟩ := List.mem_iff_getElem?.1 hc
        exact ⟨.sub i, c.slot, Option.map_eq_some_iff.2 ⟨c, hi, rfl⟩, hl, rfl⟩
  · intro c hc
    obtain ⟨i, hi⟩ := List.mem_iff_getElem?.1 hc
    exact h.settled (.pub i) c hi
  · intro c hc
    obtain ⟨i, hi⟩ := List.mem_iff_getElem?.1 hc
    exact h.settled (.sub i) c.slot (Option.map_eq_some_iff.2 ⟨c, hi, rfl⟩)

theorem Process.books_init (listeners : Listeners) (counter : Int) : (Process.init T listeners counter).Books := by
  -- nobody but the two listeners
  have hcases {k : Holder} {c : Slot} (hk : slots listeners [] [] k = some c) :
      (k = .pubListener ∧ c = ⟨listeners.pub, true, 0⟩) ∨ (k = .subListener ∧ c = ⟨listeners.sub, true, 0⟩) := by
    cases k with
    | pubListener => exact .inl ⟨rfl, (Option.some.inj hk).symm⟩
    | subListener => exact .inr ⟨rfl, (Option.some.inj hk).symm⟩
    | pub i => cases hk
    | sub i => cases hk
  constructor
  · intro k c hk
    rcases hcases hk with ⟨-, rfl⟩ | ⟨-, rfl⟩ <;> rfl
  · intro fd
    simp only [init, List.mem_cons, List.not_mem_nil, or_false]
    constructor
    · rintro (rfl | rfl)
      · exact ⟨.pubListener, _, rfl, rfl, rfl⟩
      · exact ⟨.subListener, _, rfl, rfl, rfl⟩
    · rintro ⟨k, c, hk, -, rfl⟩
      rcases hcases hk with ⟨-, rfl⟩ | ⟨-, rfl⟩
      · exact .inl rfl
      · exact .inr rfl
  · intro k k' c c' hk hk' _ _ heq
    rcases hcases hk with ⟨rfl, rfl⟩ | ⟨rfl, rfl⟩
    · rcases hcases hk' with ⟨rfl, rfl⟩ | ⟨rfl, rfl⟩
      · rfl
      · exact absurd heq listeners.ne
    · rcases hcases hk' with ⟨rfl, rfl⟩ | ⟨rfl, rfl⟩
      · exact absurd heq.symm listeners.ne
      · rfl

theorem getElem?_concat_eq {α : Type} (l : List α) (c : α) (i : Nat) :
    (l ++ [c])[i]? = if i = l.length then some c else l[i]? := by
  split
  · rename_i hi
    rw [hi, List.getElem?_concat_length]
  · rename_i hi
    rcases Nat.lt_or_ge i l.length with hlt | hge
    · rw [List.getElem?_append_left hlt]
    · rw [List.getElem?_eq_none_iff.2 (by simp; omega), List.getElem?_eq_none_iff.2 hge]

theorem slots_concat_sub (listeners : Listeners) (pubs : List Slot) (subs : List SubClient) (c : SubClient) :
    slots listeners pubs (subs ++ [c]) = Function.update (slots listeners pubs subs) (.sub subs.length) (some c.slot) := by
  funext k
  cases k with
  | sub i =>
    rw [Function.update_apply]
    simp only [slots, Holder.sub.injEq, getElem?_concat_eq]
    split <;> rfl
  | _ => rfl

theorem slots_concat_pub (listeners : Listeners) (pubs : List Slot) (subs : List SubClient) (c : Slot) :
    slots listeners (pubs ++ [c]) subs = Function.update (slots listeners pubs subs) (.pub pubs.length) (some c) := by
  funext k
  cases k with
  | pub i =>
    rw [Function.update_apply]
    simp only [slots, Holder.pub.injEq, getElem?_concat_eq]
  | _ => rfl

theorem slots_congr (listeners : Listeners) (pubs : List Slot) {l l' : List SubClient}
    (h : l'.map SubClient.slot = l.map SubClient.slot) : slots listeners pubs l' = slots listeners pubs l := by
  funext k
  cases k with
  | sub i => rw [slots, slots, ← List.getElem?_map, ← List.getElem?_map, h]
  | _ => rfl

theorem Process.Books.broker {s : Process T} (h : s.Books) {op : Op} (hfree : ∀ fd ∈ acceptedAs op, fd ∉ s.fds)
    (hop : ClosesReleased s.broker op) : (socketStep conv reg s (.broker op)).Books := by
  simp only [socketStep]
  rw [if_neg (by simpa using hfree)]
  unfold Books
  simp only
  rw [slots_congr s.listeners s.pubClis (map_slot_step conv reg hop)]
  cases op with
  | accept fd sec pid junk out =>
    rw [created, slots_concat_sub]
    refine Ledger.opened h ?_ (hfree fd (List.mem_singleton_self _))
    simp [slots]
  | _ =>
    simp only [created, List.append_nil]
    exact h

/-! ## Runs -/

/-- No client and no publisher is released without its descriptor. -/
def ReleasesClosed (s : Process T) : SocketOp → Prop
  | .broker op => (∀ fd ∈ acceptedAs op, fd ∉ s.fds) → ClosesReleased s.broker op
  | .acceptPub _ => True
  | .pubReadFail r => ∀ c, s.pubClis[r]? = some c → c.live = false

/-- The records of the process close their descriptors when they are released, and only once. -/
structure ProcessSettled (s : Process T) : Prop where
  pubs : ∀ c ∈ s.pubClis, c.Settled
  subs : AllSettled s.broker.subClis

theorem pubReadFail_eq {s : Process T} {r : Nat} (h : ∀ c, s.pubClis[r]? = some c → c.live = false) :
    socketStep conv reg s (.pubReadFail r) = s := by
  have hsame : (s.pubClis.modify r fun c => if c.live then pubCliRelease c else c) = s.pubClis := by
    refine List.ext_getElem? fun i => ?_
    rw [List.getElem?_modify]
    cases hc : s.pubClis[i]? with
    | none => rfl
    | some c =>
      by_cases hi : r = i
      · subst hi
        simp [h c hc]
      · simp [hi]
  simp only [socketStep, hsame]

/-- An event leaves the records of the process settled exactly when it meets the condition. -/
theorem processSettled_step_iff {s : Process T} (h : ProcessSettled s) (op : SocketOp) :
    ProcessSettled (socketStep conv reg s op) ↔ ReleasesClosed s op := by
  cases op with
  | broker op =>
    simp only [socketStep, ReleasesClosed]
    split
    · rename_i hopen
      obtain ⟨fd, hfd, hmem⟩ := hopen
      -- `accept` does not return a descriptor that is open
      exact iff_of_true h fun hfree => absurd hmem (hfree fd hfd)
    · rename_i hfree
      rw [not_exists] at hfree
      have hfree' : ∀ fd ∈ acceptedAs op, fd ∉ s.fds := fun fd hfd hmem => hfree fd ⟨hfd, hmem⟩
      rw [forall_prop_of_true hfree', ← settled_step_iff conv reg h.subs op]
      exact ⟨fun h' => h'.subs, fun h' => ⟨h.pubs, h'⟩⟩
  | acceptPub fd =>
    refine iff_of_true ?_ trivial
    simp only [socketStep]
    split
    · exact h
    · refine ⟨fun c hc => ?_, h.subs⟩
      rcases List.mem_append.1 hc with hc | hc
      · exact h.pubs c hc
      · rw [List.mem_singleton.1 hc]
        rfl
  | pubReadFail r =>
    constructor
    · intro h' c hc
      by_contra hl
      rw [Bool.not_eq_false] at hl
      have hclosed := (h.pubs c (List.mem_of_getElem? hc)).of_live hl
      -- a live publisher is released here, with its descriptor open
      have hreleased : pubCliRelease c ∈ s.pubClis.modify r fun c => if c.live then pubCliRelease c else c := by
        refine List.mem_of_getElem? (i := r) ?_
        rw [List.getElem?_modify_eq, hc]
        simp [hl]
      have : c.closed = 1 := h'.pubs _ hreleased
      omega
    · intro hdead
      rw [pubReadFail_eq conv reg hdead]
      exact h

/-- Events under the condition keep the books. -/
theorem Process.Books.step {s : Process T} (h : s.Books) {op : SocketOp} (hop : ReleasesClosed s op) :
    (socketStep conv reg s op).Books := by
  cases op with
  | broker op =>
    by_cases hfree : ∀ fd ∈ acceptedAs op, fd ∉ s.fds
    · exact h.broker conv reg hfree (hop hfree)
    · simp only [socketStep]
      rw [if_pos (by simpa using hfree)]
      exact h
  | acceptPub fd =>
    simp only [socketStep]
    split
    · exact h
    · rename_i hfree
      have hnone : slots s.listeners s.pubClis s.broker.subClis (.pub s.pubClis.length) = none := by simp [slots]
      unfold acceptPub Books
      simp only
      rw [slots_concat_pub]
      exact Ledger.opened h hnone hfree
  | pubReadFail r =>
    rw [pubReadFail_eq conv reg hop]
    exact h

/-- In every state of a run the open descriptors are the listening ones and those of the clients not yet
released, each closed once when its client is released, exactly when no client is released by
`sub_cli_release` or `pub_cli_release`. -/
theorem descriptors_iff (listeners : Listeners) (counter : Int) (ops : List SocketOp) :
    (∀ before, before <+: ops → SocketsAccounted (Machine.run (socketStep conv reg) (.init T listeners counter) before)) ↔
      Machine.AllSteps (socketStep conv reg) ReleasesClosed (.init T listeners counter) ops := by
  have hinit := Process.books_init (T := T) listeners counter
  constructor
  · intro h
    have hstep (s : Process T) (op : SocketOp) (hs : ProcessSettled s) := processSettled_step_iff conv reg hs op
    refine (Machine.invariant_iff_allSteps hstep ⟨hinit.accounted.pubs, hinit.accounted.subs⟩ ops).1 ?_
    intro before hpre
    exact ⟨(h before hpre).pubs, (h before hpre).subs⟩
  · rintro hok before ⟨after, rfl⟩
    have hbooks := (Machine.AllSteps.append.1 hok).1.invariant (I := Process.Books)
      (fun s op hs hop => hs.step conv reg hop) hinit
    exact hbooks.accounted

end

/-- A process that listens on 3 and 4. -/
def listening : Process listTrie := .init listTrie ⟨3, 4, by decide⟩ 0

/-- A subscriber and a publisher that have closed their connections: both descriptors stay open. -/
theorem left_open :
    let s := Machine.run (socketStep asciiConv fun _ _ => .ok) listening
      [.broker (.accept 5 1 1 ⟨0, 0, .alloc 0⟩ .ok), .acceptPub 6, .broker (.readFail 0), .pubReadFail 0]
    5 ∈ s.fds ∧ 6 ∈ s.fds ∧ ¬ s.broker.Live 0 ∧ (∀ c ∈ s.pubClis, c.live = false) ∧ ¬ SocketsAccounted s := by
  intro s
  have hstate : 5 ∈ s.fds ∧ 6 ∈ s.fds ∧ ¬ s.broker.Live 0 ∧ (∀ c ∈ s.pubClis, c.live = false) ∧
      ∃ c ∈ s.pubClis, c.closed = 0 := by decide +kernel
  obtain ⟨hsub, hpub, hdead, hreleased, c, hc, hclosed⟩ := hstate
  refine ⟨hsub, hpub, hdead, hreleased, fun h => ?_⟩
  have := h.pubs c hc
  rw [hreleased c hc, hclosed] at this
  cases this

end PubsubBroker

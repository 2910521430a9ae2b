/-
The streams of the subscribers: every reply of a run is made of pieces that are appended one by one.
`framing_iff` says exactly when all replies of a run are appended or dropped as a whole, which is when
every stream is a concatenation of complete replies.
-/
import PubsubBroker.Broker.Subscribe

namespace PubsubBroker

open CLang

section
variable {T : Datrie} (conv : Iconv) (reg : Nat → Nat → RegOutcome)

/-- The condition on a reply that was made. -/
def ReplyCall.Ok (call : ReplyCall) : Prop := ReplyOk (reg call.client) call.before call.pieces

instance (call : ReplyCall) : Decidable (call.Ok reg) := inferInstanceAs (Decidable (ReplyOk ..))

/-- The pieces of the replies are those of complete replies, and as long as all replies meet the condition
the streams are made of complete replies. -/
structure Streams (b : Broker T) : Prop where
  replies : ∀ call ∈ b.replies, Reply call.pieces
  framed : (∀ call ∈ b.replies, call.Ok reg) → ∀ c ∈ b.subClis, Framed c.appended

variable {reg}

theorem Streams.congr {b b' : Broker T} (h : Streams reg b) (hclis : b'.subClis = b.subClis)
    (hlog : b'.replies = b.replies) : Streams reg b' := by
  constructor
  · rw [hlog]
    exact h.replies
  · rw [hlog, hclis]
    exact h.framed

theorem Streams.reply {b : Broker T} (h : Streams reg b) {ps : List Sds} (hps : Reply ps) (r : Nat) :
    Streams reg (reply reg b r ps) := by
  unfold PubsubBroker.reply
  cases hc : b.subClis[r]? with
  | none => exact h
  | some c =>
    constructor
    · intro call hcall
      rcases List.mem_append.1 hcall with hcall | hcall
      · exact h.replies call hcall
      · exact List.mem_singleton.1 hcall ▸ hps
    · intro hok d hd
      have hold := h.framed fun call hcall => hok call (List.mem_append_left _ hcall)
      rcases List.mem_or_eq_of_mem_set hd with hd | rfl
      · exact hold d hd
      · have hframed := hold c (List.mem_of_getElem? hc)
        have hlast : ReplyOk (reg r) c ps := hok ⟨r, c, ps⟩ (List.mem_append_right _ (List.mem_singleton_self _))
        rcases (allOrNone_iff (reg r) hps.pieces).2 hlast with heq | heq
        · rw [heq]
          exact hframed
        · rw [heq]
          exact hframed.append hps.whole

theorem Streams.replyAll : ∀ (rs : List (Nat × List Sds)) {b : Broker T}, Streams reg b →
    (∀ r ∈ rs, Reply r.2) → Streams reg (replyAll reg b rs)
  | [], _, h, _ => h
  | r :: rs, _, h, hrs => by
    rw [List.forall_mem_cons] at hrs
    exact Streams.replyAll rs (h.reply hrs.1 r.1) hrs.2

/-- What is done to a record between replies appends nothing. -/
theorem Streams.update {b : Broker T} (h : Streams reg b) (r : Nat) {f : SubClient → SubClient}
    (hf : ∀ c, (f c).appended = c.appended) : Streams reg (b.update r f) := by
  refine ⟨h.replies, fun hok => Broker.forall_update (h.framed hok) fun c _ hframed => ?_⟩
  rw [hf]
  exact hframed

theorem sendReplyToSubcli_appended (reg : Nat → RegOutcome) (junk : WriteEnd) (ws : List WriteRes) (c : SubClient) :
    (sendReplyToSubcli reg junk c ws).appended = c.appended := by
  have hwritten : (c.access.written ws).appended = c.appended := by
    unfold SubClient.written
    split <;> rfl
  rw [sendReplyToSubcli_eq]
  cases flushEnd c ws junk with
  | again => exact hwritten
  | error => exact hwritten
  | count =>
    rw [← hwritten]
    simp only
    unfold subcliEventUpdate
    cases reg (c.access.written ws).regs <;> rfl

theorem Streams.step {b : Broker T} (h : Streams reg b) (op : Op) : Streams reg (step conv reg b op) := by
  cases op with
  | accept fd sec pid junk out =>
    have hnew {b' : Broker T} {c : SubClient} (hclis : b'.subClis = b.subClis ++ [c]) (hlog : b'.replies = b.replies)
        (hc : c.appended = []) : Streams reg b' := by
      refine ⟨hlog ▸ h.replies, fun hok d hd => ?_⟩
      rw [hclis, List.mem_append, List.mem_singleton] at hd
      rcases hd with hd | rfl
      · exact h.framed (hlog ▸ hok) d hd
      · rw [hc]
        exact .nil
    cases out <;> exact hnew rfl rfl rfl
  | command r argv0 topics =>
    rcases step_command conv reg b r argv0 topics with ⟨-, heq⟩ | ⟨c, -, -, heq⟩
    · rwa [heq]
    · rw [heq]
      have htopics : Streams reg { b with toTopics := commandTopics conv b.toTopics r c.id argv0 topics } := h.congr rfl rfl
      exact htopics.reply (commandReply_commandPieces argv0 topics).reply r
  | publish msg junk =>
    simp only [PubsubBroker.step]
    rw [processPubReadBuf_eq]
    have := h.replyAll (((publishedTo conv b msg junk).flatMap b.members).map fun r => (r, bulkPieces msg)) (by
      intro r hr
      obtain ⟨x, hx, rfl⟩ := List.mem_map.1 hr
      obtain ⟨chan, hchan, -⟩ := List.mem_flatMap.1 hx
      obtain ⟨hinit, hne⟩ := of_mem_channels hchan
      -- an empty message has no prefix to publish to
      refine .bulk fun hmsg => hne ?_
      rw [hmsg] at hinit
      simpa using hinit)
    exact this.congr rfl rfl
  | readFail r =>
    simp only [PubsubBroker.step]
    split
    · exact h.update r fun c => rfl
    · exact h
  | writable r ws junk =>
    simp only [PubsubBroker.step]
    split
    · exact h.update r (sendReplyToSubcli_appended (reg r) junk ws)
    · exact h

variable (T) in
/-- In a run every reply is appended or dropped as a whole, and what is appended to a subscriber is made of
complete replies, exactly when every reply fits as a whole, or not a single piece of it does. -/
theorem framing_iff (conv : Iconv) (reg : Nat → Nat → RegOutcome) (counter : Int) (ops : List Op) :
    (∀ call ∈ (serve T conv reg counter ops).replies, AllOrNone (reg call.client) call.before call.pieces) ∧
        (∀ c ∈ (serve T conv reg counter ops).subClis, Framed c.appended) ↔
      ∀ call ∈ (serve T conv reg counter ops).replies, call.Ok reg := by
  have hrun : Streams reg (serve T conv reg counter ops) :=
    Machine.run_invariant (fun b op (h : Streams reg b) => h.step conv op) ⟨by simp [Broker.init], by simp [Broker.init]⟩ ops
  have hiff : (∀ call ∈ (serve T conv reg counter ops).replies, AllOrNone (reg call.client) call.before call.pieces) ↔
      ∀ call ∈ (serve T conv reg counter ops).replies, call.Ok reg :=
    forall₂_congr fun call hcall => allOrNone_iff _ (hrun.replies call hcall).pieces
  rw [hiff]
  exact and_iff_left_of_imp hrun.framed

end

/-! ## A message that does not fit -/

/-- A message of `n` letters. -/
def letters (n : Nat) : Sds := List.replicate n 110

theorem length_letters (n : Nat) : (letters n).length = n := List.length_replicate

/-- The server with a client that has subscribed to `n`. -/
def oneSubscriber : Broker listTrie := serve listTrie asciiConv (fun _ _ => .ok) 0 (connectAndSubscribe (ascii "n"))

theorem publishedTo_letters (n : Nat) (junk : Nat → AlphaChar) :
    publishedTo asciiConv oneSubscriber (letters (n + 2)) junk = [ascii "n"] := by
  have hprefix : [110, 110] <+: letters (n + 2) := ⟨letters n, rfl⟩
  have halpha := pubAlpha_of_letters asciiConv_ascii (by decide) hprefix junk
  simp only [List.length_cons, List.length_nil, List.range_succ_eq_map, List.range_zero, List.map_cons, List.map_nil,
    List.cons.injEq, and_true] at halpha
  have hlen := length_letters (n + 2)
  -- the walk stops at the first letter, and cannot go on to the second
  have hfirst : listTrie.isWalkable (listTrie.root oneSubscriber.subTrie) (code 110) = true ∧
      listTrie.isTerminal (listTrie.walk (listTrie.root oneSubscriber.subTrie) (code 110)) = true ∧
      listTrie.isWalkable (listTrie.walk (listTrie.root oneSubscriber.subTrie) (code 110)) (code 110) = false := by
    decide +kernel
  unfold publishedTo
  rw [hlen, visits_succ, halpha.1, if_pos hfirst.1, if_pos hfirst.2.1, visits_succ, halpha.2, hfirst.2.2,
    if_neg (by decide)]
  rfl

theorem publish_letters (n : Nat) (junk : Nat → AlphaChar) {c : SubClient} (hc : oneSubscriber.subClis[0]? = some c) :
    ⟨0, c, bulkPieces (letters (n + 2))⟩ ∈
      (step asciiConv (fun _ _ => .ok) oneSubscriber (.publish (letters (n + 2)) junk)).replies := by
  have hmembers : oneSubscriber.members (ascii "n") = [0] := by decide +kernel
  simp only [step]
  rw [processPubReadBuf_eq]
  simp only
  rw [publishedTo_letters]
  generalize letters (n + 2) = msg
  simp [hmembers, replyAll, replyStep, reply, hc]

/-- A message as long as the write buffer: the length line of the reply is appended, the message is not. -/
theorem header_without_message :
    ∃ call ∈ (serve listTrie asciiConv (fun _ _ => .ok) 0
        (connectAndSubscribe (ascii "n") ++ [.publish (letters PUB_READ_BUF_LEN) fun _ => 7])).replies,
      ¬ AllOrNone (fun _ => .ok) call.before call.pieces := by
  have hclient : (oneSubscriber.subClis[0]?.map fun c => (c.ev.write, c.wbuf.available)) = some (true, 16372) := by
    decide +kernel
  obtain ⟨c, hc, hev⟩ := Option.map_eq_some_iff.1 hclient
  simp only [Prod.mk.injEq] at hev
  have hlen : (letters PUB_READ_BUF_LEN).length = 16384 := length_letters _
  have hheader : (bulkHeader (letters PUB_READ_BUF_LEN)).length = 8 := by
    unfold bulkHeader
    rw [hlen]
    decide +kernel
  have hpub : ⟨0, c, bulkPieces (letters PUB_READ_BUF_LEN)⟩ ∈
      (step asciiConv (fun _ _ => .ok) oneSubscriber (.publish (letters PUB_READ_BUF_LEN) fun _ => 7)).replies := by
    rw [show PUB_READ_BUF_LEN = 16382 + 2 from rfl]
    exact publish_letters 16382 _ hc
  generalize letters PUB_READ_BUF_LEN = msg at hlen hheader hpub ⊢
  have hbulk : Reply (bulkPieces msg) := .bulk fun h => by simp [h] at hlen
  rw [serve_append, Machine.run_cons, Machine.run_nil, ← oneSubscriber]
  refine ⟨_, hpub, ?_⟩
  rw [allOrNone_iff _ hbulk.pieces]
  rintro (⟨-, hfit⟩ | hnone)
  · simp only [bulkPieces, List.flatten_cons, List.length_append, hheader, hev.2] at hfit
    omega
  · rw [served, if_pos hev.1] at hnone
    have : c.wbuf.available < (bulkHeader msg).length := hnone _ (List.mem_cons_self ..)
    omega

end PubsubBroker

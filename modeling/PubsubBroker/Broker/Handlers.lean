/-
The event handlers of `event.c` on what `read` returns. The bytes of a subscriber go through the parsers of
its own record, and those of a publisher are a message as they are. The server on bytes does what the server
on commands does with the commands that the parsers come up with, and which these are is up to the bytes of
each subscriber alone, however the events of the others come in between.
-/
import PubsubBroker.Broker.Clients
import PubsubBroker.Broker.Read
import PubsubBroker.Protocol.Fragment
import PubsubBroker.Protocol.Parts

namespace PubsubBroker

open CLang

/-! ## Handlers -/

/-- What `read` returns: the bytes it has read, none of them at the end of the file, or -1 with `EAGAIN` or
`EINTR`, or with another error. -/
inductive ReadRes
  | bytes (chunk : List UInt8)
  | again
  | error

/-- The server with its publishers. -/
structure Server (T : Datrie) where
  broker : Broker T
  /-- Every `pub_client` ever created, `none` once it is released. -/
  pubClis : List (Option PubClient)

/-- What the event loop calls a handler for. -/
inductive Event
  | acceptSub (fd sec pid : Nat) (junk : Junk) (out : RegOutcome)
  | acceptPub (fd : Nat)
  | subReadable (r : Nat) (res : ReadRes)
  | subWritable (r : Nat) (ws : List WriteRes) (junk : WriteEnd)
  | pubReadable (p : Nat) (res : ReadRes) (junk : Nat → AlphaChar)

section
variable {T : Datrie} (conv : Iconv) (reg : Nat → Nat → RegOutcome)

/-- `sub_ev_handler` for `EV_READ`, as far as `subEvRead` returns. -/
def subEvHandler (b : Broker T) (r : Nat) : ReadRes → Option (Broker T)
  | .again => some b
  | .error | .bytes [] => some (b.update r subCliRelease)
  | .bytes (byte :: chunk) => subEvRead conv reg b r (byte :: chunk)

/-- `pub_ev_handler` for the publisher `c` at `p`. -/
def pubEvHandler (s : Server T) (p : Nat) (c : PubClient) (res : ReadRes) (junk : Nat → AlphaChar) : Server T :=
  match res with
  | .again => s
  | .error | .bytes [] => { s with pubClis := s.pubClis.set p none }
  | .bytes (byte :: chunk) =>
    let (b, c) := processPubReadBuf conv reg s.broker { c with readBuf := c.readBuf ++ byte :: chunk } junk
    ⟨b, s.pubClis.set p (some c)⟩

/-- `accept_pub_handler`, when a connection was accepted as `fd`. The result of `event_add` is not looked at. -/
def acceptPubHandler (s : Server T) (fd : Nat) : Server T := { s with pubClis := s.pubClis ++ [some ⟨fd, []⟩] }

/-- The handler of an event. A client that is freed has no events any more. -/
def handle (s : Server T) : Event → Option (Server T)
  | .acceptSub fd sec pid junk out => some { s with broker := acceptSub s.broker fd sec pid junk out }
  | .acceptPub fd => some (acceptPubHandler s fd)
  | .subReadable r res =>
    if s.broker.Live r then (subEvHandler conv reg s.broker r res).map fun b => { s with broker := b } else some s
  | .subWritable r ws junk =>
    if s.broker.Live r then some { s with broker := s.broker.update r (sendReplyToSubcli (reg r) junk · ws) } else some s
  | .pubReadable p res junk =>
    match s.pubClis[p]?.join with
    | none => some s
    | some c => some (pubEvHandler conv reg s p c res junk)

variable (T) in
def Server.init (counter : Int) : Server T := ⟨.init T counter, []⟩

variable (T) in
/-- The server after a sequence of events, if every handler has returned, none has stored an argument outside the
slots of `argv`, and no command had an entry that was never written. -/
def serveBytes (counter : Int) (evs : List Event) : Option (Server T) :=
  Machine.tryRun (handle conv reg) (.init T counter) evs

variable (T) in
/-- The events that were handled, each with the server at the time. -/
def handled (counter : Int) (evs : List Event) : List (Server T × Event) :=
  Machine.trace (handle conv reg) (.init T counter) evs

/-! ## What was heard -/

/-- The request that a subscriber completes by a read. -/
def completed (b : Broker T) (r : Nat) (chunk : List UInt8) : List (List Sds) :=
  match b.subClis[r]?.bind fun c => (subRead c chunk).bind Prod.snd with
  | none => []
  | some cmd => (cmd.mapM id).toList

/-- What an event is to the server on commands. -/
def heard : Server T × Event → List Op
  | (_, .acceptSub fd sec pid junk out) => [.accept fd sec pid junk out]
  | (_, .acceptPub _) | (_, .subReadable _ .again) | (_, .pubReadable _ .again _) | (_, .pubReadable _ .error _)
  | (_, .pubReadable _ (.bytes []) _) => []
  | (_, .subReadable r .error) | (_, .subReadable r (.bytes [])) => [.readFail r]
  | (s, .subReadable r (.bytes (byte :: chunk))) =>
    if s.broker.Live r then
      (completed s.broker r (byte :: chunk)).map fun args => .command r (args.headD []) args.tail
    else []
  | (_, .subWritable r ws junk) => [.writable r ws junk]
  | (s, .pubReadable p (.bytes (byte :: chunk)) junk) =>
    if s.pubClis[p]?.join.isSome then [.publish (byte :: chunk) junk] else []

/-- The bytes that a handler reads from the subscriber at `r`. -/
def chunksOf (r : Nat) : Server T × Event → List (List UInt8)
  | (s, .subReadable q (.bytes (byte :: chunk))) => if q = r ∧ s.broker.Live r then [byte :: chunk] else []
  | _ => []

/-- The commands of the subscriber at `r`. -/
def commandsOf (r : Nat) : Op → List Command
  | .command q argv0 topics => if q = r then [(argv0 :: topics).map some] else []
  | _ => []

/-- What `malloc` left in the record that an event creates. -/
def acceptedJunk : Event → List Junk
  | .acceptSub _ _ _ junk _ => [junk]
  | _ => []

/-! ## Requests under way -/

theorem restChanges_update {b : Broker T} {r : Nat} {f : SubClient → SubClient} (hf : ∀ c, RestChanges c (f c)) {i : Nat}
    {c' : SubClient} (hc' : (b.update r f).subClis[i]? = some c') : ∃ c, b.subClis[i]? = some c ∧ RestChanges c c' := by
  rw [Broker.update, List.getElem?_modify] at hc'
  obtain ⟨c, hc, rfl⟩ := Option.map_eq_some_iff.1 hc'
  refine ⟨c, hc, ?_⟩
  split
  · exact hf c
  · exact .refl c

theorem restChanges_replyAll : ∀ (rs : List (Nat × List Sds)) {b : Broker T} {i : Nat} {c' : SubClient},
    (replyAll reg b rs).subClis[i]? = some c' → ∃ c, b.subClis[i]? = some c ∧ RestChanges c c'
  | [], _, _, c', hc' => ⟨c', hc', .refl c'⟩
  | r :: rs, b, i, c', hc' => by
    obtain ⟨c₁, hc₁, h₁⟩ := restChanges_replyAll rs (b := replyStep reg b r) hc'
    rw [replyStep, reply_subClis] at hc₁
    obtain ⟨c, hc, h⟩ := restChanges_update (restChanges_addPieces (reg r.1) r.2) hc₁
    exact ⟨c, hc, h.trans h₁⟩

/-- An event leaves the requests under way, and may put a new record behind the others. -/
theorem restChanges_step {b : Broker T} (op : Op) {i : Nat} (hi : i < b.subClis.length) {c' : SubClient}
    (hc' : (step conv reg b op).subClis[i]? = some c') : ∃ c, b.subClis[i]? = some c ∧ RestChanges c c' := by
  rw [step_subClis] at hc'
  cases op with
  | accept fd sec pid junk out =>
    exact ⟨c', (List.getElem?_append_left hi).symm.trans hc', .refl c'⟩
  | command r argv0 topics => exact restChanges_replyAll reg _ hc'
  | publish msg junk => exact restChanges_replyAll reg _ hc'
  | readFail r =>
    simp only at hc'
    split at hc'
    · exact restChanges_update restChanges_subCliRelease hc'
    · exact ⟨c', hc', .refl c'⟩
  | writable r ws junk =>
    simp only at hc'
    split at hc'
    · exact restChanges_update (fun c => restChanges_sendReplyToSubcli (reg r) c ws junk) hc'
    · exact ⟨c', hc', .refl c'⟩

/-! ## The server without its requests -/

def ReplyCall.sansRequest (call : ReplyCall) : ReplyCall := { call with before := call.before.sansRequest }

/-- The server but for the requests that are under way. -/
def Broker.sansRequests (b : Broker T) : Broker T :=
  { b with
    subClis := b.subClis.map SubClient.sansRequest
    replies := b.replies.map ReplyCall.sansRequest }

theorem Broker.sansRequests_idem (b : Broker T) : b.sansRequests.sansRequests = b.sansRequests := by
  unfold sansRequests
  simp only [List.map_map]
  rfl

theorem live_sansRequests (b : Broker T) (r : Nat) : b.sansRequests.Live r ↔ b.Live r := by
  unfold Broker.Live Broker.sansRequests
  simp only [List.getElem?_map, Option.map_eq_some_iff]
  constructor
  · rintro ⟨_, ⟨c, hc, rfl⟩, hl⟩
    exact ⟨c, hc, hl⟩
  · rintro ⟨c, hc, hl⟩
    exact ⟨_, ⟨c, hc, rfl⟩, hl⟩

theorem update_sansRequests (b : Broker T) (r : Nat) {f : SubClient → SubClient}
    (hf : ∀ c, (f c).sansRequest = f c.sansRequest) : (b.update r f).sansRequests = b.sansRequests.update r f := by
  have hlist : (b.subClis.modify r f).map SubClient.sansRequest = (b.subClis.map SubClient.sansRequest).modify r f := by
    apply List.ext_getElem?
    intro i
    simp only [List.getElem?_map, List.getElem?_modify]
    cases b.subClis[i]? with
    | none => rfl
    | some c =>
      split
      · exact congrArg some (hf c)
      · rfl
  unfold Broker.update Broker.sansRequests
  simp only [hlist]

theorem reply_sansRequests (b : Broker T) (r : Nat) (ps : List Sds) :
    (reply reg b r ps).sansRequests = reply reg b.sansRequests r ps := by
  unfold reply Broker.sansRequests
  simp only [List.getElem?_map]
  cases b.subClis[r]? with
  | none => rfl
  | some c =>
    have hpieces : addPieces (reg r) c.sansRequest ps = (addPieces (reg r) c ps).sansRequest :=
      addPieces_over (reg r) c.sansRequest ps c
    simp only [Option.map_some, List.map_set, List.map_append, List.map_cons, List.map_nil, hpieces]
    rfl

theorem replyAll_sansRequests : ∀ (rs : List (Nat × List Sds)) (b : Broker T),
    (replyAll reg b rs).sansRequests = replyAll reg b.sansRequests rs
  | [], _ => rfl
  | r :: rs, b => by
    change (replyAll reg (reply reg b r.1 r.2) rs).sansRequests = replyAll reg (reply reg b.sansRequests r.1 r.2) rs
    rw [replyAll_sansRequests rs, reply_sansRequests]

/-- No event looks at the requests that are under way. -/
theorem step_sansRequests (b : Broker T) (op : Op) :
    (step conv reg b op).sansRequests = (step conv reg b.sansRequests op).sansRequests := by
  cases op with
  | accept fd sec pid junk out =>
    simp only [step, acceptSub]
    cases out <;> simp [Broker.sansRequests, Function.comp_def, ReplyCall.sansRequest, SubClient.sansRequest]
  | command r argv0 topics =>
    simp only [step]
    rw [show b.sansRequests.subClis[r]? = b.subClis[r]?.map SubClient.sansRequest from List.getElem?_map ..]
    cases hc : b.subClis[r]? with
    | none => exact b.sansRequests_idem.symm
    | some c =>
      simp only [Option.map_some]
      rw [show c.sansRequest.live = c.live from rfl, show c.sansRequest.id = c.id from rfl]
      split
      · rw [processCommand_eq, processCommand_eq, reply_sansRequests, reply_sansRequests]
        refine congrArg (reply reg · r _) ?_
        exact (Broker.sansRequests_idem { b with toTopics := commandTopics conv b.toTopics r c.id argv0 topics }).symm
      · exact b.sansRequests_idem.symm
  | publish msg junk =>
    simp only [step]
    rw [processPubReadBuf_eq, processPubReadBuf_eq]
    have hreplies := replyAll_sansRequests reg
      (((publishedTo conv b msg junk).flatMap b.members).map fun r => (r, bulkPieces msg)) b
    have hidem := replyAll_sansRequests reg
      (((publishedTo conv b msg junk).flatMap b.members).map fun r => (r, bulkPieces msg)) b.sansRequests
    rw [b.sansRequests_idem] at hidem
    have hall := hreplies.trans hidem.symm
    exact congrArg (fun d : Broker T => { d with
      published := b.published ++ (publishedTo conv b msg junk).map fun chan => (msg, chan) }) hall
  | readFail r =>
    have hrelease (c : SubClient) : (subCliRelease c).sansRequest = subCliRelease c.sansRequest := rfl
    simp only [step, live_sansRequests]
    split
    · rw [update_sansRequests _ _ hrelease, update_sansRequests _ _ hrelease, b.sansRequests_idem]
    · exact b.sansRequests_idem.symm
  | writable r ws junk =>
    have hsend (c : SubClient) : (sendReplyToSubcli (reg r) junk c ws).sansRequest =
        sendReplyToSubcli (reg r) junk c.sansRequest ws := by
      have hover := sendReplyToSubcli_over (reg r) junk c.sansRequest c ws
      have hempty : SubClient.over { c.sansRequest with readBuf := [] } (sendReplyToSubcli (reg r) junk c ws) =
        c.sansRequest.over (sendReplyToSubcli (reg r) junk c ws) := rfl
      rw [hempty, ite_self] at hover
      exact hover.symm
    simp only [step, live_sansRequests]
    split
    · rw [update_sansRequests _ _ hsend, update_sansRequests _ _ hsend, b.sansRequests_idem]
    · exact b.sansRequests_idem.symm

theorem run_sansRequests {b b' : Broker T} (h : b.sansRequests = b'.sansRequests) (ops : List Op) :
    (Machine.run (step conv reg) b ops).sansRequests = (Machine.run (step conv reg) b' ops).sansRequests := by
  induction ops generalizing b b' with
  | nil => exact h
  | cons op ops ih =>
    apply ih
    rw [step_sansRequests, h, ← step_sansRequests]

/-! ## An event -/

/-- The publishers have nothing in their buffers. -/
def Server.PubsIdle (s : Server T) : Prop := ∀ c, some c ∈ s.pubClis → c.readBuf = []

/-- The event creates no record. -/
def Op.CreatesNone (op : Op) : Prop := ∀ b : Broker T, created b op = []

/-- A handler that reads nothing from a subscriber. -/
structure Quiet (s : Server T) (ev : Event) (s' : Server T) : Prop where
  broker : s'.broker = Machine.run (step conv reg) s.broker (heard (s, ev))
  accepted : acceptedJunk ev = []
  ops : ∀ op ∈ heard (s, ev), op.CreatesNone (T := T)
  chunks : ∀ r, chunksOf r (s, ev) = []
  commands : ∀ r, (heard (s, ev)).flatMap (commandsOf r) = []

/-- A handler that reads `chunk` from the subscriber at `r`, which leaves the record `d`, and executes `cmd`. -/
structure Reads (s : Server T) (ev : Event) (s' : Server T) (r : Nat) (chunk : List UInt8) (c d : SubClient)
    (cmd : Option Command) : Prop where
  broker : s'.broker = Machine.run (step conv reg) (s.broker.update r fun _ => d) (heard (s, ev))
  record : s.broker.subClis[r]? = some c
  live : c.live = true
  read : subRead c chunk = some (d, cmd)
  accepted : acceptedJunk ev = []
  ops : ∀ op ∈ heard (s, ev), op.CreatesNone (T := T)
  chunks : ∀ q, chunksOf q (s, ev) = if q = r then [chunk] else []
  commands : ∀ q, (heard (s, ev)).flatMap (commandsOf q) = if q = r then cmd.toList else []

/-- The record behind a read is the one before it, but for the request. -/
theorem Reads.sansRequest {s s' : Server T} {ev : Event} {r : Nat} {chunk : List UInt8} {c d : SubClient} {cmd : Option Command}
    (h : Reads conv reg s ev s' r chunk c d cmd) : d.sansRequest = c.sansRequest := subRead_sansRequest h.read

theorem eq_map_some_of_mapM {cmd : Command} {args : List Sds} (h : cmd.mapM id = some args) : cmd = args.map some := by
  induction cmd generalizing args with
  | nil =>
    cases h
    rfl
  | cons arg cmd ih =>
    rw [List.mapM_cons] at h
    cases arg with
    | none => cases h
    | some arg =>
      cases hrest : cmd.mapM id with
      | none =>
        rw [hrest] at h
        cases h
      | some rest =>
        rw [hrest] at h
        cases h
        rw [ih hrest]
        rfl

/-- A read that the parsers return from, and the command that it completes. -/
theorem reads_of_subEvRead {s : Server T} {b : Broker T} {r : Nat} {byte : UInt8} {chunk : List UInt8} (hlive : s.broker.Live r)
    (h : subEvRead conv reg s.broker r (byte :: chunk) = some b) :
    ∃ c d cmd, Reads conv reg s (.subReadable r (.bytes (byte :: chunk))) { s with broker := b } r (byte :: chunk) c d cmd := by
  obtain ⟨c, hc, hl⟩ := hlive
  have hchunks (q : Nat) : chunksOf q (s, .subReadable r (.bytes (byte :: chunk))) = if q = r then [byte :: chunk] else [] := by
    rw [chunksOf]
    by_cases hq : q = r
    · rw [if_pos hq, if_pos ⟨hq.symm, c, hq ▸ hc, hl⟩]
    · rw [if_neg hq, if_neg fun hr => hq hr.1.symm]
  have hheard : heard (s, .subReadable r (.bytes (byte :: chunk))) =
      (completed s.broker r (byte :: chunk)).map fun args => .command r (args.headD []) args.tail := by
    rw [heard, if_pos ⟨c, hc, hl⟩]
  unfold completed at hheard
  unfold subEvRead at h
  rw [hc, Option.bind_some] at hheard
  simp only [hc] at h
  cases hread : subRead c (byte :: chunk) with
  | none =>
    rw [hread] at h
    cases h
  | some res =>
    obtain ⟨d, cmd⟩ := res
    rw [hread] at h hheard
    simp only at h
    -- the run does not go on where an argument was stored outside `argv`
    split at h
    · cases h
    cases cmd with
    | none =>
      cases h
      refine ⟨c, d, none, by rw [hheard]; rfl, hc, hl, hread, rfl, fun op hop => ?_, hchunks, fun q => ?_⟩
      · rw [hheard] at hop
        cases hop
      · rw [hheard]
        exact (ite_self _).symm
    | some cmd =>
      simp only at h
      cases hargs : cmd.mapM id with
      | none =>
        rw [hargs] at h
        cases h
      | some args =>
        cases args with
        | nil =>
          rw [hargs] at h
          cases h
        | cons argv0 topics =>
          rw [hargs] at h
          simp only [Option.bind_some, hargs, Option.toList_some, List.map_cons, List.map_nil, List.headD_cons, List.tail_cons] at hheard
          cases h
          -- the parsers leave the id, under which the client is put into the sets
          have hsame : d.sansRequest = c.sansRequest := subRead_sansRequest hread
          have hid : d.sansRequest.id = c.sansRequest.id := congrArg SubClient.id hsame
          have hlive : d.sansRequest.live = c.sansRequest.live := congrArg SubClient.live hsame
          change d.id = c.id at hid
          change d.live = c.live at hlive
          refine ⟨c, d, some cmd, ?_, hc, hl, hread, rfl, fun op hop => ?_, hchunks, fun q => ?_⟩
          · have hget : (s.broker.update r fun _ => d).subClis[r]? = some d := Broker.getElem?_update hc _
            rw [hheard, Machine.run_cons, Machine.run_nil]
            simp only [step, hget, hlive, hl, if_true, hid]
          · rw [hheard, List.mem_singleton] at hop
            subst hop
            exact fun b => rfl
          · rw [hheard, List.flatMap_singleton, commandsOf, eq_map_some_of_mapM hargs]
            by_cases hq : r = q
            · rw [if_pos hq, if_pos hq.symm]
              rfl
            · rw [if_neg hq, if_neg (Ne.symm hq)]

/-- What a handler does. -/
theorem handle_cases {s s' : Server T} (hidle : s.PubsIdle) {ev : Event} (h : handle conv reg s ev = some s') :
    s'.PubsIdle ∧ ((∃ fd sec pid junk out, ev = .acceptSub fd sec pid junk out ∧
        s' = { s with broker := acceptSub s.broker fd sec pid junk out }) ∨
      Quiet conv reg s ev s' ∨ ∃ r chunk c d cmd, Reads conv reg s ev s' r chunk c d cmd) := by
  have hset {p : Nat} {o : Option PubClient} (ho : ∀ c, o = some c → c.readBuf = []) :
      ∀ c, some c ∈ s.pubClis.set p o → c.readBuf = [] := by
    intro c hc
    rcases List.mem_or_eq_of_mem_set hc with hc | hc
    · exact hidle c hc
    · exact ho c hc.symm
  cases ev with
  | acceptSub fd sec pid junk out =>
    cases h
    exact ⟨hidle, .inl ⟨fd, sec, pid, junk, out, rfl, rfl⟩⟩
  | acceptPub fd =>
    cases h
    refine ⟨fun c hc => ?_, .inr (.inl ⟨rfl, rfl, by simp [heard], fun _ => rfl, fun _ => rfl⟩)⟩
    rcases List.mem_append.1 hc with hc | hc
    · exact hidle c hc
    · cases List.mem_singleton.1 hc
      rfl
  | subReadable r res =>
    rw [handle] at h
    by_cases hlive : s.broker.Live r
    · rw [if_pos hlive] at h
      obtain ⟨b, hb, rfl⟩ := Option.map_eq_some_iff.1 h
      refine ⟨hidle, ?_⟩
      -- the end of the file and an error are the same to the commands
      have hrelease : some (s.broker.update r subCliRelease) = some b →
          b = Machine.run (step conv reg) s.broker [.readFail r] := by
        intro hb
        cases hb
        rw [Machine.run_cons, Machine.run_nil, step, if_pos hlive]
      cases res with
      | again =>
        cases hb
        exact .inr (.inl ⟨rfl, rfl, by simp [heard], fun _ => rfl, fun _ => rfl⟩)
      | error => exact .inr (.inl ⟨hrelease hb, rfl, by simp [heard, Op.CreatesNone, created], fun _ => rfl, fun _ => rfl⟩)
      | bytes chunk =>
        cases chunk with
        | nil =>
          exact .inr (.inl ⟨hrelease hb, rfl, by simp [heard, Op.CreatesNone, created], fun _ => rfl, fun _ => rfl⟩)
        | cons byte chunk =>
          obtain ⟨c, d, cmd, hreads⟩ := reads_of_subEvRead conv reg hlive hb
          exact .inr (.inr ⟨r, _, c, d, cmd, hreads⟩)
    · rw [if_neg hlive] at h
      cases h
      refine ⟨hidle, .inr (.inl ?_)⟩
      -- a client that was released has no events any more
      have hstep : step conv reg s.broker (.readFail r) = s.broker := by rw [step, if_neg hlive]
      cases res with
      | again => exact ⟨rfl, rfl, by simp [heard], fun _ => rfl, fun _ => rfl⟩
      | error => exact ⟨hstep.symm, rfl, by simp [heard, Op.CreatesNone, created], fun _ => rfl, fun _ => rfl⟩
      | bytes chunk =>
        cases chunk with
        | nil => exact ⟨hstep.symm, rfl, by simp [heard, Op.CreatesNone, created], fun _ => rfl, fun _ => rfl⟩
        | cons byte chunk =>
          have hheard : heard (s, .subReadable r (.bytes (byte :: chunk))) = [] := by rw [heard, if_neg hlive]
          refine ⟨by rw [hheard]; rfl, rfl, by simp [hheard], fun q => ?_, fun q => by rw [hheard]; rfl⟩
          rw [chunksOf, if_neg]
          rintro ⟨rfl, hq⟩
          exact hlive hq
  | subWritable r ws junk =>
    have hstep : s'.PubsIdle ∧ s'.broker = step conv reg s.broker (.writable r ws junk) := by
      rw [handle] at h
      rw [step]
      split at h
      · cases h
        rw [if_pos ‹_›]
        exact ⟨hidle, rfl⟩
      · cases h
        rw [if_neg ‹_›]
        exact ⟨hidle, rfl⟩
    exact ⟨hstep.1, .inr (.inl ⟨hstep.2, rfl, by simp [heard, Op.CreatesNone, created], fun _ => rfl, fun _ => rfl⟩)⟩
  | pubReadable p res junk =>
    rw [handle] at h
    cases hp : s.pubClis[p]?.join with
    | none =>
      rw [hp] at h
      cases h
      refine ⟨hidle, .inr (.inl ?_)⟩
      have hheard : heard (s, .pubReadable p res junk) = [] := by
        cases res with
        | again => rfl
        | error => rfl
        | bytes chunk =>
          cases chunk with
          | nil => rfl
          | cons byte chunk =>
            rw [heard, hp]
            rfl
      exact ⟨by rw [hheard]; rfl, rfl, by simp [hheard], fun _ => rfl, fun q => by rw [hheard]; rfl⟩
    | some c =>
      rw [hp] at h
      cases h
      -- nothing is left from an earlier message, so that this one is the bytes of this read
      have hbuf : c.readBuf = [] := hidle c (List.mem_of_getElem? (Option.join_eq_some_iff.1 hp))
      cases res with
      | again => exact ⟨hidle, .inr (.inl ⟨rfl, rfl, by simp [heard], fun _ => rfl, fun _ => rfl⟩)⟩
      | error => exact ⟨hset fun _ ho => (by cases ho), .inr (.inl ⟨rfl, rfl, by simp [heard], fun _ => rfl, fun _ => rfl⟩)⟩
      | bytes chunk =>
        cases chunk with
        | nil => exact ⟨hset fun _ ho => (by cases ho), .inr (.inl ⟨rfl, rfl, by simp [heard], fun _ => rfl, fun _ => rfl⟩)⟩
        | cons byte chunk =>
          have hheard : heard (s, .pubReadable p (.bytes (byte :: chunk)) junk) = [.publish (byte :: chunk) junk] := by
            rw [heard, hp]
            rfl
          refine ⟨hset fun d hd => ?_, .inr (.inl ⟨?_, rfl, ?_, fun _ => rfl, fun q => ?_⟩)⟩
          · cases hd
            rfl
          · rw [hheard, Machine.run_cons, Machine.run_nil, step, pubEvHandler, hbuf, List.nil_append]
            simp only [processPubReadBuf_eq]
          · rw [hheard]
            simp [Op.CreatesNone, created]
          · rw [hheard]
            rfl

/-! ## Runs -/

/-- Events that create no record leave the requests under way. -/
theorem restChanges_run : ∀ (ops : List Op) {b : Broker T}, (∀ op ∈ ops, op.CreatesNone (T := T)) →
    (Machine.run (step conv reg) b ops).subClis.length = b.subClis.length ∧
    ∀ (i : Nat) (c' : SubClient), (Machine.run (step conv reg) b ops).subClis[i]? = some c' →
      ∃ c, b.subClis[i]? = some c ∧ RestChanges c c'
  | [], _, _ => ⟨rfl, fun i c' hc' => ⟨c', hc', .refl c'⟩⟩
  | op :: ops, b, h => by
    rw [List.forall_mem_cons] at h
    obtain ⟨hlen, hrest⟩ := restChanges_run ops (b := step conv reg b op) h.2
    have hstep : (step conv reg b op).subClis.length = b.subClis.length := by
      have := (step_continues conv reg b op).length_eq
      rw [h.1 b, List.append_nil] at this
      exact this.symm
    rw [Machine.run_cons]
    refine ⟨hlen.trans hstep, fun i c' hc' => ?_⟩
    obtain ⟨c₁, hc₁, h₁⟩ := hrest i c' hc'
    have hi : i < b.subClis.length := by
      rw [← hstep]
      exact (List.getElem?_eq_some_iff.1 hc₁).1
    obtain ⟨c, hc, h₀⟩ := restChanges_step conv reg op hi hc₁
    exact ⟨c, hc, h₀.trans h₁⟩

/-- A server on bytes does to the rest of its state what the server on commands does with the commands that were
heard. -/
theorem sansRequests_handle {s s' : Server T} (hidle : s.PubsIdle) {ev : Event} (h : handle conv reg s ev = some s') :
    s'.broker.sansRequests = (Machine.run (step conv reg) s.broker (heard (s, ev))).sansRequests := by
  obtain ⟨-, ⟨fd, sec, pid, junk, out, rfl, rfl⟩ | hquiet | ⟨r, chunk, c, d, cmd, hreads⟩⟩ := handle_cases conv reg hidle h
  · rfl
  · rw [hquiet.broker]
  · rw [hreads.broker]
    refine run_sansRequests conv reg ?_ _
    have hblank := hreads.sansRequest
    have hlist : (s.broker.subClis.modify r fun _ => d).map SubClient.sansRequest =
        s.broker.subClis.map SubClient.sansRequest := by
      apply List.ext_getElem?
      intro i
      simp only [List.getElem?_map, List.getElem?_modify]
      by_cases hi : r = i
      · subst hi
        rw [hreads.record]
        simp only [if_true, Option.map_eq_map, Option.map_some, hblank]
      · simp only [hi, if_false, Option.map_eq_map, Option.map_id']
    unfold Broker.update Broker.sansRequests
    simp only [hlist]

/-- The server on bytes refines the server on commands. -/
theorem bytes_refine_commands {counter : Int} {evs : List Event} {s : Server T}
    (h : serveBytes T conv reg counter evs = some s) :
    s.broker.sansRequests = (serve T conv reg counter ((handled T conv reg counter evs).flatMap heard)).sansRequests := by
  have hrun := Machine.tryRun_simulates
    (R := fun (s : Server T) (b : Broker T) => s.PubsIdle ∧ s.broker.sansRequests = b.sansRequests) (f := heard)
    (g := step conv reg) (t := .init T counter) (fun s b ev s' hs hstep => ?_) ⟨by simp [Server.PubsIdle, Server.init], rfl⟩ h
  · exact hrun.2
  · refine ⟨(handle_cases conv reg hs.1 hstep).1, ?_⟩
    rw [sansRequests_handle conv reg hs.1 hstep]
    exact run_sansRequests conv reg hs.2 _

theorem feed_append_singleton : ∀ (chunks : List (List UInt8)) {c d e : SubClient} {chunk : List UInt8} {cmds : List Command}
    {cmd : Option Command}, feed c chunks = some (d, cmds) → subRead d chunk = some (e, cmd) →
    feed c (chunks ++ [chunk]) = some (e, cmds ++ cmd.toList)
  | [], c, d, e, chunk, cmds, cmd, h, hread => by
    cases h
    rw [List.nil_append, feed, hread]
    simp [feed]
  | first :: chunks, c, d, e, chunk, cmds, cmd, h, hread => by
    rw [feed] at h
    rw [List.cons_append, feed]
    cases hfirst : subRead c first with
    | none =>
      rw [hfirst] at h
      cases h
    | some res =>
      obtain ⟨c₁, cmd₁⟩ := res
      rw [hfirst] at h
      obtain ⟨⟨d₁, cmds₁⟩, hrest, heq⟩ := Option.map_eq_some_iff.1 h
      cases heq
      simp only
      rw [feed_append_singleton chunks hrest hread, Option.map_some, List.append_assoc]

/-- What is known of the subscribers after the events `l`: each has executed what its parsers make of the bytes it
has sent, and as long as it lives its record holds what they have left. -/
structure Listens (s : Server T) (l : List (Server T × Event)) : Prop where
  idle : s.PubsIdle
  accepted : (l.flatMap fun p => acceptedJunk p.2).length = s.broker.subClis.length
  unheard : ∀ r, s.broker.subClis.length ≤ r → l.flatMap (chunksOf r) = [] ∧ (l.flatMap heard).flatMap (commandsOf r) = []
  records : ∀ r c, s.broker.subClis[r]? = some c → ∃ junk d,
    (l.flatMap fun p => acceptedJunk p.2)[r]? = some junk ∧
    feed (subCliCreate junk c.fd c.id) (l.flatMap (chunksOf r)) = some (d, (l.flatMap heard).flatMap (commandsOf r)) ∧
    (c.live = true → d.over c = c)

theorem Listens.accept {s : Server T} {l : List (Server T × Event)} (h : Listens s l) (fd sec pid : Nat) (junk : Junk)
    (out : RegOutcome) : Listens { s with broker := acceptSub s.broker fd sec pid junk out }
      (l ++ [(s, Event.acceptSub fd sec pid junk out)]) := by
  have hchunks (r : Nat) : (l ++ [(s, Event.acceptSub fd sec pid junk out)]).flatMap (chunksOf r) = l.flatMap (chunksOf r) := by
    rw [List.flatMap_append, List.flatMap_singleton]
    exact List.append_nil _
  have hcmds (r : Nat) : ((l ++ [(s, Event.acceptSub fd sec pid junk out)]).flatMap heard).flatMap (commandsOf r) =
      (l.flatMap heard).flatMap (commandsOf r) := by
    rw [List.flatMap_append, List.flatMap_append, List.flatMap_singleton]
    exact List.append_nil _
  have hjunk : ((l ++ [(s, Event.acceptSub fd sec pid junk out)]).flatMap fun p => acceptedJunk p.2) =
      (l.flatMap fun p => acceptedJunk p.2) ++ [junk] := by
    rw [List.flatMap_append, List.flatMap_singleton]
    rfl
  obtain ⟨c₀, hclis, hover⟩ : ∃ c₀, (acceptSub s.broker fd sec pid junk out).subClis = s.broker.subClis ++ [c₀] ∧
      (subCliCreate junk c₀.fd c₀.id).over c₀ = c₀ := by
    cases out <;> exact ⟨_, rfl, rfl⟩
  refine ⟨h.idle, ?_, fun r hr => ?_, fun r c hc => ?_⟩
  · rw [hjunk, List.length_append, h.accepted, hclis, List.length_append]
    rfl
  · rw [hchunks, hcmds]
    refine h.unheard r ?_
    simp only [hclis, List.length_append] at hr
    omega
  · simp only [hclis] at hc
    rw [hchunks, hcmds, hjunk]
    by_cases hr : r < s.broker.subClis.length
    · rw [List.getElem?_append_left hr] at hc
      obtain ⟨junk', d, hj, hrest⟩ := h.records r c hc
      exact ⟨junk', d, by rw [List.getElem?_append_left (by rw [h.accepted]; exact hr), hj], hrest⟩
    · -- the new record is the last one, and nothing was read for it
      have hlast : r = s.broker.subClis.length := by
        have := (List.getElem?_eq_some_iff.1 hc).1
        rw [List.length_append, List.length_singleton] at this
        omega
      subst hlast
      rw [List.getElem?_append_right (Nat.le_refl _), Nat.sub_self] at hc
      cases hc
      obtain ⟨hnone, hnocmd⟩ := h.unheard _ (Nat.le_refl _)
      rw [hnone, hnocmd]
      refine ⟨junk, _, ?_, rfl, fun _ => hover⟩
      rw [← h.accepted, List.getElem?_append_right (Nat.le_refl _), Nat.sub_self]
      rfl

theorem Listens.quiet {s s' : Server T} {l : List (Server T × Event)} (h : Listens s l) {ev : Event}
    (hq : Quiet conv reg s ev s') (hidle : s'.PubsIdle) : Listens s' (l ++ [(s, ev)]) := by
  obtain ⟨hlen, hrecords⟩ := restChanges_run conv reg (heard (s, ev)) (b := s.broker) hq.ops
  rw [← hq.broker] at hlen hrecords
  have hchunks (r : Nat) : (l ++ [(s, ev)]).flatMap (chunksOf r) = l.flatMap (chunksOf r) := by
    rw [List.flatMap_append, List.flatMap_singleton, hq.chunks, List.append_nil]
  have hcmds (r : Nat) : ((l ++ [(s, ev)]).flatMap heard).flatMap (commandsOf r) = (l.flatMap heard).flatMap (commandsOf r) := by
    rw [List.flatMap_append, List.flatMap_append, List.flatMap_singleton, hq.commands, List.append_nil]
  have hjunk : ((l ++ [(s, ev)]).flatMap fun p => acceptedJunk p.2) = l.flatMap fun p => acceptedJunk p.2 := by
    rw [List.flatMap_append, List.flatMap_singleton, hq.accepted, List.append_nil]
  refine ⟨hidle, ?_, fun r hr => ?_, fun r c' hc' => ?_⟩
  · rw [hjunk, h.accepted, hlen]
  · rw [hchunks, hcmds]
    exact h.unheard r (hlen ▸ hr)
  · obtain ⟨c, hc, hrest⟩ := hrecords r c' hc'
    obtain ⟨junk, d, hj, hfeed, hover⟩ := h.records r c hc
    rw [hchunks, hcmds, hjunk, hrest.continues.fd, hrest.continues.id]
    refine ⟨junk, d, hj, hfeed, fun hl => ?_⟩
    rw [← hrest.request hl, ← hover (hrest.continues.live hl)]
    rfl

theorem Listens.reads {s s' : Server T} {l : List (Server T × Event)} (h : Listens s l) {ev : Event} {r : Nat}
    {chunk : List UInt8} {c d : SubClient} {cmd : Option Command} (hr : Reads conv reg s ev s' r chunk c d cmd)
    (hidle : s'.PubsIdle) : Listens s' (l ++ [(s, ev)]) := by
  obtain ⟨hlen, hrecords⟩ := restChanges_run conv reg (heard (s, ev)) (b := s.broker.update r fun _ => d) hr.ops
  rw [← hr.broker] at hlen hrecords
  rw [show (s.broker.update r fun _ => d).subClis.length = s.broker.subClis.length from List.length_modify ..] at hlen
  have hrlt : r < s.broker.subClis.length := (List.getElem?_eq_some_iff.1 hr.record).1
  have hchunks (q : Nat) : (l ++ [(s, ev)]).flatMap (chunksOf q) = l.flatMap (chunksOf q) ++ if q = r then [chunk] else [] := by
    rw [List.flatMap_append, List.flatMap_singleton, hr.chunks]
  have hcmds (q : Nat) : ((l ++ [(s, ev)]).flatMap heard).flatMap (commandsOf q) =
      (l.flatMap heard).flatMap (commandsOf q) ++ if q = r then cmd.toList else [] := by
    rw [List.flatMap_append, List.flatMap_append, List.flatMap_singleton, hr.commands]
  have hjunk : ((l ++ [(s, ev)]).flatMap fun p => acceptedJunk p.2) = l.flatMap fun p => acceptedJunk p.2 := by
    rw [List.flatMap_append, List.flatMap_singleton, hr.accepted, List.append_nil]
  refine ⟨hidle, ?_, fun q hq => ?_, fun q c' hc' => ?_⟩
  · rw [hjunk, h.accepted, hlen]
  · rw [hlen] at hq
    rw [hchunks, hcmds, if_neg (by omega), if_neg (by omega), List.append_nil, List.append_nil]
    exact h.unheard q hq
  · obtain ⟨c₁, hc₁, hrest⟩ := hrecords q c' hc'
    rw [hchunks, hcmds, hjunk, hrest.continues.fd, hrest.continues.id]
    by_cases hq : q = r
    · subst hq
      rw [Broker.getElem?_update hr.record] at hc₁
      cases hc₁
      obtain ⟨junk, d₀, hj, hfeed, hover⟩ := h.records q c hr.record
      -- the read goes on from what the parsers have left
      have hread := subRead_over d₀ c chunk
      rw [hover hr.live, hr.read] at hread
      obtain ⟨⟨d₁, cmd₁⟩, hread₁, heq⟩ := Option.map_eq_some_iff.1 hread.symm
      obtain ⟨rfl, rfl⟩ := Prod.mk.inj heq
      rw [if_pos rfl, if_pos rfl]
      refine ⟨junk, d₁, hj, feed_append_singleton _ hfeed hread₁, fun hl => ?_⟩
      rw [← hrest.request hl]
      rfl
    · have hold : s.broker.subClis[q]? = some c₁ := by
        rwa [show (s.broker.update r fun _ => d).subClis[q]? = s.broker.subClis[q]? from
          List.getElem?_modify_ne _ _ (Ne.symm hq)] at hc₁
      obtain ⟨junk, d₀, hj, hfeed, hover⟩ := h.records q c₁ hold
      rw [if_neg hq, if_neg hq, List.append_nil, List.append_nil]
      refine ⟨junk, d₀, hj, hfeed, fun hl => ?_⟩
      rw [← hrest.request hl, ← hover (hrest.continues.live hl)]
      rfl

/-- Whatever happens in between, the commands that a subscriber executes, and the request that is under way in
its record, are those that its parsers make of the bytes it has sent. -/
theorem commands_of_own_bytes {counter : Int} {evs : List Event} {s : Server T}
    (h : serveBytes T conv reg counter evs = some s) {r : Nat} {c : SubClient} (hc : s.broker.subClis[r]? = some c) :
    ∃ junk d, (evs.flatMap acceptedJunk)[r]? = some junk ∧
      feed (subCliCreate junk c.fd c.id) ((handled T conv reg counter evs).flatMap (chunksOf r)) =
        some (d, ((handled T conv reg counter evs).flatMap heard).flatMap (commandsOf r)) ∧
      (c.live = true → d.over c = c) := by
  have hlistens : Listens s ([] ++ handled T conv reg counter evs) := by
    refine Machine.tryRun_history (fun s l ev s' hl hstep => ?_) ?_ h
    · obtain ⟨hidle, ⟨fd, sec, pid, junk, out, rfl, rfl⟩ | hquiet | ⟨r, chunk, c, d, cmd, hreads⟩⟩ :=
        handle_cases conv reg hl.idle hstep
      · exact hl.accept fd sec pid junk out
      · exact hl.quiet conv reg hquiet hidle
      · exact hl.reads conv reg hreads hidle
    · refine ⟨by simp [Server.PubsIdle, Server.init], rfl, fun _ _ => ⟨rfl, rfl⟩, fun r c hc => ?_⟩
      cases hc
  rw [List.nil_append] at hlistens
  obtain ⟨junk, d, hj, hrest⟩ := hlistens.records r c hc
  refine ⟨junk, d, ?_, hrest⟩
  have hinputs : (handled T conv reg counter evs).map Prod.snd = evs := Machine.trace_inputs h
  rw [← hinputs, List.flatMap_map]
  exact hj

/-- A subscriber whose reads are harmless executes, at any time, the requests whose last byte has arrived, each
once and in order, whatever the others send and whenever their events come. -/
theorem requests_executed {counter : Int} {evs : List Event} {s : Server T} (h : serveBytes T conv reg counter evs = some s)
    {r : Nat} {c : SubClient} (hc : s.broker.subClis[r]? = some c) {rs : List Request} (hwf : ∀ req ∈ rs, req.WellFormed)
    (hpre : ((handled T conv reg counter evs).flatMap (chunksOf r)).flatten <+: Request.encodeAll rs)
    (hclean : CleanCut rs 0 ((handled T conv reg counter evs).flatMap (chunksOf r)))
    (hjunk : ∀ junk, (evs.flatMap acceptedJunk)[r]? = some junk → junk.argc = 0) :
    ((handled T conv reg counter evs).flatMap heard).flatMap (commandsOf r) =
      (receive rs ((handled T conv reg counter evs).flatMap (chunksOf r)).flatten.length).done.filterMap Request.command := by
  obtain ⟨junk, d, hj, hfeed, -⟩ := commands_of_own_bytes conv reg h hc
  have hne : [] ∉ (handled T conv reg counter evs).flatMap (chunksOf r) := by
    intro hmem
    obtain ⟨⟨s, ev⟩, -, hev⟩ := List.mem_flatMap.1 hmem
    unfold chunksOf at hev
    split at hev
    · split at hev
      · simp at hev
      · cases hev
    · cases hev
  have hidle : (subCliCreate junk c.fd c.id).Idle := ⟨hjunk junk hj, rfl, rfl⟩
  have hat : At (subCliCreate junk c.fd c.id) rs 0 := by
    refine .inl ?_
    rw [List.take_zero]
    exact .of_idle hidle
  have hdone : (receive rs 0).done = [] := by
    cases rs with
    | nil => rfl
    | cons req rs => rw [receive_of_lt rs (List.length_pos_of_ne_nil req.encode_ne_nil)]
  have hexec := feed_clean _ hwf hne hdone (by rwa [List.drop_zero]) hclean hat
  rw [hfeed, Nat.zero_add] at hexec
  exact Option.some.inj hexec

end

/-! ## Two subscribers and a publisher -/

def zeroedJunk : Junk := ⟨0, 0, .alloc 0⟩

/-- The second subscriber connects and sends a command while the request of the first one is under way. -/
def someEvents : List Event :=
  [.acceptSub 5 1 1 zeroedJunk .ok, .subReadable 0 (.bytes (ascii "*2")), .acceptPub 6,
    .acceptSub 7 1 1 zeroedJunk .ok, .subReadable 0 .again, .subReadable 1 (.bytes (ascii "pi")),
    .subReadable 0 (.bytes (ascii "\r\n$9\r\nsubscribe\r\n$1\r\nn\r\n")), .subReadable 1 (.bytes (ascii "ng\r\n")),
    .pubReadable 0 (.bytes (ascii "news")) fun _ => 7, .subWritable 0 [.count 100] .count,
    .subReadable 1 (.bytes []), .pubReadable 0 .error fun _ => 7]

theorem someEvents_refine : ∃ s, serveBytes listTrie asciiConv (fun _ _ => .ok) 0 someEvents = some s ∧
    (s.broker.replies.map fun call => (call.client, call.pieces)) =
      [(0, subscribePieces), (1, pongPieces), (0, bulkPieces (ascii "news"))] ∧
    s.broker.sansRequests = (serve listTrie asciiConv (fun _ _ => .ok) 0
      ((handled listTrie asciiConv (fun _ _ => .ok) 0 someEvents).flatMap heard)).sansRequests := by
  have hrun : (serveBytes listTrie asciiConv (fun _ _ => .ok) 0 someEvents).map
      (fun s => s.broker.replies.map fun call => (call.client, call.pieces)) =
      some [(0, subscribePieces), (1, pongPieces), (0, bulkPieces (ascii "news"))] := by decide +kernel
  obtain ⟨s, hs, hreplies⟩ := Option.map_eq_some_iff.1 hrun
  exact ⟨s, hs, hreplies, bytes_refine_commands asciiConv (fun _ _ => .ok) hs⟩

/-- The commands of the first subscriber are what its parsers make of its two reads. -/
theorem someEvents_heard : ∃ s c, serveBytes listTrie asciiConv (fun _ _ => .ok) 0 someEvents = some s ∧
    s.broker.subClis[0]? = some c ∧ ∃ junk d, (someEvents.flatMap acceptedJunk)[0]? = some junk ∧
      feed (subCliCreate junk c.fd c.id) ((handled listTrie asciiConv (fun _ _ => .ok) 0 someEvents).flatMap (chunksOf 0)) =
        some (d, ((handled listTrie asciiConv (fun _ _ => .ok) 0 someEvents).flatMap heard).flatMap (commandsOf 0)) ∧
      (c.live = true → d.over c = c) := by
  have hrun : ((serveBytes listTrie asciiConv (fun _ _ => .ok) 0 someEvents).map
      fun s => s.broker.subClis[0]?.isSome) = some true := by decide +kernel
  obtain ⟨s, hs, hsome⟩ := Option.map_eq_some_iff.1 hrun
  obtain ⟨c, hc⟩ := Option.isSome_iff_exists.1 hsome
  exact ⟨s, c, hs, hc, commands_of_own_bytes asciiConv (fun _ _ => .ok) hs hc⟩

/-- The first subscriber executes its subscription, and nothing before it has arrived. -/
theorem someEvents_executed :
    ((handled listTrie asciiConv (fun _ _ => .ok) 0 someEvents).flatMap heard).flatMap (commandsOf 0) =
      (receive [.multibulk [ascii "subscribe", ascii "n"]] ((handled listTrie asciiConv (fun _ _ => .ok) 0
        someEvents).flatMap (chunksOf 0)).flatten.length).done.filterMap Request.command := by
  have hrun : ((serveBytes listTrie asciiConv (fun _ _ => .ok) 0 someEvents).map
      fun s => s.broker.subClis[0]?.isSome) = some true := by decide +kernel
  obtain ⟨s, hs, hsome⟩ := Option.map_eq_some_iff.1 hrun
  obtain ⟨c, hc⟩ := Option.isSome_iff_exists.1 hsome
  have hchunks : (handled listTrie asciiConv (fun _ _ => .ok) 0 someEvents).flatMap (chunksOf 0) =
      [ascii "*2", ascii "\r\n$9\r\nsubscribe\r\n$1\r\nn\r\n"] := by decide +kernel
  refine requests_executed asciiConv (fun _ _ => .ok) hs hc (List.forall_mem_singleton.2 ⟨by decide, by decide, by decide⟩) ?_ ?_
    (fun junk hj => ?_)
  · rw [hchunks]
    exact ⟨[], by decide +kernel⟩
  · rw [hchunks]
    refine ⟨⟨by decide, by decide +kernel, .inl (.inr (.inr ⟨[ascii "subscribe", ascii "n"], [], ?_, by decide +kernel⟩))⟩,
      ⟨by decide, by decide +kernel, .inl (.inl (by decide +kernel))⟩, trivial⟩
    rfl
  · cases hj
    rfl

end PubsubBroker

/-
The reply to a `subscribe`. `subscribe_command` does not look at what `subscribe_channel` returns, so the
success reply says nothing about the topics; `honest_reply_iff` says for which topics it is right all the
same. The two stores only grow, and a topic whose characters the trie has already is not put into the
table any more.
-/
import PubsubBroker.Broker.Subscribe

namespace PubsubBroker

open CLang

/-! ## The stores after the calls -/

section
variable {T : Datrie} (conv : Iconv)

/-- The call returns `SUBCLI_OK`. -/
def CallSucceeds (t : Topics T) (s : Subscription) : Prop := (subscribeChannel conv t s.client s.id s.channel).1 = .ok

/-- The topic is a key of both stores: of the table as it is, of the trie by the characters it is converted to. -/
def InStores (t : Topics T) (channel : Sds) : Prop :=
  T.retrieve t.subTrie (chanAlpha conv channel) = true ∧ channel ∈ t.subscibeTable.keys

/-- The topic is in both stores, or in neither and made of letters. -/
def StoreOk (t : Topics T) (s : Subscription) : Prop :=
  InStores conv t s.channel ∨
    ¬ T.retrieve t.subTrie (chanAlpha conv s.channel) = true ∧ AllLetters (chanAlpha conv s.channel) ∧
      s.channel ∉ t.subscibeTable.keys

instance (t : Topics T) (channel : Sds) : Decidable (InStores conv t channel) := inferInstanceAs (Decidable (_ ∧ _))

instance (t : Topics T) (s : Subscription) : Decidable (StoreOk conv t s) := inferInstanceAs (Decidable (_ ∨ _))

variable {conv} {keys : T.Trie → Set (List AlphaChar)}

/-- The stores only grow. -/
theorem InStores.subscribeStep (hT : T.Exact keys) {t : Topics T} {channel : Sds} (h : InStores conv t channel)
    (s : Subscription) : InStores conv (subscribeStep conv t s) channel := by
  refine ⟨?_, mem_keys_subscribeStep conv hT h.2 s⟩
  have hkey := (hT.retrieve _ _).1 h.1
  rw [hT.retrieve]
  unfold PubsubBroker.subscribeStep
  rcases subscribeChannel_cases conv hT t s.client s.id s.channel with
    ⟨-, heq⟩ | ⟨-, -, heq⟩ | ⟨trie, -, -, hkeys, ⟨-, heq⟩ | ⟨table, hs, -, -, heq⟩⟩
  · rwa [heq]
  · rwa [heq]
  · rw [heq, hkeys]
    exact Set.mem_insert_of_mem _ hkey
  · rw [heq, hkeys]
    exact Set.mem_insert_of_mem _ hkey

/-- A topic is kept out of the table: the trie knows its characters and the table does not know it. -/
def Shut (conv : Iconv) (t : Topics T) (channel : Sds) : Prop :=
  T.retrieve t.subTrie (chanAlpha conv channel) = true ∧ channel ∉ t.subscibeTable.keys

/-- What is kept out stays out, since its characters are found in the trie at every later call. -/
theorem Shut.subscribeStep (hT : T.Exact keys) {t : Topics T} {channel : Sds} (h : Shut conv t channel) (s : Subscription) :
    Shut conv (subscribeStep conv t s) channel := by
  obtain ⟨hknown, hout⟩ := h
  have hkey := (hT.retrieve _ _).1 hknown
  unfold Shut PubsubBroker.subscribeStep
  rw [hT.retrieve]
  rcases subscribeChannel_cases conv hT t s.client s.id s.channel with
    ⟨-, heq⟩ | ⟨-, -, heq⟩ | ⟨trie, hnew, -, hkeys, ⟨-, heq⟩ | ⟨table, hs, hins, -, heq⟩⟩
  · rw [heq]
    exact ⟨hkey, hout⟩
  · rw [heq]
    exact ⟨hkey, hout⟩
  · rw [heq, hkeys]
    exact ⟨Set.mem_insert_of_mem _ hkey, hout⟩
  · rw [heq, hkeys]
    refine ⟨Set.mem_insert_of_mem _ hkey, fun hin => ?_⟩
    rcases (Table.keys_insert hins _).1 hin with rfl | hin
    · exact hnew hkey
    · exact hout hin

/-- A call under the condition succeeds and leaves its topic in both stores. -/
theorem StoreOk.call (hT : T.Exact keys) {t : Topics T} {s : Subscription} (h : StoreOk conv t s) :
    CallSucceeds conv t s ∧ InStores conv (subscribeStep conv t s) s.channel := by
  rcases h with hstored | ⟨hnew, hletters, hout⟩
  · have hkey := (hT.retrieve _ _).1 hstored.1
    refine ⟨?_, hstored.subscribeStep hT s⟩
    unfold CallSucceeds
    rcases subscribeChannel_cases conv hT t s.client s.id s.channel with ⟨-, heq⟩ | ⟨hnot, -⟩ | ⟨trie, hnot, -⟩
    · rw [heq]
    · exact absurd hkey hnot
    · exact absurd hkey hnot
  · rw [hT.retrieve] at hnew
    unfold CallSucceeds InStores subscribeStep
    rcases subscribeChannel_cases conv hT t s.client s.id s.channel with
      ⟨hknown, -⟩ | ⟨-, hother, -⟩ | ⟨trie, -, -, hkeys, ⟨hin, -⟩ | ⟨table, hs, hins, -, heq⟩⟩
    · exact absurd hknown hnew
    · exact absurd hletters hother
    · exact absurd hin hout
    · rw [heq]
      refine ⟨rfl, ?_, (Table.keys_insert hins _).2 (.inl rfl)⟩
      rw [hT.retrieve, hkeys]
      exact Set.mem_insert _ _

/-- A call outside the condition fails, or leaves its topic out of the table for good. -/
theorem not_storeOk (hT : T.Exact keys) {t : Topics T} {s : Subscription} (h : ¬ StoreOk conv t s)
    (hok : CallSucceeds conv t s) : Shut conv (subscribeStep conv t s) s.channel := by
  simp only [StoreOk, not_or, InStores, not_and, not_not] at h
  unfold CallSucceeds at hok
  rcases subscribeChannel_cases conv hT t s.client s.id s.channel with
    ⟨hknown, -⟩ | ⟨-, -, heq⟩ | ⟨trie, hnew, hletters, -, ⟨-, heq⟩ | ⟨table, hs, hins, -, -⟩⟩
  · have hretrieve := (hT.retrieve _ _).2 hknown
    exact Shut.subscribeStep hT ⟨hretrieve, h.1 hretrieve⟩ s
  · rw [heq] at hok
    cases hok
  · rw [heq] at hok
    cases hok
  · rw [← hT.retrieve] at hnew
    exact absurd (h.2 hnew hletters) (Table.insert_some hins).1

/-- The calls all succeed and leave their topics in both stores exactly when each meets the condition on
the stores before it. -/
theorem calls_stored_iff (hT : T.Exact keys) : ∀ (calls : List Subscription) (t : Topics T),
    (Machine.AllSteps (subscribeStep conv) (CallSucceeds conv) t calls ∧
        ∀ s ∈ calls, InStores conv (Machine.run (subscribeStep conv) t calls) s.channel) ↔
      Machine.AllSteps (subscribeStep conv) (StoreOk conv) t calls
  | [], t => by simp [Machine.AllSteps]
  | s :: calls, t => by
    rw [Machine.run_cons, Machine.AllSteps, Machine.AllSteps, ← calls_stored_iff hT calls, List.forall_mem_cons]
    constructor
    · rintro ⟨⟨hcall, hcalls⟩, hfirst, hrest⟩
      refine ⟨?_, hcalls, hrest⟩
      by_contra hnot
      have hshut := Machine.run_invariant (I := fun t : Topics T => Shut conv t s.channel)
        (fun t s' hshut => hshut.subscribeStep hT s') (not_storeOk hT hnot hcall) calls
      exact hshut.2 hfirst.2
    · rintro ⟨hok, hcalls, hrest⟩
      obtain ⟨hcall, hstored⟩ := hok.call hT
      refine ⟨⟨hcall, hcalls⟩, ?_, hrest⟩
      exact Machine.run_invariant (I := fun t : Topics T => InStores conv t s.channel)
        (fun t s' hstored => hstored.subscribeStep hT s') hstored calls

end

/-! ## The reply that is received -/

/-- The client has been appended a reply that starts with `+subscribe`. -/
def Receives (c c' : SubClient) : Prop := ∃ tail, c'.appended = c.appended ++ ascii "+subscribe" ++ tail

/-- There is room for the first piece of a success reply, and `c->ev` listens for writing or can be made to. -/
def CanReceive (reg : Nat → RegOutcome) (c : SubClient) : Prop :=
  (c.ev.write = true ∨ reg c.regs = .ok) ∧ (ascii "+subscribe").length ≤ c.wbuf.available

/-- The success reply reaches the client exactly when its first piece does. -/
theorem receives_subscribe_iff (reg : Nat → RegOutcome) (c : SubClient) :
    Receives c (addPieces reg c subscribePieces) ↔ CanReceive reg c := by
  have hbytes : ascii "+subscribe" = 43 :: ascii "subscribe" := rfl
  -- the second piece alone is no success reply
  have hcrlf : ∀ a tail, fitting a [crlf] ≠ ascii "+subscribe" ++ tail := by
    intro a tail
    unfold fitting
    split
    · rw [hbytes, fitting, List.append_nil]
      intro h
      exact absurd (List.cons.inj h).1 (by decide)
    · exact fun h => absurd (congrArg List.length h) (by simp [fitting, hbytes])
  unfold Receives CanReceive
  simp only [addPieces_appended, List.append_assoc, List.append_cancel_left_eq, subscribePieces]
  by_cases hreg : c.ev.write = true ∨ reg c.regs = .ok
  · have hserved : served reg c [ascii "+subscribe", crlf] = [ascii "+subscribe", crlf] := by
      unfold served afterRefusals
      rcases hreg with hw | hreg
      · rw [if_pos hw]
      · rw [if_pos hreg, ite_self]
    rw [hserved, fitting, and_iff_right hreg]
    by_cases hroom : (ascii "+subscribe").length ≤ c.wbuf.available
    · rw [if_pos hroom]
      exact iff_of_true ⟨_, rfl⟩ hroom
    · rw [if_neg hroom]
      refine iff_of_false ?_ hroom
      rintro ⟨tail, h⟩
      exact hcrlf _ tail h
  · -- the first piece is refused, and of what comes after it nothing starts like the reply
    refine iff_of_false ?_ fun h => hreg h.1
    rintro ⟨tail, h⟩
    have hserved : served reg c [ascii "+subscribe", crlf] = [crlf] ∨ served reg c [ascii "+subscribe", crlf] = [] := by
      rw [not_or] at hreg
      unfold served afterRefusals
      rw [if_neg hreg.1, if_neg hreg.2, afterRefusals]
      split
      · exact .inl rfl
      · exact .inr rfl
    rcases hserved with heq | heq <;> rw [heq] at h
    · exact hcrlf _ tail h
    · exact absurd (congrArg List.length h) (by simp [fitting, hbytes])

/-! ## The reply and the topics -/

section
variable {T : Datrie} (conv : Iconv) (reg : Nat → Nat → RegOutcome)

/-- The calls of `subscribe_channel` of one command. -/
def commandCalls (r : Nat) (id : Sds) (topics : List Sds) : List Subscription := topics.map (⟨r, id, ·⟩)

/-- The reply to the command is honest: the client does not get a success reply if a call has failed, and
a success reply says that every topic listed is in both stores. -/
structure HonestReply (b : Broker T) (r : Nat) (c : SubClient) (argv0 : Sds) (topics : List Sds) : Prop where
  failed : ¬ Machine.AllSteps (subscribeStep conv) (CallSucceeds conv) b.toTopics (commandCalls r c.id topics) →
    ¬ ∃ c', (processCommand conv reg b r c.id argv0 topics).subClis[r]? = some c' ∧ Receives c c'
  stored : (∃ c', (processCommand conv reg b r c.id argv0 topics).subClis[r]? = some c' ∧ Receives c c') →
    ∀ channel ∈ topics, InStores conv (processCommand conv reg b r c.id argv0 topics).toTopics channel

variable {conv reg} {keys : T.Trie → Set (List AlphaChar)}

theorem commandTopics_subscribe {argv0 : Sds} (h : commandName argv0 = ascii "subscribe") (t : Topics T) (r : Nat) (id : Sds)
    (topics : List Sds) :
    commandTopics conv t r id argv0 topics = Machine.run (subscribeStep conv) t (commandCalls r id topics) := by
  rw [commandTopics, if_pos h, subscribeChannels, Machine.run, commandCalls, List.foldl_map]
  rfl

theorem commandPieces_subscribe {argv0 : Sds} (h : commandName argv0 = ascii "subscribe") {topics : List Sds}
    (htopics : topics ≠ []) : commandPieces argv0 topics = subscribePieces := by
  have harity : ¬ arityRefused (-2) (topics.length + 1) := by
    have := List.length_pos_iff.2 htopics
    unfold arityRefused
    omega
  unfold commandPieces
  rw [findCommand_subscribe h]
  simp only [if_neg harity]

/-- The reply to a `subscribe` is honest exactly when it does not get through, or every call of
`subscribe_channel` finds its topic in both stores, or in neither and made of letters. -/
theorem honest_reply_iff (hT : T.Exact keys) {b : Broker T} {r : Nat} {c : SubClient} (hc : b.subClis[r]? = some c)
    {argv0 : Sds} (hname : commandName argv0 = ascii "subscribe") (topics : List Sds) :
    HonestReply conv reg b r c argv0 topics ↔ ¬ CanReceive (reg r) c ∨
      Machine.AllSteps (subscribeStep conv) (StoreOk conv) b.toTopics (commandCalls r c.id topics) := by
  have htopics : (processCommand conv reg b r c.id argv0 topics).toTopics =
      Machine.run (subscribeStep conv) b.toTopics (commandCalls r c.id topics) := by
    rw [processCommand_eq, reply_toTopics]
    exact commandTopics_subscribe hname ..
  have hstored : (∀ channel ∈ topics, InStores conv (processCommand conv reg b r c.id argv0 topics).toTopics channel) ↔
      ∀ s ∈ commandCalls r c.id topics,
        InStores conv (Machine.run (subscribeStep conv) b.toTopics (commandCalls r c.id topics)) s.channel := by
    rw [htopics, commandCalls, List.forall_mem_map]
  rcases eq_or_ne topics [] with rfl | hne
  · -- without topics there is no call that could fail
    exact iff_of_true ⟨fun h => absurd trivial h, fun _ => by simp⟩ (.inr trivial)
  have hclient : (processCommand conv reg b r c.id argv0 topics).subClis[r]? =
      some (addPieces (reg r) c subscribePieces) := by
    rw [processCommand_eq, commandPieces_subscribe hname hne, reply_subClis]
    exact Broker.getElem?_update (b := { b with toTopics := _ }) hc _
  -- what the client gets does not depend on the topics
  have hreceive : (∃ c', (processCommand conv reg b r c.id argv0 topics).subClis[r]? = some c' ∧ Receives c c') ↔
      CanReceive (reg r) c := by
    rw [← receives_subscribe_iff, hclient]
    simp
  constructor
  · intro h
    by_cases hcan : CanReceive (reg r) c
    · refine .inr ((calls_stored_iff hT _ _).1 ⟨?_, hstored.1 (h.stored (hreceive.2 hcan))⟩)
      by_contra hfail
      exact h.failed hfail (hreceive.2 hcan)
    · exact .inl hcan
  · intro h
    refine ⟨fun hfail hgot => ?_, fun hgot => ?_⟩
    · rcases h with hcan | hok
      · exact hcan (hreceive.1 hgot)
      · exact hfail ((calls_stored_iff hT _ _).2 hok).1
    · rcases h with hcan | hok
      · exact absurd (hreceive.1 hgot) hcan
      · exact hstored.2 ((calls_stored_iff hT _ _).2 hok).2

end

/-- A server with one client and no topics. -/
def emptyBroker : Broker listTrie := { Broker.init listTrie 0 with subClis := [zeroedClient 5 []] }

theorem honest_reply_letters : HonestReply asciiConv (fun _ _ => .ok) emptyBroker 0 (zeroedClient 5 [])
    (ascii "subscribe") [ascii "net", ascii "new"] ↔ ¬ CanReceive (fun _ => .ok) (zeroedClient 5 []) ∨
      Machine.AllSteps (subscribeStep asciiConv) (StoreOk asciiConv) emptyBroker.toTopics
        (commandCalls 0 [] [ascii "net", ascii "new"]) :=
  honest_reply_iff listTrie_exact rfl rfl [ascii "net", ascii "new"]

/-- The second topic has a digit and is stored nowhere; the client gets `+subscribe`. -/
theorem dishonest_reply : emptyBroker.subClis[0]? = some (zeroedClient 5 []) ∧
    (∃ c', (processCommand asciiConv (fun _ _ => .ok) emptyBroker 0 [] (ascii "subscribe") [ascii "net", ascii "n1"]).subClis[0]? =
      some c' ∧ c'.appended = ascii "+subscribe\r\n") ∧
    ¬ HonestReply asciiConv (fun _ _ => .ok) emptyBroker 0 (zeroedClient 5 []) (ascii "subscribe")
      [ascii "net", ascii "n1"] := by
  refine ⟨rfl, ⟨_, rfl, by decide +kernel⟩, fun h => ?_⟩
  have hstored := h.stored ⟨_, rfl, crlf, by decide +kernel⟩ (ascii "n1") (by simp)
  exact absurd hstored.2 (by decide +kernel)

end PubsubBroker

/-
Subscribing: the trie and the table of topics are written one after the other, under two keys made of the
same topic. The topics of the broker move by calls of `subscribe_channel` only, and `tables_agree_iff`
says exactly for which calls the two stay in agreement.
-/
import PubsubBroker.Broker.Publish

namespace PubsubBroker

open CLang

/-! ## One call of `subscribe_channel` -/

section
variable {T : Datrie} {conv : Iconv}

/-- A topic of letters is converted to its own bytes. -/
theorem chanAlpha_of_letters (hconv : conv.Ascii) {k : Sds} (hk : Letters k) :
    chanAlpha conv k = k.map code := by
  unfold chanAlpha
  rw [hconv.convToAlpha_of_letters hk, List.takeWhile_append_of_pos]
  · simp
  · intro a ha
    obtain ⟨x, hx, rfl⟩ := List.mem_map.1 ha
    simpa using code_ne_zero (hk x hx).ne_zero

/-- The client set that `subscribe_channel` makes. -/
theorem newSet_entries (id : Sds) (r : Nat) : ((Table.empty.insert id r).getD Table.empty).entries = [(id, r)] := rfl

/-- What a call of `subscribe_channel` does: the topic is known, it is refused by the trie, it is stored in
the trie but refused by the table, or it is stored in both. -/
theorem subscribeChannel_cases (conv : Iconv) {keys : T.Trie → Set (List AlphaChar)} (hT : T.Exact keys)
    (t : Topics T) (r : Nat) (id channel : Sds) :
    (chanAlpha conv channel ∈ keys t.subTrie ∧ subscribeChannel conv t r id channel = (.ok, t)) ∨
    (chanAlpha conv channel ∉ keys t.subTrie ∧ ¬ AllLetters (chanAlpha conv channel) ∧
      subscribeChannel conv t r id channel = (.err, t)) ∨
    ∃ trie, chanAlpha conv channel ∉ keys t.subTrie ∧ AllLetters (chanAlpha conv channel) ∧
      keys trie = insert (chanAlpha conv channel) (keys t.subTrie) ∧
      ((channel ∈ t.subscibeTable.keys ∧ subscribeChannel conv t r id channel = (.err, { t with subTrie := trie })) ∨
        ∃ table hs, t.subscibeTable.insert channel hs = some table ∧ hs.entries = [(id, r)] ∧
          subscribeChannel conv t r id channel = (.ok, ⟨table, trie⟩)) := by
  unfold subscribeChannel
  by_cases hknown : T.retrieve t.subTrie (chanAlpha conv channel) = true
  · exact .inl ⟨(hT.retrieve ..).1 hknown, if_pos hknown⟩
  · have hnew : chanAlpha conv channel ∉ keys t.subTrie := fun h => hknown ((hT.retrieve ..).2 h)
    rw [if_neg hknown]
    by_cases hletters : AllLetters (chanAlpha conv channel)
    · obtain ⟨trie, hstore, hkeys⟩ := hT.store_letters t.subTrie _ hletters
      refine .inr (.inr ⟨trie, hnew, hletters, hkeys, ?_⟩)
      simp only [hstore]
      cases hins : t.subscibeTable.insert channel ((Table.empty.insert id r).getD Table.empty) with
      | none => exact .inl ⟨Table.insert_eq_none.1 hins, rfl⟩
      | some table => exact .inr ⟨table, _, hins, newSet_entries id r, rfl⟩
    · rw [hT.store_other t.subTrie _ hletters]
      exact .inr (.inl ⟨hnew, hletters, rfl⟩)

end

/-! ## The calls of a run -/

/-- A call of `subscribe_channel`. -/
structure Subscription where
  client : Nat
  id : Sds
  channel : Sds

section
variable {T : Datrie} (conv : Iconv) (reg : Nat → Nat → RegOutcome)

def subscribeStep (t : Topics T) (s : Subscription) : Topics T := (subscribeChannel conv t s.client s.id s.channel).2

/-- The topics after the command that `argv[0]` names. -/
def commandTopics (t : Topics T) (r : Nat) (id argv0 : Sds) (topics : List Sds) : Topics T :=
  if commandName argv0 = ascii "subscribe" then subscribeChannels conv t r id topics else t

/-- The replies of the commands, and those to what is no command. -/
inductive CommandReply : List Sds → Prop
  | pong : CommandReply pongPieces
  | subscribe : CommandReply subscribePieces
  | unsubscribe : CommandReply unsubscribePieces
  | error (text : Sds) (h : text ≠ []) : CommandReply (errorPieces text)

theorem CommandReply.reply {ps : List Sds} (h : CommandReply ps) : Reply ps := by
  cases h with
  | pong => exact .pong
  | subscribe => exact .subscribe
  | unsubscribe => exact .unsubscribe
  | error text h => exact .error h

/-- The pieces of the reply to the command that `argv[0]` names. -/
def commandPieces (argv0 : Sds) (topics : List Sds) : List Sds :=
  match findCommand argv0 with
  | none => errorPieces (ascii "unknown command " ++ [SQUOTE] ++ commandName argv0 ++ [SQUOTE])
  | some cmd =>
    if arityRefused cmd.arity (topics.length + 1) then
      errorPieces (ascii "wrong number of arguments for " ++ [SQUOTE] ++ commandName argv0 ++ [SQUOTE] ++ ascii " command")
    else
      match cmd.proc with
      | .ping => pongPieces
      | .subscribe => subscribePieces
      | .unsubscribe => unsubscribePieces

theorem commandReply_commandPieces (argv0 : Sds) (topics : List Sds) : CommandReply (commandPieces argv0 topics) := by
  unfold commandPieces
  cases findCommand argv0 with
  | none => exact .error _ (by simp [ascii])
  | some cmd =>
    simp only
    split
    · exact .error _ (by simp [ascii])
    · cases cmd.proc with
      | ping => exact .pong
      | subscribe => exact .subscribe
      | unsubscribe => exact .unsubscribe

theorem findCommand_subscribe {argv0 : Sds} (h : commandName argv0 = ascii "subscribe") :
    findCommand argv0 = some ⟨ascii "subscribe", .subscribe, -2⟩ := by
  unfold findCommand
  rw [h]
  rfl

/-- A command changes the topics if it is a `subscribe`, and makes one reply. -/
theorem processCommand_eq (b : Broker T) (r : Nat) (id argv0 : Sds) (topics : List Sds) :
    processCommand conv reg b r id argv0 topics =
      reply reg { b with toTopics := commandTopics conv b.toTopics r id argv0 topics } r (commandPieces argv0 topics) := by
  unfold processCommand commandPieces commandTopics
  cases hfind : findCommand argv0 with
  | none =>
    rw [if_neg fun h => by simp [findCommand_subscribe h] at hfind]
    rfl
  | some cmd =>
    have hname : cmd.name = commandName argv0 := by simpa using List.find?_some hfind
    have hmem := List.mem_of_find?_eq_some hfind
    simp only [subCommandTable, List.mem_cons, List.not_mem_nil, or_false] at hmem
    rcases hmem with rfl | rfl | rfl
    · rw [if_neg (by rw [← hname]; decide)]
      simp only
      split <;> rfl
    · rw [if_pos hname.symm]
      simp only
      split
      · rename_i harity
        -- only a `subscribe` without topics is refused
        have htopics : topics = [] := by
          rcases harity with h | h
          · omega
          · exact List.length_eq_zero_iff.1 (by omega)
        subst htopics
        rfl
      · rfl
    · rw [if_neg (by rw [← hname]; decide)]
      simp only
      split <;> rfl

/-- A command is executed for a client that is not freed, and makes one reply to it. -/
theorem step_command (b : Broker T) (r : Nat) (argv0 : Sds) (topics : List Sds) :
    (¬ b.Live r ∧ step conv reg b (.command r argv0 topics) = b) ∨
    ∃ c, b.subClis[r]? = some c ∧ c.live = true ∧ step conv reg b (.command r argv0 topics) =
      reply reg { b with toTopics := commandTopics conv b.toTopics r c.id argv0 topics } r (commandPieces argv0 topics) := by
  simp only [step, Broker.Live]
  cases hc : b.subClis[r]? with
  | none => exact .inl ⟨by simp, rfl⟩
  | some c =>
    by_cases hlive : c.live = true
    · exact .inr ⟨c, rfl, hlive, by simp only [hlive, if_true, processCommand_eq]⟩
    · exact .inl ⟨by simp [hlive], by simp [hlive]⟩

/-- The calls of `subscribe_channel` that an event leads to. -/
def subscriptions (b : Broker T) : Op → List Subscription
  | .command r argv0 topics =>
    match b.subClis[r]? with
    | some c => if c.live ∧ commandName argv0 = ascii "subscribe" then topics.map (⟨r, c.id, ·⟩) else []
    | none => []
  | _ => []

theorem publish_toTopics (b : Broker T) (c : PubClient) (junk : Nat → AlphaChar) :
    (processPubReadBuf conv reg b c junk).1.toTopics = b.toTopics := by
  rw [processPubReadBuf_eq]
  exact replyAll_toTopics ..

theorem acceptSub_toTopics (b : Broker T) (fd sec pid : Nat) (junk : Junk) (out : RegOutcome) :
    (acceptSub b fd sec pid junk out).toTopics = b.toTopics := by
  cases out <;> rfl

/-- The topics move by the calls of `subscribe_channel`. -/
theorem step_toTopics (b : Broker T) (op : Op) :
    (step conv reg b op).toTopics = Machine.run (subscribeStep conv) b.toTopics (subscriptions b op) := by
  cases op with
  | accept fd sec pid junk out => exact acceptSub_toTopics ..
  | publish msg junk => exact publish_toTopics ..
  | readFail r =>
    simp only [step]
    split <;> rfl
  | writable r ws junk =>
    simp only [step]
    split <;> rfl
  | command r argv0 topics =>
    rcases step_command conv reg b r argv0 topics with ⟨hlive, heq⟩ | ⟨c, hc, hlive, heq⟩
    · rw [heq, subscriptions]
      cases hc : b.subClis[r]? with
      | none => rfl
      | some c =>
        have : ¬ c.live = true := fun h => hlive ⟨c, hc, h⟩
        simp only
        rw [if_neg fun h => this h.1]
        rfl
    · rw [heq, reply_toTopics, commandTopics, subscriptions, hc]
      simp only [hlive, true_and]
      split
      · rw [Machine.run, List.foldl_map]
        rfl
      · rfl

end

/-! ## Agreement -/

section
variable {T : Datrie} {conv : Iconv} {keys : T.Trie → Set (List AlphaChar)}

/-- The keys of the trie are the topics of the table, and every topic has a client. -/
structure Agree (keys : T.Trie → Set (List AlphaChar)) (t : Topics T) : Prop where
  same : keys t.subTrie = List.map code '' { k | k ∈ t.subscibeTable.keys }
  nonempty : ∀ k hs, t.subscibeTable.get k = some hs → hs.entries ≠ []

/-- A call that returns `SUBCLI_ERR` changes nothing. -/
def ErrKeeps (conv : Iconv) (t : Topics T) (s : Subscription) : Prop :=
  (subscribeChannel conv t s.client s.id s.channel).1 = .err → subscribeStep conv t s = t

/-- The topic is converted to a key that the trie has, or to one that it refuses, or to its own bytes. -/
def TopicOk (conv : Iconv) (t : Topics T) (s : Subscription) : Prop :=
  T.retrieve t.subTrie (chanAlpha conv s.channel) = true ∨ ¬ AllLetters (chanAlpha conv s.channel) ∨
    chanAlpha conv s.channel = s.channel.map code

instance (t : Topics T) (s : Subscription) : Decidable (TopicOk conv t s) := inferInstanceAs (Decidable (_ ∨ _ ∨ _))

theorem Agree.init (hT : T.Exact keys) (counter : Int) : Agree keys (Broker.init T counter).toTopics where
  same := by
    have : { k | k ∈ (Broker.init T counter).subscibeTable.keys } = ∅ :=
      Set.eq_empty_iff_forall_notMem.2 fun k hk => by cases hk
    rw [this, Set.image_empty]
    exact hT.create
  nonempty k hs h := by cases h

/-- A key of the trie that is the code of a byte string is that byte string's in the table. -/
theorem Agree.mem_keys {t : Topics T} (h : Agree keys t) {k : Sds} (hk : k.map code ∈ keys t.subTrie) :
    k ∈ t.subscibeTable.keys := by
  rw [h.same] at hk
  obtain ⟨k', hk', heq⟩ := hk
  rw [← (List.map_injective_iff.2 code_injective) heq]
  exact hk'

/-- A call under the condition keeps the agreement, and keeps everything if it fails. -/
theorem Agree.subscribeStep {t : Topics T} {s : Subscription} (hT : T.Exact keys) (h : Agree keys t)
    (hok : TopicOk conv t s) : Agree keys (subscribeStep conv t s) ∧ ErrKeeps conv t s := by
  unfold ErrKeeps PubsubBroker.subscribeStep
  rcases subscribeChannel_cases conv hT t s.client s.id s.channel with
    ⟨-, heq⟩ | ⟨-, -, heq⟩ | ⟨trie, hnew, hletters, hkeys, hcase⟩
  · rw [heq]
    exact ⟨h, fun _ => rfl⟩
  · rw [heq]
    exact ⟨h, fun _ => rfl⟩
  · -- the call stores the topic's own bytes, so both key sets grow by the same topic
    have hself : chanAlpha conv s.channel = s.channel.map code := by
      rcases hok with hok | hother | hok
      · exact absurd ((hT.retrieve ..).1 hok) hnew
      · exact absurd hletters hother
      · exact hok
    rw [hself] at hnew hkeys
    rcases hcase with ⟨hold, -⟩ | ⟨table, hs, hins, hentries, heq⟩
    · -- the table has the topic but the trie not its key, which agreement excludes
      refine absurd ?_ hnew
      rw [h.same]
      exact Set.mem_image_of_mem _ hold
    · rw [heq]
      refine ⟨⟨?_, fun k hs' hget => ?_⟩, fun h => by cases h⟩
      · have hset : { k | k ∈ table.keys } = insert s.channel { k | k ∈ t.subscibeTable.keys } :=
          Set.ext fun k => Table.keys_insert hins k
        simp only
        rw [hkeys, h.same, hset, Set.image_insert_eq]
      · simp only [Table.get_insert hins] at hget
        split at hget
        · cases hget
          rw [hentries]
          exact List.cons_ne_nil _ _
        · exact h.nonempty k hs' hget

/-- A topic of the table that is not made of letters never gets a key in the trie. -/
theorem not_agree_of_mem (hT : T.Exact keys) {t : Topics T} {k : Sds} (hk : k ∈ t.subscibeTable.keys)
    (hletters : ¬ AllLetters (k.map code)) : ¬ Agree keys t := by
  intro h
  refine hletters (hT.letters t.subTrie _ ?_)
  rw [h.same]
  exact Set.mem_image_of_mem _ hk

/-- The table only grows. -/
theorem mem_keys_subscribeStep (conv : Iconv) (hT : T.Exact keys) {t : Topics T} {k : Sds}
    (hk : k ∈ t.subscibeTable.keys) (s : Subscription) : k ∈ (subscribeStep conv t s).subscibeTable.keys := by
  unfold subscribeStep
  rcases subscribeChannel_cases conv hT t s.client s.id s.channel with
    ⟨-, heq⟩ | ⟨-, -, heq⟩ | ⟨trie, -, -, -, ⟨-, heq⟩ | ⟨table, hs, hins, -, heq⟩⟩
  · rwa [heq]
  · rwa [heq]
  · rwa [heq]
  · rw [heq]
    exact (Table.keys_insert hins k).2 (.inr hk)

/-- A call outside the condition fails after it has changed the trie, or puts a topic that is not made of
letters into the table. -/
theorem not_topicOk (hT : T.Exact keys) (hconv : conv.Ascii) {t : Topics T} {s : Subscription} (hok : ¬ TopicOk conv t s)
    (hkeeps : ErrKeeps conv t s) :
    s.channel ∈ (subscribeStep conv t s).subscibeTable.keys ∧ ¬ AllLetters (s.channel.map code) := by
  unfold ErrKeeps subscribeStep at hkeeps
  unfold subscribeStep
  simp only [TopicOk, not_or, not_not] at hok
  obtain ⟨hnew, hletters, hself⟩ := hok
  rw [hT.retrieve] at hnew
  refine ⟨?_, fun hall => hself ?_⟩
  · rcases subscribeChannel_cases conv hT t s.client s.id s.channel with
      ⟨hknown, -⟩ | ⟨-, hother, -⟩ | ⟨trie, -, -, hkeys, ⟨-, heq⟩ | ⟨table, hs, hins, -, heq⟩⟩
    · exact absurd hknown hnew
    · exact absurd hletters hother
    · rw [heq] at hkeeps
      have := congrArg Topics.subTrie (hkeeps rfl)
      simp only at this
      rw [this] at hkeys
      refine absurd ?_ hnew
      rw [hkeys]
      exact Set.mem_insert _ _
    · rw [heq]
      exact (Table.keys_insert hins _).2 (.inl rfl)
  · exact chanAlpha_of_letters hconv hall.of_map_code

/-- Over any sequence of calls the agreement is kept exactly when every call meets the condition. -/
theorem calls_agree_iff (hT : T.Exact keys) (hconv : conv.Ascii) :
    ∀ (calls : List Subscription) (t : Topics T), Agree keys t →
    (Agree keys (Machine.run (subscribeStep conv) t calls) ∧
        Machine.AllSteps (subscribeStep conv) (ErrKeeps conv) t calls ↔
      Machine.AllSteps (subscribeStep conv) (TopicOk conv) t calls)
  | [], t, h => by
    simp [Machine.AllSteps, h]
  | s :: calls, t, h => by
    rw [Machine.run_cons, Machine.AllSteps, Machine.AllSteps]
    constructor
    · rintro ⟨hend, hkeeps, hrest⟩
      have hok : TopicOk conv t s := by
        by_contra hok
        obtain ⟨hmem, hother⟩ := not_topicOk hT hconv hok hkeeps
        -- nothing takes the topic out of the table again
        have hstay := Machine.run_invariant (I := fun t : Topics T => s.channel ∈ t.subscibeTable.keys)
          (fun t s' hk => mem_keys_subscribeStep conv hT hk s') hmem calls
        exact not_agree_of_mem hT hstay hother hend
      exact ⟨hok, (calls_agree_iff hT hconv calls _ (h.subscribeStep hT hok).1).1 ⟨hend, hrest⟩⟩
    · rintro ⟨hok, hrest⟩
      obtain ⟨hnext, hkeeps⟩ := h.subscribeStep hT hok
      obtain ⟨hend, hall⟩ := (calls_agree_iff hT hconv calls _ hnext).2 hrest
      exact ⟨hend, hkeeps, hall⟩

variable (conv) in
/-- The calls of `subscribe_channel` in the course of a run. -/
def subscribeCalls (reg : Nat → Nat → RegOutcome) (b : Broker T) (ops : List Op) : List Subscription :=
  Machine.emitted (step conv reg) subscriptions b ops

/-- In every state of a run the trie and the table agree, and no failed call has changed them, exactly when
every call of `subscribe_channel` meets the condition on its topic. -/
theorem tables_agree_iff (hT : T.Exact keys) (hconv : conv.Ascii) (reg : Nat → Nat → RegOutcome) (counter : Int)
    (ops : List Op) :
    (∀ before, before <+: ops → Agree keys (serve T conv reg counter before).toTopics) ∧
        Machine.AllSteps (subscribeStep conv) (ErrKeeps conv) (Broker.init T counter).toTopics
          (subscribeCalls conv reg (.init T counter) ops) ↔
      Machine.AllSteps (subscribeStep conv) (TopicOk conv) (Broker.init T counter).toTopics
        (subscribeCalls conv reg (.init T counter) ops) := by
  have hrun (ops : List Op) : (serve T conv reg counter ops).toTopics =
      Machine.run (subscribeStep conv) (Broker.init T counter).toTopics
        (subscribeCalls conv reg (.init T counter) ops) :=
    Machine.run_emitted (step_toTopics (T := T) conv reg) (.init T counter) ops
  have hinit := Agree.init hT counter
  have hiff := fun calls => calls_agree_iff hT hconv calls _ hinit
  constructor
  · rintro ⟨hagree, hkeeps⟩
    refine (hiff _).1 ⟨?_, hkeeps⟩
    rw [← hrun]
    exact hagree ops List.prefix_rfl
  · intro hok
    refine ⟨?_, ((hiff _).2 hok).2⟩
    rintro before ⟨after, rfl⟩
    rw [subscribeCalls, Machine.emitted_append, Machine.AllSteps.append] at hok
    rw [hrun]
    exact ((hiff _).2 hok.1).1

end

/-- A client that connects and subscribes to a topic. -/
def connectAndSubscribe (topic : Sds) : List Op :=
  [.accept 5 1 1 ⟨0, 0, .alloc 0⟩ .ok, .command 0 (ascii "subscribe") [topic]]

theorem tables_agree_net :
    Agree listKeys (serve listTrie asciiConv (fun _ _ => .ok) 0 (connectAndSubscribe (ascii "net"))).toTopics :=
  ((tables_agree_iff listTrie_exact asciiConv_ascii (fun _ _ => .ok) 0 (connectAndSubscribe (ascii "net"))).2
    ⟨by decide +kernel, trivial⟩).1 _ List.prefix_rfl

/-- The topic `a\x00b` is stored as `a` in the trie. -/
theorem tables_disagree :
    ¬ Agree listKeys (serve listTrie asciiConv (fun _ _ => .ok) 0 (connectAndSubscribe [97, 0, 98])).toTopics := by
  intro h
  have hmem : [97].map code ∈ (serve listTrie asciiConv (fun _ _ => .ok) 0 (connectAndSubscribe [97, 0, 98])).subTrie.1 := by
    decide +kernel
  have hkey : [97] ∉ (serve listTrie asciiConv (fun _ _ => .ok) 0
      (connectAndSubscribe [97, 0, 98])).subscibeTable.keys := by
    decide +kernel
  exact hkey (h.mem_keys hmem)

end PubsubBroker

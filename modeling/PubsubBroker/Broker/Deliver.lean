/-
Delivery: who gets a published message. A message goes to the members of the topics it starts with, and
a client becomes a member only by the call of `subscribe_channel` that creates the topic.
`subscription_delivered_iff` says for which subscriptions every later message is delivered.
-/
import PubsubBroker.Broker.Subscribe

namespace PubsubBroker

open CLang

/-! ## The receivers of a message -/

section
variable {T : Datrie} (conv : Iconv) (reg : Nat → Nat → RegOutcome)

/-- The log of the replies grows by those to clients that exist. -/
theorem replyAll_replies (b : Broker T) (rs : List (Nat × List Sds)) :
    ∃ new, (replyAll reg b rs).replies = b.replies ++ new ∧
      new.map (fun call => (call.client, call.pieces)) = rs.filter (·.1 < b.subClis.length) := by
  induction rs generalizing b with
  | nil => exact ⟨[], by simp [replyAll], rfl⟩
  | cons r rs ih =>
    obtain ⟨new, hnew, hmap⟩ := ih (reply reg b r.1 r.2)
    rw [reply_length] at hmap
    rw [replyAll, Machine.run_cons, replyStep]
    rw [replyAll] at hnew
    rw [hnew]
    unfold reply
    cases hc : b.subClis[r.1]? with
    | none =>
      have hout := List.getElem?_eq_none_iff.1 hc
      exact ⟨new, rfl, by rw [List.filter_cons_of_neg (by simpa using hout), hmap]⟩
    | some c =>
      obtain ⟨hin, -⟩ := List.getElem?_eq_some_iff.1 hc
      refine ⟨⟨r.1, c, r.2⟩ :: new, by simp, ?_⟩
      rw [List.filter_cons_of_pos (by simpa using hin), List.map_cons, hmap]

/-- The replies that publishing a message makes. -/
def publishReplies (b : Broker T) (msg : Sds) (junk : Nat → AlphaChar) : List ReplyCall :=
  (step conv reg b (.publish msg junk)).replies.drop b.replies.length

/-- Publishing the message calls `add_reply_bulk(c, msg)` for the client at `r`. -/
def Delivered (b : Broker T) (msg : Sds) (junk : Nat → AlphaChar) (r : Nat) : Prop :=
  ∃ call ∈ publishReplies conv reg b msg junk, call.client = r ∧ call.pieces = bulkPieces msg

instance (b : Broker T) (msg : Sds) (junk : Nat → AlphaChar) (r : Nat) :
    Decidable (Delivered conv reg b msg junk r) := inferInstanceAs (Decidable (∃ call ∈ _, _))

/-- A message is delivered to the members of the channels it is published to. -/
theorem delivered_iff {b : Broker T} {msg : Sds} {junk : Nat → AlphaChar} {r : Nat} :
    Delivered conv reg b msg junk r ↔
      r < b.subClis.length ∧ ∃ chan ∈ publishedTo conv b msg junk, r ∈ b.members chan := by
  obtain ⟨new, hnew, hmap⟩ := replyAll_replies reg b
    (((publishedTo conv b msg junk).flatMap b.members).map fun r => (r, bulkPieces msg))
  have hreplies : publishReplies conv reg b msg junk = new := by
    unfold publishReplies
    simp only [step]
    rw [processPubReadBuf_eq]
    simp only
    rw [hnew, List.drop_left]
  have hmem : Delivered conv reg b msg junk r ↔ (r, bulkPieces msg) ∈ new.map fun call => (call.client, call.pieces) := by
    unfold Delivered
    rw [hreplies, List.mem_map]
    simp only [Prod.mk.injEq]
  rw [hmem, hmap]
  simp only [List.mem_filter, List.mem_map, List.mem_flatMap, decide_eq_true_eq, Prod.mk.injEq, and_true, exists_eq_right]
  exact and_comm

end

/-! ## Members -/

section
variable {T : Datrie} {conv : Iconv} {keys : T.Trie → Set (List AlphaChar)}

theorem mem_members_insert {t : Topics T} {channel id : Sds} {r x : Nat} {hs : Table Nat} {table : Table (Table Nat)}
    {trie : T.Trie} (hins : t.subscibeTable.insert channel hs = some table) (hentries : hs.entries = [(id, r)])
    (k : Sds) : x ∈ (⟨table, trie⟩ : Topics T).members k ↔ x ∈ t.members k ∨ (k = channel ∧ x = r) := by
  unfold Topics.members
  rw [Table.get_insert hins]
  by_cases hk : k = channel
  · subst hk
    have hnone : t.subscibeTable.get k = none := Table.get_eq_none.2 (Table.insert_some hins).1
    rw [if_pos rfl, hnone]
    simp [hentries]
  · rw [if_neg hk]
    simp [hk]

/-- The key of every topic of the table is in the trie. -/
def Keyed (conv : Iconv) (keys : T.Trie → Set (List AlphaChar)) (t : Topics T) : Prop :=
  ∀ k ∈ t.subscibeTable.keys, chanAlpha conv k ∈ keys t.subTrie

theorem Keyed.subscribeStep (hT : T.Exact keys) {t : Topics T} (h : Keyed conv keys t) (s : Subscription) :
    Keyed conv keys (subscribeStep conv t s) := by
  unfold PubsubBroker.subscribeStep
  rcases subscribeChannel_cases conv hT t s.client s.id s.channel with
    ⟨-, heq⟩ | ⟨-, -, heq⟩ | ⟨trie, -, -, hkeys, ⟨-, heq⟩ | ⟨table, hs, hins, -, heq⟩⟩
  · rwa [heq]
  · rwa [heq]
  · rw [heq]
    intro k hk
    rw [hkeys]
    exact Set.mem_insert_of_mem _ (h k hk)
  · rw [heq]
    intro k hk
    rw [hkeys]
    rcases (Table.keys_insert hins k).1 hk with rfl | hk
    · exact Set.mem_insert _ _
    · exact Set.mem_insert_of_mem _ (h k hk)

/-- Members stay. -/
theorem mem_members_subscribeStep (hT : T.Exact keys) {t : Topics T} {r : Nat} {k : Sds} (h : r ∈ t.members k)
    (s : Subscription) : r ∈ (subscribeStep conv t s).members k := by
  unfold subscribeStep
  rcases subscribeChannel_cases conv hT t s.client s.id s.channel with
    ⟨-, heq⟩ | ⟨-, -, heq⟩ | ⟨trie, -, -, -, ⟨-, heq⟩ | ⟨table, hs, hins, hentries, heq⟩⟩
  · rwa [heq]
  · rwa [heq]
  · rwa [heq]
  · rw [heq]
    exact (mem_members_insert hins hentries k).2 (.inl h)

/-- What a call of `subscribe_channel` does to a topic of letters: the caller becomes a member if the topic
is new, and the trie has its key afterwards if the call was for it. -/
theorem subscribeStep_letters (hT : T.Exact keys) (hconv : conv.Ascii) {t : Topics T} (h : Keyed conv keys t)
    (s : Subscription) {k : Sds} (hk : Letters k) :
    (s.client ∈ (subscribeStep conv t s).members k ↔
      s.client ∈ t.members k ∨ (s.channel = k ∧ k.map code ∉ keys t.subTrie)) ∧
    (k.map code ∈ keys (subscribeStep conv t s).subTrie ↔
      k.map code ∈ keys t.subTrie ∨ chanAlpha conv s.channel = k.map code) := by
  -- a topic of letters is converted to its own codes
  have hself : s.channel = k → chanAlpha conv s.channel = k.map code := by
    rintro rfl
    exact chanAlpha_of_letters hconv hk
  have hletters := hk.map_code
  unfold subscribeStep
  rcases subscribeChannel_cases conv hT t s.client s.id s.channel with
    ⟨hknown, heq⟩ | ⟨-, hother, heq⟩ | ⟨trie, hnew, -, hkeys, hcase⟩
  · rw [heq]
    refine ⟨(or_iff_left fun hs => ?_).symm, (or_iff_left_of_imp fun hs => ?_).symm⟩
    · exact hs.2 (hself hs.1 ▸ hknown)
    · exact hs ▸ hknown
  · rw [heq]
    refine ⟨(or_iff_left fun hs => ?_).symm, (or_iff_left fun hs => ?_).symm⟩
    · exact hother (hself hs.1 ▸ hletters)
    · exact hother (hs ▸ hletters)
  · have hmem : k.map code ∈ keys trie ↔ k.map code ∈ keys t.subTrie ∨ chanAlpha conv s.channel = k.map code := by
      rw [hkeys, Set.mem_insert_iff, or_comm, eq_comm]
    rcases hcase with ⟨hold, -⟩ | ⟨table, hs, hins, hentries, heq⟩
    · -- the table has no topic whose key is new
      exact absurd (h _ hold) hnew
    · rw [heq]
      refine ⟨?_, hmem⟩
      rw [mem_members_insert hins hentries]
      refine or_congr_right ⟨fun hk' => ?_, fun hk' => ⟨hk'.1.symm, rfl⟩⟩
      refine ⟨hk'.1.symm, ?_⟩
      rw [← hself hk'.1.symm]
      exact hnew

/-- After a `subscribe` its client is a member of a topic of letters if it was one before, or if the topic
was new and is the first one of the command that is converted to its key. -/
theorem mem_members_subscribeChannels (hT : T.Exact keys) (hconv : conv.Ascii) {r : Nat} {id k : Sds}
    (hk : Letters k) (topics : List Sds) {t : Topics T} (h : Keyed conv keys t) :
    r ∈ (subscribeChannels conv t r id topics).members k ↔ r ∈ t.members k ∨
      (k.map code ∉ keys t.subTrie ∧ topics.find? (chanAlpha conv · = k.map code) = some k) := by
  induction topics generalizing t with
  | nil => simp [subscribeChannels]
  | cons x topics ih =>
    obtain ⟨hmem, hkey⟩ := subscribeStep_letters hT hconv h ⟨r, id, x⟩ hk
    have ih := ih (h.subscribeStep hT ⟨r, id, x⟩)
    have hfirst : (x :: topics).find? (chanAlpha conv · = k.map code) =
        if chanAlpha conv x = k.map code then some x else topics.find? (chanAlpha conv · = k.map code) := by
      rw [List.find?_cons]
      by_cases hx : chanAlpha conv x = k.map code <;> simp [hx]
    change r ∈ (subscribeChannels conv (subscribeStep conv t ⟨r, id, x⟩) r id topics).members k ↔ _
    simp only at hmem hkey
    rw [ih, hmem, hkey, hfirst, or_assoc]
    refine or_congr_right ?_
    by_cases hx : chanAlpha conv x = k.map code
    · rw [if_pos hx]
      simp [hx, and_comm]
    · have hne : x ≠ k := by
        rintro rfl
        exact hx (chanAlpha_of_letters hconv hk)
      rw [if_neg hx]
      simp [hx, hne]

/-! ## Delivery -/

/-- The client is a member of a prefix of the topic. -/
def Reached (t : Topics T) (r : Nat) (k : Sds) : Prop := ∃ p ∈ k.inits, p ≠ [] ∧ r ∈ t.members p

/-- The client is a member of a prefix of the topic, or it becomes one: the prefix is not in the trie and is
the first topic of the command that is converted to its key. -/
def SubscribeOk (conv : Iconv) (t : Topics T) (r : Nat) (topics : List Sds) (k : Sds) : Prop :=
  ∃ p ∈ k.inits, p ≠ [] ∧ (r ∈ t.members p ∨
    (T.retrieve t.subTrie (p.map code) = false ∧ topics.find? (chanAlpha conv · = p.map code) = some p))

instance (t : Topics T) (r : Nat) (topics : List Sds) (k : Sds) : Decidable (SubscribeOk conv t r topics k) :=
  inferInstanceAs (Decidable (∃ p ∈ _, _))

theorem letters_of_mem_inits {k p : Sds} (hk : Letters k) (hp : p ∈ k.inits) :
    Letters p := fun x hx => hk x (((List.mem_inits ..).1 hp).subset hx)

theorem reached_subscribeChannels (hT : T.Exact keys) (hconv : conv.Ascii) {t : Topics T} (h : Keyed conv keys t)
    {r : Nat} {id k : Sds} {topics : List Sds} (hk : Letters k) :
    Reached (subscribeChannels conv t r id topics) r k ↔ SubscribeOk conv t r topics k := by
  refine exists_congr fun p => and_congr_right fun hp => and_congr_right fun _ => ?_
  rw [mem_members_subscribeChannels hT hconv (letters_of_mem_inits hk hp) topics h, ← hT.retrieve,
    Bool.not_eq_true]

theorem delivered_of_reached (hT : T.Exact keys) (hconv : conv.Ascii) (reg : Nat → Nat → RegOutcome) {b : Broker T}
    (h : Keyed conv keys b.toTopics) {r : Nat} (hr : r < b.subClis.length) {k m : Sds}
    (hk : Letters k) (hreach : Reached b.toTopics r k) (hm : k <+: m) (junk : Nat → AlphaChar) :
    Delivered conv reg b m junk r := by
  obtain ⟨p, hp, hne, hmem⟩ := hreach
  refine (delivered_iff conv reg).2 ⟨hr, p, ?_, hmem⟩
  have hkey := h p (Topics.mem_keys_of_mem_members hmem)
  rw [chanAlpha_of_letters hconv (letters_of_mem_inits hk hp)] at hkey
  exact mem_channels_of_key hT hconv hkey hne (((List.mem_inits ..).1 hp).trans hm) junk

theorem reached_of_delivered {reg : Nat → Nat → RegOutcome} {b : Broker T} {r : Nat} {k : Sds}
    {junk : Nat → AlphaChar} (h : Delivered conv reg b k junk r) : Reached b.toTopics r k := by
  obtain ⟨-, p, hp, hmem⟩ := (delivered_iff conv reg).1 h
  obtain ⟨hinit, hne⟩ := of_mem_channels hp
  exact ⟨p, hinit, hne, hmem⟩

/-! ## Runs -/

variable (conv) (reg : Nat → Nat → RegOutcome)

theorem Keyed.step (hT : T.Exact keys) {b : Broker T} (h : Keyed conv keys b.toTopics) (op : Op) :
    Keyed conv keys (step conv reg b op).toTopics := by
  rw [step_toTopics]
  exact Machine.run_invariant (I := Keyed conv keys) (fun t s h => h.subscribeStep hT s) h _

theorem Reached.step (hT : T.Exact keys) {b : Broker T} {r : Nat} {k : Sds} (h : Reached b.toTopics r k) (op : Op) :
    Reached (step conv reg b op).toTopics r k := by
  obtain ⟨p, hp, hne, hmem⟩ := h
  refine ⟨p, hp, hne, ?_⟩
  rw [step_toTopics]
  exact Machine.run_invariant (I := fun t : Topics T => r ∈ t.members p)
    (fun t s h => mem_members_subscribeStep hT h s) hmem _

/-- Pointers stay valid. -/
theorem step_length (b : Broker T) (op : Op) : b.subClis.length ≤ (step conv reg b op).subClis.length := by
  cases op with
  | accept fd sec pid junk out => cases out <;> simp [step, acceptSub]
  | command r argv0 topics =>
    rcases step_command conv reg b r argv0 topics with ⟨-, heq⟩ | ⟨c, -, -, heq⟩
    · rw [heq]
    · rw [heq, reply_length]
  | publish msg junk =>
    simp only [step]
    rw [processPubReadBuf_eq]
    exact (replyAll_length ..).ge
  | readFail r =>
    simp only [step]
    split <;> simp [Broker.update]
  | writable r ws junk =>
    simp only [step]
    split <;> simp [Broker.update]

theorem keyed_serve (hT : T.Exact keys) (counter : Int) (ops : List Op) :
    Keyed conv keys (serve T conv reg counter ops).toTopics :=
  Machine.run_invariant (I := fun b : Broker T => Keyed conv keys b.toTopics)
    (fun _ op h => h.step conv reg hT op) (fun k hk => by cases hk) ops

theorem step_subscribe {b : Broker T} {r : Nat} {c : SubClient} {argv0 : Sds} {topics : List Sds}
    (hc : b.subClis[r]? = some c) (hlive : c.live = true) (hname : commandName argv0 = ascii "subscribe") :
    (step conv reg b (.command r argv0 topics)).toTopics = subscribeChannels conv b.toTopics r c.id topics := by
  rcases step_command conv reg b r argv0 topics with ⟨hdead, -⟩ | ⟨c', hc', -, heq⟩
  · exact absurd ⟨c, hc, hlive⟩ hdead
  · rw [hc] at hc'
    cases hc'
    rw [heq, reply_toTopics, commandTopics, if_pos hname]

/-- A client that subscribes to a topic of letters gets every later message that starts with it, for as long
as it stays, exactly when the subscription meets the condition. In a run with releases this is about clients
whose records are at addresses of their own. -/
theorem subscription_delivered_iff (hT : T.Exact keys) (hconv : conv.Ascii) (counter : Int) (before : List Op)
    {r : Nat} {argv0 : Sds} {topics : List Sds} (hlive : (serve T conv reg counter before).Live r)
    (hstay : (serve T conv reg counter (before ++ [.command r argv0 topics])).Live r)
    (hname : commandName argv0 = ascii "subscribe") :
    ∀ k ∈ topics, k ≠ [] → Letters k →
      ((∀ after m junk, k <+: m →
          (serve T conv reg counter (before ++ [.command r argv0 topics] ++ after)).Live r →
          (∀ argv topics, .command r argv topics ∈ after → commandName argv ≠ ascii "unsubscribe") →
          Delivered conv reg (serve T conv reg counter (before ++ [.command r argv0 topics] ++ after)) m junk r) ↔
        SubscribeOk conv (serve T conv reg counter before).toTopics r topics k) := by
  intro k _ _ hletters
  obtain ⟨c, hc, hcl⟩ := hlive
  obtain ⟨hlt, -⟩ := List.getElem?_eq_some_iff.1 hc
  have hkeyed := keyed_serve conv reg hT counter before
  have hstep : serve T conv reg counter (before ++ [.command r argv0 topics]) =
      step conv reg (serve T conv reg counter before) (.command r argv0 topics) := serve_append ..
  rw [← reached_subscribeChannels hT hconv hkeyed hletters, ← step_subscribe conv reg hc hcl hname, ← hstep]
  constructor
  · -- the topic itself, published right after the command
    intro hall
    have := hall [] k (fun _ => 0) List.prefix_rfl
    rw [List.append_nil] at this
    exact reached_of_delivered (this hstay (by simp))
  · -- who is reached stays so, and the record is not lost
    intro hreach after m junk hm _ _
    have hkeyed' := keyed_serve conv reg hT counter (before ++ [.command r argv0 topics] ++ after)
    rw [serve_append] at hkeyed' ⊢
    have hreach' := Machine.run_invariant (I := fun b : Broker T => Reached b.toTopics r k)
      (fun b op h => h.step conv reg hT op) hreach after
    have hlt' := Machine.run_invariant (I := fun b : Broker T => r < b.subClis.length)
      (fun b op h => h.trans_le (step_length conv reg b op)) (hlt.trans_le (hstep ▸ step_length ..)) after
    exact delivered_of_reached hT hconv reg hkeyed' hlt' hletters hreach' hm junk

end

/-- A client that subscribes to `net` first gets `network`. -/
theorem subscription_delivered_network :
    Delivered asciiConv (fun _ _ => .ok)
      (serve listTrie asciiConv (fun _ _ => .ok) 0 (connectAndSubscribe (ascii "net"))) (ascii "network") (fun _ => 7) 0 :=
  (subscription_delivered_iff asciiConv (fun _ _ => .ok) listTrie_exact asciiConv_ascii 0
    [.accept 5 1 1 ⟨0, 0, .alloc 0⟩ .ok] (by decide +kernel) (by decide +kernel) (by decide +kernel) (ascii "net")
    (by decide) (by decide) (by decide)).2 (by decide +kernel) [] (ascii "network") (fun _ => 7) (by decide)
    (by decide +kernel) (by simp)

/-- A client that subscribes to a topic another client has does not get it. -/
theorem second_subscriber_missed :
    let b := serve listTrie asciiConv (fun _ _ => .ok) 0 (connectAndSubscribe (ascii "n") ++
      [.accept 6 1 1 ⟨0, 0, .alloc 0⟩ .ok, .command 1 (ascii "subscribe") [ascii "n"]])
    b.Live 1 ∧ Delivered asciiConv (fun _ _ => .ok) b (ascii "n") (fun _ => 7) 0 ∧
      ¬ Delivered asciiConv (fun _ _ => .ok) b (ascii "n") (fun _ => 7) 1 := by decide +kernel

end PubsubBroker

/-
Publishing: which topics `process_pub_read_buf` finds in a message. The loop of the walker and the loop
around it are one walk along the message (`visits`), a stop is a path that the end marker can follow,
and the scratch copy is the message again at the start of every pass.
-/
import PubsubBroker.Broker.State

namespace PubsubBroker

open CLang KeyPath

/-! ## The walk -/

/-- The indices at which the walk along `n` characters stops. -/
def visits (T : Datrie) (alpha : Nat → AlphaChar) : Nat → T.State → Nat → List Nat
  | 0, _, _ => []
  | n + 1, s, i =>
    if T.isWalkable s (alpha i) then
      let s := T.walk s (alpha i)
      if T.isTerminal s then i :: visits T alpha n s (i + 1) else visits T alpha n s (i + 1)
    else []

section
variable {T : Datrie} {alpha : Nat → AlphaChar}

theorem visits_succ (n : Nat) (s : T.State) (i : Nat) : visits T alpha (n + 1) s i =
    if T.isWalkable s (alpha i) then
      if T.isTerminal (T.walk s (alpha i)) then i :: visits T alpha n (T.walk s (alpha i)) (i + 1)
      else visits T alpha n (T.walk s (alpha i)) (i + 1)
    else [] := rfl

/-- The walker returns the next stop, and the rest of the stops are found from there on. -/
theorem visits_eq_trieWalker (alpha : Nat → AlphaChar) : ∀ (n : Nat) (s : T.State) (i : Nat),
    (∃ s', trieWalker T alpha n s i = (s', none) ∧ visits T alpha n s i = []) ∨
    ∃ s' cur k, trieWalker T alpha n s i = (s', some cur) ∧ n = cur + 1 - i + k ∧ i ≤ cur ∧
      visits T alpha n s i = cur :: visits T alpha k s' (cur + 1)
  | 0, s, i => .inl ⟨s, rfl, rfl⟩
  | n + 1, s, i => by
    rw [trieWalker, visits_succ]
    by_cases hw : T.isWalkable s (alpha i) = true
    · rw [if_pos hw, if_pos hw]
      by_cases ht : T.isTerminal (T.walk s (alpha i)) = true
      · exact .inr ⟨_, i, n, by rw [if_pos ht], by omega, le_rfl, by rw [if_pos ht]⟩
      · rw [if_neg ht, if_neg ht]
        rcases visits_eq_trieWalker alpha n (T.walk s (alpha i)) (i + 1) with h | ⟨s', cur, k, h, hn, hi, hv⟩
        · exact .inl h
        · exact .inr ⟨s', cur, k, h, by omega, by omega, hv⟩
    · rw [if_neg hw, if_neg hw]
      exact .inl ⟨s, rfl, rfl⟩

/-- The walk stops in increasing order. -/
theorem visits_sublist (n : Nat) (s : T.State) (i : Nat) : (visits T alpha n s i).Sublist (List.range' i n) := by
  induction n generalizing s i with
  | zero => exact List.nil_sublist _
  | succ n ih =>
    rw [visits_succ, List.range'_succ]
    split
    · split
      · exact (ih _ _).cons_cons i
      · exact (ih _ _).cons i
    · exact List.nil_sublist _

theorem map_range_succ (alpha : Nat → AlphaChar) (i : Nat) :
    (List.range (i + 1)).map alpha = (List.range i).map alpha ++ [alpha i] := by
  rw [List.range_succ, List.map_append]
  rfl

/-- One more character walked. -/
theorem walk_range (t : T.Trie) (i : Nat) : T.walk (T.walkAll (T.root t) ((List.range i).map alpha)) (alpha i) =
    T.walkAll (T.root t) ((List.range (i + 1)).map alpha) := by
  rw [map_range_succ, Datrie.walkAll, Datrie.walkAll, List.foldl_append]
  rfl

theorem walkable_range {keys : T.Trie → Set (List AlphaChar)} (hT : T.Exact keys) {t : T.Trie} {i : Nat}
    (hp : Path (keys t) 0 ((List.range i).map alpha)) :
    T.isWalkable (T.walkAll (T.root t) ((List.range i).map alpha)) (alpha i) = true ↔
      Path (keys t) 0 ((List.range (i + 1)).map alpha) := by
  rw [map_range_succ]
  exact hT.walkable t _ (alpha i) hp

/-- What can be walked up to `j` can be walked up to every `i` before it. -/
theorem path_range_of_le {K : Set (List AlphaChar)} {i j : Nat} (h : i ≤ j)
    (hp : Path K 0 ((List.range j).map alpha)) : Path K 0 ((List.range i).map alpha) := by
  obtain ⟨d, rfl⟩ := Nat.exists_eq_add_of_le h
  refine hp.initial ?_
  rw [List.range_add (n := i) (m := d), List.map_append]
  exact List.prefix_append ..

/-- A stop is where the end marker can follow the characters walked. -/
theorem mem_visits {keys : T.Trie → Set (List AlphaChar)} (hT : T.Exact keys) (t : T.Trie) :
    ∀ (n i j : Nat), Path (keys t) 0 ((List.range i).map alpha) →
      (j ∈ visits T alpha n (T.walkAll (T.root t) ((List.range i).map alpha)) i ↔
        i ≤ j ∧ j < i + n ∧ Path (keys t) 0 ((List.range (j + 1)).map alpha ++ [0]))
  | 0, i, j, _ => by
    simp only [visits, List.not_mem_nil, false_iff]
    omega
  | n + 1, i, j, hp => by
    -- the induction is on the characters ahead, from the state behind the `i` that were walked
    have hnext := walkable_range hT hp
    rw [visits_succ, walk_range]
    by_cases hw : T.isWalkable (T.walkAll (T.root t) ((List.range i).map alpha)) (alpha i) = true
    · have ih := mem_visits hT t n (i + 1) j (hnext.1 hw)
      rw [if_pos hw]
      have hterm := hT.terminal t _ (hnext.1 hw)
      by_cases ht : T.isTerminal (T.walkAll (T.root t) ((List.range (i + 1)).map alpha)) = true
      · rw [if_pos ht, List.mem_cons, ih]
        constructor
        · rintro (rfl | ⟨h1, h2, h3⟩)
          · exact ⟨le_rfl, by omega, hterm.1 ht⟩
          · exact ⟨by omega, by omega, h3⟩
        · rintro ⟨h1, h2, h3⟩
          by_cases hj : j = i
          · exact .inl hj
          · exact .inr ⟨by omega, by omega, h3⟩
      · rw [if_neg ht, ih]
        constructor
        · rintro ⟨h1, h2, h3⟩
          exact ⟨by omega, by omega, h3⟩
        · rintro ⟨h1, h2, h3⟩
          have hj : j ≠ i := by
            rintro rfl
            exact ht (hterm.2 h3)
          exact ⟨by omega, by omega, h3⟩
    · rw [if_neg hw]
      simp only [List.not_mem_nil, false_iff]
      -- where the walk stops no longer prefix is a path
      rintro ⟨h1, -, h3⟩
      exact hw (hnext.2 (path_range_of_le (Nat.succ_le_succ h1) (h3.initial (List.prefix_append ..))))

end

/-! ## The prefixes of a message -/

/-- The prefixes of a list come in increasing order of length. -/
theorem pairwise_inits {α : Type} (m : List α) : m.inits.Pairwise fun p q => p.length < q.length := by
  induction m with
  | nil => simp
  | cons a m ih =>
    rw [List.inits_cons, List.pairwise_cons, List.pairwise_map]
    refine ⟨fun p hp => ?_, ih.imp fun h => by simpa using h⟩
    obtain ⟨q, -, rfl⟩ := List.mem_map.1 hp
    simp

theorem nodup_inits {α : Type} (m : List α) : m.inits.Nodup := (pairwise_inits m).imp fun h => by rintro rfl; omega

/-- A sublist without repetitions that has every element of a kind has them in the same order. -/
theorem filter_eq_of_sublist {α : Type} {l l' : List α} {p : α → Bool} (h : l.Sublist l') (hnd : l'.Nodup)
    (hmem : ∀ x ∈ l', p x = true → x ∈ l) : l.filter p = l'.filter p := by
  refine (h.filter p).eq_of_length_le ((List.subperm_of_subset (hnd.filter p) fun x hx => ?_).length_le)
  rw [List.mem_filter] at hx ⊢
  exact ⟨hmem x hx.1 hx.2, hx.2⟩

/-- What the loop publishes to: the prefixes of the message up to each stop. -/
def channels (msg : Sds) (stops : List Nat) : List Sds := stops.map fun cur => msg.take (cur + 1)

theorem channels_sublist {msg : Sds} {stops : List Nat} (h : stops.Sublist (List.range' 0 msg.length)) :
    (channels msg stops).Sublist msg.inits := by
  have hinits : msg.inits = [] :: channels msg (List.range' 0 msg.length) := by
    refine List.ext_getElem (by simp [channels]) fun n h1 h2 => ?_
    rw [List.getElem_inits]
    cases n with
    | zero => simp
    | succ n => simp [channels]
  rw [hinits]
  exact (h.map _).cons []

section
variable {T : Datrie} {conv : Iconv}

/-- The letters at the start of a message are converted to their own characters. -/
theorem pubAlpha_of_letters (hconv : conv.Ascii) {k msg : Sds} (hk : Letters k) (hpre : k <+: msg)
    (junk : Nat → AlphaChar) : (List.range k.length).map (pubAlpha conv msg junk) = k.map code := by
  obtain ⟨rest, rfl⟩ := hpre
  obtain ⟨t, ht⟩ := hconv.convToAlpha_letters hk rest (n := (k ++ rest).length + 1) (by rw [List.length_append]; omega)
  refine List.ext_getElem (by simp) fun i h1 h2 => ?_
  rw [List.length_map] at h2
  rw [List.getElem_map, List.getElem_range, pubAlpha, ht, List.getElem?_append_left (by simpa using h2)]
  simp [h2]

/-- The walk stops at the end of every key that the message starts with. -/
theorem mem_visits_of_key {keys : T.Trie → Set (List AlphaChar)} (hT : T.Exact keys) (hconv : conv.Ascii)
    {t : T.Trie} {k msg : Sds} (hk : k.map code ∈ keys t) (hne : k ≠ []) (hpre : k <+: msg) (junk : Nat → AlphaChar) :
    k.length - 1 ∈ visits T (pubAlpha conv msg junk) msg.length (T.root t) 0 := by
  have hletters : Letters k := (hT.letters t _ hk).of_map_code
  have hpos := List.length_pos_of_ne_nil hne
  have hlen := hpre.length_le
  have hroot : Path (keys t) 0 ((List.range 0).map (pubAlpha conv msg junk)) := .initial_of_key hk (List.nil_prefix)
  refine (mem_visits hT t msg.length 0 (k.length - 1) hroot).2 ⟨Nat.zero_le _, by omega, ?_⟩
  rw [Nat.sub_add_cancel hpos, pubAlpha_of_letters hconv hletters hpre junk]
  exact ⟨_, hk, 1, List.prefix_rfl⟩

theorem mem_channels_of_key {keys : T.Trie → Set (List AlphaChar)} (hT : T.Exact keys) (hconv : conv.Ascii)
    {t : T.Trie} {k msg : Sds} (hk : k.map code ∈ keys t) (hne : k ≠ []) (hpre : k <+: msg) (junk : Nat → AlphaChar) :
    k ∈ channels msg (visits T (pubAlpha conv msg junk) msg.length (T.root t) 0) := by
  refine List.mem_map.2 ⟨_, mem_visits_of_key hT hconv hk hne hpre junk, ?_⟩
  rw [Nat.sub_add_cancel (List.length_pos_of_ne_nil hne)]
  exact (List.prefix_iff_eq_take.1 hpre).symm

/-- Among the prefixes published to are the keys that the message starts with, in order of length. -/
theorem filter_channels {keys : T.Trie → Set (List AlphaChar)} (hT : T.Exact keys) (hconv : conv.Ascii)
    {t : T.Trie} {K : List Sds} (hne : [] ∉ K) (hK : ∀ k ∈ K, k.map code ∈ keys t) (msg : Sds)
    (junk : Nat → AlphaChar) :
    (channels msg (visits T (pubAlpha conv msg junk) msg.length (T.root t) 0)).filter (· ∈ K) =
      msg.inits.filter (· ∈ K) := by
  refine filter_eq_of_sublist (channels_sublist (visits_sublist ..)) (nodup_inits msg) fun k hk hkK => ?_
  have hkK := of_decide_eq_true hkK
  have hk0 : k ≠ [] := fun h => hne (h ▸ hkK)
  exact mem_channels_of_key hT hconv (hK k hkK) hk0 ((List.mem_inits ..).1 hk) junk

/-- What is published to is a non-empty prefix of the message. -/
theorem of_mem_channels {alpha : Nat → AlphaChar} {s : T.State} {msg chan : Sds}
    (h : chan ∈ channels msg (visits T alpha msg.length s 0)) : chan ∈ msg.inits ∧ chan ≠ [] := by
  refine ⟨(channels_sublist (visits_sublist ..)).subset h, ?_⟩
  obtain ⟨cur, hcur, rfl⟩ := List.mem_map.1 h
  have hlt := List.mem_range'_1.1 ((visits_sublist ..).subset hcur)
  exact List.ne_nil_of_length_pos (by rw [List.length_take]; omega)

end

/-! ## The loop -/

section
variable {T : Datrie} (conv : Iconv) (reg : Nat → Nat → RegOutcome)

/-- At the start of every pass the scratch copy, once repaired, is the message and its terminator, so the
prefix that is published to is the message up to the stop. -/
theorem pubLoop_eq (alpha : Nat → AlphaChar) (msg : Sds) : ∀ (fuel : Nat) (s : T.State) (i : Nat) (pre : List UInt8)
    (b : Broker T), msg.length - i < fuel → pre.set i (msg.getD i 0) = msg ++ [0] →
    pubLoop reg alpha msg fuel s i pre b =
      (channels msg (visits T alpha (msg.length - i) s i)).foldl (fun b chan => singleChanPublish reg b msg chan) b
  | 0, _, _, _, _, h, _ => by omega
  | fuel + 1, s, i, pre, b, h, hpre => by
    unfold pubLoop
    rcases visits_eq_trieWalker alpha (msg.length - i) s i with ⟨s', hw, hv⟩ | ⟨s', cur, k, hw, hk, hi, hv⟩
    · rw [hw, hv]
      rfl
    · have hlen : msg.length - (cur + 1) = k := by omega
      have htake : (((msg ++ [0]).set (cur + 1) 0).take (cur + 1)) = msg.take (cur + 1) := by
        rw [List.take_set_of_le (by omega), List.take_append_of_le_length (by omega)]
      -- the NUL of one pass is replaced by the byte of the message in the next
      have hrepair : ((msg ++ [0]).set (cur + 1) 0).set (cur + 1) (msg.getD (cur + 1) 0) = msg ++ [0] := by
        rw [List.set_set]
        refine List.ext_getElem (by simp) fun n h1 h2 => ?_
        rw [List.getElem_set]
        split
        · rename_i hn
          subst hn
          rw [List.length_append, List.length_singleton] at h2
          rw [List.getElem_append]
          split
          · simp [*]
          · simp [*]
        · rfl
      rw [hw, hv, ← hlen]
      simp only [hpre, htake, channels, List.map_cons, List.foldl_cons]
      exact pubLoop_eq alpha msg fuel s' (cur + 1) _ _ (by omega) hrepair

/-! ## The receivers -/

/-- The clients that a message on `chan` goes to. -/
def Topics.members (t : Topics T) (chan : Sds) : List Nat :=
  ((t.subscibeTable.get chan).map fun subSet => subSet.entries.map Prod.snd).getD []

theorem Topics.mem_keys_of_mem_members {t : Topics T} {x : Nat} {k : Sds} (h : x ∈ t.members k) :
    k ∈ t.subscibeTable.keys := by
  unfold Topics.members at h
  rw [Table.mem_keys]
  cases hget : t.subscibeTable.get k with
  | none => simp [hget] at h
  | some hs => exact ⟨hs, rfl⟩

/-- A reply to a client. -/
def replyStep (b : Broker T) (r : Nat × List Sds) : Broker T := reply reg b r.1 r.2

/-- Replies one after the other. -/
def replyAll (b : Broker T) (rs : List (Nat × List Sds)) : Broker T := Machine.run (replyStep reg) b rs

theorem replyAll_toTopics (b : Broker T) (rs : List (Nat × List Sds)) : (replyAll reg b rs).toTopics = b.toTopics := by
  have hstep (b : Broker T) (r : Nat × List Sds) : (replyStep reg b r).toTopics = b.toTopics := reply_toTopics ..
  exact Machine.run_proj hstep b rs

theorem replyAll_length (b : Broker T) (rs : List (Nat × List Sds)) :
    (replyAll reg b rs).subClis.length = b.subClis.length := by
  have hstep (b : Broker T) (r : Nat × List Sds) : (replyStep reg b r).subClis.length = b.subClis.length :=
    reply_length ..
  exact Machine.run_proj (g := fun b : Broker T => b.subClis.length) hstep b rs

/-- What holds of every record and of the one that is overwritten holds of every record afterwards. -/
theorem Broker.forall_update {P : SubClient → Prop} {b : Broker T} (h : ∀ c ∈ b.subClis, P c) {r : Nat}
    {f : SubClient → SubClient} (hP : ∀ c, b.subClis[r]? = some c → P c → P (f c)) :
    ∀ c ∈ (b.update r f).subClis, P c := by
  intro d hd
  obtain ⟨i, hi⟩ := List.mem_iff_getElem?.1 hd
  rw [Broker.update, List.getElem?_modify] at hi
  obtain ⟨c, hc, rfl⟩ := Option.map_eq_some_iff.1 hi
  have hold := h c (List.mem_of_getElem? hc)
  split
  · rename_i hr
    exact hP c (hr ▸ hc) hold
  · exact hold

/-- A reply overwrites the record that it is made to. -/
theorem reply_subClis (b : Broker T) (r : Nat) (ps : List Sds) :
    (reply reg b r ps).subClis = (b.update r (addPieces (reg r) · ps)).subClis := by
  unfold reply Broker.update
  rw [List.modify_eq_set_getElem?]
  cases b.subClis[r]? <;> rfl

theorem forall_reply {P : SubClient → Prop} {b : Broker T} (h : ∀ c ∈ b.subClis, P c) {r : Nat} {ps : List Sds}
    (hP : ∀ c, P c → P (addPieces (reg r) c ps)) : ∀ c ∈ (reply reg b r ps).subClis, P c := by
  rw [reply_subClis]
  exact Broker.forall_update h fun c _ => hP c

theorem forall_replyAll {P : SubClient → Prop} : ∀ (rs : List (Nat × List Sds)) {b : Broker T},
    (∀ c ∈ b.subClis, P c) → (∀ r ∈ rs, ∀ c, P c → P (addPieces (reg r.1) c r.2)) →
    ∀ c ∈ (replyAll reg b rs).subClis, P c
  | [], _, h, _ => h
  | r :: rs, b, h, hP => by
    rw [List.forall_mem_cons] at hP
    exact forall_replyAll rs (b := replyStep reg b r) (forall_reply reg h hP.1) hP.2

/-- A reply does not look at the messages published. -/
theorem reply_published_comm (b : Broker T) (p : List (Sds × Sds)) (r : Nat) (ps : List Sds) :
    reply reg { b with published := p } r ps = { reply reg b r ps with published := p } := by
  unfold reply
  simp only
  split <;> rfl

theorem replyAll_published_comm (b : Broker T) (p : List (Sds × Sds)) (rs : List (Nat × List Sds)) :
    replyAll reg { b with published := p } rs = { replyAll reg b rs with published := p } := by
  induction rs generalizing b with
  | nil => rfl
  | cons r rs ih =>
    rw [replyAll, Machine.run_cons, replyStep, reply_published_comm]
    exact ih _

/-- `single_chan_publish` replies to the members of the channel. -/
theorem singleChanPublish_eq (b : Broker T) (msg chan : Sds) : singleChanPublish reg b msg chan =
    { replyAll reg b ((b.members chan).map fun r => (r, bulkPieces msg)) with
      published := b.published ++ [(msg, chan)] } := by
  rw [← replyAll_published_comm]
  unfold singleChanPublish Topics.members replyAll Machine.run
  simp only
  cases b.subscibeTable.get chan with
  | none => rfl
  | some subSet =>
    simp only [Option.map_some, Option.getD_some, List.foldl_map]
    rfl

/-- Publishing to channels replies to their members. -/
theorem publishAll_eq (msg : Sds) (chans : List Sds) (b : Broker T) :
    chans.foldl (fun b chan => singleChanPublish reg b msg chan) b =
      { replyAll reg b ((chans.flatMap b.members).map fun r => (r, bulkPieces msg)) with
        published := b.published ++ chans.map fun chan => (msg, chan) } := by
  induction chans generalizing b with
  | nil => simp [replyAll]
  | cons chan chans ih =>
    have hmembers : (singleChanPublish reg b msg chan).toTopics = b.toTopics := by
      rw [singleChanPublish_eq]
      exact replyAll_toTopics ..
    rw [List.foldl_cons, ih, hmembers, singleChanPublish_eq, replyAll_published_comm]
    simp [replyAll, Machine.run]

/-- The prefixes of the message that `process_pub_read_buf` publishes to. -/
def publishedTo (b : Broker T) (msg : Sds) (junk : Nat → AlphaChar) : List Sds :=
  channels msg (visits T (pubAlpha conv msg junk) msg.length (T.root b.subTrie) 0)

/-- `process_pub_read_buf` replies to the members of the prefixes up to the stops of the walk. -/
theorem processPubReadBuf_eq (b : Broker T) (c : PubClient) (junk : Nat → AlphaChar) :
    processPubReadBuf conv reg b c junk =
      ({ replyAll reg b (((publishedTo conv b c.readBuf junk).flatMap b.members).map fun r => (r, bulkPieces c.readBuf)) with
        published := b.published ++ (publishedTo conv b c.readBuf junk).map fun chan => (c.readBuf, chan) },
        { c with readBuf := [] }) := by
  unfold processPubReadBuf
  rw [pubLoop_eq, publishAll_eq]
  · rfl
  · omega
  · cases c.readBuf <;> rfl

/-- When the keys of the trie are those of the table, a publish calls `single_chan_publish` on the topics
that the message starts with, each once and the shorter ones first, and on no other topic. -/
theorem publish_prefixes {keys : T.Trie → Set (List AlphaChar)} (hT : T.Exact keys) (hconv : conv.Ascii)
    (b : Broker T) (hne : [] ∉ b.subscibeTable.keys)
    (hkeys : keys b.subTrie = List.map code '' { k | k ∈ b.subscibeTable.keys }) (c : PubClient)
    (junk : Nat → AlphaChar) :
    (processPubReadBuf conv reg b c junk).2.readBuf = [] ∧
    ∃ chans : List Sds,
      (processPubReadBuf conv reg b c junk).1.published = b.published ++ chans.map (fun chan => (c.readBuf, chan)) ∧
      chans.filter (· ∈ b.subscibeTable.keys) = c.readBuf.inits.filter (· ∈ b.subscibeTable.keys) := by
  have hK : ∀ k ∈ b.subscibeTable.keys, k.map code ∈ keys b.subTrie := by
    intro k hk
    rw [hkeys]
    exact Set.mem_image_of_mem _ hk
  refine ⟨rfl, _, ?_, filter_channels hT hconv hne hK c.readBuf junk⟩
  rw [processPubReadBuf_eq]
  rfl

end

/-- A broker with the topics `n` and `net`. -/
def nBroker : Broker listTrie :=
  { Broker.init listTrie 0 with
    subscibeTable := ⟨[(ascii "net", .empty), (ascii "n", .empty)], by decide⟩
    subTrie := ⟨[(ascii "n").map code, (ascii "net").map code], by decide⟩ }

theorem publish_prefixes_network :
    ∃ chans : List Sds,
      (processPubReadBuf asciiConv (fun _ _ => .ok) nBroker ⟨5, ascii "network"⟩ fun _ => 7).1.published =
        chans.map (fun chan => (ascii "network", chan)) ∧
      chans.filter (· ∈ nBroker.subscibeTable.keys) = [ascii "n", ascii "net"] := by
  have hkeys : listKeys nBroker.subTrie = List.map code '' { k | k ∈ nBroker.subscibeTable.keys } := by
    ext k
    simp [listKeys, nBroker, Table.keys, or_comm, eq_comm]
  obtain ⟨-, chans, hpub, hchans⟩ := publish_prefixes asciiConv (fun _ _ => .ok) listTrie_exact asciiConv_ascii nBroker
    (by decide) hkeys ⟨5, ascii "network"⟩ fun _ => 7
  exact ⟨chans, hpub, hchans.trans (by decide +kernel)⟩

end PubsubBroker

/-
The memory around `conv_to_alpha`: whether the characters it writes fit the buffer of its caller, and
whether the walk of a publish reads only what it has written. A publish walks as many characters as the
message has bytes, while the conversion stops at the first NUL and at the first sequence it does not
know, and may yield fewer characters than bytes.
-/
import PubsubBroker.Broker.Publish

namespace PubsubBroker

open CLang KeyPath

/-! ## What is written -/

/-- The bytes that `subscribe_channel` allocates: `malloc(sizeof(AlphaChar) * len + 1)`. -/
def subscribeAlloc (channel : Sds) : Nat := 4 * channel.length + 1

/-- The bytes that `process_pub_read_buf` allocates: `malloc(sizeof(AlphaChar) * (len+1))`. -/
def publishAlloc (msg : Sds) : Nat := 4 * (msg.length + 1)

/-- The characters that `conv_to_alpha` writes, four bytes each, lie within `size` bytes. -/
def WritesWithin (conv : Iconv) (input : List UInt8) (outSize size : Nat) : Prop :=
  ∀ i < (convToAlpha conv input outSize).length, 4 * i + 4 ≤ size

section
variable {conv : Iconv}

/-- What `conv_to_alpha` writes when it has room for the bytes and a terminator: the converted characters
and the terminator. -/
theorem convToAlpha_room (hconv : conv.Advances) (input : Sds) : convToAlpha conv input (input.length + 1) =
    conv.convert (input.length + 1) (cstr input) ++ [0] ∧
    (conv.convert (input.length + 1) (cstr input)).length ≤ input.length := by
  have hcstr : (cstr input).length ≤ input.length := (List.takeWhile_sublist _).length_le
  have hle := (hconv.length_convert_le (input.length + 1) (cstr input)).trans hcstr
  refine ⟨?_, hle⟩
  rw [convToAlpha_eq, if_pos (by omega)]

theorem writesWithin_iff (hconv : conv.Advances) (input : Sds) (size : Nat) :
    WritesWithin conv input (input.length + 1) size ↔
      4 * ((conv.convert (input.length + 1) (cstr input)).length + 1) ≤ size := by
  unfold WritesWithin
  rw [(convToAlpha_room hconv input).1, List.length_append, List.length_singleton]
  constructor
  · intro h
    have := h (conv.convert (input.length + 1) (cstr input)).length (by omega)
    omega
  · intro h i hi
    omega

/-- The characters of a message fit their buffer. Those of a topic fit exactly when there are fewer of
them than the topic has bytes, since its buffer has one byte instead of four for the terminator. -/
theorem conversion_fits_iff (hconv : conv.Advances) (channel msg : Sds) :
    (WritesWithin conv channel (channel.length + 1) (subscribeAlloc channel) ∧
      WritesWithin conv msg (msg.length + 1) (publishAlloc msg)) ↔
    (conv.convert (channel.length + 1) (cstr channel)).length < channel.length := by
  have hmsg := (convToAlpha_room hconv msg).2
  rw [writesWithin_iff hconv, writesWithin_iff hconv, subscribeAlloc, publishAlloc]
  omega

end

theorem conversion_fits_nul :
    (WritesWithin asciiConv [97, 0] ([97, 0].length + 1) (subscribeAlloc [97, 0]) ∧
      WritesWithin asciiConv (ascii "news") ((ascii "news").length + 1) (publishAlloc (ascii "news"))) ↔
    (asciiConv.convert ([97, 0].length + 1) (cstr [97, 0])).length < [97, 0].length :=
  conversion_fits_iff asciiConv_ascii.range [97, 0] (ascii "news")

/-- For the topic `n` two characters are written to five bytes. -/
theorem conversion_overflows : convToAlpha asciiConv (ascii "n") ((ascii "n").length + 1) = [code 110, 0] ∧
    subscribeAlloc (ascii "n") = 5 ∧
    ¬ WritesWithin asciiConv (ascii "n") ((ascii "n").length + 1) (subscribeAlloc (ascii "n")) := by
  refine ⟨by decide, by decide, fun h => ?_⟩
  exact absurd (h 1 (by decide)) (by decide)

/-! ## What is read -/

/-- The indices of the characters that one call of `trie_walker` passes to the trie. -/
def walkerReads (T : Datrie) (alpha : Nat → AlphaChar) : Nat → T.State → Nat → List Nat
  | 0, _, _ => []
  | n + 1, s, i =>
    i :: if T.isWalkable s (alpha i) then
      let s := T.walk s (alpha i)
      if T.isTerminal s then [] else walkerReads T alpha n s (i + 1)
    else []

/-- The indices of the characters that the loop of `process_pub_read_buf` passes to the trie. -/
def pubReads (T : Datrie) (alpha : Nat → AlphaChar) (msg : Sds) : Nat → T.State → Nat → List Nat
  | 0, _, _ => []
  | fuel + 1, s, i =>
    walkerReads T alpha (msg.length - i) s i ++
      match trieWalker T alpha (msg.length - i) s i with
      | (_, none) => []
      | (s, some cur) => pubReads T alpha msg fuel s (cur + 1)

/-- The indices that the walk along `n` characters reads, whether or not it stops on the way. -/
def walked (T : Datrie) (alpha : Nat → AlphaChar) : Nat → T.State → Nat → List Nat
  | 0, _, _ => []
  | n + 1, s, i => i :: if T.isWalkable s (alpha i) then walked T alpha n (T.walk s (alpha i)) (i + 1) else []

section
variable {T : Datrie} {alpha : Nat → AlphaChar}

theorem walked_succ (n : Nat) (s : T.State) (i : Nat) : walked T alpha (n + 1) s i =
    i :: if T.isWalkable s (alpha i) then walked T alpha n (T.walk s (alpha i)) (i + 1) else [] := rfl

/-- The walker reads up to its stop, and the walk goes on behind it. -/
theorem walked_eq_walkerReads (alpha : Nat → AlphaChar) : ∀ (n : Nat) (s : T.State) (i : Nat),
    (∃ s', trieWalker T alpha n s i = (s', none) ∧ walked T alpha n s i = walkerReads T alpha n s i) ∨
    ∃ s' cur k, trieWalker T alpha n s i = (s', some cur) ∧ n = cur + 1 - i + k ∧ i ≤ cur ∧
      walked T alpha n s i = walkerReads T alpha n s i ++ walked T alpha k s' (cur + 1)
  | 0, s, i => .inl ⟨s, rfl, rfl⟩
  | n + 1, s, i => by
    rw [trieWalker, walked_succ, walkerReads]
    by_cases hw : T.isWalkable s (alpha i) = true
    · simp only [if_pos hw]
      by_cases ht : T.isTerminal (T.walk s (alpha i)) = true
      · exact .inr ⟨_, i, n, if_pos ht, by omega, le_rfl, by rw [if_pos ht]; rfl⟩
      · simp only [if_neg ht]
        rcases walked_eq_walkerReads alpha n (T.walk s (alpha i)) (i + 1) with ⟨s', h, hv⟩ | ⟨s', cur, k, h, hn, hi, hv⟩
        · exact .inl ⟨s', h, by rw [hv]⟩
        · exact .inr ⟨s', cur, k, h, by omega, by omega, by rw [hv]; rfl⟩
    · exact .inl ⟨s, if_neg hw, by rw [if_neg hw, if_neg hw]⟩

/-- The loop reads what the walk along the whole message reads. -/
theorem pubReads_eq (alpha : Nat → AlphaChar) (msg : Sds) : ∀ (fuel : Nat) (s : T.State) (i : Nat),
    msg.length - i < fuel → pubReads T alpha msg fuel s i = walked T alpha (msg.length - i) s i
  | 0, _, _, h => by omega
  | fuel + 1, s, i, h => by
    unfold pubReads
    rcases walked_eq_walkerReads alpha (msg.length - i) s i with ⟨s', hw, hv⟩ | ⟨s', cur, k, hw, hk, hi, hv⟩
    · rw [hw, hv, List.append_nil]
    · have hlen : msg.length - (cur + 1) = k := by omega
      rw [hw, hv, ← hlen]
      simp only
      rw [pubReads_eq alpha msg fuel s' (cur + 1) (by omega)]

/-- An index is read when what comes before it can be walked. -/
theorem mem_walked {keys : T.Trie → Set (List AlphaChar)} (hT : T.Exact keys) (t : T.Trie) :
    ∀ (n i j : Nat), Path (keys t) 0 ((List.range i).map alpha) →
      (j ∈ walked T alpha n (T.walkAll (T.root t) ((List.range i).map alpha)) i ↔
        i ≤ j ∧ j < i + n ∧ Path (keys t) 0 ((List.range j).map alpha))
  | 0, i, j, _ => by
    simp only [walked, List.not_mem_nil, false_iff]
    omega
  | n + 1, i, j, hp => by
    have hnext := walkable_range hT hp
    rw [walked_succ, walk_range, List.mem_cons]
    by_cases hw : T.isWalkable (T.walkAll (T.root t) ((List.range i).map alpha)) (alpha i) = true
    · rw [if_pos hw, mem_walked hT t n (i + 1) j (hnext.1 hw)]
      constructor
      · -- the index itself is read, and then those behind it
        rintro (rfl | ⟨h1, h2, h3⟩)
        · exact ⟨le_rfl, by omega, hp⟩
        · exact ⟨by omega, by omega, h3⟩
      · rintro ⟨h1, h2, h3⟩
        by_cases hj : j = i
        · exact .inl hj
        · exact .inr ⟨by omega, by omega, h3⟩
    · rw [if_neg hw]
      simp only [List.not_mem_nil, or_false]
      constructor
      · rintro rfl
        exact ⟨le_rfl, by omega, hp⟩
      · rintro ⟨h1, -, h3⟩
        -- a longer path would have passed the character that stops the walk
        by_contra hj
        exact hw (hnext.2 (path_range_of_le (by omega) h3))

/-- Memories that agree where the walk reads are walked alike. -/
theorem visits_congr {alpha' : Nat → AlphaChar} : ∀ (n : Nat) (s : T.State) (i : Nat),
    (∀ j ∈ walked T alpha n s i, alpha j = alpha' j) → visits T alpha n s i = visits T alpha' n s i
  | 0, _, _, _ => rfl
  | n + 1, s, i, h => by
    rw [walked_succ, List.forall_mem_cons] at h
    rw [visits_succ, visits_succ, ← h.1]
    by_cases hw : T.isWalkable s (alpha i) = true
    · rw [if_pos hw] at h
      rw [if_pos hw, if_pos hw, visits_congr n _ (i + 1) h.2]
    · rw [if_neg hw, if_neg hw]

end

section
variable {T : Datrie}

/-- Every index that a publish passes to the trie was written by `conv_to_alpha`. -/
def ReadsWritten (conv : Iconv) (t : T.Trie) (msg : Sds) (junk : Nat → AlphaChar) : Prop :=
  ∀ i ∈ pubReads T (pubAlpha conv msg junk) msg (msg.length + 1) (T.root t) 0,
    i < (convToAlpha conv msg (msg.length + 1)).length

/-- Nothing can be walked in a trie without keys. -/
def Datrie.EmptyStuck (T : Datrie) (keys : T.Trie → Set (List AlphaChar)) : Prop :=
  ∀ t a, keys t = ∅ → T.isWalkable (T.root t) a = false

/-- The characters of a message that are converted: those before the first NUL and before the first
sequence that `iconv` does not know. -/
def converted (conv : Iconv) (msg : Sds) : List AlphaChar := conv.convert (msg.length + 1) (cstr msg)

variable {conv : Iconv} {keys : T.Trie → Set (List AlphaChar)}

/-- Two memories agree where `conv_to_alpha` has written. -/
theorem pubAlpha_congr {msg : Sds} {i : Nat} (h : i < (convToAlpha conv msg (msg.length + 1)).length)
    (junk junk' : Nat → AlphaChar) : pubAlpha conv msg junk i = pubAlpha conv msg junk' i := by
  rw [pubAlpha, pubAlpha, List.getElem?_eq_getElem h]
  rfl

theorem map_pubAlpha_converted (hconv : conv.Advances) (msg : Sds) (junk : Nat → AlphaChar) :
    (List.range ((converted conv msg).length + 1)).map (pubAlpha conv msg junk) = converted conv msg ++ [0] := by
  apply List.ext_getElem (by simp)
  intro i h1 h2
  rw [List.getElem_map, List.getElem_range, pubAlpha, (convToAlpha_room hconv msg).1]
  rw [← converted, List.getElem?_eq_getElem h2]
  rfl

/-- The walk leaves what was converted when that ends where a key does and the message is longer. -/
theorem readsWritten_iff (hT : T.Exact keys) (hempty : T.EmptyStuck keys) (hconv : conv.Advances) (t : T.Trie)
    (msg : Sds) (junk : Nat → AlphaChar) : ReadsWritten conv t msg junk ↔
      ¬ ((converted conv msg).length + 1 < msg.length ∧ Path (keys t) 0 (converted conv msg ++ [0])) := by
  have hlen : (convToAlpha conv msg (msg.length + 1)).length = (converted conv msg).length + 1 := by
    rw [(convToAlpha_room hconv msg).1, converted, List.length_append, List.length_singleton]
  unfold ReadsWritten
  rw [pubReads_eq _ _ _ _ _ (by omega), hlen, Nat.sub_zero]
  rcases Set.eq_empty_or_nonempty (keys t) with hk | ⟨k, hk⟩
  · -- at most the first character is read
    refine iff_of_true (fun i hi => ?_) fun h => ?_
    · cases hn : msg.length with
      | zero =>
        rw [hn] at hi
        cases hi
      | succ n =>
        rw [hn, walked_succ, hempty t _ hk, if_neg (by simp), List.mem_singleton] at hi
        omega
    · obtain ⟨-, k, hmem, -⟩ := h
      rw [hk] at hmem
      exact hmem
  · have hroot : Path (keys t) 0 ((List.range 0).map (pubAlpha conv msg junk)) := .initial_of_key hk List.nil_prefix
    have hmem := fun j => mem_walked hT t msg.length 0 j hroot
    simp only [Nat.zero_le, true_and, Nat.zero_add] at hmem
    rw [← map_pubAlpha_converted hconv msg junk]
    constructor
    · rintro h ⟨hshort, hpath⟩
      have := h _ ((hmem _).2 ⟨hshort, hpath⟩)
      omega
    · intro h i hi
      obtain ⟨hi, hpath⟩ := (hmem i).1 hi
      by_contra hlt
      -- the first index that was not written is read on the way
      exact h ⟨by omega, path_range_of_le (by omega) hpath⟩

/-- A walk within what was written does not depend on the rest of the memory. -/
theorem ReadsWritten.publish_congr (reg : Nat → Nat → RegOutcome) {b : Broker T} {c : PubClient}
    {junk junk' : Nat → AlphaChar} (h : ReadsWritten conv b.subTrie c.readBuf junk) :
    processPubReadBuf conv reg b c junk = processPubReadBuf conv reg b c junk' := by
  unfold ReadsWritten at h
  rw [pubReads_eq _ _ _ _ _ (by omega), Nat.sub_zero] at h
  have hpub : publishedTo conv b c.readBuf junk = publishedTo conv b c.readBuf junk' := by
    unfold publishedTo
    rw [visits_congr _ _ _ fun j hj => pubAlpha_congr (h j hj) junk junk']
  rw [processPubReadBuf_eq, processPubReadBuf_eq, hpub]

/-- A publish reads what was converted, and so depends on the message and the trie alone, unless the
converted characters end where a key does and the message has more than one byte left. -/
theorem walk_converted_iff (hT : T.Exact keys) (hempty : T.EmptyStuck keys) (hconv : conv.Advances)
    (reg : Nat → Nat → RegOutcome) (b : Broker T) (c : PubClient) :
    ((∀ junk, ReadsWritten conv b.subTrie c.readBuf junk) ∧
      ∀ junk junk', processPubReadBuf conv reg b c junk = processPubReadBuf conv reg b c junk') ↔
    ¬ ((converted conv c.readBuf).length + 1 < c.readBuf.length ∧
      Path (keys b.subTrie) 0 (converted conv c.readBuf ++ [0])) := by
  have hiff := readsWritten_iff hT hempty hconv b.subTrie c.readBuf
  constructor
  · rintro ⟨h, -⟩
    exact (hiff fun _ => 0).1 (h _)
  · intro h
    exact ⟨fun junk => (hiff junk).2 h, fun junk junk' => ((hiff junk).2 h).publish_congr reg⟩

end

theorem listTrie_emptyStuck : listTrie.EmptyStuck listKeys := by
  intro t a h
  obtain ⟨ks, hks⟩ := t
  cases ks with
  | nil => rfl
  | cons k ks => exact absurd (h ▸ List.mem_cons_self : k ∈ (∅ : Set (List AlphaChar))) (Set.notMem_empty k)

/-- The message `network` is read as far as it was converted. -/
theorem walk_converted_network :
    (∀ junk, ReadsWritten asciiConv nBroker.subTrie (ascii "network") junk) ∧
      ∀ junk junk', processPubReadBuf asciiConv (fun _ _ => .ok) nBroker ⟨5, ascii "network"⟩ junk =
        processPubReadBuf asciiConv (fun _ _ => .ok) nBroker ⟨5, ascii "network"⟩ junk' :=
  (walk_converted_iff listTrie_exact listTrie_emptyStuck asciiConv_ascii.range (fun _ _ => .ok) nBroker
    ⟨5, ascii "network"⟩).2 fun h => absurd h.1 (by decide)

/-- Two characters are written for the message `n`, NUL, `x`, and the third is passed to the trie: what
is published depends on it. -/
theorem walk_unwritten : (convToAlpha asciiConv [110, 0, 120] 4).length = 2 ∧
    2 ∈ pubReads listTrie (pubAlpha asciiConv [110, 0, 120] fun _ => 7) [110, 0, 120] 4 (listTrie.root nBroker.subTrie) 0 ∧
    (processPubReadBuf asciiConv (fun _ _ => .ok) nBroker ⟨5, [110, 0, 120]⟩ fun _ => 7).1.published ≠
      (processPubReadBuf asciiConv (fun _ _ => .ok) nBroker ⟨5, [110, 0, 120]⟩ fun _ => 0).1.published := by
  refine ⟨by decide +kernel, by decide +kernel, by decide +kernel⟩

end PubsubBroker

/-
Creation, iteration, release and rehashing of hash tables. A loop from `ght_first` with `ght_next` goes
over the entries from the oldest to the newest and stops early at data that is NULL; `ght_rehash` is such
a loop, so it loses the entries from there on, and those for which there is no memory.
-/
import PubsubBroker.Common.GhtTable

namespace PubsubBroker

open DLinked Entries

section
variable {m m' : Entries} {t t' : GhtHashTableT} {chains : Nat → List Ptr} {age as : List Ptr} {a p d : Ptr}
  {key : List UInt8}

/-! ## Creation -/

theorem sizeLoop_ok {want : UInt32} (hw : want.toNat ≤ 2 ^ 30) : ∀ {n i : Nat}, i ≤ 30 → 30 < i + n →
    (i = 0 ∨ 2 ^ (i - 1) < want.toNat) →
    ∃ k ≤ 30, sizeLoop want n (UInt32.ofNat (2 ^ i)) (i + 1) = .ok (UInt32.ofNat (2 ^ k), k + 1) ∧
      want.toNat ≤ 2 ^ k ∧ (k = 0 ∨ 2 ^ (k - 1) < want.toNat)
  | 0, i, hi, hf, _ => absurd hf (by omega)
  | n + 1, i, hi, hf, hmin => by
    have hpow : (UInt32.ofNat (2 ^ i)).toNat = 2 ^ i := by
      have : 2 ^ i ≤ 2 ^ 30 := Nat.pow_le_pow_right (by decide) hi
      exact UInt32.toNat_ofNat_of_lt' (by simp only [UInt32.size]; omega)
    rw [sizeLoop]
    by_cases hlt : UInt32.ofNat (2 ^ i) < want
    · rw [if_pos hlt]
      rw [UInt32.lt_iff_toNat_lt, hpow] at hlt
      have hi' : i < 30 := (Nat.pow_lt_pow_iff_right (a := 2) (by decide)).1 (lt_of_lt_of_le hlt hw)
      rw [if_pos (by omega)]
      exact sizeLoop_ok hw (by omega) (by omega) (.inr hlt)
    · rw [if_neg hlt]
      rw [UInt32.lt_iff_toNat_lt, hpow, not_lt] at hlt
      exact ⟨i, hi, rfl, hlt, hmin⟩

/-- The number of buckets is the least power of two that is not below `want`. -/
def SizedFor (t : GhtHashTableT) (want : UInt32) : Prop :=
  ∃ k ≤ 30, t.iSize.toNat = 2 ^ k ∧ want.toNat ≤ 2 ^ k ∧ (k = 0 ∨ 2 ^ (k - 1) < want.toNat)

/-- What a new table is like. -/
structure Created (t : GhtHashTableT) (want : UInt32) : Prop where
  size : SizedFor t want
  hash : t.fnHash = ghtOneAtATimeHash
  heuristics : t.iHeuristics = 0
  rehash : t.iAutomaticRehash = 0
  limit : t.bucketLimit = 0

/-- A table is created empty, its size the least power of two that is not below the size asked for. -/
theorem ghtCreate_ok {want : UInt32} (hw : want.toNat ≤ 2 ^ 30) (m : Entries) :
    ∃ t, ghtCreate want = .ok t ∧ Created t want ∧ HashRep m t (fun _ => []) [] := by
  obtain ⟨k, hk, hloop, hle, hmin⟩ := sizeLoop_ok hw (n := 32) (i := 0) (by omega) (by omega) (.inl rfl)
  have hpos : 0 < 2 ^ k := Nat.pow_pos (by decide)
  have hpow : 2 ^ k ≤ 2 ^ 30 := Nat.pow_le_pow_right (by decide) hk
  have hsize : (UInt32.ofNat (2 ^ k)).toNat = 2 ^ k :=
    UInt32.toNat_ofNat_of_lt' (by simp only [UInt32.size]; omega)
  have hmask : (UInt32.ofNat (2 ^ k - 1)).toNat = 2 ^ k - 1 :=
    UInt32.toNat_ofNat_of_lt' (by simp only [UInt32.size]; omega)
  unfold ghtCreate
  rw [show (1 : UInt32) = UInt32.ofNat (2 ^ 0) from rfl, hloop, ok_bind]
  refine ⟨_, rfl, ⟨⟨k, hk, hsize, hle, hmin⟩, rfl, rfl, rfl, rfl⟩, ?_, ?_, ?_, ?_, ?_, fun _ => .nil, ?_, .nil, rfl, rfl,
    rfl, List.nodup_nil⟩
  · exact List.length_replicate
  · exact List.length_replicate
  · simp only [Nat.add_sub_cancel, hmask, hsize]
    omega
  · intro i hi
    exact List.getElem?_replicate_of_lt hi
  · intro i hi
    exact List.getElem?_replicate_of_lt hi
  · simp

/-! ## Iteration -/

/-- Where an iteration is that has the entries `as` still to go: the iterator, the key and the data. -/
def position (m : Entries) : List Ptr → GhtIteratorT × Option (List UInt8) × Ptr
  | [] => (⟨0, 0⟩, none, 0)
  | a :: as => (⟨a, as.headD 0⟩, (m.content a).map Prod.fst, ((m.content a).map Prod.snd).getD 0)

theorem position_cons {e : GhtHashEntryT} (he : m a = some e) :
    position m (a :: as) = (⟨a, as.headD 0⟩, some e.key, e.pData) := by
  rw [position, content_of_some he]
  rfl

theorem ghtFirst_ok (h : HashRep m t chains age) : ghtFirst m t = .ok (position m age) := by
  unfold ghtFirst
  have hold := h.oldest
  have hs := h.order.seg
  have h0 := h.order.null_notMem
  cases age with
  | nil => rw [if_neg (by simpa using hold)]; rfl
  | cons a as =>
    rw [List.headD_cons] at hold
    rw [List.mem_cons, not_or] at h0
    obtain ⟨e, he, hl⟩ := exists_of_ages hs.1
    rw [hold, if_pos (Ne.symm h0.1), entry_of_some he, ok_bind, position_cons he, ← (Prod.mk.inj hl).1]
    rfl

theorem ghtNext_ok {b : Ptr} (hs : Seg m.ages b (a :: as) 0) (h0 : 0 ∉ as) (it : GhtIteratorT)
    (hit : it.pNext = as.headD 0) : ghtNext m it = .ok (position m as) := by
  unfold ghtNext
  cases as with
  | nil => rw [if_neg (by simpa using hit)]; rfl
  | cons c as =>
    rw [List.headD_cons] at hit
    rw [List.mem_cons, not_or] at h0
    obtain ⟨e, he, hl⟩ := exists_of_ages hs.2.1
    rw [hit, if_pos (Ne.symm h0.1), entry_of_some he, ok_bind, position_cons he, ← (Prod.mk.inj hl).1]
    rfl

/-- The keys and data that a loop from `ght_first` with `ght_next` sees, where its body leaves the table
alone. -/
def walkLoop (m : Entries) : Nat → GhtIteratorT × Option (List UInt8) × Ptr →
    Except HashFault (List (List UInt8 × Ptr))
  | 0, _ => .error .endless
  | fuel + 1, (it, key, p) =>
    if p = 0 then .ok []
    else do
      let next ← ghtNext m it
      let rest ← walkLoop m fuel next
      return (key.getD [], p) :: rest

/-- `for (p = ght_first(p_ht, &it, &key); p; p = ght_next(p_ht, &it, &key))` -/
def ghtWalk (m : Entries) (t : GhtHashTableT) : Except HashFault (List (List UInt8 × Ptr)) := do
  let first ← ghtFirst m t
  walkLoop m addresses first

theorem walkLoop_ok : ∀ {as : List Ptr} {b : Ptr} {fuel : Nat}, Seg m.ages b as 0 → 0 ∉ as → as.length < fuel →
    walkLoop m fuel (position m as) = .ok ((as.filterMap m.content).takeWhile (·.2 ≠ 0))
  | [], _, 0, _, _, hf => absurd hf (Nat.not_lt_zero _)
  | [], _, fuel + 1, _, _, _ => rfl
  | a :: as, _, 0, _, _, hf => absurd hf (Nat.not_lt_zero _)
  | a :: as, b, fuel + 1, hs, h0, hf => by
    rw [List.mem_cons, not_or] at h0
    obtain ⟨e, he, -⟩ := exists_of_ages hs.1
    rw [position_cons he, walkLoop, List.filterMap_cons_some (content_of_some he), List.takeWhile_cons]
    by_cases hp : e.pData = 0
    · rw [if_pos hp]
      simp [hp]
    · rw [if_neg hp, ghtNext_ok hs h0.2 _ rfl, ok_bind, walkLoop_ok hs.2 h0.2 (by simpa using hf), ok_bind]
      simp [hp]
      rfl

/-- An iteration sees the entries from the oldest on, up to the first whose data is NULL. -/
theorem ghtWalk_ok (h : HashRep m t chains age) :
    ghtWalk m t = .ok ((age.filterMap m.content).takeWhile (·.2 ≠ 0)) := by
  unfold ghtWalk
  rw [ghtFirst_ok h, ok_bind]
  exact walkLoop_ok h.order.seg h.order.null_notMem (length_lt_addresses h.order.nodup h.order.null_notMem)

/-! ## Release -/

/-- The memory without the entries `as`. -/
def freed (m : Entries) (as : List Ptr) : Entries := fun b => if b ∈ as then none else m b

theorem freeEntryChain_ok : ∀ {as : List Ptr} {b : Ptr} {m : Entries} {fuel : Nat}, Seg m.links b as 0 → as.Nodup →
    0 ∉ as → as.length < fuel → freeEntryChain fuel m (as.headD 0) = .ok (freed m as)
  | [], _, _, 0, _, _, _, hf => absurd hf (Nat.not_lt_zero _)
  | [], _, m, fuel + 1, _, _, _, _ => by
    rw [freeEntryChain, if_pos (by rfl)]
    exact congrArg _ (funext fun b => (if_neg (List.not_mem_nil (a := b))).symm)
  | a :: as, _, _, 0, _, _, _, hf => absurd hf (Nat.not_lt_zero _)
  | a :: as, b, m, fuel + 1, hs, hnd, h0, hf => by
    rw [List.mem_cons, not_or] at h0
    rw [List.nodup_cons] at hnd
    obtain ⟨e, he, hl⟩ := exists_of_links hs.1
    have hs' : Seg (links (Function.update m a none)) a as 0 := by
      rw [links_update]
      exact hs.2.update_frame hnd.1
    rw [List.headD_cons, freeEntryChain, if_neg (Ne.symm h0.1), entry_of_some he, ok_bind, heFinalize, entry_of_some he,
      ok_bind, ← (Prod.mk.inj hl).1]
    refine (freeEntryChain_ok hs' hnd.2 h0.2 (by simpa using hf)).trans (congrArg _ (funext fun c => ?_))
    unfold freed
    by_cases hc : c = a
    · subst hc
      simp
    · simp [hc]

/-- The loop over the buckets frees the entries of the buckets that it passes. -/
theorem freeBuckets_ok (h : HashRep m t chains age) : ∀ {n i : Nat} {f : Entries}, i + n ≤ t.iSize.toNat →
    (∀ b, f b = if ∃ j < i, b ∈ chains j then none else m b) →
    ∃ m'', freeBuckets t n i f = .ok m'' ∧ ∀ b, m'' b = if ∃ j < i + n, b ∈ chains j then none else m b
  | 0, i, m', _, hm => ⟨m', rfl, hm⟩
  | n + 1, i, m', hn, hm => by
    -- no entry of this bucket is freed yet
    have hstay : ∀ b ∈ chains i, m' b = m b := by
      intro b hb
      rw [hm, if_neg]
      rintro ⟨j, hj, hbj⟩
      obtain ⟨-, c, hc, hi⟩ := (h.mem i b).1 hb
      obtain ⟨-, c', hc', hj'⟩ := (h.mem j b).1 hbj
      rw [hc] at hc'
      cases hc'
      omega
    have hchain : Chain m'.links 0 (chains i) := (h.chain i).frame fun b hb => by
      unfold links
      rw [hstay b hb]
    rw [freeBuckets, GhtHashTableT.head_of_some (h.head i (by omega)), ok_bind,
      freeEntryChain_ok hchain.seg hchain.nodup hchain.null_notMem (h.chain_length i), ok_bind]
    have hnext := freeBuckets_ok (f := freed m' (chains i)) h (n := n) (i := i + 1) (by omega) (by
      intro b
      unfold freed
      rw [hm]
      by_cases hb : b ∈ chains i
      · rw [if_pos hb, if_pos ⟨i, Nat.lt_succ_self i, hb⟩]
      · rw [if_neg hb]
        refine if_congr ?_ rfl rfl
        constructor
        · rintro ⟨j, hj, hbj⟩
          exact ⟨j, by omega, hbj⟩
        · rintro ⟨j, hj, hbj⟩
          have hji : j ≠ i := by
            rintro rfl
            exact hb hbj
          exact ⟨j, by omega, hbj⟩)
    rwa [show i + 1 + n = i + (n + 1) by omega] at hnext

/-- The entries of a table are freed, each once, and no other. -/
theorem freeBuckets_all (h : HashRep m t chains age) : freeBuckets t t.iSize.toNat 0 m = .ok (freed m age) := by
  obtain ⟨m', hm, hfree⟩ := freeBuckets_ok (f := m) h (n := t.iSize.toNat) (i := 0) (by omega) (by simp)
  rw [hm]
  refine congrArg _ (funext fun b => ?_)
  rw [hfree]
  refine if_congr ?_ rfl rfl
  constructor
  · rintro ⟨j, -, hb⟩
    exact h.sub_age hb
  · intro hb
    obtain ⟨c, hc⟩ := h.content_of_mem hb
    refine ⟨t.index c.1, ?_, h.mem_chain hb hc⟩
    rw [Nat.zero_add]
    exact h.index_lt c.1

/-! ## Rehashing -/

theorem HashRep.frame (h : HashRep m t chains age) (hm : ∀ b ∈ age, m' b = m b) : HashRep m' t chains age := by
  have hl : ∀ b ∈ age, m'.links b = m.links b := fun b hb => by
    unfold links
    rw [hm b hb]
  have ha : ∀ b ∈ age, m'.ages b = m.ages b := fun b hb => by
    unfold ages
    rw [hm b hb]
  have hc : ∀ b ∈ age, m'.content b = m.content b := fun b hb => by
    unfold content
    rw [hm b hb]
  exact { h with
    chain := fun i => (h.chain i).frame fun b hb => hl b (h.sub_age hb)
    mem := fun i b => by
      rw [h.mem i b]
      exact and_congr_right fun hb => by rw [hc b hb]
    order := h.order.frame ha
    keys := (List.filterMap_congr hc : age.filterMap m'.content = age.filterMap m.content) ▸ h.keys }

/-- The addresses that `fn_alloc` returns: none of them is in use, and no two are the same. -/
structure Fresh (m : Entries) (mallocs : List Ptr) : Prop where
  free : ∀ a ∈ mallocs, a ≠ 0 → m a = none
  nodup : mallocs.Pairwise fun a b => a = b → a = 0

theorem Fresh.head {a : Ptr} {mallocs : List Ptr} (h : Fresh m (a :: mallocs)) (h0 : a ≠ 0) : m a = none :=
  h.free a (List.mem_cons_self ..) h0

theorem Fresh.tail {a : Ptr} {mallocs : List Ptr} (h : Fresh m (a :: mallocs)) (hm : ∀ b, b ≠ a → m b = none → m' b = none) :
    Fresh m' mallocs := by
  have hp := List.pairwise_cons.1 h.nodup
  refine ⟨fun b hb h0 => hm b ?_ (h.free b (List.mem_cons_of_mem _ hb) h0), hp.2⟩
  rintro rfl
  exact h0 (hp.1 b hb rfl)

/-- What a rehash keeps of the entries: nothing from the first NULL data on, and nothing for which
`fn_alloc` fails. -/
def survivors : List (List UInt8 × Ptr) → List Ptr → List (List UInt8 × Ptr)
  | [], _ => []
  | c :: cs, mallocs =>
    if c.2 = 0 then []
    else if mallocs.headD 0 = 0 then survivors cs mallocs.tail
    else c :: survivors cs mallocs.tail

/-- Nothing is lost where no data is NULL and `fn_alloc` does not fail. -/
theorem survivors_eq : ∀ {cs : List (List UInt8 × Ptr)} {mallocs : List Ptr}, (∀ c ∈ cs, c.2 ≠ 0) → 0 ∉ mallocs →
    cs.length ≤ mallocs.length → survivors cs mallocs = cs
  | [], _, _, _, _ => rfl
  | c :: cs, [], _, _, hlen => absurd hlen (by simp)
  | c :: cs, a :: mallocs, hcs, h0, hlen => by
    rw [List.forall_mem_cons] at hcs
    rw [List.mem_cons, not_or] at h0
    rw [survivors, if_neg hcs.1, List.headD_cons, if_neg (Ne.symm h0.1), List.tail_cons,
      survivors_eq hcs.2 h0.2 (by simpa using hlen)]

theorem survivors_sublist : ∀ (cs : List (List UInt8 × Ptr)) (mallocs : List Ptr), List.Sublist (survivors cs mallocs) cs
  | [], _ => .slnil
  | c :: cs, mallocs => by
    rw [survivors]
    split
    · exact List.nil_sublist _
    · split
      · exact (survivors_sublist cs _).cons c
      · exact (survivors_sublist cs _).cons_cons c

/-- What the insertion of an entry does to a table that does not rehash and has no limit. -/
structure Grows (m m' : Entries) (t t' : GhtHashTableT) (chains' : Nat → List Ptr) (age : List Ptr) (p : Ptr)
    (key : List UInt8) (d : Ptr) : Prop where
  rep : HashRep m' t' chains' (age ++ [p])
  setup : SameSetup t t'
  content : m'.content = Function.update m.content p (some (key, d))
  frame : ∀ b ∉ age ++ [p], m' b = m b

theorem made_of_alloc (hp : m p = none) (h0 : p ≠ 0) (h : HashRep m t chains age) (key : List UInt8) (d : Ptr) :
    p ∉ age ∧ HashRep (Function.update m p (some ⟨d, 0, 0, 0, 0, key⟩)) t chains age ∧
      Made (Function.update m p (some ⟨d, 0, 0, 0, 0, key⟩)) age p key d := by
  have hpage : p ∉ age := fun hmem => h.allocated hmem hp
  refine ⟨hpage, h.frame fun b hb => ?_, Function.update_self .., h0, hpage⟩
  exact Function.update_of_ne (by rintro rfl; exact hpage hb) ..

theorem not_hasKey_update (hp : p ∉ age) (hnew : ∀ b ∈ age, ¬HasKey m key b) (e : Option GhtHashEntryT) :
    ∀ b ∈ age, ¬HasKey (Function.update m p e) key b := by
  rintro b hb ⟨d, hd⟩
  rw [content_update, Function.update_of_ne (by rintro rfl; exact hp hb)] at hd
  exact hnew b hb ⟨d, hd⟩

theorem insertTmp_ok (h : HashRep m t chains age) (hrehash : t.iAutomaticRehash = 0) (hlim : t.bucketLimit = 0)
    (hnew : ∀ b ∈ age, ¬HasKey m key b) (hp : m p = none) (h0 : p ≠ 0) (d : Ptr) :
    ∃ m' t' chains', insertTmp m t d key p = .ok (m', t', 0, none) ∧ Grows m m' t t' chains' age p key d := by
  obtain ⟨hpage, hrep, hmade⟩ := made_of_alloc hp h0 h key d
  obtain ⟨m', t', chains', hplace, hrep', hsame, hcont, hframe⟩ :=
    hrep.place_count hmade (not_hasKey_update hpage hnew _) fun hfull => hfull.1 hlim
  refine ⟨m', t', chains', ?_, hrep', hsame, ?_, ?_⟩
  · unfold insertTmp insertWith
    rw [h.search_missing hnew, ok_bind]
    simp only
    rw [if_neg (by simp), if_neg h0, if_neg (by rw [hrehash]; simp), ok_bind]
    simp only
    rw [hplace, ok_bind]
    rfl
  · rw [hcont, content_update]
    rfl
  · intro b hb
    rw [hframe b hb, Function.update_of_ne]
    rintro rfl
    exact hb (by simp)

theorem insertTmp_nomem (h : HashRep m t chains age) (hnew : ∀ b ∈ age, ¬HasKey m key b) (d : Ptr) :
    insertTmp m t d key 0 = .ok (m, t, -2, none) := by
  unfold insertTmp insertWith
  rw [h.search_missing hnew, ok_bind]
  rfl

/-- The walk of a rehash over the entries `ys` that are still to go, when the new table has `nage`. -/
theorem rehashLoop_ok : ∀ {ys : List Ptr} {m : Entries} {tmp : GhtHashTableT} {chains : Nat → List Ptr}
    {nage : List Ptr} {b : Ptr} {mallocs : List Ptr} {fuel : Nat}, Seg m.ages b ys 0 → 0 ∉ ys →
    HashRep m tmp chains nage → tmp.iAutomaticRehash = 0 → tmp.bucketLimit = 0 → (∀ a ∈ ys, a ∉ nage) →
    (((nage ++ ys).filterMap m.content).map Prod.fst).Nodup → Fresh m mallocs → ys.length < fuel →
    ∃ m' tmp' chains' nage', rehashLoop fuel m tmp (position m ys).1 (position m ys).2.2 mallocs = .ok (m', tmp') ∧
      HashRep m' tmp' chains' (nage ++ nage') ∧ SameSetup tmp tmp' ∧
      (nage ++ nage').filterMap m'.content = nage.filterMap m.content ++ survivors (ys.filterMap m.content) mallocs ∧
      (∀ q ∈ nage', q ∈ mallocs ∧ m q = none) ∧ ∀ q ∉ nage ++ nage', m' q = m q
  | [], m, tmp, chains, nage, _, mallocs, 0, _, _, _, _, _, _, _, _, hf => absurd hf (Nat.not_lt_zero _)
  | [], m, tmp, chains, nage, _, mallocs, fuel + 1, _, _, h, _, _, _, _, _, _ =>
    ⟨m, tmp, chains, [], rfl, by simpa using h, .refl tmp, by simp [survivors], by simp, fun _ _ => rfl⟩
  | a :: ys, _, _, _, _, _, _, 0, _, _, _, _, _, _, _, _, hf => absurd hf (Nat.not_lt_zero _)
  | a :: ys, m, tmp, chains, nage, b, mallocs, fuel + 1, hs, h0, h, hre, hlim, hdisj, hkeys, hfresh, hf => by
    rw [List.mem_cons, not_or] at h0
    rw [List.forall_mem_cons] at hdisj
    obtain ⟨e, he, hl⟩ := exists_of_ages hs.1
    have hc := content_of_some he
    rw [position_cons he, List.filterMap_cons_some hc]
    by_cases hp : e.pData = 0
    · -- the walk ends at data that is NULL
      refine ⟨m, tmp, chains, [], ?_, by simpa using h, .refl tmp, ?_, by simp, fun _ _ => rfl⟩
      · rw [rehashLoop, if_pos (by exact hp)]
      · rw [survivors, if_pos (by exact hp)]
        simp
    -- the keys of the table are different, so this one is not in the new table yet
    have hnew : ∀ c ∈ nage, ¬HasKey m e.key c := by
      rintro c hcm ⟨d, hd⟩
      rw [List.filterMap_append, List.filterMap_cons_some hc, List.map_append, List.map_cons, List.nodup_middle,
        List.nodup_cons, ← List.map_append] at hkeys
      exact hkeys.1 (List.mem_map.2 ⟨(e.key, d), List.mem_append_left _ (List.mem_filterMap.2 ⟨c, hcm, hd⟩), rfl⟩)
    by_cases hq : mallocs.headD 0 = 0
    · -- no memory for the entry
      have hfresh' : Fresh m mallocs.tail := by
        cases mallocs with
        | nil => exact hfresh
        | cons q qs => exact hfresh.tail fun _ _ hb => hb
      have hkeys' : (((nage ++ ys).filterMap m.content).map Prod.fst).Nodup :=
        hkeys.sublist ((((List.sublist_cons_self a ys).append_left nage).filterMap _).map _)
      obtain ⟨m', tmp', chains', nage', hloop, hrest⟩ :=
        rehashLoop_ok hs.2 h0.2 h hre hlim hdisj.2 hkeys' hfresh' (by simpa using hf : ys.length < fuel)
      refine ⟨m', tmp', chains', nage', ?_, ?_⟩
      · rw [rehashLoop, if_neg (by exact hp)]
        simp only
        rw [entry_of_some he, ok_bind, hq, insertTmp_nomem h hnew, ok_bind]
        simp only
        rw [ghtNext_ok hs h0.2 _ rfl, ok_bind]
        exact hloop
      · rw [survivors, if_neg (by exact hp), if_pos hq]
        exact ⟨hrest.1, hrest.2.1, hrest.2.2.1, fun c hc => ⟨List.mem_of_mem_tail (hrest.2.2.2.1 c hc).1,
          (hrest.2.2.2.1 c hc).2⟩, hrest.2.2.2.2⟩
    · obtain ⟨q, qs, rfl⟩ : ∃ q qs, mallocs = q :: qs := by
        cases mallocs with
        | nil => exact absurd rfl hq
        | cons q qs => exact ⟨q, qs, rfl⟩
      rw [List.headD_cons] at hq
      have hqfree := hfresh.head hq
      obtain ⟨m₁, tmp₁, chains₁, hins, hg⟩ := insertTmp_ok h hre hlim hnew hqfree hq e.pData
      -- the old entries stay
      have hstay : ∀ c ∈ a :: ys, m₁ c = m c := by
        intro c hcm
        refine hg.frame c ?_
        rw [List.mem_append, List.mem_singleton, not_or]
        refine ⟨(List.forall_mem_cons (p := fun c => c ∉ nage)).2 hdisj c hcm, ?_⟩
        rintro rfl
        exact allocated_of_seg hs hcm hqfree
      -- so the walk goes on where it was
      have hs₁ : Seg m₁.ages b (a :: ys) 0 := hs.frame fun c hcm => by
        unfold ages
        rw [hstay c hcm]
      have hcont : ∀ c ∈ nage ++ ys, m₁.content c = m.content c := by
        intro c hcm
        rw [hg.content, Function.update_of_ne]
        rintro rfl
        rw [List.mem_append] at hcm
        rcases hcm with hcm | hcm
        · exact h.allocated hcm hqfree
        · exact allocated_of_seg hs.2 hcm hqfree
      have hcq : m₁.content q = some (e.key, e.pData) := by
        rw [hg.content, Function.update_self]
      have hold : nage.filterMap m₁.content = nage.filterMap m.content :=
        List.filterMap_congr fun c hcm => hcont c (List.mem_append_left _ hcm)
      have hrest : ys.filterMap m₁.content = ys.filterMap m.content :=
        List.filterMap_congr fun c hcm => hcont c (List.mem_append_right _ hcm)
      -- the keys are the same, with the new entry in the place of the old one
      have hkeys₁ : (((nage ++ [q] ++ ys).filterMap m₁.content).map Prod.fst).Nodup := by
        rw [List.append_assoc, List.singleton_append, List.filterMap_append, List.filterMap_cons_some hcq, hold, hrest,
          ← List.filterMap_cons_some hc, ← List.filterMap_append]
        exact hkeys
      obtain ⟨m', tmp', chains', nage', hloop, hrep, hsame, hcontent, hnage, hframe⟩ :=
        rehashLoop_ok hs₁.2 h0.2 hg.rep (hg.setup.rehash.trans hre) (hg.setup.limit.trans hlim) (by
            intro c hcm hmem
            rw [List.mem_append, List.mem_singleton] at hmem
            rcases hmem with hmem | rfl
            · exact hdisj.2 c hcm hmem
            · exact allocated_of_seg hs.2 hcm hqfree)
          hkeys₁ (hfresh.tail fun c hcq hcn => by
            have hcm : c ∉ nage := fun hcm => h.allocated hcm hcn
            rw [hg.frame c (by simp [hcm, hcq]), hcn])
          (by simpa using hf : ys.length < fuel)
      refine ⟨m', tmp', chains', q :: nage', ?_, ?_, hg.setup.trans hsame, ?_, ?_, ?_⟩
      · rw [rehashLoop, if_neg (by exact hp)]
        simp only
        rw [entry_of_some he, ok_bind, List.headD_cons, hins, ok_bind]
        simp only
        rw [ghtNext_ok hs₁ h0.2 _ rfl, ok_bind]
        exact hloop
      · simpa using hrep
      · rw [List.append_assoc, List.singleton_append] at hcontent
        rw [hcontent, List.filterMap_append, List.filterMap_cons_some hcq, hold, hrest, survivors, if_neg (by exact hp),
          List.headD_cons, if_neg hq]
        simp
      · rw [List.forall_mem_cons]
        refine ⟨⟨List.mem_cons_self .., hqfree⟩, fun c hcm => ?_⟩
        obtain ⟨hcqs, hc₁⟩ := hnage c hcm
        refine ⟨List.mem_cons_of_mem _ hcqs, ?_⟩
        by_cases hcq : c = q
        · rw [hcq]
          exact hqfree
        · have hcn : c ∉ nage := fun hcn => hg.rep.allocated (List.mem_append_left [q] hcn) hc₁
          rw [← hg.frame c (by simp [hcn, hcq]), hc₁]
      · intro c hcm
        rw [hframe c (by simpa using hcm), hg.frame c]
        intro hmem
        apply hcm
        rw [List.mem_append, List.mem_singleton] at hmem
        rw [List.mem_append, List.mem_cons]
        exact hmem.imp_right .inl

/-- How the memory of a table changes: what it gets is what `fn_alloc` returned and was free, what it loses is
freed, and no other entry is touched. -/
structure Evolves (m m' : Entries) (age age' mallocs : List Ptr) : Prop where
  fresh : ∀ q ∈ age', q ∈ age ∨ q ∈ mallocs ∧ m q = none
  freed : ∀ q ∈ age, q ∉ age' → m' q = none
  frame : ∀ q, q ∉ age → q ∉ age' → m' q = m q

theorem Evolves.of_same {mallocs : List Ptr} (h : ∀ q ∉ age, m' q = m q) : Evolves m m' age age mallocs :=
  ⟨fun _ hq => .inl hq, fun _ hq hn => absurd hq hn, fun q hq _ => h q hq⟩

/-- The same way of working, whatever the number of buckets. -/
structure SameWays (t t' : GhtHashTableT) : Prop where
  hash : t'.fnHash = t.fnHash
  free : t'.fnBucketFree = t.fnBucketFree
  heuristics : t'.iHeuristics = t.iHeuristics
  rehash : t'.iAutomaticRehash = t.iAutomaticRehash
  limit : t'.bucketLimit = t.bucketLimit

theorem SameSetup.ways (h : SameSetup t t') : SameWays t t' := ⟨h.hash, h.free, h.heuristics, h.rehash, h.limit⟩

theorem SameWays.trans {t'' : GhtHashTableT} (h : SameWays t t') (h' : SameWays t' t'') : SameWays t t'' :=
  ⟨h'.hash.trans h.hash, h'.free.trans h.free, h'.heuristics.trans h.heuristics, h'.rehash.trans h.rehash,
    h'.limit.trans h.limit⟩

/-- A rehash keeps the entries that `survivors` says, in their order, in new memory; what the table had
before is freed. -/
theorem ghtRehash_ok (h : HashRep m t chains age) {want : UInt32} (hw : want.toNat ≤ 2 ^ 30) {mallocs : List Ptr}
    (hfresh : Fresh m mallocs) :
    ∃ m' t' chains' age', ghtRehash mallocs m t want = .ok (m', t') ∧ HashRep m' t' chains' age' ∧
      age'.filterMap m'.content = survivors (age.filterMap m.content) mallocs ∧ SameWays t t' ∧ SizedFor t' want ∧
      (∀ q ∈ age', m q = none) ∧ Evolves m m' age age' mallocs := by
  obtain ⟨tmp, hcreate, hcreated, htmp⟩ := ghtCreate_ok hw m
  have htmp₁ : HashRep m { tmp with fnHash := t.fnHash, iHeuristics := 0, iAutomaticRehash := 0 } (fun _ => []) [] :=
    { htmp with mem := by simp }
  obtain ⟨m₁, tmp₁, chains₁, nage, hloop, hrep, hsame, hcontent, hnage, hframe⟩ :=
    rehashLoop_ok h.order.seg h.order.null_notMem htmp₁ rfl hcreated.limit (by simp) h.keys hfresh
      (length_lt_addresses h.order.nodup h.order.null_notMem)
  rw [List.nil_append] at hrep hframe
  have hkept : nage.filterMap m₁.content = survivors (age.filterMap m.content) mallocs := hcontent
  -- the old entries are still there, and are freed now
  have hold : HashRep m₁ t chains age :=
    h.frame fun b hb => hframe b fun hmem => h.allocated hb (hnage b hmem).2
  have hdisj : ∀ b ∈ nage, b ∉ age := fun b hb hmem => h.allocated hmem (hnage b hb).2
  have hnew : HashRep (freed m₁ age) tmp₁ chains₁ nage := hrep.frame fun b hb => if_neg (hdisj b hb)
  refine ⟨freed m₁ age, t.replacedBy tmp₁, chains₁, nage, ?_, ?_, ?_, ⟨rfl, rfl, rfl, rfl, rfl⟩, ?_,
    fun q hq => (hnage q hq).2, ?_, ?_, ?_⟩
  rotate_left 4
  · exact fun q hq => .inr (hnage q hq)
  · intro q hq _
    exact if_pos hq
  · intro q hq hqn
    exact (if_neg hq).trans (hframe q hqn)
  · unfold ghtRehash
    rw [hcreate, ok_bind, ghtFirst_ok h, ok_bind]
    simp only
    rw [hloop, ok_bind]
    simp only
    rw [freeBuckets_all hold, ok_bind]
    rfl
  · refine { hnew with mem := fun i a => ?_ }
    rw [hnew.mem i a]
    unfold GhtHashTableT.index
    rw [hsame.hash]
    rfl
  · rw [← hkept]
    exact List.filterMap_congr fun b hb => by
      unfold content freed
      rw [if_neg (hdisj b hb)]
  · obtain ⟨k, hk, hsize, hrest⟩ := hcreated.size
    exact ⟨k, hk, (congrArg _ hsame.size).trans hsize, hrest⟩

/-! ## Insertion -/

/-- An insertion into the table rehashes it first. -/
def Rehashes (t : GhtHashTableT) : Prop := t.iAutomaticRehash ≠ 0 ∧ t.iItems > 2 * t.iSize

instance (t : GhtHashTableT) : Decidable (Rehashes t) := inferInstanceAs (Decidable (_ ∧ _))

theorem insert_duplicate (h : HashRep m t chains age) (ha : a ∈ age) (hkey : HasKey m key a) (d malloc : Ptr)
    (mallocs : List Ptr) : ghtInsert m t d key malloc mallocs = .ok (m, t, -1, none) := by
  unfold ghtInsert insertWith
  rw [h.search_plain ha hkey, ok_bind]
  simp only
  rw [if_pos (by rintro rfl; exact h.order.null_notMem ha)]
  rfl

theorem insert_nomem (h : HashRep m t chains age) (hnew : ∀ b ∈ age, ¬HasKey m key b) (d : Ptr) (mallocs : List Ptr) :
    ghtInsert m t d key 0 mallocs = .ok (m, t, -2, none) := by
  unfold ghtInsert insertWith
  rw [h.search_missing hnew, ok_bind]
  rfl

/-- Why the table has the number of buckets that it has after an insertion. -/
def SizedFrom (t t' : GhtHashTableT) : Prop :=
  if Rehashes t then ∃ k ≤ 30, t'.iSize.toNat = 2 ^ k else t'.iSize = t.iSize

/-- The insertion of a new key into a table without a limit: its entry comes last, behind what a rehash
keeps where there is one. -/
theorem insert_new (h : HashRep m t chains age) (hlim : t.bucketLimit = 0) (hnew : ∀ b ∈ age, ¬HasKey m key b)
    (h0 : p ≠ 0) (d : Ptr) {mallocs : List Ptr} (hfresh : Fresh m (p :: mallocs))
    (hroom : Rehashes t → (2 * t.iSize).toNat ≤ 2 ^ 30) :
    ∃ m' t' chains' age', ghtInsert m t d key p mallocs = .ok (m', t', 0, none) ∧ HashRep m' t' chains' age' ∧
      age'.filterMap m'.content = (if Rehashes t then survivors (age.filterMap m.content) mallocs
        else age.filterMap m.content) ++ [(key, d)] ∧ SameWays t t' ∧ SizedFrom t t' ∧
        Evolves m m' age age' (p :: mallocs) := by
  have hp := hfresh.head h0
  obtain ⟨hpage, hrep, hmade⟩ := made_of_alloc hp h0 h key d
  -- the entry is allocated before the rehash, which does not see it
  have hcont : age.filterMap (content (Function.update m p (some ⟨d, 0, 0, 0, 0, key⟩))) = age.filterMap m.content :=
    List.filterMap_congr fun b hb => by
      rw [content_update, Function.update_of_ne (by rintro rfl; exact hpage hb)]
  have hnew₁ := not_hasKey_update hpage hnew (some ⟨d, 0, 0, 0, 0, key⟩)
  unfold ghtInsert insertWith
  rw [h.search_missing hnew, ok_bind]
  simp only
  rw [if_neg (by simp), if_neg h0]
  by_cases hre : Rehashes t
  · rw [if_pos hre, if_pos (by exact hre)]
    obtain ⟨m₁, t₁, chains₁, nage, hrehash, hrep₁, hcontent₁, hways, hsize, hnage, hev⟩ :=
      ghtRehash_ok hrep (hroom hre) (hfresh.tail fun b hb hn => (Function.update_of_ne hb ..).trans hn)
    rw [hcont] at hcontent₁
    have hpn : p ∉ nage := fun hmem => by
      have := hnage p hmem
      rw [Function.update_self] at this
      cases this
    -- nor does it free it
    have hmade₁ : Made m₁ nage p key d := ⟨(hev.frame p hpage hpn).trans hmade.entry, h0, hpn⟩
    -- the keys that are left are keys from before
    have hnew₂ : ∀ b ∈ nage, ¬HasKey m₁ key b := by
      rintro b hb ⟨v, hv⟩
      have hmem : (key, v) ∈ survivors (age.filterMap m.content) mallocs := by
        rw [← hcontent₁]
        exact List.mem_filterMap.2 ⟨b, hb, hv⟩
      obtain ⟨c, hcm, hc⟩ := List.mem_filterMap.1 ((survivors_sublist _ _).subset hmem)
      exact hnew c hcm ⟨v, hc⟩
    obtain ⟨m', t', chains', hplace, hrep', hsame', hcont', hframe'⟩ :=
      hrep₁.place_count hmade₁ hnew₂ fun hfull => hfull.1 (hways.limit.trans hlim)
    refine ⟨m', t', chains', nage ++ [p], ?_, hrep', ?_, hways.trans hsame'.ways, ?_, ?_, ?_, ?_⟩
    · rw [hrehash, ok_bind]
      simp only
      rw [hplace, ok_bind]
      rfl
    · rw [hcont', List.filterMap_append, hcontent₁, List.filterMap_cons_some hmade₁.content]
      rfl
    · obtain ⟨k, hk, hs, -⟩ := hsize
      rw [SizedFrom, if_pos hre]
      exact ⟨k, hk, (congrArg _ hsame'.size).trans hs⟩
    · intro q hq
      rw [List.mem_append, List.mem_singleton] at hq
      rcases hq with hq | rfl
      · have hqn := hnage q hq
        rw [Function.update_of_ne (by rintro rfl; exact hpn hq)] at hqn
        rcases hev.fresh q hq with hage | hnew'
        · exact .inl hage
        · exact .inr ⟨List.mem_cons_of_mem _ hnew'.1, hqn⟩
      · exact .inr ⟨List.mem_cons_self .., hp⟩
    · intro q hq hqn
      rw [hframe' q hqn]
      exact hev.freed q hq fun hmem => hqn (List.mem_append_left _ hmem)
    · intro q hq hqn
      rw [List.mem_append, List.mem_singleton, not_or] at hqn
      rw [hframe' q (by simp [hqn]), hev.frame q hq hqn.1, Function.update_of_ne hqn.2]
  · rw [if_neg hre, if_neg (by exact hre), ok_bind]
    simp only
    obtain ⟨m', t', chains', hplace, hrep', hsame', hcont', hframe'⟩ :=
      hrep.place_count hmade hnew₁ fun hfull => hfull.1 hlim
    refine ⟨m', t', chains', age ++ [p], ?_, hrep', ?_, hsame'.ways, (if_neg hre).mpr hsame'.size, ?_, ?_, ?_⟩
    · rw [hplace, ok_bind]
      rfl
    · rw [hcont', List.filterMap_append, hcont, List.filterMap_cons_some hmade.content]
      rfl
    · intro q hq
      rw [List.mem_append, List.mem_singleton] at hq
      rcases hq with hq | rfl
      · exact .inl hq
      · exact .inr ⟨List.mem_cons_self .., hp⟩
    · intro q hq hqn
      exact absurd (List.mem_append_left _ hq) hqn
    · intro q hq hqn
      rw [hframe' q hqn, Function.update_of_ne]
      rintro rfl
      exact hqn (by simp)

end

end PubsubBroker

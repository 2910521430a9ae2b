/-
The representation of a hash table: every bucket holds the chain of the entries whose keys the hash
function sends there, every entry is once in the order of insertion, and no key is there twice. Each
function of `common/ght_hash_table.c` keeps it and is, on the keys and data in order of insertion, an
operation on a finite map.
-/
import PubsubBroker.Lib.Table
import PubsubBroker.Common.GhtLinks

namespace PubsubBroker

open DLinked Entries

/-- The entries of the table `t` are the ones at `age`, oldest first, and `chains i` are the ones in the
bucket `i`. -/
structure HashRep (m : Entries) (t : GhtHashTableT) (chains : Nat → List Ptr) (age : List Ptr) : Prop where
  buckets : t.ppEntries.length = t.iSize.toNat
  counts : t.pNr.length = t.iSize.toNat
  mask : t.iSizeMask.toNat < t.iSize.toNat
  head : ∀ i < t.iSize.toNat, t.ppEntries[i]? = some ((chains i).headD 0)
  nr : ∀ i < t.iSize.toNat, t.pNr[i]? = some ((chains i).length : Int)
  chain : ∀ i, Chain m.links 0 (chains i)
  mem : ∀ i a, a ∈ chains i ↔ a ∈ age ∧ ∃ c, m.content a = some c ∧ t.index c.1 = i
  order : Chain m.ages 0 age
  oldest : t.pOldest = age.headD 0
  newest : t.pNewest = age.getLastD 0
  items : t.iItems = UInt32.ofNat age.length
  keys : ((age.filterMap m.content).map Prod.fst).Nodup

/-- The fields that say how a table works are the same. -/
structure SameSetup (t t' : GhtHashTableT) : Prop where
  size : t'.iSize = t.iSize
  mask : t'.iSizeMask = t.iSizeMask
  hash : t'.fnHash = t.fnHash
  free : t'.fnBucketFree = t.fnBucketFree
  heuristics : t'.iHeuristics = t.iHeuristics
  rehash : t'.iAutomaticRehash = t.iAutomaticRehash
  limit : t'.bucketLimit = t.bucketLimit

section
variable {m m' : Entries} {t t' : GhtHashTableT} {chains : Nat → List Ptr} {age age' as' : List Ptr} {i : Nat}
  {key : List UInt8} {a p d : Ptr}

theorem SameSetup.refl (t : GhtHashTableT) : SameSetup t t := ⟨rfl, rfl, rfl, rfl, rfl, rfl, rfl⟩

theorem SameSetup.index (h : SameSetup t t') (key : List UInt8) : t'.index key = t.index key := by
  unfold GhtHashTableT.index
  rw [h.hash, h.mask]

theorem SameSetup.trans {t'' : GhtHashTableT} (h : SameSetup t t') (h' : SameSetup t' t'') : SameSetup t t'' :=
  ⟨h'.size.trans h.size, h'.mask.trans h.mask, h'.hash.trans h.hash, h'.free.trans h.free,
    h'.heuristics.trans h.heuristics, h'.rehash.trans h.rehash, h'.limit.trans h.limit⟩

namespace HashRep

theorem index_lt (h : HashRep m t chains age) (key : List UInt8) : t.index key < t.iSize.toNat := by
  refine lt_of_le_of_lt ?_ h.mask
  rw [GhtHashTableT.index, UInt32.toNat_and]
  exact Nat.and_le_right

theorem content_of_mem (h : HashRep m t chains age) (ha : a ∈ age) : ∃ c, m.content a = some c := by
  obtain ⟨l, hl⟩ := h.order.seg.isSome ha
  obtain ⟨e, he, -⟩ := exists_of_ages hl
  exact ⟨_, content_of_some he⟩

theorem allocated (h : HashRep m t chains age) (ha : a ∈ age) : m a ≠ none := by
  obtain ⟨c, hc⟩ := h.content_of_mem ha
  obtain ⟨e, he, -⟩ := exists_of_content hc
  rw [he]
  exact Option.some_ne_none e

theorem sub_age (h : HashRep m t chains age) (ha : a ∈ chains i) : a ∈ age := ((h.mem i a).1 ha).1

theorem mem_chain (h : HashRep m t chains age) {c : List UInt8 × Ptr} (ha : a ∈ age) (hc : m.content a = some c) :
    a ∈ chains (t.index c.1) :=
  (h.mem _ _).2 ⟨ha, c, hc, rfl⟩

/-- What changes in one bucket and in the order of insertion keeps the representation, when the other
buckets stay. -/
theorem build (h : HashRep m t chains age) (hi : i < t.iSize.toNat) (hsame : SameSetup t t')
    (hheads : t'.ppEntries = t.ppEntries.set i (as'.headD 0)) (hnrs : t'.pNr = t.pNr.set i as'.length)
    (hold : t'.pOldest = age'.headD 0) (hnew : t'.pNewest = age'.getLastD 0)
    (hitems : t'.iItems = UInt32.ofNat age'.length) (hchain : Chain m'.links 0 as') (horder : Chain m'.ages 0 age')
    (hframe : ∀ a ∈ age, a ∉ chains i → m'.links a = m.links a) (hcontent : ∀ a ∈ age', m'.content a = m.content a)
    (hmem : ∀ a, a ∈ as' ↔ a ∈ age' ∧ ∃ c, m.content a = some c ∧ t.index c.1 = i)
    (hother : ∀ a c, m.content a = some c → t.index c.1 ≠ i → (a ∈ age' ↔ a ∈ age))
    (hkeys : ((age'.filterMap m.content).map Prod.fst).Nodup) :
    HashRep m' t' (Function.update chains i as') age' := by
  have hc : age'.filterMap m'.content = age'.filterMap m.content := List.filterMap_congr hcontent
  refine ⟨?_, ?_, ?_, ?_, ?_, ?_, ?_, horder, hold, hnew, hitems, hc ▸ hkeys⟩
  · rw [hheads, List.length_set, h.buckets, hsame.size]
  · rw [hnrs, List.length_set, h.counts, hsame.size]
  · rw [hsame.mask, hsame.size]
    exact h.mask
  · intro j hj
    rw [hsame.size] at hj
    rw [hheads, List.getElem?_set]
    split
    · rename_i hij
      rw [if_pos (h.buckets ▸ hi), hij, Function.update_self]
    · rename_i hij
      rw [Function.update_of_ne (Ne.symm hij)]
      exact h.head j hj
  · intro j hj
    rw [hsame.size] at hj
    rw [hnrs, List.getElem?_set]
    split
    · rename_i hij
      rw [if_pos (h.counts ▸ hi), hij, Function.update_self]
    · rename_i hij
      rw [Function.update_of_ne (Ne.symm hij)]
      exact h.nr j hj
  · intro j
    by_cases hij : j = i
    · subst hij
      rw [Function.update_self]
      exact hchain
    · rw [Function.update_of_ne hij]
      refine (h.chain j).frame fun a ha => hframe a (h.sub_age ha) fun hai => ?_
      -- no entry is in two buckets
      obtain ⟨-, c, hc, hj⟩ := (h.mem j a).1 ha
      obtain ⟨-, c', hc', hi'⟩ := (h.mem i a).1 hai
      rw [hc] at hc'
      cases hc'
      exact hij (hj.symm.trans hi')
  · intro j a
    -- an entry keeps its key, and so its bucket
    have hread : a ∈ age' → ((∃ c, m'.content a = some c ∧ t'.index c.1 = j) ↔
        ∃ c, m.content a = some c ∧ t.index c.1 = j) := by
      intro ha
      simp only [hcontent a ha, hsame.index]
    rw [and_congr_right hread]
    by_cases hij : j = i
    · subst hij
      rw [Function.update_self]
      exact hmem a
    · rw [Function.update_of_ne hij, h.mem j a]
      constructor
      · rintro ⟨ha, c, hc, hj⟩
        exact ⟨(hother a c hc (hj ▸ hij)).2 ha, c, hc, hj⟩
      · rintro ⟨ha, c, hc, hj⟩
        exact ⟨(hother a c hc (hj ▸ hij)).1 ha, c, hc, hj⟩

/-- The entries of the chain moved within it. -/
theorem of_perm (h : HashRep m t chains age) (hi : i < t.iSize.toNat) (hp : as'.Perm (chains i))
    (hr : Relinks m m' (chains i) as' age age) :
    HashRep m' (t.withChain i as') (Function.update chains i as') age := by
  refine h.build hi ⟨rfl, rfl, rfl, rfl, rfl, rfl, rfl⟩ rfl ?_ h.oldest h.newest h.items hr.chain hr.age
    (fun a _ ha => hr.links_frame a ha) (fun a _ => congrFun hr.content a) ?_ (fun _ _ _ _ => Iff.rfl) h.keys
  · exact (GhtHashTableT.set_of_getElem? (hp.length_eq ▸ h.nr i hi)).symm
  · intro a
    rw [hp.mem_iff]
    exact h.mem i a

end HashRep

/-! ## Search -/

/-- The entry at `a` has the key. -/
def HasKey (m : Entries) (key : List UInt8) (a : Ptr) : Prop := ∃ d, m.content a = some (key, d)

instance (m : Entries) (key : List UInt8) (a : Ptr) : Decidable (HasKey m key a) :=
  decidable_of_iff ((m.content a).map Prod.fst = some key) (by
    unfold HasKey
    rw [Option.map_eq_some_iff]
    constructor
    · rintro ⟨⟨k, d⟩, hc, rfl⟩
      exact ⟨d, hc⟩
    · rintro ⟨d, hc⟩
      exact ⟨_, hc, rfl⟩)

theorem searchLoop_ok (key : List UInt8) : ∀ {as : List Ptr} {b p : Ptr} {fuel : Nat}, Seg m.links b as 0 → 0 ∉ as →
    p = as.headD 0 → as.length < fuel →
    searchLoop m key fuel p = .ok ((as.find? fun a => decide (HasKey m key a)).getD 0)
  | [], b, p, fuel, _, _, hp, hf => by
    obtain ⟨n, rfl⟩ := Nat.exists_eq_add_of_lt hf
    rw [hp, searchLoop, if_pos (by rfl)]
    rfl
  | a :: as, b, p, 0, _, _, _, hf => absurd hf (Nat.not_lt_zero _)
  | a :: as, b, p, fuel + 1, hs, h0, hp, hf => by
    rw [List.mem_cons, not_or] at h0
    rw [List.headD_cons] at hp
    subst hp
    obtain ⟨e, he, hl⟩ := exists_of_links hs.1
    rw [searchLoop, if_neg (Ne.symm h0.1), entry_of_some he, ok_bind, List.find?_cons]
    have hkey : HasKey m key p ↔ e.key = key := by
      unfold HasKey
      rw [content_of_some he]
      simp
    by_cases hk : e.key = key
    · rw [if_pos hk]
      simp [hkey, hk]
    · rw [if_neg hk, searchLoop_ok key hs.2 h0.2 (Prod.mk.inj hl).1.symm (by simpa using hf)]
      simp [hkey, hk]

namespace HashRep

theorem chain_length (h : HashRep m t chains age) (i : Nat) : (chains i).length < addresses :=
  length_lt_addresses (h.chain i).nodup (h.chain i).null_notMem

/-- The keys of the entries determine them. -/
theorem eq_of_key (h : HashRep m t chains age) {a b : Ptr} (ha : a ∈ age) (hb : b ∈ age) (hka : HasKey m key a)
    (hkb : HasKey m key b) : a = b := by
  obtain ⟨d, hd⟩ := hka
  obtain ⟨d', hd'⟩ := hkb
  by_contra hne
  obtain ⟨us, vs, rfl⟩ := List.append_of_mem ha
  have hkeys := h.keys
  rw [List.filterMap_append, List.filterMap_cons_some hd, List.map_append, List.map_cons,
    List.nodup_middle, List.nodup_cons] at hkeys
  apply hkeys.1
  have hb' : b ∈ us ++ vs := by
    rw [List.mem_append, List.mem_cons] at hb
    rw [List.mem_append]
    rcases hb with hb | rfl | hb
    · exact .inl hb
    · exact absurd rfl hne
    · exact .inr hb
  rw [← List.map_append, ← List.filterMap_append]
  exact List.mem_map.2 ⟨(key, d'), List.mem_filterMap.2 ⟨b, hb', hd'⟩, rfl⟩

/-- The search finds no entry where the key is missing. -/
theorem search_missing (h : HashRep m t chains age) (hkey : ∀ a ∈ age, ¬HasKey m key a) (iHeuristics : UInt8) :
    searchInBucket m t (t.index key) key iHeuristics = .ok (m, t, 0) := by
  have hfind : (chains (t.index key)).find? (fun a => decide (HasKey m key a)) = none := by
    rw [List.find?_eq_none]
    intro a ha
    simpa using hkey a (h.sub_age ha)
  unfold searchInBucket
  rw [GhtHashTableT.head_of_some (h.head _ (h.index_lt key)), ok_bind,
    searchLoop_ok key (h.chain _).seg (h.chain _).null_notMem rfl (h.chain_length _), ok_bind, hfind]
  rfl

theorem find_key (h : HashRep m t chains age) (ha : a ∈ age) (hkey : HasKey m key a) :
    (chains (t.index key)).find? (fun b => decide (HasKey m key b)) = some a := by
  have hmem : a ∈ chains (t.index key) := by
    obtain ⟨d, hd⟩ := hkey
    exact h.mem_chain ha hd
  rcases hf : (chains (t.index key)).find? (fun b => decide (HasKey m key b)) with _ | b
  · rw [List.find?_eq_none] at hf
    exact absurd (decide_eq_true hkey) (hf a hmem)
  · have hb : HasKey m key b := by simpa using List.find?_some hf
    exact congrArg some (h.eq_of_key (h.sub_age (List.mem_of_find?_eq_some hf)) ha hb hkey)

/-- Without a heuristic the search changes nothing. -/
theorem search_plain (h : HashRep m t chains age) (ha : a ∈ age) (hkey : HasKey m key a) :
    searchInBucket m t (t.index key) key 0 = .ok (m, t, a) := by
  unfold searchInBucket
  rw [GhtHashTableT.head_of_some (h.head _ (h.index_lt key)), ok_bind,
    searchLoop_ok key (h.chain _).seg (h.chain _).null_notMem rfl (h.chain_length _), ok_bind, h.find_key ha hkey]
  simp only [Option.getD_some]
  rw [if_neg (by rintro rfl; exact h.order.null_notMem ha)]
  rfl

/-- The search finds the entry that has the key, and moves at most links in its bucket. -/
theorem search_found (h : HashRep m t chains age) (ha : a ∈ age) (hkey : HasKey m key a) (iHeuristics : UInt8) :
    ∃ m' t' chains', searchInBucket m t (t.index key) key iHeuristics = .ok (m', t', a) ∧ HashRep m' t' chains' age ∧
      SameSetup t t' ∧ m'.content = m.content ∧ ∀ b ∉ age, m' b = m b := by
  have hmem : a ∈ chains (t.index key) := by
    obtain ⟨d, hd⟩ := hkey
    exact h.mem_chain ha hd
  obtain ⟨m', as', happ, hperm, hr⟩ :=
    applyHeuristics_ok (h.chain _) h.order (h.head _ (h.index_lt key)) hmem iHeuristics
  refine ⟨m', _, _, ?_, h.of_perm (h.index_lt key) hperm hr, ⟨rfl, rfl, rfl, rfl, rfl, rfl, rfl⟩, hr.content, ?_⟩
  · unfold searchInBucket
    rw [GhtHashTableT.head_of_some (h.head _ (h.index_lt key)), ok_bind,
      searchLoop_ok key (h.chain _).seg (h.chain _).null_notMem rfl (h.chain_length _), ok_bind, h.find_key ha hkey]
    simp only [Option.getD_some]
    rw [if_neg (by rintro rfl; exact h.order.null_notMem ha), happ]
    rfl
  · intro b hb
    exact eq_of_parts (hr.links_frame b fun hmem => hb (h.sub_age hmem)) (hr.ages_frame b hb) (congrFun hr.content b)

/-! ## Reading, replacing and removing -/

theorem get_missing (h : HashRep m t chains age) (hkey : ∀ a ∈ age, ¬HasKey m key a) :
    ghtGet m t key = .ok (m, t, 0) := by
  unfold ghtGet
  rw [h.search_missing hkey]
  rfl

theorem get_found (h : HashRep m t chains age) (ha : a ∈ age) (hc : m.content a = some (key, d)) :
    ∃ m' t' chains', ghtGet m t key = .ok (m', t', d) ∧ HashRep m' t' chains' age ∧ SameSetup t t' ∧
      m'.content = m.content ∧ ∀ b ∉ age, m' b = m b := by
  obtain ⟨m', t', chains', hs, hrep, hsame, hcont, hframe⟩ := h.search_found ha ⟨d, hc⟩ (UInt8.ofInt t.iHeuristics)
  obtain ⟨e, he, hce⟩ := exists_of_content (hcont ▸ hc)
  refine ⟨m', t', chains', ?_, hrep, hsame, hcont, hframe⟩
  unfold ghtGet
  rw [hs, ok_bind]
  simp only
  rw [if_neg (by rintro rfl; exact h.order.null_notMem ha), entry_of_some he, ok_bind]
  rw [(Prod.mk.inj hce).2]
  rfl

theorem replace_missing (h : HashRep m t chains age) (hkey : ∀ a ∈ age, ¬HasKey m key a) (v : Ptr) :
    ghtReplace m t v key = .ok (m, t, 0) := by
  unfold ghtReplace
  rw [h.search_missing hkey]
  rfl

theorem replace_found (h : HashRep m t chains age) (ha : a ∈ age) (hc : m.content a = some (key, d)) (v : Ptr) :
    ∃ m' t' chains', ghtReplace m t v key = .ok (m', t', d) ∧ HashRep m' t' chains' age ∧ SameSetup t t' ∧
      m'.content = Function.update m.content a (some (key, v)) ∧ ∀ b ∉ age, m' b = m b := by
  obtain ⟨m', t', chains', hs, hrep, hsame, hcont, hframe⟩ := h.search_found ha ⟨d, hc⟩ (UInt8.ofInt t.iHeuristics)
  obtain ⟨e, he, hce⟩ := exists_of_content (hcont ▸ hc)
  obtain ⟨rfl, rfl⟩ := Prod.mk.inj hce
  -- the write of the data leaves the links and the key
  have hlinks : links (Function.update m' a (some { e with pData := v })) = m'.links := by
    rw [links_update, Function.update_eq_self_iff, links_of_some he]
    rfl
  have hages : ages (Function.update m' a (some { e with pData := v })) = m'.ages := by
    rw [ages_update, Function.update_eq_self_iff, ages_of_some he]
    rfl
  have hcontent : content (Function.update m' a (some { e with pData := v })) =
      Function.update m.content a (some (e.key, v)) := by
    rw [content_update, hcont]
    rfl
  have hread (b : Ptr) (f : List UInt8 → Prop) :
      (∃ c, content (Function.update m' a (some { e with pData := v })) b = some c ∧ f c.1) ↔
        ∃ c, m'.content b = some c ∧ f c.1 := by
    rw [hcontent, ← hcont]
    by_cases hb : b = a
    · subst hb
      rw [Function.update_self, hcont, hc]
      simp
    · rw [Function.update_of_ne hb]
  -- the keys stay different, since the write leaves them
  have hkeys (l : List Ptr) :
      (l.filterMap (content (Function.update m' a (some { e with pData := v })))).map Prod.fst =
        (l.filterMap m'.content).map Prod.fst := by
    rw [List.map_filterMap, List.map_filterMap]
    refine List.filterMap_congr fun b _ => ?_
    rw [hcontent, ← hcont]
    by_cases hb : b = a
    · subst hb
      rw [Function.update_self, hcont, hc]
      rfl
    · rw [Function.update_of_ne hb]
  refine ⟨_, t', chains', ?_, ?_, hsame, hcontent, ?_⟩
  · unfold ghtReplace
    rw [hs, ok_bind]
    simp only
    rw [if_neg (by rintro rfl; exact h.order.null_notMem ha), entry_of_some he, ok_bind, setPData,
      modify_of_some he, ok_bind]
    rfl
  · exact { hrep with
      chain := hlinks ▸ hrep.chain
      mem := fun j b => by rw [hread b fun k => t'.index k = j]; exact hrep.mem j b
      order := hages ▸ hrep.order
      keys := hkeys age ▸ hrep.keys }
  · intro b hb
    rw [Function.update_of_ne (by rintro rfl; exact hb ha)]
    exact hframe b hb

theorem remove_missing (h : HashRep m t chains age) (hkey : ∀ a ∈ age, ¬HasKey m key a) :
    ghtRemove m t key = .ok (m, t, 0) := by
  unfold ghtRemove
  simp only
  rw [h.search_missing hkey]
  rfl

/-- The bucket of an entry, split where the entry is. -/
theorem split_chain (h : HashRep m t chains age) {c : List UInt8 × Ptr} (ha : a ∈ age) (hc : m.content a = some c) :
    ∃ us vs, chains (t.index c.1) = us ++ a :: vs :=
  List.append_of_mem (h.mem_chain ha hc)

theorem items_pred {xs ys : List Ptr} (h : HashRep m t chains (xs ++ a :: ys)) :
    t.iItems - 1 = UInt32.ofNat (xs ++ ys).length := by
  rw [h.items]
  apply UInt32.toNat_inj.1
  simp only [List.length_append, List.length_cons, UInt32.toNat_sub, UInt32.toNat_ofNat', UInt32.toNat_one]
  omega

/-- An entry linked out of its bucket and out of the order of insertion, and freed. -/
theorem erased {m₁ : Entries} {us vs xs ys : List Ptr} (h : HashRep m t chains (xs ++ a :: ys))
    (hc : m.content a = some (key, d)) (hsplit : chains (t.index key) = us ++ a :: vs)
    (hr : Relinks m m₁ (us ++ a :: vs) (us ++ vs) (xs ++ a :: ys) (xs ++ ys)) :
    HashRep (Function.update m₁ a none)
      { (t.withChain (t.index key) (us ++ vs)).withAge (xs ++ ys) with
        iItems := t.iItems - 1, pNr := t.pNr.set (t.index key) (us ++ vs).length }
      (Function.update chains (t.index key) (us ++ vs)) (xs ++ ys) := by
  have hnd := List.nodup_cons.1 (List.nodup_middle.1 h.order.nodup)
  have hndc := List.nodup_cons.1 (List.nodup_middle.1 (hsplit ▸ (h.chain (t.index key)).nodup))
  refine h.build (h.index_lt key) ⟨rfl, rfl, rfl, rfl, rfl, rfl, rfl⟩ rfl rfl rfl rfl h.items_pred ?_ ?_ ?_ ?_ ?_ ?_ ?_
  · rw [links_update]
    exact hr.chain.frame fun b hb => Function.update_of_ne (by rintro rfl; exact hndc.1 hb) ..
  · rw [ages_update]
    exact hr.age.frame fun b hb => Function.update_of_ne (by rintro rfl; exact hnd.1 hb) ..
  · intro b _ hb
    have hba : b ≠ a := by
      rintro rfl
      rw [hsplit] at hb
      exact hb (by simp)
    rw [links_update, Function.update_of_ne hba]
    exact hr.links_frame b (hsplit ▸ hb)
  · intro b hb
    rw [content_update, Function.update_of_ne (by rintro rfl; exact hnd.1 hb), hr.content]
  · intro b
    have hmem := h.mem (t.index key) b
    rw [hsplit] at hmem
    simp only [List.mem_append, List.mem_cons] at hmem hnd hndc ⊢
    by_cases hba : b = a
    · subst hba
      exact iff_of_false hndc.1 fun hb => hnd.1 hb.1
    · simpa [hba] using hmem
  · intro b c hcb hb
    have hba : b ≠ a := by
      rintro rfl
      rw [hc] at hcb
      cases hcb
      exact hb rfl
    simp [hba]
  · -- what is left of different keys is different
    have hsub : List.Sublist (xs ++ ys) (xs ++ a :: ys) := (List.sublist_cons_self a ys).append_left xs
    exact h.keys.sublist ((hsub.filterMap _).map _)

theorem remove_found {xs ys : List Ptr} (h : HashRep m t chains (xs ++ a :: ys)) (hc : m.content a = some (key, d)) :
    ∃ m' t' chains', ghtRemove m t key = .ok (m', t', d) ∧ HashRep m' t' chains' (xs ++ ys) ∧ SameSetup t t' ∧
      m'.content = Function.update m.content a none ∧ m' a = none ∧ ∀ b ∉ xs ++ a :: ys, m' b = m b := by
  have ha : a ∈ xs ++ a :: ys := by simp
  have hi := h.index_lt key
  obtain ⟨us, vs, hsplit⟩ := h.split_chain ha hc
  simp only at hsplit
  obtain ⟨m₁, hm₁, hr⟩ := removeFromChain_ok (hsplit ▸ h.chain (t.index key)) h.order (hsplit ▸ h.head _ hi) h.oldest
    h.newest
  obtain ⟨e, he, hce⟩ := exists_of_content (hr.content ▸ hc)
  obtain ⟨rfl, rfl⟩ := Prod.mk.inj hce
  have hlen : ((chains (t.index e.key)).length : Int) - 1 = (us ++ vs).length := by
    rw [hsplit, List.length_append, List.length_append, List.length_cons]
    push_cast
    ring
  refine ⟨_, _, _, ?_, h.erased hc hsplit hr, ⟨rfl, rfl, rfl, rfl, rfl, rfl, rfl⟩, ?_, Function.update_self .., ?_⟩
  · unfold ghtRemove
    simp only
    rw [h.search_plain ha ⟨_, hc⟩, ok_bind]
    simp only
    rw [if_neg (by rintro rfl; exact h.order.null_notMem ha), hm₁, ok_bind]
    simp only
    rw [GhtHashTableT.nr_of_some (by exact h.nr _ hi), ok_bind, GhtHashTableT.setNr_of_some (by exact h.nr _ hi), ok_bind,
      entry_of_some he, ok_bind, heFinalize, entry_of_some he, ok_bind, hlen]
    rfl
  · rw [content_update, hr.content]
    rfl
  · intro b hb
    rw [Function.update_of_ne (by rintro rfl; exact hb ha)]
    refine eq_of_parts (hr.links_frame b fun hmem => hb ?_) (hr.ages_frame b hb) (congrFun hr.content b)
    exact h.sub_age (hsplit ▸ hmem)

end HashRep

/-! ## Placing a new entry -/

/-- An entry that is made but not placed yet. -/
structure Made (m : Entries) (age : List Ptr) (p : Ptr) (key : List UInt8) (d : Ptr) : Prop where
  entry : m p = some ⟨d, 0, 0, 0, 0, key⟩
  ne_null : p ≠ 0
  notMem : p ∉ age

theorem Made.content (hp : Made m age p key d) : m.content p = some (key, d) := content_of_some hp.entry

/-- The bucket of the key has reached the limit. -/
def Full (t : GhtHashTableT) (chain : List Ptr) : Prop :=
  t.bucketLimit ≠ 0 ∧ t.bucketLimit ≤ UInt32.ofInt chain.length

namespace HashRep

theorem keys_append_new (h : HashRep m t chains age) {xs : List Ptr} (hsub : List.Sublist xs age)
    (hp : m.content p = some (key, d)) (hnew : ∀ a ∈ age, ¬HasKey m key a) :
    (((xs ++ [p]).filterMap m.content).map Prod.fst).Nodup := by
  rw [List.filterMap_append, List.map_append, List.nodup_append]
  refine ⟨h.keys.sublist ((hsub.filterMap _).map _), ?_, ?_⟩
  · rw [List.filterMap_cons_some hp]
    exact List.nodup_singleton _
  · intro k hk k' hk'
    rw [List.filterMap_cons_some hp] at hk'
    simp only [List.filterMap_nil, List.map_cons, List.map_nil, List.mem_singleton] at hk'
    subst hk'
    obtain ⟨⟨k, v⟩, hc, rfl⟩ := List.mem_map.1 hk
    obtain ⟨a, ha, hac⟩ := List.mem_filterMap.1 hc
    rintro rfl
    exact hnew a (hsub.subset ha) ⟨v, hac⟩

theorem items_succ (h : HashRep m t chains age) (p : Ptr) : t.iItems + 1 = UInt32.ofNat (age ++ [p]).length := by
  rw [h.items, List.length_append, List.length_singleton, UInt32.ofNat_add]
  rfl

/-- A new entry in a bucket that is not full. -/
theorem place_count (h : HashRep m t chains age) (hp : Made m age p key d) (hnew : ∀ a ∈ age, ¬HasKey m key a)
    (hfull : ¬Full t (chains (t.index key))) :
    ∃ m' t' chains', placeEntry m t (t.index key) p = .ok (m', t', none) ∧ HashRep m' t' chains' (age ++ [p]) ∧
      SameSetup t t' ∧ m'.content = m.content ∧ ∀ b ∉ age ++ [p], m' b = m b := by
  have hi := h.index_lt key
  have hpc : p ∉ chains (t.index key) := fun hmem => hp.notMem (h.sub_age hmem)
  obtain ⟨m₁, hm₁, hr⟩ := linkFront_ok (h.chain _) h.order (h.head _ hi) ⟨_, links_of_some hp.entry⟩ hp.ne_null hpc
  have hages : m₁.ages p = some (0, 0) := (hr.ages_frame p hp.notMem).trans (ages_of_some hp.entry)
  obtain ⟨m₂, hm₂, hw⟩ := linkAge_ok
    (t := { t.withChain (t.index key) (p :: chains (t.index key)) with
      pNr := t.pNr.set (t.index key) (p :: chains (t.index key)).length, iItems := t.iItems + 1 })
    hr.age h.oldest h.newest hages hp.ne_null hp.notMem
  have hcontent : m₂.content = m.content := hw.content.trans hr.content
  refine ⟨m₂, ({ t.withChain (t.index key) (p :: chains (t.index key)) with
      pNr := t.pNr.set (t.index key) (p :: chains (t.index key)).length, iItems := t.iItems + 1 }).withAge (age ++ [p]),
    Function.update chains (t.index key) (p :: chains (t.index key)), ?_, h.build hi
    ⟨rfl, rfl, rfl, rfl, rfl, rfl, rfl⟩ rfl rfl rfl rfl (h.items_succ p) (hw.links ▸ hr.chain)
    (hw.ages ▸ hr.age.linkLast hp.notMem hp.ne_null) ?_ (fun b _ => congrFun hcontent b) ?_ ?_
    (h.keys_append_new (List.Sublist.refl age) hp.content hnew), ⟨rfl, rfl, rfl, rfl, rfl, rfl, rfl⟩, hcontent, ?_⟩
  · unfold placeEntry
    rw [hm₁, ok_bind]
    simp only
    unfold countOrEvict
    rw [GhtHashTableT.nr_of_some (by exact h.nr _ hi), ok_bind, if_neg (by exact hfull),
      GhtHashTableT.setNr_of_some (by exact h.nr _ hi), ok_bind]
    simp only [List.length_cons, Nat.cast_succ] at hm₂
    exact congrArg (fun r => r >>= fun x => Except.ok (x.1, x.2, none)) hm₂
  · intro b hb hbc
    rw [hw.links]
    refine hr.links_frame b ?_
    rw [List.mem_cons, not_or]
    exact ⟨by rintro rfl; exact hp.notMem hb, hbc⟩
  · intro b
    rw [List.mem_cons, h.mem, List.mem_append, List.mem_singleton]
    constructor
    · -- the new entry comes first in the chain of its bucket, and last in the order of insertion
      rintro (rfl | ⟨hb, hc⟩)
      · exact ⟨.inr rfl, _, hp.content, rfl⟩
      · exact ⟨.inl hb, hc⟩
    · rintro ⟨hb | rfl, hc⟩
      · exact .inr ⟨hb, hc⟩
      · exact .inl rfl
  · intro b c hc hb
    rw [List.mem_append, List.mem_singleton, or_iff_left]
    rintro rfl
    rw [hp.content] at hc
    cases hc
    exact hb rfl
  · intro b hb
    rw [List.mem_append, List.mem_singleton, not_or] at hb
    have hbc : b ∉ p :: chains (t.index key) := by
      rw [List.mem_cons, not_or]
      exact ⟨hb.2, fun hmem => hb.1 (h.sub_age hmem)⟩
    refine eq_of_parts ?_ ?_ (congrFun hcontent b)
    · rw [hw.links]
      exact hr.links_frame b hbc
    · rw [hw.ages, setNext_getLastD hb.1, Function.update_of_ne hb.2]
      exact hr.ages_frame b hb.1

end HashRep

end

end PubsubBroker

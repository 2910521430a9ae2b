/-
What the functions of `common/ght_hash_table.c` that move links do to the two orders of the entries: the
chain of a bucket and the ages. Either order is a chain of two-way links, and a write of a link leaves the
other order, the keys and the data as they are.
-/
import PubsubBroker.Lib.DLinked
import PubsubBroker.Common.ListSeq
import PubsubBroker.Common.GhtHashTable

namespace PubsubBroker

open DLinked

namespace Entries

/-- The links of the chains in the buckets. -/
def links (m : Entries) : Links Ptr := fun p => (m p).map fun e => (e.pNext, e.pPrev)

/-- The links of the order of insertion. -/
def ages (m : Entries) : Links Ptr := fun p => (m p).map fun e => (e.pNewer, e.pOlder)

/-- The keys and the data. -/
def content (m : Entries) : Ptr → Option (List UInt8 × Ptr) := fun p => (m p).map fun e => (e.key, e.pData)

/-- Links are written, and nothing else. -/
structure Writes (m m' : Entries) (σ α : Links Ptr) : Prop where
  links : m'.links = σ
  ages : m'.ages = α
  content : m'.content = m.content

variable {m m' m'' : Entries} {p q : Ptr} {e : GhtHashEntryT} {l : Ptr × Ptr} {c : List UInt8 × Ptr}

theorem entry_of_some (h : m p = some e) : m.entry p = .ok e := by
  unfold entry; rw [h]

theorem modify_of_some (h : m p = some e) (f : GhtHashEntryT → GhtHashEntryT) :
    m.modify p f = .ok (Function.update m p (some (f e))) := by
  unfold modify
  rw [entry_of_some h]; rfl

/-- An entry is what its links, its key and its data are. -/
theorem eq_of_parts (hl : m'.links p = m.links p) (ha : m'.ages p = m.ages p) (hc : m'.content p = m.content p) :
    m' p = m p := by
  unfold links ages content at *
  rcases h' : m' p with _ | e' <;> rcases h : m p with _ | e
  · rfl
  · rw [h, h'] at hl; cases hl
  · rw [h, h'] at hl; cases hl
  · rw [h, h'] at hl ha hc
    simp only [Option.map_some, Option.some.injEq, Prod.mk.injEq] at hl ha hc
    obtain ⟨d', n', p', o', w', k'⟩ := e'
    obtain ⟨d, n, p, o, w, k⟩ := e
    simp_all

theorem exists_of_links (h : m.links p = some l) : ∃ e, m p = some e ∧ l = (e.pNext, e.pPrev) := by
  unfold links at h
  obtain ⟨e, he, rfl⟩ := Option.map_eq_some_iff.1 h
  exact ⟨e, he, rfl⟩

theorem exists_of_ages (h : m.ages p = some l) : ∃ e, m p = some e ∧ l = (e.pNewer, e.pOlder) := by
  unfold ages at h
  obtain ⟨e, he, rfl⟩ := Option.map_eq_some_iff.1 h
  exact ⟨e, he, rfl⟩

theorem exists_of_content (h : m.content p = some c) : ∃ e, m p = some e ∧ c = (e.key, e.pData) := by
  unfold content at h
  obtain ⟨e, he, rfl⟩ := Option.map_eq_some_iff.1 h
  exact ⟨e, he, rfl⟩

theorem links_of_some (h : m p = some e) : m.links p = some (e.pNext, e.pPrev) := by unfold links; rw [h]; rfl

theorem ages_of_some (h : m p = some e) : m.ages p = some (e.pNewer, e.pOlder) := by unfold ages; rw [h]; rfl

theorem content_of_some (h : m p = some e) : m.content p = some (e.key, e.pData) := by unfold content; rw [h]; rfl

theorem allocated_of_seg {b q : Ptr} {as : List Ptr} (h : Seg m.ages b as q) (hp : p ∈ as) : m p ≠ none := by
  obtain ⟨l, hl⟩ := h.isSome hp
  obtain ⟨e, he, -⟩ := exists_of_ages hl
  rw [he]
  exact Option.some_ne_none e

theorem map_update {α : Type} (f : GhtHashEntryT → α) (m : Entries) (p : Ptr) (e : Option GhtHashEntryT) :
    (fun q => (Function.update m p e q).map f) = Function.update (fun q => (m q).map f) p (e.map f) := by
  funext q
  by_cases hq : q = p
  · subst hq; rw [Function.update_self, Function.update_self]
  · rw [Function.update_of_ne hq, Function.update_of_ne hq]

theorem links_update (m : Entries) (p : Ptr) (e : Option GhtHashEntryT) :
    links (Function.update m p e) = Function.update m.links p (e.map fun e => (e.pNext, e.pPrev)) := map_update ..

theorem ages_update (m : Entries) (p : Ptr) (e : Option GhtHashEntryT) :
    ages (Function.update m p e) = Function.update m.ages p (e.map fun e => (e.pNewer, e.pOlder)) := map_update ..

theorem content_update (m : Entries) (p : Ptr) (e : Option GhtHashEntryT) :
    content (Function.update m p e) = Function.update m.content p (e.map fun e => (e.key, e.pData)) := map_update ..

theorem Writes.refl (m : Entries) : Writes m m m.links m.ages := ⟨rfl, rfl, rfl⟩

theorem Writes.trans {σ α σ' α' : Links Ptr} (h : Writes m m' σ α) (h' : Writes m' m'' σ' α') : Writes m m'' σ' α' :=
  ⟨h'.links, h'.ages, h'.content.trans h.content⟩

/-- An entry whose links are not written stays. -/
theorem Writes.eq {σ α : Links Ptr} (h : Writes m m' σ α) (hσ : σ p = m.links p) (hα : α p = m.ages p) : m' p = m p :=
  eq_of_parts (h.links ▸ hσ) (h.ages ▸ hα) (congrFun h.content p)

theorem setPNext_ok (hl : m.links p = some l) (h0 : p ≠ 0) (q : Ptr) :
    ∃ m', m.setPNext p q = .ok m' ∧ Writes m m' (setNext 0 m.links p q) m.ages := by
  obtain ⟨e, he, rfl⟩ := exists_of_links hl
  refine ⟨_, modify_of_some he _, ?_, ?_, ?_⟩
  · rw [links_update, setNext, if_neg h0, hl]; rfl
  · rw [ages_update, Function.update_eq_self_iff, ages_of_some he]; rfl
  · rw [content_update, Function.update_eq_self_iff, content_of_some he]; rfl

theorem setPPrev_ok (hl : m.links p = some l) (h0 : p ≠ 0) (q : Ptr) :
    ∃ m', m.setPPrev p q = .ok m' ∧ Writes m m' (setPrev 0 m.links p q) m.ages := by
  obtain ⟨e, he, rfl⟩ := exists_of_links hl
  refine ⟨_, modify_of_some he _, ?_, ?_, ?_⟩
  · rw [links_update, setPrev, if_neg h0, hl]; rfl
  · rw [ages_update, Function.update_eq_self_iff, ages_of_some he]; rfl
  · rw [content_update, Function.update_eq_self_iff, content_of_some he]; rfl

theorem setPNewer_ok (hl : m.ages p = some l) (h0 : p ≠ 0) (q : Ptr) :
    ∃ m', m.setPNewer p q = .ok m' ∧ Writes m m' m.links (setNext 0 m.ages p q) := by
  obtain ⟨e, he, rfl⟩ := exists_of_ages hl
  refine ⟨_, modify_of_some he _, ?_, ?_, ?_⟩
  · rw [links_update, Function.update_eq_self_iff, links_of_some he]; rfl
  · rw [ages_update, setNext, if_neg h0, hl]; rfl
  · rw [content_update, Function.update_eq_self_iff, content_of_some he]; rfl

theorem setPOlder_ok (hl : m.ages p = some l) (h0 : p ≠ 0) (q : Ptr) :
    ∃ m', m.setPOlder p q = .ok m' ∧ Writes m m' m.links (setPrev 0 m.ages p q) := by
  obtain ⟨e, he, rfl⟩ := exists_of_ages hl
  refine ⟨_, modify_of_some he _, ?_, ?_, ?_⟩
  · rw [links_update, Function.update_eq_self_iff, links_of_some he]; rfl
  · rw [ages_update, setPrev, if_neg h0, hl]; rfl
  · rw [content_update, Function.update_eq_self_iff, content_of_some he]; rfl

end Entries

open Entries

namespace GhtHashTableT

/-- The table after a write of the link from `prev`, which is in the table where there is no `prev`. -/
def linkedNext (t : GhtHashTableT) (i : Nat) (prev q : Ptr) : GhtHashTableT :=
  if prev = 0 then { t with ppEntries := t.ppEntries.set i q } else t

def linkedNewer (t : GhtHashTableT) (older q : Ptr) : GhtHashTableT :=
  if older = 0 then { t with pOldest := q } else t

def linkedOlder (t : GhtHashTableT) (newer q : Ptr) : GhtHashTableT :=
  if newer = 0 then { t with pNewest := q } else t

theorem head_of_some {t : GhtHashTableT} {i : Nat} {p : Ptr} (h : t.ppEntries[i]? = some p) : t.head i = .ok p := by
  unfold head; rw [h]

theorem setHead_of_some {t : GhtHashTableT} {i : Nat} {p : Ptr} (h : t.ppEntries[i]? = some p) (q : Ptr) :
    t.setHead i q = .ok { t with ppEntries := t.ppEntries.set i q } :=
  if_pos (List.getElem?_eq_some_iff.1 h).1

theorem nr_of_some {t : GhtHashTableT} {i : Nat} {n : Int} (h : t.pNr[i]? = some n) : t.nr i = .ok n := by
  unfold nr; rw [h]

theorem setNr_of_some {t : GhtHashTableT} {i : Nat} {n : Int} (h : t.pNr[i]? = some n) (k : Int) :
    t.setNr i k = .ok { t with pNr := t.pNr.set i k } :=
  if_pos (List.getElem?_eq_some_iff.1 h).1

end GhtHashTableT

section
variable {m : Entries} {t : GhtHashTableT} {i : Nat} {p first : Ptr}

theorem linkNext_ok (hi : t.ppEntries[i]? = some first) {prev : Ptr}
    (hprev : prev ≠ 0 → ∃ l, m.links prev = some l) (q : Ptr) :
    ∃ m', linkNext m t i prev q = .ok (m', t.linkedNext i prev q) ∧
      Writes m m' (setNext 0 m.links prev q) m.ages := by
  unfold linkNext GhtHashTableT.linkedNext
  by_cases h0 : prev = 0
  · subst h0
    refine ⟨m, ?_, by rw [setNext_null]; exact .refl m⟩
    rw [if_neg (by simp), if_pos rfl, GhtHashTableT.setHead_of_some hi]
    rfl
  · obtain ⟨l, hl⟩ := hprev h0
    obtain ⟨m', hm, hw⟩ := setPNext_ok hl h0 q
    refine ⟨m', ?_, hw⟩
    rw [if_pos h0, if_neg h0, hm]
    rfl

theorem linkPrev_ok {y : Ptr} (hnext : y ≠ 0 → ∃ l, m.links y = some l) (q : Ptr) :
    ∃ m', linkPrev m y q = .ok m' ∧ Writes m m' (setPrev 0 m.links y q) m.ages := by
  unfold linkPrev
  by_cases h0 : y = 0
  · subst h0
    exact ⟨m, by rw [if_neg (by simp)], by rw [setPrev_null]; exact .refl m⟩
  · obtain ⟨l, hl⟩ := hnext h0
    obtain ⟨m', hm, hw⟩ := setPPrev_ok hl h0 q
    exact ⟨m', by rw [if_pos h0, hm], hw⟩

theorem linkNewer_ok {older : Ptr} (holder : older ≠ 0 → ∃ l, m.ages older = some l) (q : Ptr) :
    ∃ m', linkNewer m t older q = .ok (m', t.linkedNewer older q) ∧
      Writes m m' m.links (setNext 0 m.ages older q) := by
  unfold linkNewer GhtHashTableT.linkedNewer
  by_cases h0 : older = 0
  · subst h0
    refine ⟨m, ?_, by rw [setNext_null]; exact .refl m⟩
    rw [if_neg (by simp), if_pos rfl]
    rfl
  · obtain ⟨l, hl⟩ := holder h0
    obtain ⟨m', hm, hw⟩ := setPNewer_ok hl h0 q
    refine ⟨m', ?_, hw⟩
    rw [if_pos h0, if_neg h0, hm]
    rfl

theorem linkOlder_ok {newer : Ptr} (hnewer : newer ≠ 0 → ∃ l, m.ages newer = some l) (q : Ptr) :
    ∃ m', linkOlder m t newer q = .ok (m', t.linkedOlder newer q) ∧
      Writes m m' m.links (setPrev 0 m.ages newer q) := by
  unfold linkOlder GhtHashTableT.linkedOlder
  by_cases h0 : newer = 0
  · subst h0
    refine ⟨m, ?_, by rw [setPrev_null]; exact .refl m⟩
    rw [if_neg (by simp), if_pos rfl]
    rfl
  · obtain ⟨l, hl⟩ := hnewer h0
    obtain ⟨m', hm, hw⟩ := setPOlder_ok hl h0 q
    refine ⟨m', ?_, hw⟩
    rw [if_pos h0, if_neg h0, hm]
    rfl

end

/-! ## Chains -/

namespace GhtHashTableT

/-- The table with the chain `as` in the bucket `i`. -/
def withChain (t : GhtHashTableT) (i : Nat) (as : List Ptr) : GhtHashTableT :=
  { t with ppEntries := t.ppEntries.set i (as.headD 0) }

/-- The table with the entries `xs`, oldest first. -/
def withAge (t : GhtHashTableT) (xs : List Ptr) : GhtHashTableT :=
  { t with pOldest := xs.headD 0, pNewest := xs.getLastD 0 }

variable {t : GhtHashTableT} {i : Nat} {us vs s : List Ptr} {q : Ptr}

theorem set_of_getElem? {α : Type} {l : List α} {n : Nat} {a : α} (h : l[n]? = some a) : l.set n a = l := by
  obtain ⟨hn, rfl⟩ := List.getElem?_eq_some_iff.1 h
  exact List.set_getElem_self hn

theorem linkedNext_chain (hi : t.ppEntries[i]? = some ((us ++ s).headD 0)) (h0 : 0 ∉ us) (vs : List Ptr) :
    t.linkedNext i (us.getLastD 0) (vs.headD 0) = t.withChain i (us ++ vs) := by
  unfold linkedNext withChain
  cases us with
  | nil => rfl
  | cons u us =>
    rw [if_neg fun h => List.cons_ne_nil u us ((getLastD_eq_null_iff h0).1 h)]
    rw [List.cons_append, List.headD_cons, set_of_getElem? (by exact hi)]

theorem linkedNewer_age (hold : t.pOldest = (us ++ s).headD 0) (h0 : 0 ∉ us) (q : Ptr) :
    t.linkedNewer (us.getLastD 0) q = { t with pOldest := us.headD q } := by
  unfold linkedNewer
  cases us with
  | nil => rfl
  | cons u us =>
    rw [if_neg fun h => List.cons_ne_nil u us ((getLastD_eq_null_iff h0).1 h)]
    rw [List.cons_append, List.headD_cons] at hold
    rw [List.headD_cons, ← hold]

theorem linkedOlder_age (hnew : t.pNewest = (s ++ vs).getLastD 0) (h0 : 0 ∉ vs) (q : Ptr) :
    t.linkedOlder (vs.headD 0) q = { t with pNewest := vs.getLastD q } := by
  unfold linkedOlder
  cases vs with
  | nil => rfl
  | cons v vs =>
    rw [if_neg fun h => List.cons_ne_nil v vs ((headD_eq_null_iff h0).1 h)]
    rw [getLastD_append, List.getLastD_cons] at hnew
    rw [List.getLastD_cons, ← hnew]

end GhtHashTableT

/-- What an operation on links makes of a chain `as` and of the order `xs`, where no other entry is
touched. -/
structure Relinks (m m' : Entries) (as as' xs xs' : List Ptr) : Prop where
  chain : Chain m'.links 0 as'
  age : Chain m'.ages 0 xs'
  links_frame : ∀ a, a ∉ as → m'.links a = m.links a
  ages_frame : ∀ a, a ∉ xs → m'.ages a = m.ages a
  content : m'.content = m.content

section
variable {m : Entries} {t : GhtHashTableT} {i : Nat} {p : Ptr} {us vs xs ys : List Ptr}

theorem removeFromChain_ok (hc : Chain m.links 0 (us ++ p :: vs)) (ha : Chain m.ages 0 (xs ++ p :: ys))
    (hi : t.ppEntries[i]? = some ((us ++ p :: vs).headD 0)) (hold : t.pOldest = (xs ++ p :: ys).headD 0)
    (hnew : t.pNewest = (xs ++ p :: ys).getLastD 0) :
    ∃ m', removeFromChain m t i p = .ok (m', (t.withChain i (us ++ vs)).withAge (xs ++ ys)) ∧
      Relinks m m' (us ++ p :: vs) (us ++ vs) (xs ++ p :: ys) (xs ++ ys) := by
  have hpus : p ∉ us := fun h => (List.nodup_append.1 hc.nodup).2.2 p h p (by simp) rfl
  have hpvs : p ∉ vs := (List.nodup_cons.1 (List.nodup_append.1 hc.nodup).2.1).1
  have hpxs : p ∉ xs := fun h => (List.nodup_append.1 ha.nodup).2.2 p h p (by simp) rfl
  obtain ⟨hsegus, -, hsegvs⟩ := seg_append.1 hc.seg
  obtain ⟨hsegxs, -, hsegys⟩ := seg_append.1 ha.seg
  obtain ⟨e, he, hl⟩ := exists_of_links hc.seg.get
  obtain ⟨e', he', hl'⟩ := exists_of_ages ha.seg.get
  obtain rfl : e' = e := Option.some.inj (he'.symm.trans he)
  obtain ⟨hnext, hprev⟩ := Prod.mk.inj hl
  obtain ⟨hnewer, holder⟩ := Prod.mk.inj hl'
  -- the four links around the entry, one after the other
  obtain ⟨m₁, hm₁, hw₁⟩ := linkNext_ok hi hsegus.last_isSome (vs.headD 0)
  have he₁ : m₁ p = some e' := (hw₁.eq (setNext_getLastD hpus) rfl).trans he
  obtain ⟨m₂, hm₂, hw₂⟩ := linkPrev_ok (m := m₁) (y := vs.headD 0)
    (fun h0 => hw₁.links ▸ setNext_isSome (hsegvs.head_isSome h0) _ _) (us.getLastD 0)
  have he₂ : m₂ p = some e' := (hw₂.eq (setPrev_headD hpvs) rfl).trans he₁
  rw [hw₁.links, hw₁.ages] at hw₂
  obtain ⟨m₃, hm₃, hw₃⟩ := linkNewer_ok (m := m₂) (t := t.linkedNext i (us.getLastD 0) (vs.headD 0))
    (fun h0 => hw₂.ages ▸ hsegxs.last_isSome h0) (ys.headD 0)
  have he₃ : m₃ p = some e' := (hw₃.eq rfl (setNext_getLastD hpxs)).trans he₂
  rw [hw₂.links, hw₂.ages] at hw₃
  obtain ⟨m₄, hm₄, hw₄⟩ := linkOlder_ok (m := m₃)
    (t := (t.linkedNext i (us.getLastD 0) (vs.headD 0)).linkedNewer (xs.getLastD 0) (ys.headD 0))
    (fun h0 => hw₃.ages ▸ setNext_isSome (hsegys.head_isSome h0) _ _) (xs.getLastD 0)
  rw [hw₃.links, hw₃.ages] at hw₄
  refine ⟨m₄, ?_, ?_⟩
  · have h0us : 0 ∉ us := fun h => hc.null_notMem (List.mem_append_left _ h)
    have h0xs : 0 ∉ xs := fun h => ha.null_notMem (List.mem_append_left _ h)
    have h0ys : 0 ∉ ys := fun h => ha.null_notMem (List.mem_append_right _ (List.mem_cons_of_mem _ h))
    rw [GhtHashTableT.linkedNext_chain hi h0us, GhtHashTableT.linkedNewer_age (s := p :: ys) (by exact hold) h0xs,
      GhtHashTableT.linkedOlder_age (s := xs ++ [p]) (by rw [List.append_assoc]; exact hnew) h0ys] at hm₄
    unfold removeFromChain
    rw [entry_of_some he, ok_bind, ← hprev, ← hnext, hm₁, ok_bind]
    simp only
    rw [entry_of_some he₁, ok_bind, ← hprev, ← hnext, hm₂, ok_bind, entry_of_some he₂, ok_bind, ← holder, ← hnewer,
      GhtHashTableT.linkedNext_chain hi h0us]
    rw [GhtHashTableT.linkedNext_chain hi h0us] at hm₃
    rw [hm₃, ok_bind]
    simp only
    rw [entry_of_some he₃, ok_bind, ← holder, ← hnewer, GhtHashTableT.linkedNewer_age (s := p :: ys) (by exact hold) h0xs,
      hm₄]
    simp only [GhtHashTableT.withAge, headD_append, getLastD_append]
  · refine ⟨hw₄.links ▸ hc.unlink, hw₄.ages ▸ ha.unlink, ?_, ?_, ?_⟩
    · intro a hmem
      simp only [List.mem_append, List.mem_cons, not_or] at hmem
      rw [hw₄.links, setPrev_headD hmem.2.2, setNext_getLastD hmem.1]
    · intro a hmem
      simp only [List.mem_append, List.mem_cons, not_or] at hmem
      rw [hw₄.ages, setPrev_headD hmem.2.2, setNext_getLastD hmem.1]
    · rw [hw₄.content, hw₃.content, hw₂.content, hw₁.content]

/-- Both links of an entry are written. -/
theorem setLinks_ok {a b : Ptr} (hl : ∃ l, m.links p = some l) (h0 : p ≠ 0) :
    ∃ m₁ m₂, m.setPNext p a = .ok m₁ ∧ m₁.setPPrev p b = .ok m₂ ∧
      Writes m m₂ (Function.update m.links p (some (a, b))) m.ages := by
  obtain ⟨l, hl⟩ := hl
  obtain ⟨m₁, hm₁, hw₁⟩ := setPNext_ok hl h0 a
  obtain ⟨l', hl'⟩ : ∃ l', setNext 0 m.links p a p = some l' := setNext_isSome ⟨l, hl⟩ p a
  obtain ⟨m₂, hm₂, hw₂⟩ := setPPrev_ok (hw₁.links ▸ hl') h0 b
  rw [hw₁.links, hw₁.ages, setPrev_setNext_self h0 ⟨l, hl⟩] at hw₂
  exact ⟨m₁, m₂, hm₁, hm₂, hw₁.trans hw₂⟩

theorem transpose_ok {x : Ptr} (hc : Chain m.links 0 (us ++ x :: p :: vs)) (ha : Chain m.ages 0 xs)
    (hi : t.ppEntries[i]? = some ((us ++ x :: p :: vs).headD 0)) :
    ∃ m', transpose m t i p = .ok (m', t.withChain i (us ++ p :: x :: vs)) ∧
      Relinks m m' (us ++ x :: p :: vs) (us ++ p :: x :: vs) xs xs := by
  have hswap := hc.swap
  obtain ⟨hsegus, hx, hp, hsegvs⟩ := seg_append.1 hc.seg
  have hnd := hc.nodup
  have h0 := hc.null_notMem
  simp only [List.nodup_append, List.nodup_cons, List.mem_cons, List.mem_append, not_or] at hnd h0
  obtain ⟨-, ⟨⟨hxp, hxvs⟩, hpvs, -⟩, hdisj⟩ := hnd
  obtain ⟨h0us, h0x, h0p, -⟩ := h0
  have hpus : p ∉ us := fun h => hdisj p h p (.inr (.inl rfl)) rfl
  have hxus : x ∉ us := fun h => hdisj x h x (.inl rfl) rfl
  obtain ⟨e, he, hl⟩ := exists_of_links hp
  obtain ⟨hnext, hprev⟩ := Prod.mk.inj hl
  obtain ⟨ex, hex, hlx⟩ := exists_of_links hx
  obtain ⟨-, hprevx⟩ := Prod.mk.inj hlx
  -- the entries around the two
  obtain ⟨m₁, hm₁, hw₁⟩ := linkNext_ok hi hsegus.last_isSome p
  have he₁ : m₁ p = some e := (hw₁.eq (setNext_getLastD hpus) rfl).trans he
  obtain ⟨m₂, hm₂, hw₂⟩ := linkPrev_ok (m := m₁) (y := vs.headD 0)
    (fun h => hw₁.links ▸ setNext_isSome (hsegvs.head_isSome h) _ _) x
  have he₂ : m₂ p = some e := (hw₂.eq (setPrev_headD hpvs) rfl).trans he₁
  rw [hw₁.links, hw₁.ages] at hw₂
  -- the two themselves
  have hx₂ : ∃ l, m₂.links x = some l := by
    rw [hw₂.links]
    exact setPrev_isSome (setNext_isSome ⟨_, hx⟩ _ _) _ _
  obtain ⟨m₃, m₄, hm₃, hm₄, hw₄⟩ := setLinks_ok (a := vs.headD 0) (b := p) hx₂ (Ne.symm h0x)
  have hp₄ : ∃ l, m₄.links p = some l := by
    rw [hw₄.links, Function.update_of_ne (Ne.symm hxp)]
    exact ⟨_, links_of_some he₂⟩
  obtain ⟨m₅, m₆, hm₅, hm₆, hw₆⟩ := setLinks_ok (a := x) (b := us.getLastD 0) hp₄ (Ne.symm h0p)
  rw [hw₄.links, hw₄.ages, hw₂.links, hw₂.ages] at hw₆
  refine ⟨m₆, ?_, hw₆.links ▸ hswap, hw₆.ages ▸ ha, ?_, ?_, ?_⟩
  · unfold transpose
    rw [entry_of_some he, ok_bind, if_neg (by rw [← hprev]; exact Ne.symm h0x), ← hprev]
    simp only
    rw [entry_of_some hex, ok_bind, ← hprevx, ← hnext, hm₁, ok_bind]
    simp only
    rw [hm₂, ok_bind, entry_of_some he₂, ok_bind, ← hnext, hm₃, ok_bind, hm₄, ok_bind, hm₅, ok_bind, hm₆, ok_bind]
    have hlinked := GhtHashTableT.linkedNext_chain hi h0us (p :: x :: vs)
    rw [List.headD_cons] at hlinked
    rw [hlinked]
    rfl
  · intro a hmem
    simp only [List.mem_append, List.mem_cons, not_or] at hmem
    obtain ⟨haus, hax, hap, havs⟩ := hmem
    rw [hw₆.links, Function.update_of_ne hap, Function.update_of_ne hax, setPrev_headD havs, setNext_getLastD haus]
  · intro a _
    rw [hw₆.ages]
  · rw [hw₆.content, hw₄.content, hw₂.content, hw₁.content]

theorem moveToFront_ok {f : Ptr} (hc : Chain m.links 0 (f :: us ++ p :: vs)) (ha : Chain m.ages 0 xs)
    (hi : t.ppEntries[i]? = some f) :
    ∃ m', moveToFront m t i p = .ok (m', t.withChain i (p :: (f :: us ++ vs))) ∧
      Relinks m m' (f :: us ++ p :: vs) (p :: (f :: us ++ vs)) xs xs := by
  have hun := hc.unlink
  obtain ⟨hsegus, hp, hsegvs⟩ := seg_append.1 hc.seg
  have hnd := hc.nodup
  have h0 := hc.null_notMem
  simp only [List.nodup_append, List.nodup_cons, List.mem_cons, List.mem_append, not_or] at hnd h0
  obtain ⟨-, ⟨hpvs, -⟩, hdisj⟩ := hnd
  obtain ⟨⟨h0f, h0us⟩, h0p, -⟩ := h0
  have hpf : p ≠ f := fun h => hdisj f (.inl rfl) p (.inl rfl) h.symm
  have hpus : p ∉ f :: us := by
    rw [List.mem_cons, not_or]
    exact ⟨hpf, fun h => hdisj p (.inr h) p (.inl rfl) rfl⟩
  have hlast0 : (f :: us).getLastD 0 ≠ 0 := by
    have h0' : 0 ∉ f :: us := by
      rw [List.mem_cons, not_or]
      exact ⟨h0f, h0us⟩
    exact fun h => List.cons_ne_nil f us ((getLastD_eq_null_iff h0').1 h)
  obtain ⟨e, he, hl⟩ := exists_of_links hp
  obtain ⟨hnext, hprev⟩ := Prod.mk.inj hl
  -- the entry is linked out
  obtain ⟨l, hlast⟩ := hsegus.last_isSome hlast0
  obtain ⟨m₁, hm₁, hw₁⟩ := setPNext_ok hlast hlast0 (vs.headD 0)
  have he₁ : m₁ p = some e := (hw₁.eq (setNext_getLastD hpus) rfl).trans he
  obtain ⟨m₂, hm₂, hw₂⟩ := linkPrev_ok (m := m₁) (y := vs.headD 0)
    (fun h => hw₁.links ▸ setNext_isSome (hsegvs.head_isSome h) _ _) ((f :: us).getLastD 0)
  have he₂ : m₂ p = some e := (hw₂.eq (setPrev_headD hpvs) rfl).trans he₁
  rw [hw₁.links, hw₁.ages] at hw₂
  rw [← hw₂.links] at hun
  -- and put first
  obtain ⟨m₃, m₄, hm₃, hm₄, hw₄⟩ := setLinks_ok (a := f) (b := 0) ⟨_, links_of_some he₂⟩ (Ne.symm h0p)
  obtain ⟨l', hf⟩ := hun.seg.isSome (a := f) (by simp)
  have hf₄ : m₄.links f = some l' := by
    rw [hw₄.links, Function.update_of_ne (Ne.symm hpf)]
    exact hf
  obtain ⟨m₅, hm₅, hw₅⟩ := setPPrev_ok hf₄ (Ne.symm h0f) p
  rw [hw₄.links, hw₄.ages, hw₂.ages] at hw₅
  have hfirst := hun.linkFirst (a := p) (by
    rw [List.mem_append, not_or]
    exact ⟨hpus, hpvs⟩) (Ne.symm h0p)
  refine ⟨m₅, ?_, hw₅.links ▸ hfirst, hw₅.ages ▸ ha, ?_, ?_, ?_⟩
  · unfold moveToFront
    rw [GhtHashTableT.head_of_some hi, ok_bind, if_neg hpf, entry_of_some he, ok_bind, ← hprev, ← hnext, hm₁, ok_bind,
      entry_of_some he₁, ok_bind, ← hprev, ← hnext, hm₂, ok_bind, hm₃, ok_bind, hm₄, ok_bind, hm₅, ok_bind,
      GhtHashTableT.setHead_of_some hi]
    rfl
  · intro a hmem
    simp only [List.mem_append, List.mem_cons, not_or] at hmem
    obtain ⟨⟨haf, haus⟩, hap, havs⟩ := hmem
    rw [hw₅.links, setPrev_of_ne haf, Function.update_of_ne hap, hw₂.links, setPrev_headD havs, setNext_getLastD (by simp [haf, haus])]
  · intro a _
    rw [hw₅.ages]
  · rw [hw₅.content, hw₄.content, hw₂.content, hw₁.content]

/-- A heuristic moves entries within the chain of the bucket. -/
theorem applyHeuristics_ok {as : List Ptr} (hc : Chain m.links 0 as) (ha : Chain m.ages 0 xs)
    (hi : t.ppEntries[i]? = some (as.headD 0)) (hp : p ∈ as) (iHeuristics : UInt8) :
    ∃ m' as', applyHeuristics m t i iHeuristics p = .ok (m', t.withChain i as') ∧ List.Perm as' as ∧
      Relinks m m' as as' xs xs := by
  have hstay : ∃ m' as', (.ok (m, t) : Except HashFault (Entries × GhtHashTableT)) = .ok (m', t.withChain i as') ∧ List.Perm as' as ∧
      Relinks m m' as as' xs xs := by
    refine ⟨m, as, ?_, .refl as, hc, ha, fun _ _ => rfl, fun _ _ => rfl, rfl⟩
    rw [GhtHashTableT.withChain, GhtHashTableT.set_of_getElem? hi]
  unfold applyHeuristics
  obtain ⟨us, vs, rfl⟩ := List.append_of_mem hp
  split
  · cases us with
    | nil =>
      unfold moveToFront
      rw [GhtHashTableT.head_of_some hi, ok_bind, if_pos (by rfl)]
      exact hstay
    | cons f us =>
      obtain ⟨m', hm, hr⟩ := moveToFront_ok hc ha hi
      exact ⟨m', _, hm, List.perm_middle.symm, hr⟩
  · split
    · rcases List.eq_nil_or_concat us with rfl | ⟨us, x, rfl⟩
      · obtain ⟨e, he, hl⟩ := exists_of_links hc.seg.get
        unfold transpose
        rw [entry_of_some he, ok_bind, if_pos (by exact (Prod.mk.inj hl).2.symm)]
        exact hstay
      · rw [List.concat_eq_append, List.append_assoc, List.singleton_append] at *
        obtain ⟨m', hm, hr⟩ := transpose_ok hc ha hi
        exact ⟨m', _, hm, (List.Perm.swap x p vs).append_left us, hr⟩
    · exact hstay

theorem linkFront_ok {as : List Ptr} (hc : Chain m.links 0 as) (ha : Chain m.ages 0 xs)
    (hi : t.ppEntries[i]? = some (as.headD 0)) (hp : ∃ l, m.links p = some l) (h0 : p ≠ 0) (hpas : p ∉ as) :
    ∃ m', linkFront m t i p = .ok (m', t.withChain i (p :: as)) ∧ Relinks m m' (p :: as) (p :: as) xs xs := by
  obtain ⟨m₁, m₂, hm₁, hm₂, hw₂⟩ := setLinks_ok (a := as.headD 0) (b := 0) hp h0
  obtain ⟨m₃, hm₃, hw₃⟩ := linkPrev_ok (m := m₂) (y := as.headD 0)
    (fun h => by
      rw [hw₂.links, Function.update_of_ne]
      · exact hc.seg.head_isSome h
      · intro e
        exact hpas (e ▸ headD_mem (by rintro rfl; exact h rfl))) p
  rw [hw₂.links, hw₂.ages] at hw₃
  refine ⟨m₃, ?_, hw₃.links ▸ hc.linkFirst hpas h0, hw₃.ages ▸ ha, ?_, ?_, ?_⟩
  · unfold linkFront
    rw [GhtHashTableT.head_of_some hi, ok_bind, hm₁, ok_bind, hm₂, ok_bind, hm₃, ok_bind,
      GhtHashTableT.setHead_of_some hi]
    rfl
  · intro a hmem
    rw [List.mem_cons, not_or] at hmem
    rw [hw₃.links, setPrev_headD hmem.2, Function.update_of_ne hmem.1]
  · intro a _
    rw [hw₃.ages]
  · rw [hw₃.content, hw₂.content]

/-- The entry whose age is not linked yet becomes the newest one. -/
theorem linkAge_ok {o : Ptr} (ha : Chain m.ages 0 xs) (hold : t.pOldest = xs.headD 0)
    (hnew : t.pNewest = xs.getLastD 0) (hp : m.ages p = some (0, o)) (h0 : p ≠ 0) (hpxs : p ∉ xs) :
    ∃ m', linkAge m t p = .ok (m', t.withAge (xs ++ [p])) ∧
      Writes m m' m.links (setNext 0 (Function.update m.ages p (some (0, xs.getLastD 0))) (xs.getLastD 0) p) := by
  obtain ⟨m₁, hm₁, hw₁⟩ := setPOlder_ok hp h0 (xs.getLastD 0)
  have hages : setPrev 0 m.ages p (xs.getLastD 0) = Function.update m.ages p (some (0, xs.getLastD 0)) := by
    rw [setPrev, if_neg h0, hp]
    rfl
  rw [hages] at hw₁
  have hnext : ∃ m₂, linkNewest m₁ (xs.getLastD 0) p = .ok m₂ ∧
      Writes m₁ m₂ m₁.links (setNext 0 m₁.ages (xs.getLastD 0) p) := by
    unfold linkNewest
    by_cases hl : xs.getLastD 0 = 0
    · refine ⟨m₁, if_neg (by simpa using hl), ?_⟩
      rw [hl, setNext_null]
      exact .refl m₁
    · obtain ⟨l, hlast⟩ := ha.seg.last_isSome hl
      have hne : xs.getLastD 0 ≠ p := by
        intro e
        exact hpxs (e ▸ getLastD_mem (by rintro rfl; exact hl rfl))
      have hlast₁ : m₁.ages (xs.getLastD 0) = some l := by
        rw [hw₁.ages, Function.update_of_ne hne]
        exact hlast
      obtain ⟨m₂, hm₂, hw₂⟩ := setPNewer_ok hlast₁ hl p
      exact ⟨m₂, by rw [if_pos hl, hm₂], hw₂⟩
  obtain ⟨m₂, hm₂, hw₂⟩ := hnext
  rw [hw₁.links, hw₁.ages] at hw₂
  refine ⟨m₂, ?_, hw₁.trans hw₂⟩
  have holdest : (if t.pOldest = 0 then p else t.pOldest) = (xs ++ [p]).headD 0 := by
    rw [headD_append, hold]
    cases xs with
    | nil => rfl
    | cons x xs =>
      rw [List.headD_cons, List.headD_cons, if_neg]
      rintro rfl
      exact ha.null_notMem (List.mem_cons_self ..)
  unfold linkAge GhtHashTableT.withAge
  rw [hnew]
  simp only
  rw [hm₁, ok_bind, hm₂, ok_bind, holdest, List.getLastD_concat]
  rfl

/-- The loop finds the last entry of a chain. -/
theorem lastLoop_ok : ∀ {as : List Ptr} {b q : Ptr} {fuel : Nat}, Seg m.links b as 0 → 0 ∉ as → as ≠ [] →
    q = as.headD 0 → as.length < fuel → lastLoop m fuel q = .ok (as.getLastD 0)
  | [], _, _, _, _, _, h, _, _ => absurd rfl h
  | a :: as, _, _, 0, _, _, _, _, hf => absurd hf (Nat.not_lt_zero _)
  | a :: as, b, q, fuel + 1, hs, h0, _, hq, hf => by
    rw [List.headD_cons] at hq
    subst hq
    rw [List.mem_cons, not_or] at h0
    obtain ⟨e, he, hl⟩ := exists_of_links hs.1
    rw [lastLoop, entry_of_some he, ok_bind, ← (Prod.mk.inj hl).1]
    cases as with
    | nil => rfl
    | cons a' as =>
      rw [if_neg (by
        rw [List.headD_cons]
        rintro rfl
        exact h0.2 (List.mem_cons_self ..))]
      rw [lastLoop_ok hs.2 h0.2 (List.cons_ne_nil a' as) rfl (by simpa using hf), List.getLastD_cons, List.getLastD_cons,
        List.getLastD_cons]

end

end PubsubBroker

/-
The lists of `common/list.c` as sequences: what each operation does to the chain of the list it is called
on, while the chains of the other lists stay as they are, and from this that a run of operations is a run
on sequences. A node that was pushed keeps what `malloc` left in its `free_fn`, and `lkd_list_remove` jumps
there unless it is NULL.
-/
import PubsubBroker.Common.LkdList
import PubsubBroker.Lib.Run

namespace PubsubBroker

open Linked

/-! ## Memory -/

/-- What a node holds besides its link. -/
structure Content where
  item : Ptr
  freeFn : Ptr
  deriving DecidableEq

namespace Mem

/-- The nodes as linked cells. -/
def get (m : Mem) (p : Ptr) : Option (Ptr × Content) := (m.nodes p).map fun n => (n.next, ⟨n.item, n.freeFn⟩)

/-- The cells from `p` on. -/
def cells (m : Mem) (p : Ptr) : List (Ptr × Content) := walk m.get 0 addresses p

variable {m m' : Mem} {p q : Ptr} {n : NodeT} {l : LkdList}

theorem node_of_some (h : m.nodes p = some n) : m.node p = .ok n := by
  unfold node
  rw [h]

theorem list_of_some (h : m.lists p = some l) : m.list p = .ok l := by
  unfold list
  rw [h]

theorem get_of_some (h : m.nodes p = some n) : m.get p = some (n.next, ⟨n.item, n.freeFn⟩) := by
  unfold get
  rw [h]
  rfl

theorem get_congr (h : m'.nodes p = m.nodes p) : m'.get p = m.get p := by
  unfold get
  rw [h]

theorem get_eq_none : m.get p = none ↔ m.nodes p = none := Option.map_eq_none_iff

theorem exists_node {c : Content} (h : m.get p = some (q, c)) : m.nodes p = some ⟨q, c.item, c.freeFn⟩ := by
  obtain ⟨n, hn, he⟩ := Option.map_eq_some_iff.1 h
  cases he
  exact hn

theorem putList_eq_self (h : m.lists p = some l) : m.putList p l = m := by
  unfold putList
  rw [← h, Function.update_eq_self]

@[simp] theorem putNode_lists : (m.putNode p n).lists = m.lists := rfl
@[simp] theorem putNode_self : (m.putNode p n).nodes p = some n := Function.update_self ..
@[simp] theorem putNode_of_ne (h : q ≠ p) : (m.putNode p n).nodes q = m.nodes q := Function.update_of_ne h ..
@[simp] theorem freeNode_lists : (m.freeNode p).lists = m.lists := rfl
@[simp] theorem freeNode_self : (m.freeNode p).nodes p = none := Function.update_self ..
@[simp] theorem freeNode_of_ne (h : q ≠ p) : (m.freeNode p).nodes q = m.nodes q := Function.update_of_ne h ..
@[simp] theorem putList_nodes : (m.putList p l).nodes = m.nodes := rfl
@[simp] theorem putList_self : (m.putList p l).lists p = some l := Function.update_self ..
@[simp] theorem putList_of_ne (h : q ≠ p) : (m.putList p l).lists q = m.lists q := Function.update_of_ne h ..

end Mem

/-! ## One list -/

/-- The addresses of some cells. -/
abbrev addrs (cs : List (Ptr × Content)) : List Ptr := cs.map Prod.fst

/-- The items of some cells. -/
abbrev items (cs : List (Ptr × Content)) : List Ptr := cs.map fun c => c.2.item

/-- The list `l` is made of the cells `cs`. -/
structure Holds (m : Mem) (l : LkdList) (cs : List (Ptr × Content)) : Prop where
  /-- The chain from the head on ends behind these cells. -/
  chain : Chain m.get 0 l.head cs
  /-- It does not come back to a node. -/
  acyclic : (addrs cs).Nodup
  head : l.head = (addrs cs).headD 0
  tail : l.tail = (addrs cs).getLastD 0
  size : l.size.toNat = cs.length
  headNull : l.head = 0 ↔ l.size = 0
  tailNull : l.tail = 0 ↔ l.size = 0
  autofree : l.autofree = 0
  nonNull : 0 ∉ items cs

/-- There are fewer nodes than addresses. -/
theorem length_lt_addresses {as : List Ptr} (h : as.Nodup) (h0 : 0 ∉ as) : as.length < addresses := by
  have hnd : ((0 :: as).map UInt64.toNat).Nodup :=
    List.Nodup.map (fun a b => UInt64.toNat_inj.1) (List.nodup_cons.2 ⟨h0, h⟩)
  have hsub : (0 :: as).map UInt64.toNat ⊆ List.range addresses := by
    intro n hn
    obtain ⟨a, -, rfl⟩ := List.mem_map.1 hn
    exact List.mem_range.2 a.toNat_lt
  have hlen := (List.subperm_of_subset hnd hsub).length_le
  rw [List.length_map, List.length_cons, List.length_range] at hlen
  omega

theorem getLastD_eq_null_iff {as : List Ptr} (h0 : 0 ∉ as) : as.getLastD 0 = 0 ↔ as = [] := by
  rcases List.eq_nil_or_concat as with rfl | ⟨as, a, rfl⟩
  · simp
  · simp only [List.concat_eq_append, List.mem_append, List.mem_singleton, not_or] at h0
    simp [Ne.symm h0.2]

theorem Holds.length_lt {m : Mem} {l : LkdList} {cs : List (Ptr × Content)} (h : Holds m l cs) :
    cs.length < addresses := by
  have := length_lt_addresses h.acyclic h.chain.null_notMem
  rwa [List.length_map] at this

/-- A chain whose last node is the tail and whose length is the size makes a list. -/
theorem Holds.intro {m : Mem} {l : LkdList} {cs : List (Ptr × Content)} (chain : Chain m.get 0 l.head cs)
    (tail : l.tail = (addrs cs).getLastD 0) (size : l.size = UInt64.ofNat cs.length) (autofree : l.autofree = 0)
    (nonNull : 0 ∉ items cs) : Holds m l cs := by
  have hlt := length_lt_addresses chain.nodup chain.null_notMem
  rw [List.length_map] at hlt
  have hsize : l.size.toNat = cs.length := by
    rw [size]
    exact UInt64.toNat_ofNat_of_lt hlt
  have hzero : l.size = 0 ↔ cs = [] := by
    rw [← UInt64.toNat_inj, hsize]
    exact List.length_eq_zero_iff
  refine ⟨chain, chain.nodup, chain.eq_head, tail, hsize, ?_, ?_, autofree, nonNull⟩
  · rw [hzero, chain.null_iff]
  · rw [hzero, tail, getLastD_eq_null_iff chain.null_notMem, List.map_eq_nil_iff]

theorem Holds.size_eq {m : Mem} {l : LkdList} {cs : List (Ptr × Content)} (h : Holds m l cs) :
    l.size = UInt64.ofNat cs.length := by
  rw [← h.size, UInt64.ofNat_toNat]

/-- A list is as before in a memory where its nodes are. -/
theorem Holds.frame {m m' : Mem} {l : LkdList} {cs : List (Ptr × Content)} (h : Holds m l cs)
    (hnodes : ∀ p ∈ addrs cs, m'.nodes p = m.nodes p) : Holds m' l cs :=
  .intro (h.chain.frame fun _ hc => Mem.get_congr (hnodes _ (List.mem_map_of_mem hc))) h.tail h.size_eq h.autofree h.nonNull

theorem Holds.allocated {m : Mem} {l : LkdList} {cs : List (Ptr × Content)} (h : Holds m l cs) {p : Ptr}
    (hp : p ∈ addrs cs) : m.nodes p ≠ none := by
  obtain ⟨c, hc, rfl⟩ := List.mem_map.1 hp
  obtain ⟨-, r, hr⟩ := h.chain.get_of_mem hc
  rw [Mem.exists_node hr]
  exact Option.some_ne_none _

theorem Holds.cells_eq {m : Mem} {l : LkdList} {cs : List (Ptr × Content)} (h : Holds m l cs) : m.cells l.head = cs :=
  h.chain.walk_eq h.length_lt

/-! ## One operation -/

/-- From `m` to `m'` the list at `p` is changed, from the cells `cs` to `cs'`. Other memory that was in use
stays as it is; the new cells lie where memory was free, and the old ones are freed. -/
structure Moves (m m' : Mem) (p : Ptr) (cs cs' : List (Ptr × Content)) : Prop where
  lists : ∀ q, q ≠ p → m'.lists q = m.lists q
  nodes : ∀ q, q ∉ addrs cs → m.nodes q ≠ none → m'.nodes q = m.nodes q
  fresh : ∀ q ∈ addrs cs', q ∈ addrs cs ∨ m.nodes q = none
  freed : ∀ q, q ∉ addrs cs' → q ∈ addrs cs ∨ m.nodes q = none → m'.nodes q = none
  held : ∃ l, m'.lists p = some l ∧ Holds m' l cs'

theorem Moves.refl {m : Mem} {self : Ptr} {l : LkdList} {cs : List (Ptr × Content)} (hl : m.lists self = some l)
    (h : Holds m l cs) : Moves m m self cs cs :=
  ⟨fun _ _ => rfl, fun _ _ _ => rfl, fun _ => .inl, fun _ hq hor => hor.resolve_left hq, l, hl, h⟩

theorem Moves.trans {m m' m'' : Mem} {self : Ptr} {as bs cs : List (Ptr × Content)} (h : Moves m m' self as bs)
    (h' : Moves m' m'' self bs cs) : Moves m m'' self as cs where
  lists p hp := (h'.lists p hp).trans (h.lists p hp)
  nodes p hp hne := by
    have hkeep := h.nodes p hp hne
    have hb : p ∉ addrs bs := fun hmem => (h.fresh p hmem).elim hp hne
    exact (h'.nodes p hb (hkeep ▸ hne)).trans hkeep
  fresh p hp := by
    by_contra hnot
    rw [not_or] at hnot
    have hkeep := h.nodes p hnot.1 hnot.2
    rcases h'.fresh p hp with hb | hnone
    · exact (h.fresh p hb).elim hnot.1 hnot.2
    · exact hnot.2 (hkeep ▸ hnone)
  freed p hp hor := by
    by_cases hb : p ∈ addrs bs
    · exact h'.freed p hp (.inl hb)
    · exact h'.freed p hp (.inr (h.freed p hb hor))
  held := h'.held

/-- A cell is added in free memory. -/
theorem Moves.of_added {m m' : Mem} {p node : Ptr} {cs cs' : List (Ptr × Content)} (hfree : m.nodes node = none)
    (hcs : ∀ q, q ∈ addrs cs' ↔ q ∈ addrs cs ∨ q = node) (lists : ∀ q, q ≠ p → m'.lists q = m.lists q)
    (hnodes : ∀ q, q ∉ addrs cs → q ≠ node → m'.nodes q = m.nodes q)
    (held : ∃ l, m'.lists p = some l ∧ Holds m' l cs') : Moves m m' p cs cs' where
  lists := lists
  nodes q hq hne := by
    apply hnodes q hq
    rintro rfl
    exact hne hfree
  fresh q hq := by
    apply ((hcs q).1 hq).imp id
    rintro rfl
    exact hfree
  freed q hq hor := by
    rw [hcs, not_or] at hq
    rw [hnodes q hq.1 hq.2]
    exact hor.resolve_left hq.1
  held := held

/-- A cell is taken off, and its memory freed. -/
theorem Moves.of_removed {m m' : Mem} {p : Ptr} {cs cs' : List (Ptr × Content)} (node : Ptr) (hnone : m'.nodes node = none)
    (hcs : ∀ q, q ∈ addrs cs ↔ q ∈ addrs cs' ∨ q = node) (lists : ∀ q, q ≠ p → m'.lists q = m.lists q)
    (hnodes : ∀ q, q ∉ addrs cs → m'.nodes q = m.nodes q)
    (held : ∃ l, m'.lists p = some l ∧ Holds m' l cs') : Moves m m' p cs cs' where
  lists := lists
  nodes q hq _ := hnodes q hq
  fresh q hq := .inl ((hcs q).2 (.inl hq))
  freed q hq hor := by
    by_cases hnode : q = node
    · rw [hnode, hnone]
    · have hout : q ∉ addrs cs := fun hmem => ((hcs q).1 hmem).elim hq hnode
      rw [hnodes q hout]
      exact hor.resolve_left hout
  held := held

section
variable (strdup : Ptr → Ptr) {m : Mem} {self : Ptr} {l : LkdList} {cs : List (Ptr × Content)}

@[simp] theorem ok_bind {ε α β : Type} (a : α) (f : α → Except ε β) : (Except.ok a >>= f) = f a := rfl

theorem lkdListCreate_moves (h0 : self ≠ 0) : ∃ m', lkdListCreate m self = .ok m' ∧ Moves m m' self [] [] := by
  refine ⟨m.putList self ⟨0, 0, 0, 0⟩, if_neg h0, fun p hp => Mem.putList_of_ne hp, fun _ _ _ => rfl, by simp, by simp, ?_⟩
  exact ⟨_, Mem.putList_self, .intro rfl rfl rfl rfl (by simp)⟩

/-- The size after one more cell. -/
theorem Holds.size_succ (h : Holds m l cs) : l.size + 1 = UInt64.ofNat (cs.length + 1) := by
  rw [h.size_eq, UInt64.ofNat_add]
  rfl

/-- The size after one cell less. -/
theorem Holds.size_pred {n : Nat} (h : Holds m l cs) (hn : cs.length = n + 1) : l.size - 1 = UInt64.ofNat n := by
  rw [h.size_eq, hn, UInt64.ofNat_add]
  exact UInt64.add_sub_cancel ..

/-- `lkd_list_append` puts a cell behind the last one. -/
theorem lkdListAppend_moves (hl : m.lists self = some l) (h : Holds m l cs) {item node : Ptr} (hitem : item ≠ 0)
    (hnode : node ≠ 0) (hfree : m.nodes node = none) :
    ∃ m', lkdListAppend strdup m self item node = .ok (m', LIST_OK) ∧
      Moves m m' self cs (cs ++ [(node, ⟨item, 0⟩)]) := by
  have hget : m.get node = none := Mem.get_eq_none.2 hfree
  have hnonNull : 0 ∉ items (cs ++ [(node, ⟨item, 0⟩)]) := by
    simpa [items, Ne.symm hitem] using h.nonNull
  have hadded : ∀ q, q ∈ addrs (cs ++ [(node, ⟨item, 0⟩)]) ↔ q ∈ addrs cs ∨ q = node := by
    intro q
    rw [addrs, List.map_append, List.mem_append]
    exact or_congr_right List.mem_singleton
  unfold lkdListAppend
  rw [if_neg hitem, if_neg hnode]
  simp only [Mem.list_of_some (show (m.putNode node ⟨0, 0, 0⟩).lists self = some l from hl), ok_bind, h.autofree,
    ne_eq, not_true_eq_false, if_false]
  rcases List.eq_nil_or_concat cs with rfl | ⟨ds, ⟨b, c⟩, rfl⟩
  · -- the list was empty
    have htail : l.tail = 0 := h.tail
    rw [if_neg (by simpa using htail)]
    refine ⟨_, rfl, .of_added hfree hadded (fun q hq => ?_) (fun q _ hq => ?_) ⟨_, Mem.putList_self, ?_⟩⟩
    · simp [hq]
    · simp [hq]
    · refine .intro ⟨rfl, hnode, 0, ?_, rfl⟩ rfl h.size_succ rfl hnonNull
      exact Mem.get_of_some (n := ⟨0, item, 0⟩) (by simp)
  · -- the last node is linked to the new one
    rw [List.concat_eq_append] at *
    have htail : l.tail = b := by simpa [addrs] using h.tail
    obtain ⟨hb, r, hr⟩ := h.chain.get_of_mem (c := (b, c)) (by simp)
    have hbnode : b ≠ node := by
      rintro rfl
      exact h.allocated (by simp [addrs]) hfree
    have hold := Mem.exists_node hr
    rw [htail, if_pos (by simpa using hb)]
    rw [Mem.node_of_some (n := ⟨r, c.item, c.freeFn⟩) (by simp [hbnode, hold])]
    simp only [ok_bind]
    rw [Mem.node_of_some (n := ⟨0, item, 0⟩) (by simp [Ne.symm hbnode])]
    simp only [ok_bind]
    refine ⟨_, rfl, .of_added hfree hadded (fun q hq => ?_) (fun q hq hqn => ?_) ⟨_, Mem.putList_self, ?_⟩⟩
    · simp [hq]
    · have hqb : q ≠ b := fun e => hq (by simp [e])
      simp [hqn, hqb]
    · refine .intro (h.chain.snoc hnode hget ?_ ?_ fun q hqn hqb => ?_) (by simp [addrs]) ?_ rfl hnonNull
      · exact Mem.get_of_some (n := ⟨node, c.item, c.freeFn⟩) (by simp [hbnode])
      · exact Mem.get_of_some (n := ⟨0, item, 0⟩) (by simp)
      · exact Mem.get_congr (by simp [hqn, hqb])
      · rw [List.length_append]
        exact h.size_succ

/-- `lkd_list_push` puts a cell before the first one. -/
theorem lkdListPush_moves (hl : m.lists self = some l) (h : Holds m l cs) {item node freeFn : Ptr} (hitem : item ≠ 0)
    (hnode : node ≠ 0) (hfree : m.nodes node = none) :
    ∃ m', lkdListPush strdup m self item node freeFn = .ok (m', LIST_OK) ∧
      Moves m m' self cs ((node, ⟨item, freeFn⟩) :: cs) := by
  have hnonNull : 0 ∉ items ((node, ⟨item, freeFn⟩) :: cs) := by
    simpa [items, Ne.symm hitem] using h.nonNull
  have hchain : Chain (m.putNode node ⟨l.head, item, freeFn⟩).get 0 node ((node, ⟨item, freeFn⟩) :: cs) := by
    refine h.chain.cons hnode (Mem.get_eq_none.2 hfree) ?_ fun p hp => Mem.get_congr (Mem.putNode_of_ne hp)
    exact Mem.get_of_some (n := ⟨l.head, item, freeFn⟩) Mem.putNode_self
  unfold lkdListPush
  rw [if_neg hitem, if_neg hnode, Mem.list_of_some hl]
  simp only [ok_bind, h.autofree, ne_eq, not_true_eq_false, if_false]
  refine ⟨_, rfl, .of_added hfree (fun q => ?_) (fun q hq => ?_) (fun q _ hq => ?_) ⟨_, Mem.putList_self, ?_⟩⟩
  · rw [addrs, List.map_cons, List.mem_cons, or_comm]
  · simp [hq]
  · simp [hq]
  · refine .intro hchain ?_ h.size_succ rfl hnonNull
    cases cs with
    | nil => exact if_pos h.tail
    | cons c cs =>
      have hne : l.tail ≠ 0 := by
        rw [h.tail, ne_eq, getLastD_eq_null_iff h.chain.null_notMem]
        simp
      exact (if_neg hne).trans h.tail

/-- `lkd_list_pop` takes the first cell off. -/
theorem lkdListPop_moves (hl : m.lists self = some l) (h : Holds m l cs) :
    ∃ m', lkdListPop m self = .ok (m', (items cs).headD 0) ∧ Moves m m' self cs cs.tail := by
  unfold lkdListPop
  rw [Mem.list_of_some hl]
  simp only [ok_bind]
  cases cs with
  | nil =>
    have hhead : l.head = 0 := h.head
    rw [if_pos hhead]
    exact ⟨m, rfl, .refl hl h⟩
  | cons a cs =>
    obtain ⟨a, c⟩ := a
    have hhead : l.head = a := h.head
    have hnd := h.acyclic
    obtain ⟨ha, r, hr⟩ := h.chain.get_of_mem (c := (a, c)) List.mem_cons_self
    have hold := Mem.exists_node hr
    -- a node is there, so the branch for the empty list is not taken
    rw [hhead, if_neg ha, Mem.node_of_some hold]
    simp only [ok_bind]
    refine ⟨_, rfl, .of_removed a (by simp) (fun q => ?_) (fun q hq => ?_) (fun q hq => ?_)
      ⟨_, Mem.putList_self, ?_⟩⟩
    · rw [addrs, List.map_cons, List.mem_cons, or_comm]
      rfl
    · simp [hq]
    · have hqa : q ≠ a := fun e => hq (by simp [e])
      simp [hqa]
    · refine .intro (h.chain.tail hr fun p hp => Mem.get_congr (by simp [hp])) ?_ (h.size_pred rfl) h.autofree ?_
      · -- the tail is the node taken off only when there was no other
        cases cs with
        | nil => exact if_pos h.tail
        | cons d ds =>
          have hmem : l.tail ∈ addrs (d :: ds) := by
            rw [h.tail]
            exact List.getLast_mem (l := addrs (d :: ds)) (by simp)
          have hne : l.tail ≠ a := by
            rintro rfl
            exact (List.nodup_cons.1 h.acyclic).1 hmem
          exact (if_neg hne).trans h.tail
      · exact fun hmem => h.nonNull (List.mem_cons_of_mem _ hmem)

/-- The search finds the first cell with the item, or comes to the end. -/
theorem findItem_spec (item : Ptr) : ∀ {cs : List (Ptr × Content)} {p : Ptr} (prev : Ptr) {fuel : Nat},
    Chain m.get 0 p cs → cs.length < fuel →
    (item ∉ items cs ∧ ∃ prev', findItem m item fuel prev p = .ok (prev', 0)) ∨
    ∃ us c vs, cs = us ++ c :: vs ∧ item ∉ items us ∧ c.2.item = item ∧
      findItem m item fuel prev p = .ok ((addrs us).getLastD prev, c.1)
  | _, _, _, 0, _, hlt => absurd hlt (Nat.not_lt_zero _)
  | [], p, prev, fuel + 1, hc, _ => by
    refine .inl ⟨List.not_mem_nil, prev, ?_⟩
    obtain rfl := Chain.nil_iff.1 hc
    rw [findItem, if_pos rfl]
  | (a, c) :: cs, p, prev, fuel + 1, hc, hlt => by
    obtain ⟨rfl, hp, r, hr, hrest⟩ := hc
    rw [findItem, if_neg hp, Mem.node_of_some (Mem.exists_node hr), ok_bind]
    by_cases hitem : c.item = item
    · exact .inr ⟨[], (p, c), cs, rfl, List.not_mem_nil, hitem, if_pos hitem⟩
    · rw [if_neg hitem]
      rcases findItem_spec item p hrest (Nat.lt_of_succ_lt_succ hlt) with
        ⟨hnot, prev', hfind⟩ | ⟨us, d, vs, rfl, hnot, hd, hfind⟩
      · exact .inl ⟨List.not_mem_cons_of_ne_of_not_mem (Ne.symm hitem) hnot, prev', hfind⟩
      · refine .inr ⟨(p, c) :: us, d, vs, rfl, List.not_mem_cons_of_ne_of_not_mem (Ne.symm hitem) hnot, hd, ?_⟩
        rw [hfind]
        cases us <;> rfl

/-- The cell at `a` is unlinked from the list `l`, but not freed. -/
structure Unlinked (m m' : Mem) (l l' : LkdList) (us vs : List (Ptr × Content)) (a : Ptr) : Prop where
  lists : m'.lists = m.lists
  nodes : ∀ p, p ∉ addrs us → m'.nodes p = m.nodes p
  chain : Chain (m'.freeNode a).get 0 l'.head (us ++ vs)
  tail : l'.tail = (addrs (us ++ vs)).getLastD 0
  size : l'.size = l.size
  autofree : l'.autofree = l.autofree

theorem getLastD_append (as bs : List Ptr) : (as ++ bs).getLastD 0 = bs.getLastD (as.getLastD 0) := by
  rw [List.getLastD_eq_getLast?, List.getLastD_eq_getLast?, List.getLastD_eq_getLast?, List.getLast?_append]
  cases bs.getLast? <;> rfl

/-- The tail of a list from which a cell is unlinked, when `prev` is the last node before it. -/
theorem tail_of_unlinked {us vs : List (Ptr × Content)} {a r prev : Ptr} {c : Content} (h : Holds m l (us ++ (a, c) :: vs))
    (hr : m.get a = some (r, c)) (hprev : prev = (addrs us).getLastD 0) :
    (if r = 0 then prev else l.tail) = (addrs (us ++ vs)).getLastD 0 := by
  have hrest : Chain m.get 0 r vs := h.chain.suffix.tail hr fun _ _ => rfl
  simp only [h.tail, hprev, addrs, List.map_append, getLastD_append]
  cases vs with
  | nil => exact if_pos hrest
  | cons d ds => exact if_neg fun h0 => List.cons_ne_nil d ds (hrest.null_iff.1 h0)

theorem Unlinked.of_head {vs : List (Ptr × Content)} {a r : Ptr} {c : Content} (h : Holds m l ((a, c) :: vs))
    (hr : m.get a = some (r, c)) :
    Unlinked m m l { l with head := r, tail := if r = 0 then 0 else l.tail } [] vs a where
  lists := rfl
  nodes _ _ := rfl
  chain := h.chain.tail hr fun _ hp => Mem.get_congr (Mem.freeNode_of_ne hp)
  tail := by
    have h' : Holds m l ([] ++ (a, c) :: vs) := h
    exact tail_of_unlinked h' hr rfl
  size := rfl
  autofree := rfl

theorem Unlinked.of_prev {us vs : List (Ptr × Content)} {a b r : Ptr} {c d : Content}
    (h : Holds m l (us ++ [(b, d)] ++ (a, c) :: vs)) (hr : m.get a = some (r, c)) :
    Unlinked m (m.putNode b ⟨r, d.item, d.freeFn⟩) l { l with tail := if r = 0 then b else l.tail } (us ++ [(b, d)]) vs a where
  lists := rfl
  nodes p hp := Mem.putNode_of_ne fun e => hp (by simp [e])
  chain := by
    have hchain := h.chain
    have hnd := h.acyclic
    have hba : b ≠ a := by
      rintro rfl
      simp [addrs, List.nodup_append] at hnd
    rw [List.append_assoc] at hchain ⊢
    refine hchain.unlink hr ?_ fun p hpa hpb => Mem.get_congr (by simp [hpa, hpb])
    exact Mem.get_of_some (n := ⟨r, d.item, d.freeFn⟩) (by simp [hba])
  tail := tail_of_unlinked h hr (by simp [addrs])
  size := rfl
  autofree := rfl

/-- The list without the cell, once that is freed. -/
theorem Unlinked.freed_moves {us vs : List (Ptr × Content)} {a : Ptr} {c : Content} {m' : Mem} {l' : LkdList}
    (hu : Unlinked m m' l l' us vs a) (h : Holds m l (us ++ (a, c) :: vs)) :
    Moves m ((m'.freeNode a).putList self { l' with size := l'.size - 1 }) self (us ++ (a, c) :: vs) (us ++ vs) := by
  have hsub : us ++ vs ⊆ us ++ (a, c) :: vs := by
    intro d hd
    rw [List.mem_append] at hd ⊢
    exact hd.imp id (List.mem_cons_of_mem _)
  refine .of_removed a (by simp) (fun q => ?_) (fun q hq => ?_) (fun q hq => ?_) ⟨_, Mem.putList_self, ?_⟩
  · simp only [addrs, List.map_append, List.map_cons, List.mem_append, List.mem_cons]
    exact (or_congr_right or_comm).trans or_assoc.symm
  · simp [hq, hu.lists]
  · simp only [addrs, List.map_append, List.map_cons, List.mem_append, List.mem_cons, not_or] at hq
    simp [hq.2.1, hu.nodes q hq.1]
  · refine .intro hu.chain hu.tail ?_ (hu.autofree.trans h.autofree) fun hmem => h.nonNull (List.map_subset _ hsub hmem)
    simp only [hu.size]
    exact h.size_pred (by simp [Nat.add_assoc])

theorem Unlinked.moves {us vs : List (Ptr × Content)} {a : Ptr} {c : Content} {m' : Mem} {l' : LkdList}
    (hu : Unlinked m m' l l' us vs a) (h : Holds m l (us ++ (a, c) :: vs)) {n : NodeT} (hfn : n.freeFn = 0) :
    ∃ m'', removeNode m' self l' a n = .ok (m'', LIST_OK) ∧ Moves m m'' self (us ++ (a, c) :: vs) (us ++ vs) :=
  ⟨_, if_neg (by simpa using hfn), hu.freed_moves h⟩

/-- `lkd_list_remove` up to where the node is unlinked: what it does then, or when there is none, is given. -/
def unlinkThen {α : Type} (m : Mem) (self item : Ptr) (missing : Except Fault α)
    (found : Mem → LkdList → Ptr → NodeT → Except Fault α) : Except Fault α := do
  let l ← m.list self
  let (prev, node) ← findItem m item addresses 0 l.head
  if node = 0 then missing
  else
    let n ← m.node node
    if prev ≠ 0 then
      let p ← m.node prev
      let m := m.putNode prev { p with next := n.next }
      found m { l with tail := if n.next = 0 then prev else l.tail } node n
    else
      found m { l with head := n.next, tail := if n.next = 0 then prev else l.tail } node n

/-- The item is missing, or the first cell with the item is unlinked. -/
theorem unlinkThen_eq {α : Type} (hl : m.lists self = some l) (h : Holds m l cs) (item : Ptr) (missing : Except Fault α)
    (found : Mem → LkdList → Ptr → NodeT → Except Fault α) :
    (item ∉ items cs ∧ unlinkThen m self item missing found = missing) ∨
    ∃ us a c vs, cs = us ++ (a, c) :: vs ∧ item ∉ items us ∧ c.item = item ∧
      ∃ m' l' n, unlinkThen m self item missing found = found m' l' a n ∧ n.item = c.item ∧ n.freeFn = c.freeFn ∧
        Unlinked m m' l l' us vs a := by
  unfold unlinkThen
  rw [Mem.list_of_some hl, ok_bind]
  rcases findItem_spec item 0 h.chain h.length_lt with ⟨hnot, prev', hfind⟩ | ⟨us, ⟨a, c⟩, vs, rfl, hnot, hitem, hfind⟩
  · left
    rw [hfind, ok_bind]
    exact ⟨hnot, if_pos rfl⟩
  · right
    obtain ⟨ha, r, hr⟩ := h.chain.get_of_mem (c := (a, c)) (by simp)
    refine ⟨us, a, c, vs, rfl, hnot, hitem, ?_⟩
    rw [hfind, ok_bind]
    simp only
    rw [if_neg ha, Mem.node_of_some (Mem.exists_node hr), ok_bind]
    -- the first node, or one behind another
    rcases List.eq_nil_or_concat us with rfl | ⟨ws, ⟨b, d⟩, rfl⟩
    · exact ⟨m, _, _, if_neg (by simp), rfl, rfl, .of_head h hr⟩
    · rw [List.concat_eq_append] at h ⊢
      obtain ⟨hb, s, hs⟩ := h.chain.get_of_mem (c := (b, d)) (by simp)
      have hprev : (addrs (ws ++ [(b, d)])).getLastD 0 = b := by simp [addrs]
      rw [hprev, if_pos hb, Mem.node_of_some (Mem.exists_node hs), ok_bind]
      exact ⟨_, _, _, rfl, rfl, rfl, .of_prev h hr⟩

/-- `lkd_list_remove` reports that the item is missing, or unlinks the first cell with the item. -/
theorem lkdListRemove_eq (hl : m.lists self = some l) (h : Holds m l cs) (item : Ptr) :
    (item ∉ items cs ∧ lkdListRemove m self item = .ok (m, LIST_ERR)) ∨
    ∃ us a c vs, cs = us ++ (a, c) :: vs ∧ item ∉ items us ∧ c.item = item ∧
      ∃ m' l' n, lkdListRemove m self item = removeNode m' self l' a n ∧ n.freeFn = c.freeFn ∧
        Unlinked m m' l l' us vs a := by
  have hremove : lkdListRemove m self item =
      unlinkThen m self item (.ok (m, LIST_ERR)) fun m l node n => removeNode m self l node n := rfl
  rw [hremove]
  rcases unlinkThen_eq hl h item _ _ with hmissing | ⟨us, a, c, vs, hcs, hnot, hitem, m', l', n, heq, -, hfn, hu⟩
  · exact .inl hmissing
  · exact .inr ⟨us, a, c, vs, hcs, hnot, hitem, m', l', n, heq, hfn, hu⟩

/-- Addresses that `malloc` returns one after the other: not NULL, not in use, and all different. -/
structure FreeNodes (m : Mem) (mallocs : List Ptr) : Prop where
  nodup : mallocs.Nodup
  notNull : ∀ a ∈ mallocs, a ≠ 0
  free : ∀ a ∈ mallocs, m.nodes a = none

/-- A chain that the list does not share cells with is still there, and shares none afterwards. -/
theorem Moves.chain {m' : Mem} {cs' vs : List (Ptr × Content)} {q : Ptr} (hm : Moves m m' self cs cs')
    (hc : Chain m.get 0 q vs) (hdisj : (addrs vs).Disjoint (addrs cs)) :
    Chain m'.get 0 q vs ∧ (addrs vs).Disjoint (addrs cs') := by
  have hused : ∀ a ∈ addrs vs, m.nodes a ≠ none := by
    intro a ha
    obtain ⟨d, hd, rfl⟩ := List.mem_map.1 ha
    obtain ⟨-, s, hs⟩ := Seg.get_of_mem hc hd
    simp [Mem.exists_node hs]
  constructor
  · refine Seg.frame hc fun d hd => Mem.get_congr ?_
    have hmem : d.1 ∈ addrs vs := List.mem_map_of_mem hd
    exact hm.nodes _ (hdisj hmem) (hused _ hmem)
  · intro a ha ha'
    exact (hm.fresh a ha').elim (hdisj ha) (hused a ha)

/-- The first address is taken for a new cell, the others are still free. -/
theorem FreeNodes.rest {m' : Mem} {a : Ptr} {c : Content} {mallocs : List Ptr} (hfree : FreeNodes m (a :: mallocs))
    (h : Holds m l cs) (hm : Moves m m' self cs (cs ++ [(a, c)])) : FreeNodes m' mallocs := by
  have hnd := List.nodup_cons.1 hfree.nodup
  refine ⟨hnd.2, fun q hq => hfree.notNull q (List.mem_cons_of_mem _ hq), fun q hq => ?_⟩
  have hq' := hfree.free q (List.mem_cons_of_mem _ hq)
  refine hm.freed q (fun hmem => ?_) (.inr hq')
  rw [addrs, List.map_append, List.mem_append] at hmem
  rcases hmem with hmem | hmem
  · exact h.allocated hmem hq'
  · obtain rfl := List.mem_singleton.1 hmem
    exact hnd.1 hq

/-- The loop of `lkd_list_dup` puts a cell behind the copy for each cell from `p` on, which it leaves as they
are. -/
theorem dupLoop_moves {copy : Ptr} : ∀ {vs : List (Ptr × Content)} {mallocs : List Ptr} {m : Mem} {p : Ptr}
    {l : LkdList} {ds : List (Ptr × Content)}, m.lists copy = some l → Holds m l ds → Chain m.get 0 p vs →
    (addrs vs).Disjoint (addrs ds) → 0 ∉ items vs → FreeNodes m mallocs → vs.length ≤ mallocs.length →
    ∃ m' ds', dupLoop strdup copy mallocs m p = .ok (m', copy) ∧ Moves m m' copy ds (ds ++ ds') ∧ items ds' = items vs
  | [], mallocs, m, p, l, ds, hl, h, hc, _, _, _, _ => by
    refine ⟨m, [], ?_, by rw [List.append_nil]; exact .refl hl h, rfl⟩
    obtain rfl := Chain.nil_iff.1 hc
    cases mallocs <;> exact if_pos rfl
  | (b, c) :: vs, [], _, _, _, _, _, _, _, _, _, _, hlen => absurd hlen (Nat.not_succ_le_zero _)
  | (b, c) :: vs, a :: mallocs, m, p, l, ds, hl, h, hc, hdisj, h0, hfree, hlen => by
    rw [items, List.map_cons, List.mem_cons, not_or] at h0
    obtain ⟨m₁, happend, hmoves⟩ := lkdListAppend_moves strdup hl h (Ne.symm h0.1) (hfree.notNull a List.mem_cons_self)
      (hfree.free a List.mem_cons_self)
    obtain ⟨l₁, hl₁, h₁⟩ := hmoves.held
    obtain ⟨hc₁, hdisj₁⟩ := hmoves.chain hc hdisj
    -- the node is read again after the append, and is as before
    obtain ⟨rfl, hp, _, hr, -⟩ := hc
    obtain ⟨-, -, r, hr₁, hrest₁⟩ := hc₁
    have hrest_disj := (List.disjoint_cons_left.1 hdisj₁).2
    obtain ⟨m', ds', hloop, hmoves', hitems⟩ := dupLoop_moves hl₁ h₁ hrest₁ hrest_disj h0.2 (hfree.rest h hmoves)
      (Nat.le_of_succ_le_succ hlen)
    refine ⟨m', (a, ⟨c.item, 0⟩) :: ds', ?_, ?_, ?_⟩
    · rw [dupLoop, if_neg hp, Mem.node_of_some (Mem.exists_node hr), ok_bind]
      simp only [happend, ok_bind]
      rw [if_neg (by decide), Mem.node_of_some (Mem.exists_node hr₁), ok_bind, hloop]
    · rw [List.append_assoc] at hmoves'
      exact hmoves.trans hmoves'
    · rw [items, List.map_cons, ← items, hitems]
      rfl

/-- `lkd_list_dup` makes a list with the same items. -/
theorem lkdListDup_moves (hself : self ≠ 0) (hl : m.lists self = some l) (h : Holds m l cs) {copy : Ptr} (hcopy : copy ≠ 0)
    (hnew : m.lists copy = none) {mallocs : List Ptr} (hfree : FreeNodes m mallocs) (hlen : cs.length ≤ mallocs.length) :
    ∃ m' ds, lkdListDup strdup m self copy mallocs = .ok (m', copy) ∧ Moves m m' copy [] ds ∧ items ds = items cs := by
  obtain ⟨m₁, hcreate, hmoves⟩ := lkdListCreate_moves (m := m) hcopy
  obtain ⟨l₁, hl₁, h₁⟩ := hmoves.held
  have hne : self ≠ copy := by
    rintro rfl
    rw [hl] at hnew
    cases hnew
  have hself₁ : m₁.lists self = some l := (hmoves.lists self hne).trans hl
  have hauto : { l₁ with autofree := l.autofree } = l₁ := by rw [h.autofree, ← h₁.autofree]
  have hchain₁ : Chain m₁.get 0 l.head cs := by
    refine Seg.frame h.chain fun c hc => Mem.get_congr ?_
    exact hmoves.nodes _ List.not_mem_nil (h.allocated (List.mem_map_of_mem hc))
  have hfree₁ : FreeNodes m₁ mallocs :=
    ⟨hfree.nodup, hfree.notNull, fun a ha => hmoves.freed a List.not_mem_nil (.inr (hfree.free a ha))⟩
  obtain ⟨m', ds, hloop, hmoves', hitems⟩ :=
    dupLoop_moves strdup hl₁ h₁ hchain₁ (List.disjoint_nil_right _) h.nonNull hfree₁ hlen
  refine ⟨m', ds, ?_, hmoves.trans hmoves', hitems⟩
  unfold lkdListDup
  rw [if_neg hself, hcreate, ok_bind, Mem.list_of_some hself₁, ok_bind, Mem.list_of_some hl₁, ok_bind, hauto,
    Mem.putList_eq_self hl₁, hloop]

end

end PubsubBroker

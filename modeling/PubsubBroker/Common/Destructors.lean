/-
Which item destructors run. What the caller of a list has registered is kept in a registry, which knows
for every item inserted the function that `lkd_list_set_freefn` has set for it last. `lkd_list_remove` and
`lkd_list_release` run what is registered, each once, as long as they do not come upon a node that
`lkd_list_push` has inserted and no `lkd_list_set_freefn` has been called for: its `free_fn` was never assigned.
-/
import PubsubBroker.Common.FreeFn
import PubsubBroker.Common.ListRuns

namespace PubsubBroker

open Linked

/-! ## The registry -/

/-- An item in the list: the number of its insertion, the function that is set for it, NULL if there is none,
and whether its `free_fn` was assigned, by an append or by `lkd_list_set_freefn`. -/
structure Entry where
  id : Nat
  item : Ptr
  fn : Ptr
  assigned : Bool

/-- The items in the list, those that were popped, and those that were removed or released. -/
structure Registry where
  entries : List Entry
  popped : List Entry
  destroyed : List Entry
  inserted : Nat

namespace Registry

def empty : Registry := ⟨[], [], [], 0⟩

/-- The function is set for the first entry with the item. -/
def setFn (item fn : Ptr) : List Entry → List Entry
  | [] => []
  | e :: es => if e.item = item then { e with fn := fn, assigned := true } :: es else e :: setFn item fn es

/-- What a call does. At the tail, `lkd_list_set_freefn` considers the last entry only. -/
def step (g : Registry) : ListCall → Registry
  | .append item node => if item = 0 ∨ node = 0 then g else
    { g with entries := g.entries ++ [⟨g.inserted, item, 0, true⟩], inserted := g.inserted + 1 }
  | .push item node _ => if item = 0 ∨ node = 0 then g else
    { g with entries := ⟨g.inserted, item, 0, false⟩ :: g.entries, inserted := g.inserted + 1 }
  | .pop => { g with entries := g.entries.tail, popped := g.popped ++ g.entries.head?.toList }
  | .remove item =>
    { g with
      entries := g.entries.eraseP fun e => e.item = item
      destroyed := g.destroyed ++ (g.entries.find? fun e => e.item = item).toList }
  | .setFreefn item fn atTail =>
    { g with
      entries :=
        if atTail ≠ 0 then g.entries.dropLast ++ setFn item fn g.entries.getLast?.toList
        else setFn item fn g.entries }
  | .release => { g with entries := [], destroyed := g.destroyed ++ g.entries }

/-- The calls that are due: for what was removed or released, the function that was set, if it is not NULL. -/
def calls (g : Registry) : List (Ptr × Ptr) := (g.destroyed.filter fun e => e.fn ≠ 0).map fun e => (e.fn, e.item)

/-- All entries ever made. -/
def all (g : Registry) : List Entry := g.entries ++ g.popped ++ g.destroyed

/-- The call comes upon no entry whose `free_fn` was never assigned. -/
def AllAssigned (g : Registry) : ListCall → Prop
  | .remove item => ∀ e ∈ g.entries.find? fun e => e.item = item, e.assigned = true
  | .release => ∀ e ∈ g.entries, e.assigned = true
  | _ => True

end Registry

/-! ## The accesses -/

/-- Whether a `free_fn` was assigned since `malloc` returned the node. -/
def noteField (f : Ptr → Bool) : FreeFnEvent → Ptr → Bool
  | .alloc node => Function.update f node false
  | .assign node => Function.update f node true
  | _ => f

/-- The fields that are assigned after some events. -/
def fields (es : List FreeFnEvent) : Ptr → Bool := Machine.run noteField (fun _ => false) es

/-- Only a `free_fn` that was assigned is examined. -/
def Examinable (f : Ptr → Bool) : FreeFnEvent → Prop
  | .examine node => f node = true
  | _ => True

/-- The functions called, and on which items. -/
def callsOf (es : List FreeFnEvent) : List (Ptr × Ptr) := es.filterMap fun
  | .call fn item => some (fn, item)
  | _ => none

/-- The destructors that have run are those that were due, an item is destroyed at most once and not after it was
popped, and every `free_fn` that was examined had been assigned. -/
structure RunsDestructors (es : List FreeFnEvent) (g : Registry) : Prop where
  calls : callsOf es = g.calls
  once : (g.all.map Entry.id).Nodup
  examined : Machine.AllSteps noteField Examinable (fun _ => false) es

/-! ## Entries -/

section
variable {item fn : Ptr}

theorem setFn_of_notMem : ∀ {es : List Entry}, (∀ e ∈ es, e.item ≠ item) → Registry.setFn item fn es = es
  | [], _ => rfl
  | e :: es, h => by
    rw [List.forall_mem_cons] at h
    rw [Registry.setFn, if_neg h.1, setFn_of_notMem h.2]

theorem setFn_append {e : Entry} (he : e.item = item) (vs : List Entry) : ∀ {us : List Entry}, (∀ e ∈ us, e.item ≠ item) →
    Registry.setFn item fn (us ++ e :: vs) = us ++ { e with fn := fn, assigned := true } :: vs
  | [], _ => if_pos he
  | u :: us, h => by
    rw [List.forall_mem_cons] at h
    rw [List.cons_append, Registry.setFn, if_neg h.1, setFn_append he vs h.2]
    rfl

/-- The first entry with the item is found. -/
theorem find?_first {e : Entry} (he : e.item = item) (vs : List Entry) {us : List Entry} (h : ∀ e ∈ us, e.item ≠ item) :
    (us ++ e :: vs).find? (fun e => e.item = item) = some e := by
  rw [List.find?_append, List.find?_eq_none.2 (by simpa using h), List.find?_cons_of_pos (by simpa using he)]
  rfl

/-- It is the one that is removed. -/
theorem eraseP_first {e : Entry} (he : e.item = item) (vs : List Entry) {us : List Entry} (h : ∀ e ∈ us, e.item ≠ item) :
    (us ++ e :: vs).eraseP (fun e => e.item = item) = us ++ vs := by
  rw [List.eraseP_append_right _ (by simpa using h), List.eraseP_cons_of_pos (by simpa using he)]

theorem setFn_ids : ∀ es : List Entry, (Registry.setFn item fn es).map Entry.id = es.map Entry.id
  | [] => rfl
  | e :: es => by
    rw [Registry.setFn]
    split
    · rfl
    · rw [List.map_cons, List.map_cons, setFn_ids]

theorem dropLast_append_getLast?_toList (es : List Entry) : es.dropLast ++ es.getLast?.toList = es := by
  rcases List.eq_nil_or_concat es with rfl | ⟨us, e, rfl⟩
  · rfl
  · simp

/-- The entries with the first one with the item taken out. -/
theorem find?_append_eraseP {p : Entry → Bool} : ∀ es : List Entry, ((es.find? p).toList ++ es.eraseP p).Perm es
  | [] => .refl _
  | e :: es => by
    cases he : p e with
    | true => simp [he]
    | false =>
      rw [List.find?_cons_of_neg (by simp [he]), List.eraseP_cons_of_neg (by simp [he])]
      exact List.perm_middle.trans ((find?_append_eraseP es).cons e)

end

namespace Registry

/-- All insertions have numbers of their own, below the next one. -/
structure Distinct (g : Registry) : Prop where
  nodup : (g.all.map Entry.id).Nodup
  lt : ∀ i ∈ g.all.map Entry.id, i < g.inserted

variable {g g' : Registry}

theorem Distinct.of_perm (h : g.Distinct) (hids : (g'.all.map Entry.id).Perm (g.all.map Entry.id))
    (hinserted : g'.inserted = g.inserted) : g'.Distinct where
  nodup := hids.nodup_iff.2 h.nodup
  lt i hi := hinserted ▸ h.lt i (hids.subset hi)

theorem Distinct.of_insert (h : g.Distinct) (hids : (g'.all.map Entry.id).Perm (g.inserted :: g.all.map Entry.id))
    (hinserted : g'.inserted = g.inserted + 1) : g'.Distinct where
  nodup := by
    rw [hids.nodup_iff, List.nodup_cons]
    exact ⟨fun hmem => Nat.lt_irrefl _ (h.lt _ hmem), h.nodup⟩
  lt i hi := by
    rcases List.mem_cons.1 (hids.subset hi) with rfl | hi
    · omega
    · have := h.lt i hi
      omega

/-- A call moves entries between the list, the popped and the destroyed ones, or adds one. -/
theorem Distinct.step (h : g.Distinct) (op : ListCall) : (g.step op).Distinct := by
  cases op with
  | append item node =>
    rw [Registry.step]
    split
    · exact h
    · refine h.of_insert ?_ rfl
      simp only [all, List.append_assoc, List.map_append]
      exact List.perm_middle
  | push item node freeFn =>
    rw [Registry.step]
    split
    · exact h
    · exact h.of_insert (.refl _) rfl
  | pop =>
    refine h.of_perm (.map _ ?_) rfl
    cases hes : g.entries with
    | nil => simp [Registry.step, all, hes]
    | cons e es =>
      simp only [Registry.step, all, hes, List.tail_cons, List.head?_cons, Option.toList_some, List.append_assoc,
        List.cons_append, List.nil_append]
      rw [← List.append_assoc]
      exact List.perm_middle.trans (by rw [List.append_assoc])
  | remove item =>
    refine h.of_perm (.map _ ?_) rfl
    simp only [Registry.step, all]
    rw [← List.append_assoc]
    refine List.perm_append_comm.trans ?_
    rw [← List.append_assoc, ← List.append_assoc]
    exact ((find?_append_eraseP g.entries).append_right _).append_right _
  | setFreefn item fn atTail =>
    -- a destructor is set in place, which leaves the ids
    refine h.of_perm (.of_eq ?_) rfl
    simp only [Registry.step, all, List.map_append]
    congr 2
    split
    · rw [List.map_append, setFn_ids, ← List.map_append, dropLast_append_getLast?_toList]
    · exact setFn_ids _
  | release =>
    refine h.of_perm (.map _ ?_) rfl
    simp only [Registry.step, all]
    rw [List.nil_append, ← List.append_assoc]
    refine List.perm_append_comm.trans ?_
    rw [List.append_assoc]

end Registry

/-! ## The functions on the chain -/

/-- The list at `self` is made of the cells `cs`. -/
def HasList (m : Mem) (self : Ptr) (cs : List (Ptr × Content)) : Prop := ∃ l, m.lists self = some l ∧ Holds m l cs

/-- A node that is free is none of the list's. -/
theorem HasList.ne_of_free {m : Mem} {self node p : Ptr} {cs : List (Ptr × Content)} (h : HasList m self cs)
    (hfree : m.nodes node = none) (hp : p ∈ addrs cs) : p ≠ node := by
  obtain ⟨l, -, hholds⟩ := h
  rintro rfl
  exact hholds.allocated hp hfree

/-- What happens to the item of a cell that is removed or released. -/
def destroyCell (c : Ptr × Content) : List FreeFnEvent := FreeFn.destroyItem c.1 ⟨0, c.2.item, c.2.freeFn⟩

section
variable (strdup : Ptr → Ptr) {t : Traced} {self item : Ptr} {cs : List (Ptr × Content)}

theorem FreeFn.lkdListAppend_eq (h : HasList t.mem self cs) {node : Ptr} (hitem : item ≠ 0) (hnode : node ≠ 0)
    (hfree : t.mem.nodes node = none) :
    ∃ m', FreeFn.lkdListAppend strdup t self item node = .ok (⟨m', t.events ++ [.alloc node, .assign node]⟩, LIST_OK) ∧
      HasList m' self (cs ++ [(node, ⟨item, 0⟩)]) := by
  obtain ⟨l, hl, hholds⟩ := h
  obtain ⟨m', happend, hmoves⟩ := lkdListAppend_moves strdup hl hholds hitem hnode hfree
  refine ⟨m', ?_, hmoves.held⟩
  rw [FreeFn.lkdListAppend, happend]
  rfl

theorem FreeFn.lkdListPush_eq (h : HasList t.mem self cs) {node : Ptr} (hitem : item ≠ 0) (hnode : node ≠ 0)
    (hfree : t.mem.nodes node = none) (freeFn : Ptr) :
    ∃ m', FreeFn.lkdListPush strdup t self item node freeFn = .ok (⟨m', t.events ++ [.alloc node]⟩, LIST_OK) ∧
      HasList m' self ((node, ⟨item, freeFn⟩) :: cs) := by
  obtain ⟨l, hl, hholds⟩ := h
  obtain ⟨m', hpush, hmoves⟩ := lkdListPush_moves strdup hl hholds hitem hnode hfree
  refine ⟨m', ?_, hmoves.held⟩
  rw [FreeFn.lkdListPush, hpush]
  rfl

/-- Nothing is inserted for a NULL item, or when `malloc` fails. -/
theorem FreeFn.lkdListAppend_err {node : Ptr} (h : item = 0 ∨ node = 0) :
    FreeFn.lkdListAppend strdup t self item node = .ok (t, LIST_ERR) := by
  have happend : PubsubBroker.lkdListAppend strdup t.mem self item node = .ok (t.mem, LIST_ERR) := by
    unfold PubsubBroker.lkdListAppend
    by_cases hitem : item = 0
    · exact if_pos hitem
    · rw [if_neg hitem, if_pos (h.resolve_left hitem)]
  rw [FreeFn.lkdListAppend, happend]
  rfl

theorem FreeFn.lkdListPush_err {node : Ptr} (h : item = 0 ∨ node = 0) (freeFn : Ptr) :
    FreeFn.lkdListPush strdup t self item node freeFn = .ok (t, LIST_ERR) := by
  have hpush : PubsubBroker.lkdListPush strdup t.mem self item node freeFn = .ok (t.mem, LIST_ERR) := by
    unfold PubsubBroker.lkdListPush
    by_cases hitem : item = 0
    · exact if_pos hitem
    · rw [if_neg hitem, if_pos (h.resolve_left hitem)]
  rw [FreeFn.lkdListPush, hpush]
  rfl

theorem FreeFn.lkdListPop_eq (h : HasList t.mem self cs) :
    ∃ m', FreeFn.lkdListPop t self = .ok (⟨m', t.events⟩, (items cs).headD 0) ∧ HasList m' self cs.tail := by
  obtain ⟨l, hl, hholds⟩ := h
  obtain ⟨m', hpop, hmoves⟩ := lkdListPop_moves hl hholds
  refine ⟨m', ?_, hmoves.held⟩
  rw [FreeFn.lkdListPop, hpop]
  rfl

theorem FreeFn.lkdListRemove_eq (h : HasList t.mem self cs) (item : Ptr) :
    (item ∉ items cs ∧ FreeFn.lkdListRemove t self item = .ok (t, LIST_ERR)) ∨
    ∃ us c vs, cs = us ++ c :: vs ∧ item ∉ items us ∧ c.2.item = item ∧
      ∃ m', FreeFn.lkdListRemove t self item = .ok (⟨m', t.events ++ destroyCell c⟩, LIST_OK) ∧
        HasList m' self (us ++ vs) := by
  obtain ⟨l, hl, hholds⟩ := h
  have hremove : FreeFn.lkdListRemove t self item = unlinkThen t.mem self item (.ok (t, LIST_ERR))
      fun m l node n => FreeFn.removeNode ⟨m, t.events⟩ self l node n := rfl
  rw [hremove]
  rcases unlinkThen_eq hl hholds item (.ok (t, LIST_ERR)) (fun m l node n => FreeFn.removeNode ⟨m, t.events⟩ self l node n)
    with hmissing | ⟨us, a, c, vs, hcs, hnot, hitem, m', l', n, heq, hni, hnf, hu⟩
  · exact .inl hmissing
  · rw [hcs] at hholds
    refine .inr ⟨us, (a, c), vs, hcs, hnot, hitem, _, ?_, (hu.freed_moves hholds).held⟩
    rw [heq, FreeFn.removeNode, FreeFn.destroyItem, hni, hnf]
    rfl

/-- The function is set for the first of the cells from `p` on that has the item. -/
theorem FreeFn.setFreefnLoop_eq (fn : Ptr) : ∀ {us ws : List (Ptr × Content)} {p : Ptr} {fuel : Nat},
    HasList t.mem self (us ++ ws) → Chain t.mem.get 0 p ws → ws.length < fuel →
    (item ∉ items ws ∧ FreeFn.setFreefnLoop t item fn fuel p = .ok (t, 0)) ∨
    ∃ vs c xs, ws = vs ++ c :: xs ∧ item ∉ items vs ∧ c.2.item = item ∧
      ∃ m', FreeFn.setFreefnLoop t item fn fuel p = .ok (⟨m', t.events ++ [.assign c.1]⟩, item) ∧
        HasList m' self (us ++ (vs ++ (c.1, ⟨c.2.item, fn⟩) :: xs))
  | _, _, _, 0, _, _, hlt => absurd hlt (Nat.not_lt_zero _)
  | us, [], p, fuel + 1, _, hc, _ => by
    obtain rfl := Chain.nil_iff.1 hc
    exact .inl ⟨List.not_mem_nil, if_pos rfl⟩
  | us, (a, c) :: ws, p, fuel + 1, h, hc, hlt => by
    obtain ⟨rfl, hp, r, hr, hrest⟩ := hc
    rw [FreeFn.setFreefnLoop, if_neg hp, Mem.node_of_some (Mem.exists_node hr), ok_bind]
    by_cases hitem : c.item = item
    · refine .inr ⟨[], (p, c), ws, rfl, List.not_mem_nil, hitem, _, if_pos hitem, ?_⟩
      obtain ⟨l, hl, hholds⟩ := h
      refine ⟨l, hl, .intro (hholds.chain.set hr ?_ fun q hq => Mem.get_congr (Mem.putNode_of_ne hq)) ?_ ?_ hholds.autofree ?_⟩
      · exact Mem.get_of_some (n := ⟨r, c.item, fn⟩) Mem.putNode_self
      · simpa [addrs] using hholds.tail
      · simpa using hholds.size_eq
      · simpa [items] using hholds.nonNull
    · rw [if_neg hitem]
      have h' : HasList t.mem self (us ++ [(p, c)] ++ ws) := by rwa [List.append_assoc]
      rcases FreeFn.setFreefnLoop_eq fn h' hrest (Nat.lt_of_succ_lt_succ hlt) with
        ⟨hnot, hloop⟩ | ⟨vs, d, xs, rfl, hnot, hd, m', hloop, hhas⟩
      · exact .inl ⟨List.not_mem_cons_of_ne_of_not_mem (Ne.symm hitem) hnot, hloop⟩
      · refine .inr ⟨(p, c) :: vs, d, xs, rfl, List.not_mem_cons_of_ne_of_not_mem (Ne.symm hitem) hnot, hd, m', hloop, ?_⟩
        rwa [List.append_assoc] at hhas

/-- The loop of `lkd_list_release` destroys the items from `p` on. -/
theorem FreeFn.releaseLoop_eq : ∀ {cs : List (Ptr × Content)} {t : Traced} {p : Ptr} {fuel : Nat},
    Chain t.mem.get 0 p cs → cs.length < fuel →
    ∃ m', FreeFn.releaseLoop fuel t p = .ok ⟨m', t.events ++ cs.flatMap destroyCell⟩
  | _, _, _, 0, _, hlt => absurd hlt (Nat.not_lt_zero _)
  | [], t, p, fuel + 1, hc, _ => by
    obtain rfl := Chain.nil_iff.1 hc
    refine ⟨t.mem, ?_⟩
    rw [FreeFn.releaseLoop, if_pos rfl, List.flatMap_nil, List.append_nil]
  | (a, c) :: cs, t, p, fuel + 1, hc, hlt => by
    obtain ⟨rfl, hp, r, hr, -⟩ := id hc
    have hrest : Chain (t.mem.freeNode p).get 0 r cs := hc.tail hr fun q hq => Mem.get_congr (Mem.freeNode_of_ne hq)
    obtain ⟨m', hloop⟩ := FreeFn.releaseLoop_eq (t := ⟨t.mem.freeNode p, t.events ++ destroyCell (p, c)⟩) hrest
      (Nat.lt_of_succ_lt_succ hlt)
    refine ⟨m', ?_⟩
    rw [FreeFn.releaseLoop, if_neg hp, Mem.node_of_some (Mem.exists_node hr), ok_bind, List.flatMap_cons, ← List.append_assoc]
    exact hloop

theorem FreeFn.lkdListRelease_eq (h : HasList t.mem self cs) (h0 : self ≠ 0) :
    ∃ m', FreeFn.lkdListRelease t self = .ok (⟨m', t.events ++ cs.flatMap destroyCell⟩, 0) := by
  obtain ⟨l, hl, hholds⟩ := h
  obtain ⟨m', hloop⟩ := FreeFn.releaseLoop_eq hholds.chain hholds.length_lt
  refine ⟨m'.freeList self, ?_⟩
  rw [FreeFn.lkdListRelease, if_neg h0, Mem.list_of_some hl, ok_bind, hloop]
  rfl

end

/-! ## The events of a call -/

section
variable {f : Ptr → Bool} {c : Ptr × Content} {cs : List (Ptr × Content)}

theorem fields_append (es es' : List FreeFnEvent) : fields (es ++ es') = Machine.run noteField (fields es) es' :=
  Machine.run_append ..

theorem callsOf_append (es es' : List FreeFnEvent) : callsOf (es ++ es') = callsOf es ++ callsOf es' :=
  List.filterMap_append

/-- A destruction assigns no field. -/
theorem run_destroyCell : Machine.run noteField f (destroyCell c) = f := by
  unfold destroyCell FreeFn.destroyItem
  split <;> rfl

/-- It examines that of its cell. -/
theorem examinable_destroyCell : Machine.AllSteps noteField Examinable f (destroyCell c) ↔ f c.1 = true := by
  unfold destroyCell FreeFn.destroyItem
  split <;> simp [Machine.AllSteps, Examinable]

theorem callsOf_destroyCell : callsOf (destroyCell c) = if c.2.freeFn ≠ 0 then [(c.2.freeFn, c.2.item)] else [] := by
  unfold destroyCell FreeFn.destroyItem
  split <;> rfl

theorem examinable_destroyCells :
    Machine.AllSteps noteField Examinable f (cs.flatMap destroyCell) ↔ ∀ c ∈ cs, f c.1 = true := by
  induction cs with
  | nil => simp [Machine.AllSteps]
  | cons c cs ih =>
    rw [List.flatMap_cons, Machine.AllSteps.append, run_destroyCell, examinable_destroyCell, ih, List.forall_mem_cons]

end

/-! ## Without destructors -/

section
variable {t : Traced} {self item : Ptr} {m' : Mem}

/-- A node without a function is destroyed without a call. -/
theorem callsOf_destroyItem {node : Ptr} {n : NodeT} (hfn : ¬ n.freeFn ≠ 0) : callsOf (FreeFn.destroyItem node n) = [] := by
  rw [FreeFn.destroyItem, if_neg hfn]
  rfl

theorem FreeFn.removeNode_of_ok {m : Mem} {l : LkdList} {node : Ptr} {n : NodeT} {r : Int}
    (h : PubsubBroker.removeNode m self l node n = .ok (m', r)) :
    ∃ es, FreeFn.removeNode ⟨m, t.events⟩ self l node n = .ok (⟨m', t.events ++ es⟩, r) ∧ callsOf es = [] := by
  unfold PubsubBroker.removeNode at h
  split at h
  · cases h
  · next hfn =>
    cases h
    exact ⟨_, rfl, callsOf_destroyItem hfn⟩

/-- Where `lkd_list_remove` comes upon no function it is as in a memory without them. -/
theorem FreeFn.lkdListRemove_of_ok {r : Int} (h : PubsubBroker.lkdListRemove t.mem self item = .ok (m', r)) :
    ∃ es, FreeFn.lkdListRemove t self item = .ok (⟨m', t.events ++ es⟩, r) ∧ callsOf es = [] := by
  obtain ⟨l, hl, h⟩ := exists_of_bind_ok h
  obtain ⟨⟨prev, node⟩, hfind, h⟩ := exists_of_bind_ok h
  unfold FreeFn.lkdListRemove
  rw [hl, ok_bind, hfind, ok_bind]
  simp only at h ⊢
  split at h
  · next hnode =>
    cases h
    rw [if_pos hnode]
    exact ⟨[], by rw [List.append_nil]; rfl, rfl⟩
  · next hnode =>
    obtain ⟨n, hn, h⟩ := exists_of_bind_ok h
    rw [if_neg hnode, hn, ok_bind]
    split at h
    · next hprev =>
      obtain ⟨p, hp, h⟩ := exists_of_bind_ok h
      rw [if_pos hprev, hp, ok_bind]
      exact FreeFn.removeNode_of_ok h
    · next hprev =>
      rw [if_neg hprev]
      exact FreeFn.removeNode_of_ok h

theorem FreeFn.releaseLoop_of_ok : ∀ {fuel : Nat} {t : Traced} {p : Ptr}, PubsubBroker.releaseLoop fuel t.mem p = .ok m' →
    ∃ es, FreeFn.releaseLoop fuel t p = .ok ⟨m', t.events ++ es⟩ ∧ callsOf es = []
  | 0, _, _, h => by cases h
  | fuel + 1, t, p, h => by
    unfold PubsubBroker.releaseLoop at h
    unfold FreeFn.releaseLoop
    split at h
    · next hp =>
      cases h
      exact ⟨[], by rw [if_pos hp, List.append_nil], rfl⟩
    · next hp =>
      obtain ⟨n, hn, h⟩ := exists_of_bind_ok h
      split at h
      · cases h
      · next hfn =>
        obtain ⟨es, hloop, hes⟩ :=
          FreeFn.releaseLoop_of_ok (t := ⟨t.mem.freeNode p, t.events ++ FreeFn.destroyItem p n⟩) h
        refine ⟨FreeFn.destroyItem p n ++ es, ?_, ?_⟩
        · rw [if_neg hp, hn, ok_bind, hloop, List.append_assoc]
        · rw [callsOf_append, callsOf_destroyItem hfn, hes]
          rfl

/-- The same for `lkd_list_release`. -/
theorem FreeFn.lkdListRelease_of_ok (h0 : self ≠ 0) (h : PubsubBroker.lkdListRelease t.mem self = .ok m') :
    ∃ es, FreeFn.lkdListRelease t self = .ok (⟨m', t.events ++ es⟩, 0) ∧ callsOf es = [] := by
  obtain ⟨l, hl, h⟩ := exists_of_bind_ok h
  obtain ⟨m₁, hloop, h⟩ := exists_of_bind_ok h
  cases h
  obtain ⟨es, hloop', hes⟩ := FreeFn.releaseLoop_of_ok hloop
  refine ⟨es, ?_, hes⟩
  rw [FreeFn.lkdListRelease, if_neg h0, hl, ok_bind, hloop']
  rfl

end

/-! ## Cells and entries -/

/-- The cell is that of the entry: if its `free_fn` was assigned, it is the function set. -/
structure Registered (f : Ptr → Bool) (c : Ptr × Content) (e : Entry) : Prop where
  item : c.2.item = e.item
  assigned : f c.1 = e.assigned
  fn : e.assigned = true → c.2.freeFn = e.fn

section
variable {f f' : Ptr → Bool} {cs : List (Ptr × Content)} {es : List Entry}

/-- Cells whose fields are as before are registered as before. -/
theorem registered_frame (h : List.Forall₂ (Registered f) cs es) (hf : ∀ p ∈ addrs cs, f' p = f p) :
    List.Forall₂ (Registered f') cs es := by
  have hboth := (List.forall₂_and_left _ _).2 ⟨fun c hc => hf c.1 (List.mem_map_of_mem hc), h⟩
  apply hboth.imp
  rintro c e ⟨hc, hreg⟩
  exact ⟨hreg.item, hc.trans hreg.assigned, hreg.fn⟩

theorem registered_items (h : List.Forall₂ (Registered f) cs es) : items cs = es.map Entry.item := by
  induction h with
  | nil => rfl
  | cons hc _ ih => rw [items, List.map_cons, List.map_cons, hc.item, ← ih]

/-- The entries without the item are those of the cells without it. -/
theorem ne_of_notMem_items (h : List.Forall₂ (Registered f) cs es) {item : Ptr} (hnot : item ∉ items cs) :
    ∀ e ∈ es, e.item ≠ item := by
  rintro e he rfl
  rw [registered_items h] at hnot
  exact hnot (List.mem_map_of_mem he)

/-- The entries of the first cells and those of the others. -/
theorem registered_append {us vs : List (Ptr × Content)} (h : List.Forall₂ (Registered f) (us ++ vs) es) :
    ∃ as bs, es = as ++ bs ∧ List.Forall₂ (Registered f) us as ∧ List.Forall₂ (Registered f) vs bs := by
  induction us generalizing es with
  | nil => exact ⟨[], es, rfl, .nil, h⟩
  | cons c us ih =>
    obtain ⟨e, es, hc, hrest, rfl⟩ := List.forall₂_cons_left_iff.1 h
    obtain ⟨as, bs, rfl, hus, hvs⟩ := ih hrest
    exact ⟨e :: as, bs, rfl, .cons hc hus, hvs⟩

/-- The entries of some cells, one of the cells, and the cells behind it. -/
theorem registered_split {us vs : List (Ptr × Content)} {c : Ptr × Content} (h : List.Forall₂ (Registered f) (us ++ c :: vs) es) :
    ∃ as e bs, es = as ++ e :: bs ∧ List.Forall₂ (Registered f) us as ∧ Registered f c e ∧
      List.Forall₂ (Registered f) vs bs := by
  obtain ⟨as, ds, rfl, hus, hrest⟩ := registered_append h
  obtain ⟨e, bs, hc, hvs, rfl⟩ := List.forall₂_cons_left_iff.1 hrest
  exact ⟨as, e, bs, rfl, hus, hc, hvs⟩

theorem registered_assigned (h : List.Forall₂ (Registered f) cs es) :
    (∀ e ∈ es, e.assigned = true) ↔ ∀ c ∈ cs, f c.1 = true := by
  induction h with
  | nil => simp
  | cons hc _ ih => rw [List.forall_mem_cons, List.forall_mem_cons, ih, hc.assigned]

/-- What a destruction calls is what is due, if the field was assigned. -/
theorem callsOf_registered {c : Ptr × Content} {e : Entry} (h : Registered f c e) (he : e.assigned = true) :
    callsOf (destroyCell c) = ([e].filter fun e => e.fn ≠ 0).map fun e => (e.fn, e.item) := by
  rw [callsOf_destroyCell, h.fn he, h.item]
  by_cases hfn : e.fn = 0
  · simp [hfn]
  · simp [hfn]

theorem callsOf_all_registered (h : List.Forall₂ (Registered f) cs es) (hes : ∀ e ∈ es, e.assigned = true) :
    callsOf (cs.flatMap destroyCell) = (es.filter fun e => e.fn ≠ 0).map fun e => (e.fn, e.item) := by
  induction h with
  | nil => rfl
  | @cons c e cs es hc _ ih =>
    rw [List.forall_mem_cons] at hes
    rw [List.flatMap_cons, callsOf_append, callsOf_registered hc hes.1, ih hes.2, ← List.map_append, ← List.filter_append]
    rfl

end

/-- The program and the registry: the entries are those of the cells, or the list is released. -/
structure Tracks (o : Owner) (g : Registry) : Prop where
  list : o.self = 0 ∧ g.entries = [] ∨
    o.self ≠ 0 ∧ ∃ cs, HasList o.traced.mem o.self cs ∧ List.Forall₂ (Registered (fields o.traced.events)) cs g.entries
  distinct : g.Distinct
  calls : callsOf o.traced.events = g.calls
  examined : Machine.AllSteps noteField Examinable (fun _ => false) o.traced.events

theorem Tracks.runsDestructors {o : Owner} {g : Registry} (h : Tracks o g) : RunsDestructors o.traced.events g :=
  ⟨h.calls, h.distinct.nodup, h.examined⟩

/-! ## A call -/

/-- The calls in question: on a list that is not released yet, while `malloc` returns memory that is not in use,
or NULL. The list may be released again. -/
def Owner.Callable (o : Owner) : ListCall → Prop
  | .append _ node | .push _ node _ => o.self ≠ 0 ∧ (node ≠ 0 → o.traced.mem.nodes node = none)
  | .pop | .remove _ | .setFreefn .. => o.self ≠ 0
  | .release => True

section
variable (strdup : Ptr → Ptr) {o : Owner} {g : Registry} {item : Ptr}

theorem Tracks.cells (h : Tracks o g) (h0 : o.self ≠ 0) :
    ∃ cs, HasList o.traced.mem o.self cs ∧ List.Forall₂ (Registered (fields o.traced.events)) cs g.entries := by
  rcases h.list with ⟨hnull, -⟩ | ⟨-, hcells⟩
  · exact absurd hnull h0
  · exact hcells

/-- A call that destroys nothing, and examines no field. -/
theorem Tracks.of_quiet (h : Tracks o g) (h0 : o.self ≠ 0) {op : ListCall} {m' : Mem} (es : List FreeFnEvent)
    {cs : List (Ptr × Content)} (hcalls : callsOf es = []) (hquiet : ∀ f, Machine.AllSteps noteField Examinable f es)
    (hdestroyed : (g.step op).destroyed = g.destroyed) (hhas : HasList m' o.self cs)
    (hreg : List.Forall₂ (Registered (fields (o.traced.events ++ es))) cs (g.step op).entries) :
    Tracks ⟨⟨m', o.traced.events ++ es⟩, o.self⟩ (g.step op) where
  list := .inr ⟨h0, cs, hhas, hreg⟩
  distinct := h.distinct.step op
  calls := by
    rw [callsOf_append, hcalls, List.append_nil, h.calls, Registry.calls, Registry.calls, hdestroyed]
  examined := Machine.AllSteps.append.2 ⟨h.examined, hquiet _⟩

theorem Tracks.append (h : Tracks o g) {node : Ptr} (h0 : o.self ≠ 0) (hfree : node ≠ 0 → o.traced.mem.nodes node = none) :
    ∃ o', o.call strdup (.append item node) = .ok o' ∧ Tracks o' (g.step (.append item node)) := by
  by_cases hnone : item = 0 ∨ node = 0
  · refine ⟨o, ?_, ?_⟩
    · rw [Owner.call, FreeFn.lkdListAppend_err strdup hnone]
      rfl
    · rwa [Registry.step, if_pos hnone]
  · have hentries : (g.step (.append item node)).entries = g.entries ++ [⟨g.inserted, item, 0, true⟩] := by
      rw [Registry.step, if_neg hnone]
    have hdestroyed : (g.step (.append item node)).destroyed = g.destroyed := by
      rw [Registry.step, if_neg hnone]
    rw [not_or] at hnone
    obtain ⟨cs, hhas, hreg⟩ := h.cells h0
    obtain ⟨m', happend, hhas'⟩ := FreeFn.lkdListAppend_eq strdup hhas hnone.1 hnone.2 (hfree hnone.2)
    refine ⟨⟨⟨m', o.traced.events ++ [.alloc node, .assign node]⟩, o.self⟩, ?_, ?_⟩
    · rw [Owner.call, happend]
      rfl
    · apply h.of_quiet h0 [.alloc node, .assign node] rfl (fun _ => ⟨trivial, trivial, trivial⟩) hdestroyed hhas'
      rw [hentries, fields_append]
      refine List.rel_append (registered_frame hreg fun p hp => ?_) (.cons ⟨rfl, ?_, fun _ => rfl⟩ .nil)
      · have hne := hhas.ne_of_free (hfree hnone.2) hp
        simp [noteField, hne]
      · simp [noteField]

theorem Tracks.push (h : Tracks o g) {node freeFn : Ptr} (h0 : o.self ≠ 0)
    (hfree : node ≠ 0 → o.traced.mem.nodes node = none) :
    ∃ o', o.call strdup (.push item node freeFn) = .ok o' ∧ Tracks o' (g.step (.push item node freeFn)) := by
  by_cases hnone : item = 0 ∨ node = 0
  · refine ⟨o, ?_, ?_⟩
    · rw [Owner.call, FreeFn.lkdListPush_err strdup hnone]
      rfl
    · rwa [Registry.step, if_pos hnone]
  · have hentries : (g.step (.push item node freeFn)).entries = ⟨g.inserted, item, 0, false⟩ :: g.entries := by
      rw [Registry.step, if_neg hnone]
    have hdestroyed : (g.step (.push item node freeFn)).destroyed = g.destroyed := by
      rw [Registry.step, if_neg hnone]
    rw [not_or] at hnone
    obtain ⟨cs, hhas, hreg⟩ := h.cells h0
    obtain ⟨m', hpush, hhas'⟩ := FreeFn.lkdListPush_eq strdup hhas hnone.1 hnone.2 (hfree hnone.2) freeFn
    refine ⟨⟨⟨m', o.traced.events ++ [.alloc node]⟩, o.self⟩, ?_, ?_⟩
    · rw [Owner.call, hpush]
      rfl
    · apply h.of_quiet h0 [.alloc node] rfl (fun _ => ⟨trivial, trivial⟩) hdestroyed hhas'
      rw [hentries, fields_append]
      -- what is in the new node counts as nothing, until it is assigned
      refine .cons ⟨rfl, ?_, fun hassigned => ?_⟩ (registered_frame hreg fun p hp => ?_)
      · simp [noteField]
      · cases hassigned
      · have hne := hhas.ne_of_free (hfree hnone.2) hp
        simp [noteField, hne]

theorem Tracks.pop (h : Tracks o g) (h0 : o.self ≠ 0) :
    ∃ o', o.call strdup .pop = .ok o' ∧ Tracks o' (g.step .pop) := by
  obtain ⟨cs, hhas, hreg⟩ := h.cells h0
  obtain ⟨m', hpop, hhas'⟩ := FreeFn.lkdListPop_eq hhas
  refine ⟨⟨⟨m', o.traced.events ++ []⟩, o.self⟩, ?_, ?_⟩
  · rw [Owner.call, hpop, List.append_nil]
    rfl
  · apply h.of_quiet h0 [] rfl (fun _ => trivial) rfl hhas'
    rw [List.append_nil, ← List.drop_one]
    have htail : (g.step .pop).entries = g.entries.drop 1 := List.drop_one.symm
    rw [htail]
    exact List.forall₂_drop 1 hreg

/-- The loop of `lkd_list_set_freefn` from one of the cells on. -/
theorem Tracks.setFreefnLoop (h : Tracks o g) (h0 : o.self ≠ 0) {fn p : Ptr} {op : ListCall} {us ws : List (Ptr × Content)}
    {as bs : List Entry} (hhas : HasList o.traced.mem o.self (us ++ ws)) (hchain : Chain o.traced.mem.get 0 p ws)
    (hus : List.Forall₂ (Registered (fields o.traced.events)) us as)
    (hws : List.Forall₂ (Registered (fields o.traced.events)) ws bs)
    (hentries : (g.step op).entries = as ++ Registry.setFn item fn bs) (hdestroyed : (g.step op).destroyed = g.destroyed) :
    ∃ r, FreeFn.setFreefnLoop o.traced item fn addresses p = .ok r ∧ Tracks ⟨r.1, o.self⟩ (g.step op) := by
  obtain ⟨l, hl, hholds⟩ := id hhas
  have hlen := hholds.length_lt
  rw [List.length_append] at hlen
  rcases FreeFn.setFreefnLoop_eq fn hhas hchain (show ws.length < addresses by omega) with
    ⟨hnot, hloop⟩ | ⟨vs, c, xs, rfl, hnot, hitem, m', hloop, hhas'⟩
  · -- no cell has the item
    refine ⟨_, hloop, ?_⟩
    have hreg : List.Forall₂ (Registered (fields (o.traced.events ++ []))) (us ++ ws) (g.step op).entries := by
      rw [List.append_nil, hentries, setFn_of_notMem (ne_of_notMem_items hws hnot)]
      exact List.rel_append hus hws
    have hsame := h.of_quiet h0 [] rfl (fun _ => trivial) hdestroyed hhas hreg
    rwa [List.append_nil] at hsame
  · refine ⟨_, hloop, h.of_quiet h0 [.assign c.1] rfl (fun _ => ⟨trivial, trivial⟩) hdestroyed hhas' ?_⟩
    obtain ⟨ds, e, xs', rfl, hvs, hc, hxs⟩ := registered_split hws
    rw [hentries, setFn_append (hc.item.symm.trans hitem) _ (ne_of_notMem_items hvs hnot), fields_append]
    -- no other cell has the address of the one whose field is assigned
    have hnd := hholds.acyclic
    simp only [addrs, List.map_append, List.map_cons, List.nodup_append, List.nodup_cons] at hnd
    obtain ⟨-, ⟨-, ⟨hxs', -⟩, hvs'⟩, hus'⟩ := hnd
    have hframe : ∀ q, q ≠ c.1 → Machine.run noteField (fields o.traced.events) [.assign c.1] q = fields o.traced.events q :=
      fun q hq => Function.update_of_ne hq ..
    refine List.rel_append (registered_frame hus fun q hq => hframe q ?_)
      (List.rel_append (registered_frame hvs fun q hq => hframe q ?_)
        (.cons ⟨hc.item, Function.update_self .., fun _ => rfl⟩ (registered_frame hxs fun q hq => hframe q ?_)))
    · exact hus' q hq c.1 (by simp)
    · exact hvs' q hq c.1 (by simp)
    · rintro rfl
      exact hxs' hq

theorem Tracks.setFreefn (h : Tracks o g) (h0 : o.self ≠ 0) {fn : Ptr} {atTail : Int} :
    ∃ o', o.call strdup (.setFreefn item fn atTail) = .ok o' ∧ Tracks o' (g.step (.setFreefn item fn atTail)) := by
  obtain ⟨cs, hhas, hreg⟩ := h.cells h0
  obtain ⟨l, hl, hholds⟩ := id hhas
  have hentries : (g.step (.setFreefn item fn atTail)).entries =
      if atTail ≠ 0 then g.entries.dropLast ++ Registry.setFn item fn g.entries.getLast?.toList
      else Registry.setFn item fn g.entries := rfl
  -- whatever the search starts from, it returns
  suffices hloop : ∃ r, FreeFn.setFreefnLoop o.traced item fn addresses (if atTail ≠ 0 then l.tail else l.head) = .ok r ∧
      Tracks ⟨r.1, o.self⟩ (g.step (.setFreefn item fn atTail)) by
    obtain ⟨r, hr, htracks⟩ := hloop
    refine ⟨_, ?_, htracks⟩
    rw [Owner.call, FreeFn.lkdListSetFreefn, Mem.list_of_some hl, ok_bind, hr]
    rfl
  by_cases hat : atTail ≠ 0
  · rw [if_pos hat] at hentries ⊢
    rcases List.eq_nil_or_concat cs with rfl | ⟨us, c, rfl⟩
    · -- an empty list has no tail
      obtain hes : g.entries = [] := List.forall₂_nil_left_iff.1 hreg
      rw [hes] at hentries
      have hhas' : HasList o.traced.mem o.self ([] ++ []) := hhas
      exact h.setFreefnLoop h0 hhas' hholds.tail .nil .nil hentries rfl
    · rw [List.concat_eq_append] at hreg hhas hholds
      obtain ⟨as, e, bs, hes, hus, hc, hbs⟩ := registered_split hreg
      obtain rfl := List.forall₂_nil_left_iff.1 hbs
      rw [hes, List.dropLast_concat, List.getLast?_concat] at hentries
      have htail : l.tail = c.1 := by simpa [addrs] using hholds.tail
      have hchain : Chain o.traced.mem.get 0 l.tail [c] := htail ▸ hholds.chain.suffix
      exact h.setFreefnLoop h0 hhas hchain hus (.cons hc .nil) hentries rfl
  · rw [if_neg hat] at hentries ⊢
    have hhas' : HasList o.traced.mem o.self ([] ++ cs) := hhas
    exact h.setFreefnLoop h0 hhas' hholds.chain .nil hreg hentries rfl

/-- What a removal does. If it comes upon a field that was not assigned, that shows. -/
theorem Tracks.remove (h : Tracks o g) (h0 : o.self ≠ 0) :
    ∃ o', o.call strdup (.remove item) = .ok o' ∧
      (RunsDestructors o'.traced.events (g.step (.remove item)) → g.AllAssigned (.remove item)) ∧
      (g.AllAssigned (.remove item) → Tracks o' (g.step (.remove item))) := by
  obtain ⟨cs, hhas, hreg⟩ := h.cells h0
  rcases FreeFn.lkdListRemove_eq hhas item with ⟨hnot, hremove⟩ | ⟨us, c, vs, rfl, hnot, hitem, m', hremove, hhas'⟩
  · -- no entry has the item
    have hne := ne_of_notMem_items hreg hnot
    have hfind : (g.entries.find? fun e => e.item = item) = none := by simpa using hne
    have hsame : g.step (.remove item) = g := by
      rw [Registry.step, hfind, List.eraseP_of_forall_not (by simpa using hne)]
      simp
    refine ⟨o, ?_, fun _ => ?_, fun _ => ?_⟩
    · rw [Owner.call, hremove]
      rfl
    · rw [Registry.AllAssigned, hfind]
      rintro e ⟨⟩
    · rwa [hsame]
  · obtain ⟨as, e, bs, hes, hus, hc, hvs⟩ := registered_split hreg
    have hne := ne_of_notMem_items hus hnot
    have heitem : e.item = item := hc.item.symm.trans hitem
    -- only the entry that is taken off is examined
    have hassigned : g.AllAssigned (.remove item) ↔ e.assigned = true := by
      rw [Registry.AllAssigned, hes, find?_first heitem bs hne]
      simp
    have hstep : g.step (.remove item) = { g with entries := as ++ bs, destroyed := g.destroyed ++ [e] } := by
      rw [Registry.step, hes, find?_first heitem bs hne, eraseP_first heitem bs hne]
      rfl
    rw [hassigned]
    refine ⟨⟨⟨m', o.traced.events ++ destroyCell c⟩, o.self⟩, ?_, fun hruns => ?_, fun he => ?_⟩
    · rw [Owner.call, hremove]
      rfl
    · rw [← hc.assigned]
      exact examinable_destroyCell.1 (Machine.AllSteps.append.1 hruns.examined).2
    · refine ⟨.inr ⟨h0, us ++ vs, hhas', ?_⟩, h.distinct.step _, ?_, ?_⟩
      · rw [hstep, fields_append, run_destroyCell]
        exact List.rel_append hus hvs
      · rw [hstep, callsOf_append, h.calls, callsOf_registered hc he, Registry.calls, Registry.calls, ← List.map_append,
          ← List.filter_append]
      · exact Machine.AllSteps.append.2 ⟨h.examined, examinable_destroyCell.2 (hc.assigned.trans he)⟩

/-- The same for the release of the list, which destroys all items. -/
theorem Tracks.release (h : Tracks o g) :
    ∃ o', o.call strdup .release = .ok o' ∧
      (RunsDestructors o'.traced.events (g.step .release) → g.AllAssigned .release) ∧
      (g.AllAssigned .release → Tracks o' (g.step .release)) := by
  rcases h.list with ⟨hnull, hes⟩ | ⟨h0, cs, hhas, hreg⟩
  · -- the list was released before
    have hsame : g.step .release = g := by
      rw [Registry.step, hes, List.append_nil, ← hes]
    refine ⟨o, ?_, fun _ => ?_, fun _ => ?_⟩
    · rw [Owner.call, FreeFn.lkdListRelease, if_pos hnull]
      rfl
    · rw [Registry.AllAssigned, hes]
      simp
    · rwa [hsame]
  · obtain ⟨m', hrelease⟩ := FreeFn.lkdListRelease_eq hhas h0
    have hassigned : g.AllAssigned .release ↔ ∀ c ∈ cs, fields o.traced.events c.1 = true :=
      registered_assigned hreg
    refine ⟨⟨⟨m', o.traced.events ++ cs.flatMap destroyCell⟩, 0⟩, ?_, fun hruns => ?_, fun hes => ?_⟩
    · rw [Owner.call, hrelease]
      rfl
    · rw [hassigned]
      exact examinable_destroyCells.1 (Machine.AllSteps.append.1 hruns.examined).2
    · refine ⟨.inl ⟨rfl, rfl⟩, h.distinct.step _, ?_, ?_⟩
      · rw [callsOf_append, h.calls, callsOf_all_registered hreg hes, Registry.calls, Registry.calls, ← List.map_append,
          ← List.filter_append]
        rfl
      · exact Machine.AllSteps.append.2 ⟨h.examined, examinable_destroyCells.2 (hassigned.1 hes)⟩

end

/-! ## Runs -/

/-- The program and the registry, before the first call on a list made in the memory `m`. -/
def listMade (m : Mem) (self : Ptr) : Except Fault Owner × Registry := (Owner.start m self, .empty)

/-- The next call, on both sides. -/
def callBoth (strdup : Ptr → Ptr) (s : Except Fault Owner × Registry) (op : ListCall) : Except Fault Owner × Registry :=
  (s.1 >>= fun o => o.call strdup op, s.2.step op)

/-- A condition on the program in which a call is made. -/
def WhenCalled (Ok : Owner → ListCall → Prop) (s : Except Fault Owner × Registry) (op : ListCall) : Prop :=
  ∀ o, s.1 = .ok o → Ok o op

/-- The program has come to no fault, and has run the destructors that were due. -/
def Destroys (s : Except Fault Owner × Registry) : Prop := ∃ o, s.1 = .ok o ∧ RunsDestructors o.traced.events s.2

section
variable (strdup : Ptr → Ptr)

/-- What a call in question does. -/
theorem Tracks.call {o : Owner} {g : Registry} (h : Tracks o g) {op : ListCall} (hcallable : o.Callable op) :
    ∃ o', o.call strdup op = .ok o' ∧ (RunsDestructors o'.traced.events (g.step op) → g.AllAssigned op) ∧
      (g.AllAssigned op → Tracks o' (g.step op)) := by
  cases op with
  | append item node =>
    obtain ⟨o', hcall, htracks⟩ := h.append strdup hcallable.1 hcallable.2
    exact ⟨o', hcall, fun _ => trivial, fun _ => htracks⟩
  | push item node freeFn =>
    obtain ⟨o', hcall, htracks⟩ := h.push strdup hcallable.1 hcallable.2
    exact ⟨o', hcall, fun _ => trivial, fun _ => htracks⟩
  | pop =>
    obtain ⟨o', hcall, htracks⟩ := h.pop strdup hcallable
    exact ⟨o', hcall, fun _ => trivial, fun _ => htracks⟩
  | remove item => exact h.remove strdup hcallable
  | setFreefn item fn atTail =>
    obtain ⟨o', hcall, htracks⟩ := h.setFreefn strdup hcallable
    exact ⟨o', hcall, fun _ => trivial, fun _ => htracks⟩
  | release => exact h.release strdup

theorem start_tracks {m : Mem} {self : Ptr} (hself : self ≠ 0) : ∃ o, Owner.start m self = .ok o ∧ Tracks o .empty := by
  obtain ⟨m', hcreate, hmoves⟩ := lkdListCreate_moves (m := m) hself
  refine ⟨⟨⟨m', []⟩, self⟩, ?_, .inr ⟨hself, [], hmoves.held, .nil⟩, ⟨.nil, ?_⟩, rfl, trivial⟩
  · rw [Owner.start, hcreate]
    rfl
  · rintro i ⟨⟩

/-- After every call the destructors that were due have run, and each once, exactly when no removal and no
release comes upon an item that was pushed and for which no function has been set. -/
theorem destructors_iff {m : Mem} {self : Ptr} (hself : self ≠ 0) {ops : List ListCall}
    (hcallable : Machine.AllSteps (callBoth strdup) (WhenCalled Owner.Callable) (listMade m self) ops) :
    (∀ js, js <+: ops → Destroys (Machine.run (callBoth strdup) (listMade m self) js)) ↔
      Machine.AllSteps (callBoth strdup) (fun s op => s.2.AllAssigned op) (listMade m self) ops := by
  refine Machine.observed_iff_allSteps_of (I := fun s => ∃ o, s.1 = .ok o ∧ Tracks o s.2) ?_ ?_ ?_ (start_tracks hself)
    hcallable
  · rintro s ⟨o, hs, htracks⟩
    exact ⟨o, hs, htracks.runsDestructors⟩
  · rintro ⟨-, g⟩ op ⟨o, rfl, htracks⟩ hdom ⟨o'', hs, hruns⟩
    obtain ⟨o', hcall, hshows, -⟩ := htracks.call strdup (hdom o rfl)
    obtain rfl : o' = o'' := Except.ok.inj (hcall.symm.trans hs)
    exact hshows hruns
  · rintro ⟨-, g⟩ op ⟨o, rfl, htracks⟩ hdom hok
    obtain ⟨o', hcall, -, hkeeps⟩ := htracks.call strdup (hdom o rfl)
    exact ⟨o', hcall, hkeeps hok⟩

end

/-- Memory with nothing in it. -/
def noMem : Mem := ⟨fun _ => none, fun _ => none⟩

/-- An item that is appended and one that is pushed, each with a function set for it; the second is removed. Another
one is pushed and popped, and the list is released twice. -/
def someItems : List ListCall :=
  [.append 8 16, .push 9 17 77, .setFreefn 9 100 0, .setFreefn 8 101 1, .remove 9, .push 10 17 77, .pop, .release, .release]

theorem someItems_callable :
    Machine.AllSteps (callBoth id) (WhenCalled Owner.Callable) (listMade noMem 1) someItems := by
  have hself : (1 : Ptr) ≠ 0 := by decide
  refine ⟨?_, ?_, ?_, ?_, ?_, ?_, ?_, ?_, ?_, trivial⟩
  · rintro o ⟨⟩
    exact ⟨hself, fun _ => rfl⟩
  · rintro o ⟨⟩
    exact ⟨hself, fun _ => rfl⟩
  · rintro o ⟨⟩
    exact hself
  · rintro o ⟨⟩
    exact hself
  · rintro o ⟨⟩
    exact hself
  · rintro o ⟨⟩
    exact ⟨hself, fun _ => rfl⟩
  · rintro o ⟨⟩
    exact hself
  · rintro o ⟨⟩
    trivial
  · rintro o ⟨⟩
    trivial

/-- The destructors of the two items run, and no other. -/
theorem destructors_someItems :
    (∀ js, js <+: someItems → Destroys (Machine.run (callBoth id) (listMade noMem 1) js)) ∧
    ∃ o, (Machine.run (callBoth id) (listMade noMem 1) someItems).1 = .ok o ∧
      callsOf o.traced.events = [(100, 9), (101, 8)] := by
  refine ⟨(destructors_iff id (by decide) someItems_callable).2 ?_, _, rfl, rfl⟩
  refine ⟨trivial, trivial, trivial, trivial, ?_, trivial, trivial, ?_, ?_, trivial⟩
  · rintro e ⟨⟩
    rfl
  · rintro e he
    obtain rfl := List.mem_singleton.1 he
    rfl
  · rintro e ⟨⟩

/-- An item is pushed into memory with something in it, and the list is released: what was there is called. -/
theorem release_calls_unassigned :
    Machine.AllSteps (callBoth id) (WhenCalled Owner.Callable) (listMade noMem 1) [.push 8 16 7, .release] ∧
    (∃ o, (Machine.run (callBoth id) (listMade noMem 1) [.push 8 16 7, .release]).1 = .ok o ∧
      callsOf o.traced.events = [(7, 8)]) ∧
    ¬ Destroys (Machine.run (callBoth id) (listMade noMem 1) [.push 8 16 7, .release]) := by
  refine ⟨⟨?_, ?_, trivial⟩, ⟨_, rfl, rfl⟩, ?_⟩
  · rintro o ⟨⟩
    exact ⟨(by decide : (1 : Ptr) ≠ 0), fun _ => rfl⟩
  · rintro o ⟨⟩
    trivial
  · rintro ⟨o, ⟨⟩, hruns⟩
    -- nothing is due
    cases hruns.calls

end PubsubBroker

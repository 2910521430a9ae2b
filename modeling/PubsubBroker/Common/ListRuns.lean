/-
Runs of list operations: the lists of one memory, side by side with the sequences that they stand for. As
long as no `lkd_list_remove` comes upon a node whose `free_fn` is not NULL, every list is its sequence and
every call returns what the sequence gives.
-/
import PubsubBroker.Common.ListSeq

namespace PubsubBroker

open Linked

/-! ## Operations -/

/-- A call, with the addresses that `malloc` returns in it. -/
inductive ListOp
  | create (self : Ptr)
  | append (self item node : Ptr)
  | push (self item node freeFn : Ptr)
  | pop (self : Ptr)
  | remove (self item : Ptr)
  | dup (self copy : Ptr) (mallocs : List Ptr)
  | size (self : Ptr)

/-- What a call returns. -/
inductive ListRet
  | list (p : Ptr)
  | code (n : Int)
  | item (p : Ptr)
  | size (n : UInt64)
  deriving DecidableEq

/-- The list that a call makes or changes. -/
def ListOp.target : ListOp → Ptr
  | .create self | .append self .. | .push self .. | .pop self | .remove self _ | .size self => self
  | .dup _ copy _ => copy

section
variable (strdup : Ptr → Ptr)

/-- A call in the memory `m`. -/
def exec (m : Mem) : ListOp → Except Fault (Mem × ListRet)
  | .create self => (lkdListCreate m self).map fun m => (m, .list self)
  | .append self item node => (lkdListAppend strdup m self item node).map fun r => (r.1, .code r.2)
  | .push self item node freeFn => (lkdListPush strdup m self item node freeFn).map fun r => (r.1, .code r.2)
  | .pop self => (lkdListPop m self).map fun r => (r.1, .item r.2)
  | .remove self item => (lkdListRemove m self item).map fun r => (r.1, .code r.2)
  | .dup self copy mallocs => (lkdListDup strdup m self copy mallocs).map fun r => (r.1, .list r.2)
  | .size self => (lkdListSize m self).map fun n => (m, .size n)

/-- The program: the memory and what the calls so far have returned, or the fault it came to. -/
abbrev Program := Except Fault (Mem × List ListRet)

/-- The next call of the program. -/
def Program.step (s : Program) (op : ListOp) : Program := do
  let (m, rs) ← s
  let (m, r) ← exec strdup m op
  return (m, rs ++ [r])

end

/-! ## Sequences -/

/-- What the lists stand for, and what the calls return. -/
structure Seqs where
  seq : Ptr → Option (List Ptr)
  returned : List ListRet

/-- A call that changes a sequence. -/
def Seqs.change (q : Seqs) (self : Ptr) (f : List Ptr → List Ptr × ListRet) : Seqs :=
  match q.seq self with
  | none => q
  | some xs => ⟨Function.update q.seq self (some (f xs).1), q.returned ++ [(f xs).2]⟩

/-- The calls on sequences: adding at the end and at the front, removing the first element, removing the first
occurrence of an item, and copying. -/
def Seqs.step (q : Seqs) : ListOp → Seqs
  | .create self => ⟨Function.update q.seq self (some []), q.returned ++ [.list self]⟩
  | .append self item _ => q.change self fun xs => (xs ++ [item], .code LIST_OK)
  | .push self item _ _ => q.change self fun xs => (item :: xs, .code LIST_OK)
  | .pop self => q.change self fun xs => (xs.tail, .item (xs.headD 0))
  | .remove self item => q.change self fun xs =>
    if item ∈ xs then (xs.erase item, .code LIST_OK) else (xs, .code LIST_ERR)
  | .dup self copy _ =>
    match q.seq self with
    | none => q
    | some xs => ⟨Function.update q.seq copy (some xs), q.returned ++ [.list copy]⟩
  | .size self => q.change self fun xs => (xs, .size (UInt64.ofNat xs.length))

/-- The program and the sequences, before the first call. -/
def noLists : Program × Seqs := (.ok (⟨fun _ => none, fun _ => none⟩, []), ⟨fun _ => none, []⟩)

/-- The next call, on both sides. -/
def bothStep (strdup : Ptr → Ptr) (s : Program × Seqs) (op : ListOp) : Program × Seqs :=
  (s.1.step strdup op, s.2.step op)

/-- The lists of the memory are the sequences: each in its cells, and no cell in two of them. -/
structure Represents (m : Mem) (seq : Ptr → Option (List Ptr)) (cells : Ptr → List (Ptr × Content)) : Prop where
  absent : ∀ p, seq p = none → m.lists p = none ∧ cells p = []
  held : ∀ p xs, seq p = some xs → ∃ l, m.lists p = some l ∧ Holds m l (cells p) ∧ items (cells p) = xs
  apart : ∀ p q, p ≠ q → (addrs (cells p)).Disjoint (addrs (cells q))
  null : seq 0 = none

/-- The program has come to no fault, its lists are the sequences, and its calls have returned the same. -/
def Refines (s : Program × Seqs) : Prop :=
  ∃ m cells, s.1 = .ok (m, s.2.returned) ∧ Represents m s.2.seq cells

/-- The calls in question: on lists that were made, with items that are not NULL, while `malloc` returns
memory that is not in use, as often as it is called. -/
def Legal (m : Mem) : ListOp → Prop
  | .create self => self ≠ 0 ∧ m.lists self = none
  | .append self item node | .push self item node _ => m.lists self ≠ none ∧ item ≠ 0 ∧ node ≠ 0 ∧ m.nodes node = none
  | .pop self | .remove self _ | .size self => m.lists self ≠ none
  | .dup self copy mallocs => copy ≠ 0 ∧ m.lists copy = none ∧ FreeNodes m mallocs ∧
    ∃ l, m.lists self = some l ∧ l.size.toNat ≤ mallocs.length

/-- A removal does not come upon a node with something in its `free_fn`. -/
def RemoveCleared (m : Mem) : ListOp → Prop
  | .remove self item =>
    ∀ l ∈ m.lists self, ∀ c ∈ (m.cells l.head).find? fun c => c.2.item = item, c.2.freeFn = 0
  | _ => True

/-- A condition on the memory in which a call is made. -/
def InMemory (Ok : Mem → ListOp → Prop) (s : Program × Seqs) (op : ListOp) : Prop :=
  match s.1 with
  | .error _ => True
  | .ok (m, _) => Ok m op

/-! ## A step -/

section
variable {m m' : Mem} {q : Seqs} {cells : Ptr → List (Ptr × Content)}

/-- What an operation does to one list, for all of them. -/
theorem Represents.moves {seq : Ptr → Option (List Ptr)} (h : Represents m seq cells) {p : Ptr} (hp : p ≠ 0)
    {cs : List (Ptr × Content)} (hm : Moves m m' p (cells p) cs) {xs : List Ptr} (hxs : items cs = xs) :
    Represents m' (Function.update seq p (some xs)) (Function.update cells p cs) := by
  -- the cells of another list are neither among the old ones nor among the new ones
  have hother : ∀ q, q ≠ p → (addrs (cells q)).Disjoint (addrs cs) ∧ ∀ a ∈ addrs (cells q), m'.nodes a = m.nodes a := by
    intro q hq
    have hused : ∀ a ∈ addrs (cells q), m.nodes a ≠ none := by
      intro a ha
      cases hseq : seq q with
      | none =>
        rw [(h.absent q hseq).2] at ha
        cases ha
      | some xs =>
        obtain ⟨l, -, hholds, -⟩ := h.held q xs hseq
        exact hholds.allocated ha
    exact ⟨fun a ha ha' => (hm.fresh a ha').elim (h.apart q p hq ha) (hused a ha),
      fun a ha => hm.nodes a (h.apart q p hq ha) (hused a ha)⟩
  refine ⟨fun q hq => ?_, fun q ys hq => ?_, fun q r hqr => ?_, ?_⟩
  · by_cases hqp : q = p
    · rw [hqp, Function.update_self] at hq
      cases hq
    · rw [Function.update_of_ne hqp] at hq ⊢
      rw [hm.lists q hqp]
      exact h.absent q hq
  · by_cases hqp : q = p
    · subst hqp
      rw [Function.update_self] at hq ⊢
      cases hq
      obtain ⟨l, hl, hholds⟩ := hm.held
      exact ⟨l, hl, hholds, hxs⟩
    · rw [Function.update_of_ne hqp] at hq ⊢
      obtain ⟨l, hl, hholds, hitems⟩ := h.held q ys hq
      exact ⟨l, (hm.lists q hqp).trans hl, hholds.frame (hother q hqp).2, hitems⟩
  · by_cases hqp : q = p
    · subst hqp
      rw [Function.update_self, Function.update_of_ne (Ne.symm hqr)]
      exact (hother r (Ne.symm hqr)).1.symm
    · rw [Function.update_of_ne hqp]
      by_cases hrp : r = p
      · subst hrp
        rw [Function.update_self]
        exact (hother q hqp).1
      · rw [Function.update_of_ne hrp]
        exact h.apart q r hqr
  · rw [Function.update_of_ne (Ne.symm hp)]
    exact h.null

/-- The list that a call is made on, and its sequence. -/
theorem Represents.of_lists {seq : Ptr → Option (List Ptr)} (h : Represents m seq cells) {p : Ptr}
    (hp : m.lists p ≠ none) : p ≠ 0 ∧ ∃ l xs, m.lists p = some l ∧ seq p = some xs ∧ Holds m l (cells p) ∧
      items (cells p) = xs := by
  cases hseq : seq p with
  | none => exact absurd (h.absent p hseq).1 hp
  | some xs =>
    obtain ⟨l, hl, hholds, hitems⟩ := h.held p xs hseq
    refine ⟨?_, l, xs, hl, rfl, hholds, hitems⟩
    rintro rfl
    rw [h.null] at hseq
    cases hseq

/-- Where no list was made there are no cells. -/
theorem Represents.of_free {seq : Ptr → Option (List Ptr)} (h : Represents m seq cells) {p : Ptr}
    (hp : m.lists p = none) : cells p = [] := by
  cases hseq : seq p with
  | none => exact (h.absent p hseq).2
  | some xs =>
    obtain ⟨l, hl, -⟩ := h.held p xs hseq
    rw [hp] at hl
    cases hl

theorem Seqs.change_of_some {self : Ptr} {xs : List Ptr} (h : q.seq self = some xs) (f : List Ptr → List Ptr × ListRet) :
    q.change self f = ⟨Function.update q.seq self (some (f xs).1), q.returned ++ [(f xs).2]⟩ := by
  unfold Seqs.change
  rw [h]

theorem Seqs.step_dup {self : Ptr} {xs : List Ptr} (h : q.seq self = some xs) (copy : Ptr) (mallocs : List Ptr) :
    q.step (.dup self copy mallocs) = ⟨Function.update q.seq copy (some xs), q.returned ++ [.list copy]⟩ := by
  unfold Seqs.step
  simp only [h]

/-- A call returns what the sequences say, and the memory goes on representing them. -/
def Answers (strdup : Ptr → Ptr) (m : Mem) (q : Seqs) (op : ListOp) : Prop :=
  ∃ m' r cells, exec strdup m op = .ok (m', r) ∧ (q.step op).returned = q.returned ++ [r] ∧
    Represents m' (q.step op).seq cells

variable {strdup : Ptr → Ptr} {self : Ptr}

/-- A call that moves the list it is made on as the sequence is changed. -/
theorem Answers.of_moves {op : ListOp} {f : List Ptr → List Ptr × ListRet} (h : Represents m q.seq cells)
    (hself : m.lists self ≠ none) (hstep : q.step op = q.change self f)
    (hexec : ∀ l, m.lists self = some l → Holds m l (cells self) → ∃ m' cs,
      exec strdup m op = .ok (m', (f (items (cells self))).2) ∧ Moves m m' self (cells self) cs ∧
        items cs = (f (items (cells self))).1) : Answers strdup m q op := by
  obtain ⟨h0, l, xs, hl, hseq, hholds, rfl⟩ := h.of_lists hself
  obtain ⟨m', cs, he, hmoves, hitems⟩ := hexec l hl hholds
  unfold Answers
  rw [hstep, Seqs.change_of_some hseq]
  exact ⟨m', _, _, he, rfl, h.moves h0 hmoves hitems⟩

theorem answers_create (h : Represents m q.seq cells) (h0 : self ≠ 0) (hnew : m.lists self = none) :
    Answers strdup m q (.create self) := by
  obtain ⟨m', hcreate, hmoves⟩ := lkdListCreate_moves (m := m) h0
  rw [← h.of_free hnew] at hmoves
  refine ⟨m', .list self, _, ?_, rfl, h.moves h0 hmoves ?_⟩
  · rw [exec, hcreate]
    rfl
  · rw [h.of_free hnew]
    rfl

theorem answers_append (h : Represents m q.seq cells) {item node : Ptr} (hself : m.lists self ≠ none) (hitem : item ≠ 0)
    (hnode : node ≠ 0) (hfree : m.nodes node = none) : Answers strdup m q (.append self item node) := by
  apply Answers.of_moves h hself rfl
  intro l hl hholds
  obtain ⟨m', happend, hmoves⟩ := lkdListAppend_moves strdup hl hholds hitem hnode hfree
  refine ⟨m', _, ?_, hmoves, List.map_append⟩
  rw [exec, happend]
  rfl

theorem answers_push (h : Represents m q.seq cells) {item node : Ptr} (hself : m.lists self ≠ none) (hitem : item ≠ 0)
    (hnode : node ≠ 0) (hfree : m.nodes node = none) (freeFn : Ptr) :
    Answers strdup m q (.push self item node freeFn) := by
  apply Answers.of_moves h hself rfl
  intro l hl hholds
  obtain ⟨m', hpush, hmoves⟩ := lkdListPush_moves strdup hl hholds hitem hnode hfree
  refine ⟨m', _, ?_, hmoves, rfl⟩
  rw [exec, hpush]
  rfl

theorem answers_pop (h : Represents m q.seq cells) (hself : m.lists self ≠ none) : Answers strdup m q (.pop self) := by
  apply Answers.of_moves h hself rfl
  intro l hl hholds
  obtain ⟨m', hpop, hmoves⟩ := lkdListPop_moves hl hholds
  refine ⟨m', _, ?_, hmoves, List.map_tail⟩
  rw [exec, hpop]
  rfl

theorem answers_size (h : Represents m q.seq cells) (hself : m.lists self ≠ none) : Answers strdup m q (.size self) := by
  refine .of_moves h hself rfl fun l hl hholds => ⟨m, cells self, ?_, .refl hl hholds, rfl⟩
  rw [exec, lkdListSize, Mem.list_of_some hl, ok_bind, hholds.size_eq, List.length_map]
  rfl

theorem answers_dup (h : Represents m q.seq cells) {copy : Ptr} (hcopy : copy ≠ 0) (hnew : m.lists copy = none)
    {mallocs : List Ptr} (hfree : FreeNodes m mallocs) {l : LkdList} (hl : m.lists self = some l)
    (hlen : l.size.toNat ≤ mallocs.length) : Answers strdup m q (.dup self copy mallocs) := by
  have hself : m.lists self ≠ none := by simp [hl]
  obtain ⟨h0, l', xs, hl', hseq, hholds, rfl⟩ := h.of_lists hself
  rw [hl] at hl'
  cases hl'
  rw [hholds.size] at hlen
  obtain ⟨m', ds, hdup, hmoves, hitems⟩ := lkdListDup_moves strdup h0 hl hholds hcopy hnew hfree hlen
  rw [← h.of_free hnew] at hmoves
  unfold Answers
  rw [Seqs.step_dup hseq]
  refine ⟨m', .list copy, _, ?_, rfl, h.moves hcopy hmoves hitems⟩
  rw [exec, hdup]
  rfl

/-- The search finds the cell that is behind no other one with the item. -/
theorem find?_cell {us : List (Ptr × Content)} {item : Ptr} (hnot : item ∉ items us) {a : Ptr} {c : Content}
    (hc : c.item = item) (vs : List (Ptr × Content)) :
    (us ++ (a, c) :: vs).find? (fun c => c.2.item = item) = some (a, c) := by
  rw [List.find?_append, List.find?_eq_none.2, List.find?_cons_of_pos (by simpa using hc)]
  · rfl
  · intro d hd
    have : d.2.item ∈ items us := List.mem_map_of_mem hd
    simp only [decide_eq_true_eq]
    rintro rfl
    exact hnot this

/-- A removal answers exactly when it does not come upon a `free_fn`. -/
theorem answers_remove_iff (h : Represents m q.seq cells) (hself : m.lists self ≠ none) (item : Ptr) :
    Answers strdup m q (.remove self item) ↔ RemoveCleared m (.remove self item) := by
  obtain ⟨h0, l, xs, hl, hseq, hholds, -⟩ := h.of_lists hself
  have hcleared : RemoveCleared m (.remove self item) ↔
      ∀ c ∈ (cells self).find? fun c => c.2.item = item, c.2.freeFn = 0 := by
    unfold RemoveCleared
    simp [hl, hholds.cells_eq]
  rw [hcleared]
  rcases lkdListRemove_eq hl hholds item with ⟨hnot, hremove⟩ | ⟨us, a, c, vs, hcs, hnot, hc, m', l', n, hremove, hfn, hu⟩
  · -- no cell has the item
    refine iff_of_true (.of_moves h hself rfl fun l hl hholds => ⟨m, cells self, ?_, .refl hl hholds, ?_⟩) fun c hc => ?_
    · rw [exec, hremove, if_neg hnot]
      rfl
    · rw [if_neg hnot]
    · have hfind := Option.mem_def.1 hc
      have hitem : c.2.item = item := by simpa using List.find?_some hfind
      exact absurd (hitem ▸ List.mem_map_of_mem (List.mem_of_find?_eq_some hfind)) hnot
  · rw [hcs, find?_cell hnot hc]
    simp only [Option.mem_some_iff, forall_eq']
    constructor
    · -- a jump is no answer
      rintro ⟨m'', r, cells', hexec, -⟩
      by_contra hne
      rw [exec, hremove, removeNode, if_pos (by rwa [hfn])] at hexec
      cases hexec
    · intro hclear
      apply Answers.of_moves h hself rfl
      intro l₁ hl₁ hholds₁
      rw [hl] at hl₁
      cases hl₁
      rw [hcs] at hholds ⊢
      have hmoved : ∃ m'', removeNode m' self l' a n = .ok (m'', LIST_OK) ∧
          Moves m m'' self (us ++ (a, c) :: vs) (us ++ vs) := hu.moves hholds (hfn.trans hclear)
      obtain ⟨m'', hok, hmoves⟩ := hmoved
      -- the items without the first one is `erase`
      have hmem : item ∈ items (us ++ (a, c) :: vs) := by simp [items, ← hc]
      refine ⟨m'', us ++ vs, ?_, hmoves, ?_⟩
      · rw [exec, hremove, hok, if_pos hmem]
        rfl
      · rw [if_pos hmem]
        simp only [items, List.map_append, List.map_cons, hc]
        rw [List.erase_append_right _ hnot, List.erase_cons_head]

/-- The calls in question answer, but for a removal that comes upon a `free_fn`. -/
theorem answers_iff (h : Represents m q.seq cells) {op : ListOp} (hlegal : Legal m op) :
    Answers strdup m q op ↔ RemoveCleared m op := by
  cases op with
  | create self => exact iff_of_true (answers_create h hlegal.1 hlegal.2) trivial
  | append self item node =>
    obtain ⟨hself, hitem, hnode, hfree⟩ := hlegal
    exact iff_of_true (answers_append h hself hitem hnode hfree) trivial
  | push self item node freeFn =>
    obtain ⟨hself, hitem, hnode, hfree⟩ := hlegal
    exact iff_of_true (answers_push h hself hitem hnode hfree freeFn) trivial
  | pop self => exact iff_of_true (answers_pop h hlegal) trivial
  | remove self item => exact answers_remove_iff h hlegal item
  | dup self copy mallocs =>
    obtain ⟨hcopy, hnew, hfree, l, hl, hlen⟩ := hlegal
    exact iff_of_true (answers_dup h hcopy hnew hfree hl hlen) trivial
  | size self => exact iff_of_true (answers_size h hlegal) trivial

theorem Refines.step_iff {s : Program × Seqs} (h : Refines s) {op : ListOp} (hlegal : InMemory Legal s op) :
    Refines (bothStep strdup s op) ↔ InMemory RemoveCleared s op := by
  obtain ⟨m, cells, hs, hrep⟩ := h
  obtain ⟨s, q⟩ := s
  obtain rfl : s = .ok (m, q.returned) := hs
  have hanswers : Answers strdup m q op ↔ RemoveCleared m op := answers_iff hrep hlegal
  refine Iff.trans ?_ hanswers
  -- the program's next state is what the call makes of the memory
  have hstep : (bothStep strdup (.ok (m, q.returned), q) op).1 =
      (exec strdup m op).map fun r => (r.1, q.returned ++ [r.2]) := by
    unfold bothStep Program.step
    simp only [ok_bind]
    cases exec strdup m op <;> rfl
  unfold Refines Answers
  rw [hstep]
  constructor
  · rintro ⟨m', cells', he, hrep'⟩
    cases hexec : exec strdup m op with
    | error f =>
      rw [hexec] at he
      cases he
    | ok r =>
      rw [hexec] at he
      obtain ⟨rfl, hret⟩ := Prod.mk.inj (Except.ok.inj he)
      exact ⟨r.1, r.2, cells', rfl, hret.symm, hrep'⟩
  · rintro ⟨m', r, cells', hexec, hret, hrep'⟩
    rw [hexec]
    refine ⟨m', cells', ?_, hrep'⟩
    rw [Except.map, ← hret]
    rfl

end

/-! ## Where a `free_fn` comes from -/

/-- All nodes have NULL in their `free_fn`. -/
def Mem.Cleared (m : Mem) : Prop := ∀ p n, m.nodes p = some n → n.freeFn = 0

/-- A push is given memory with NULL there. -/
def ListOp.Zeroed : ListOp → Prop
  | .push _ _ _ freeFn => freeFn = 0
  | _ => True

theorem exists_of_bind_ok {ε α β : Type} {x : Except ε α} {f : α → Except ε β} {b : β} (h : (x >>= f) = .ok b) :
    ∃ a, x = .ok a ∧ f a = .ok b := by
  cases x with
  | error e => cases h
  | ok a => exact ⟨a, rfl, h⟩

theorem exists_of_map_ok {ε α β : Type} {x : Except ε α} {f : α → β} {b : β} (h : x.map f = .ok b) :
    ∃ a, x = .ok a ∧ f a = b := by
  cases x with
  | error e => cases h
  | ok a => exact ⟨a, rfl, Except.ok.inj h⟩

section
variable {strdup : Ptr → Ptr} {m m' : Mem} {self p : Ptr} {n : NodeT}

theorem Mem.Cleared.of_node (h : m.Cleared) (hn : m.node p = .ok n) : n.freeFn = 0 := by
  unfold Mem.node at hn
  split at hn
  · cases hn
  · cases hn
    exact h p _ ‹_›

theorem Mem.Cleared.putNode (h : m.Cleared) (hn : n.freeFn = 0) : (m.putNode p n).Cleared := by
  intro q k hk
  by_cases hqp : q = p
  · subst hqp
    rw [Mem.putNode_self] at hk
    cases hk
    exact hn
  · rw [Mem.putNode_of_ne hqp] at hk
    exact h q k hk

theorem Mem.Cleared.freeNode (h : m.Cleared) : (m.freeNode p).Cleared := by
  intro q k hk
  by_cases hqp : q = p
  · subst hqp
    rw [Mem.freeNode_self] at hk
    cases hk
  · rw [Mem.freeNode_of_ne hqp] at hk
    exact h q k hk

theorem Mem.Cleared.create (h : m.Cleared) (he : lkdListCreate m self = .ok m') : m'.Cleared := by
  unfold lkdListCreate at he
  split at he
  · cases he
  · cases he
    exact h

theorem Mem.Cleared.append (h : m.Cleared) {item node : Ptr} {r : Int}
    (he : lkdListAppend strdup m self item node = .ok (m', r)) : m'.Cleared := by
  unfold lkdListAppend at he
  split at he
  · cases he
    exact h
  · split at he
    · cases he
      exact h
    · obtain ⟨l, -, he⟩ := exists_of_bind_ok he
      simp only at he
      -- what the item is does not matter
      generalize (if l.autofree ≠ 0 then strdup item else item) = x at he
      have hnew : ((m.putNode node ⟨0, 0, 0⟩).putNode node ⟨0, x, 0⟩).Cleared := (h.putNode rfl).putNode rfl
      split at he
      · obtain ⟨t, ht, he⟩ := exists_of_bind_ok he
        obtain ⟨k, hk, he⟩ := exists_of_bind_ok he
        cases he
        have htail : t.freeFn = 0 := hnew.of_node ht
        have hlinked := hnew.putNode (p := l.tail) (n := { t with next := node }) htail
        have hnode : k.freeFn = 0 := hlinked.of_node hk
        exact hlinked.putNode hnode
      · cases he
        exact hnew

theorem Mem.Cleared.push (h : m.Cleared) {item node : Ptr} {r : Int}
    (he : lkdListPush strdup m self item node 0 = .ok (m', r)) : m'.Cleared := by
  unfold lkdListPush at he
  split at he
  · cases he
    exact h
  · split at he
    · cases he
      exact h
    · obtain ⟨l, -, he⟩ := exists_of_bind_ok he
      cases he
      exact h.putNode rfl

theorem Mem.Cleared.pop (h : m.Cleared) {r : Ptr} (he : lkdListPop m self = .ok (m', r)) : m'.Cleared := by
  obtain ⟨l, -, he⟩ := exists_of_bind_ok he
  split at he
  · cases he
    exact h
  · obtain ⟨k, -, he⟩ := exists_of_bind_ok he
    cases he
    exact h.freeNode

theorem Mem.Cleared.removeNode (h : m.Cleared) {l : LkdList} {a : Ptr} {r : Int}
    (he : removeNode m self l a n = .ok (m', r)) : m'.Cleared := by
  unfold PubsubBroker.removeNode at he
  split at he
  · cases he
  · cases he
    exact h.freeNode

theorem Mem.Cleared.remove (h : m.Cleared) {item : Ptr} {r : Int} (he : lkdListRemove m self item = .ok (m', r)) :
    m'.Cleared := by
  obtain ⟨l, -, he⟩ := exists_of_bind_ok he
  obtain ⟨⟨prev, node⟩, -, he⟩ := exists_of_bind_ok he
  simp only at he
  split at he
  · cases he
    exact h
  · obtain ⟨k, hk, he⟩ := exists_of_bind_ok he
    split at he
    · obtain ⟨t, ht, he⟩ := exists_of_bind_ok he
      have hprev : t.freeFn = 0 := h.of_node ht
      exact (h.putNode (n := { t with next := k.next }) hprev).removeNode he
    · exact h.removeNode he

theorem Mem.Cleared.releaseLoop : ∀ {fuel : Nat} {m m' : Mem} {p : Ptr}, m.Cleared →
    releaseLoop fuel m p = .ok m' → m'.Cleared
  | 0, _, _, _, _, he => by cases he
  | fuel + 1, m, m', p, h, he => by
    unfold PubsubBroker.releaseLoop at he
    split at he
    · cases he
      exact h
    · obtain ⟨n, -, he⟩ := exists_of_bind_ok he
      split at he
      · cases he
      · exact Mem.Cleared.releaseLoop h.freeNode he

theorem Mem.Cleared.release (h : m.Cleared) (he : lkdListRelease m self = .ok m') : m'.Cleared := by
  obtain ⟨l, -, he⟩ := exists_of_bind_ok he
  obtain ⟨m₁, hm₁, he⟩ := exists_of_bind_ok he
  cases he
  have hloop : m₁.Cleared := Mem.Cleared.releaseLoop h hm₁
  exact hloop

theorem Mem.Cleared.dupLoop {copy : Ptr} : ∀ {mallocs : List Ptr} {m m' : Mem} {p r : Ptr}, m.Cleared →
    dupLoop strdup copy mallocs m p = .ok (m', r) → m'.Cleared
  | [], m, m', p, r, h, he => by
    unfold PubsubBroker.dupLoop at he
    split at he
    · cases he
      exact h
    · obtain ⟨_, -, he⟩ := exists_of_bind_ok he
      obtain ⟨m₁, hm₁, he⟩ := exists_of_bind_ok he
      cases he
      exact h.release hm₁
  | a :: mallocs, m, m', p, r, h, he => by
    unfold PubsubBroker.dupLoop at he
    split at he
    · cases he
      exact h
    · obtain ⟨n, -, he⟩ := exists_of_bind_ok he
      obtain ⟨⟨m₁, c⟩, happend, he⟩ := exists_of_bind_ok he
      simp only at he
      split at he
      · obtain ⟨m₂, hm₂, he⟩ := exists_of_bind_ok he
        cases he
        exact (h.append happend).release hm₂
      · obtain ⟨k, -, he⟩ := exists_of_bind_ok he
        exact Mem.Cleared.dupLoop (h.append happend) he

theorem Mem.Cleared.dup (h : m.Cleared) {copy r : Ptr} {mallocs : List Ptr}
    (he : lkdListDup strdup m self copy mallocs = .ok (m', r)) : m'.Cleared := by
  unfold lkdListDup at he
  split at he
  · cases he
    exact h
  · obtain ⟨m₁, hm₁, he⟩ := exists_of_bind_ok he
    obtain ⟨l, -, he⟩ := exists_of_bind_ok he
    obtain ⟨c, -, he⟩ := exists_of_bind_ok he
    have hcreate : m₁.Cleared := h.create hm₁
    exact Mem.Cleared.dupLoop (m := m₁.putList copy { c with autofree := l.autofree }) hcreate he

/-- Only a push leaves something in a `free_fn`. -/
theorem Mem.Cleared.exec (h : m.Cleared) {op : ListOp} (hop : op.Zeroed) {r : ListRet}
    (he : exec strdup m op = .ok (m', r)) : m'.Cleared := by
  cases op with
  | create self =>
    obtain ⟨m₁, hm₁, hr⟩ := exists_of_map_ok he
    cases hr
    exact h.create hm₁
  | append self item node =>
    obtain ⟨⟨m₁, c⟩, hm₁, hr⟩ := exists_of_map_ok he
    cases hr
    exact h.append hm₁
  | push self item node freeFn =>
    obtain ⟨⟨m₁, c⟩, hm₁, hr⟩ := exists_of_map_ok he
    cases hr
    obtain rfl : freeFn = 0 := hop
    exact h.push hm₁
  | pop self =>
    obtain ⟨⟨m₁, c⟩, hm₁, hr⟩ := exists_of_map_ok he
    cases hr
    exact h.pop hm₁
  | remove self item =>
    obtain ⟨⟨m₁, c⟩, hm₁, hr⟩ := exists_of_map_ok he
    cases hr
    exact h.remove hm₁
  | dup self copy mallocs =>
    obtain ⟨⟨m₁, c⟩, hm₁, hr⟩ := exists_of_map_ok he
    cases hr
    exact h.dup hm₁
  | size self =>
    obtain ⟨k, -, hr⟩ := exists_of_map_ok he
    cases hr
    exact h

/-- In such memory no removal comes upon a `free_fn`. -/
theorem Mem.Cleared.removeCleared (h : m.Cleared) (op : ListOp) : RemoveCleared m op := by
  cases op with
  | remove self item =>
    intro l _ c hc
    obtain ⟨r, hr⟩ := get_of_mem_walk (List.mem_of_find?_eq_some hc)
    exact h _ _ (Mem.exists_node hr)
  | _ => trivial

/-- The program has come to a fault, or its memory is cleared. -/
def Program.Cleared (s : Program) : Prop :=
  match s with
  | .error _ => True
  | .ok (m, _) => m.Cleared

theorem Program.Cleared.step {s : Program} (h : s.Cleared) {op : ListOp} (hop : op.Zeroed) :
    (s.step strdup op).Cleared := by
  cases s with
  | error f => trivial
  | ok r =>
    obtain ⟨m, rs⟩ := r
    unfold Program.step
    simp only [ok_bind]
    cases he : PubsubBroker.exec strdup m op with
    | error f => trivial
    | ok r => exact Mem.Cleared.exec h hop he

variable (strdup) in
/-- Lists to which nothing is pushed, or only in zeroed memory, are sequences all along. -/
theorem removeCleared_of_zeroed {ops : List ListOp} (h : ∀ op ∈ ops, op.Zeroed) :
    Machine.AllSteps (bothStep strdup) (InMemory RemoveCleared) noLists ops := by
  have hstart : noLists.1.Cleared := fun p n hn => by cases hn
  apply Machine.AllSteps.intro
  intro js op hjs
  have hzeroed : ∀ op ∈ js, op.Zeroed := fun op hop => h op (hjs.subset (List.mem_append_left _ hop))
  have hcleared : (Machine.run (bothStep strdup) noLists js).1.Cleared :=
    Machine.AllSteps.invariant (I := fun s : Program × Seqs => s.1.Cleared) (fun _ _ hs hop => hs.step hop) hstart
      (.of_forall hzeroed)
  revert hcleared
  unfold InMemory
  cases (Machine.run (bothStep strdup) noLists js).1 with
  | error f => exact fun _ => trivial
  | ok r => exact fun hm => Mem.Cleared.removeCleared hm op

end

/-! ## A run -/

/-- The items of the list at `p`. -/
def Program.items (s : Program) (p : Ptr) : Option (List Ptr) :=
  match s with
  | .error _ => none
  | .ok (m, _) => (m.lists p).map fun l => PubsubBroker.items (m.cells l.head)

theorem noLists_refines : Refines noLists := by
  refine ⟨_, fun _ => [], rfl, fun p _ => ⟨rfl, rfl⟩, fun p xs h => ?_, fun p q _ => List.disjoint_nil_left _, rfl⟩
  cases h

theorem Refines.items_eq {s : Program × Seqs} (h : Refines s) (p : Ptr) : s.1.items p = s.2.seq p := by
  obtain ⟨m, cells, hs, hrep⟩ := h
  rw [hs]
  unfold Program.items
  simp only
  cases hseq : s.2.seq p with
  | none =>
    rw [(hrep.absent p hseq).1]
    rfl
  | some xs =>
    obtain ⟨l, hl, hholds, hitems⟩ := hrep.held p xs hseq
    rw [hl, Option.map_some, hholds.cells_eq, hitems]

theorem Seqs.step_of_ne (q : Seqs) (op : ListOp) {p : Ptr} (hp : p ≠ op.target) : (q.step op).seq p = q.seq p := by
  have hchange (f : List Ptr → List Ptr × ListRet) : (q.change op.target f).seq p = q.seq p := by
    unfold Seqs.change
    cases q.seq op.target with
    | none => rfl
    | some xs => exact Function.update_of_ne hp ..
  cases op with
  | create self => exact Function.update_of_ne hp ..
  | dup self copy mallocs =>
    unfold Seqs.step
    cases hself : q.seq self with
    | none => simp [hself]
    | some xs =>
      simp only [hself]
      exact Function.update_of_ne hp ..
  | _ => exact hchange _

section
variable (strdup : Ptr → Ptr)

/-- In a run of calls on lists that were made, with items that are not NULL and with every allocation
succeeding, all lists are their sequences after every call, and a call leaves the items of the other lists
as they are, exactly when no removal comes upon a node with something in its `free_fn`. -/
theorem lists_refine_iff {ops : List ListOp}
    (hlegal : Machine.AllSteps (bothStep strdup) (InMemory Legal) noLists ops) :
    ((∀ js, js <+: ops → Refines (Machine.run (bothStep strdup) noLists js)) ∧
      ∀ js op, js ++ [op] <+: ops → ∀ p, p ≠ op.target →
        (Machine.run (bothStep strdup) noLists (js ++ [op])).1.items p =
          (Machine.run (bothStep strdup) noLists js).1.items p) ↔
    Machine.AllSteps (bothStep strdup) (InMemory RemoveCleared) noLists ops := by
  -- the other lists follow from the refinement: the step on the sequences changes only its target
  rw [← Machine.invariant_iff_allSteps_of (fun s op h hl => h.step_iff hl) noLists_refines hlegal]
  apply and_iff_left_of_imp
  intro h js op hjs p hp
  have hbefore := h js ((List.prefix_append js [op]).trans hjs)
  have hafter := h (js ++ [op]) hjs
  rw [hbefore.items_eq, hafter.items_eq, Machine.run_append]
  exact Seqs.step_of_ne _ op hp

end

/-- Calls on two lists; the item of the push goes to memory with `freeFn` in it, and is removed at the end. -/
def someCalls (freeFn : Ptr) : List ListOp :=
  [.create 1, .push 1 8 16 freeFn, .append 1 9 17, .dup 1 2 [18, 19], .pop 2, .remove 1 8]

theorem someCalls_legal (freeFn : Ptr) : Machine.AllSteps (bothStep id) (InMemory Legal) noLists (someCalls freeFn) := by
  refine ⟨⟨by decide, rfl⟩, ⟨Option.some_ne_none _, by decide, by decide, rfl⟩,
    ⟨Option.some_ne_none _, by decide, by decide, rfl⟩, ⟨by decide, rfl, ?_, _, rfl, by decide⟩,
    Option.some_ne_none _, Option.some_ne_none _, trivial⟩
  refine ⟨by simp, by simp, fun a ha => ?_⟩
  fin_cases ha <;> rfl

/-- In zeroed memory the calls are as on sequences. -/
theorem lists_refine_zeroed : (∀ js, js <+: someCalls 0 → Refines (Machine.run (bothStep id) noLists js)) ∧
    ∀ js op, js ++ [op] <+: someCalls 0 → ∀ p, p ≠ op.target →
      (Machine.run (bothStep id) noLists (js ++ [op])).1.items p = (Machine.run (bothStep id) noLists js).1.items p :=
  (lists_refine_iff id (someCalls_legal 0)).2 (removeCleared_of_zeroed id (by simp [someCalls, ListOp.Zeroed]))

/-- With something else in that memory the removal jumps to it. -/
theorem remove_jumps : Machine.AllSteps (bothStep id) (InMemory Legal) noLists (someCalls 7) ∧
    (Machine.run (bothStep id) noLists (someCalls 7)).1 = .error (.call 7) ∧
    ¬ Refines (Machine.run (bothStep id) noLists (someCalls 7)) := by
  have hfault : (Machine.run (bothStep id) noLists (someCalls 7)).1 = .error (.call 7) := rfl
  refine ⟨someCalls_legal 7, hfault, fun h => ?_⟩
  obtain ⟨m, cells, hok, -⟩ := h
  rw [hfault] at hok
  cases hok

end PubsubBroker

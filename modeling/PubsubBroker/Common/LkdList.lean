/-
`common/list.c`: singly linked lists. Several lists live in one memory of nodes and list records. An
operation is given the addresses that its calls of `malloc` return, NULL where one fails, and ends with a
fault where the C program would use a pointer to nothing.
-/
import PubsubBroker.Lib.Linked

namespace PubsubBroker

/-- An address, 64 bits wide. -/
abbrev Ptr := UInt64

/-- The number of addresses. A loop over the nodes that takes as many steps has come back to a node. -/
def addresses : Nat := 2 ^ 64

/-- `LIST_OK` -/
abbrev LIST_OK : Int := 0
/-- `LIST_ERR` -/
abbrev LIST_ERR : Int := -1

/-- `node_t` -/
structure NodeT where
  next : Ptr
  item : Ptr
  freeFn : Ptr

/-- `lkdList` -/
structure LkdList where
  head : Ptr
  tail : Ptr
  size : UInt64
  autofree : Int

/-- The memory: the nodes and the list records that are allocated. -/
structure Mem where
  nodes : Ptr → Option NodeT
  lists : Ptr → Option LkdList

/-- What goes wrong: an access where nothing is allocated, a jump to `free_fn` (no operation here stores
a function), or a loop without end. -/
inductive Fault
  | access (p : Ptr)
  | call (fn : Ptr)
  | endless

namespace Mem

def node (m : Mem) (p : Ptr) : Except Fault NodeT :=
  match m.nodes p with
  | none => .error (.access p)
  | some n => .ok n

def list (m : Mem) (p : Ptr) : Except Fault LkdList :=
  match m.lists p with
  | none => .error (.access p)
  | some l => .ok l

def putNode (m : Mem) (p : Ptr) (n : NodeT) : Mem := { m with nodes := Function.update m.nodes p (some n) }

def freeNode (m : Mem) (p : Ptr) : Mem := { m with nodes := Function.update m.nodes p none }

def putList (m : Mem) (p : Ptr) (l : LkdList) : Mem := { m with lists := Function.update m.lists p (some l) }

def freeList (m : Mem) (p : Ptr) : Mem := { m with lists := Function.update m.lists p none }

end Mem

section
-- the copy that `strdup` makes of a string, which only lists with `autofree` ask for
variable (strdup : Ptr → Ptr)

/-- `lkd_list_create()`, where `malloc` returns `self`. -/
def lkdListCreate (m : Mem) (self : Ptr) : Except Fault Mem :=
  if self = 0 then .error (.access 0) else .ok (m.putList self ⟨0, 0, 0, 0⟩)

/-- The loop of `lkd_list_release`. -/
def releaseLoop : Nat → Mem → Ptr → Except Fault Mem
  | 0, _, _ => .error .endless
  | fuel + 1, m, node =>
    if node = 0 then .ok m
    else do
      let n ← m.node node
      if n.freeFn ≠ 0 then .error (.call n.freeFn)
      else releaseLoop fuel (m.freeNode node) n.next

/-- `lkd_list_release(&self)` for `self` not NULL. -/
def lkdListRelease (m : Mem) (self : Ptr) : Except Fault Mem := do
  let l ← m.list self
  let m ← releaseLoop addresses m l.head
  return m.freeList self

/-- `lkd_list_append(self, item)`, where `malloc` returns `node`. -/
def lkdListAppend (m : Mem) (self item node : Ptr) : Except Fault (Mem × Int) :=
  if item = 0 then .ok (m, LIST_ERR)
  else if node = 0 then .ok (m, LIST_ERR)
  else do
    -- `_lkd_list_node_create` clears the node
    let m := m.putNode node ⟨0, 0, 0⟩
    let l ← m.list self
    let item := if l.autofree ≠ 0 then strdup item else item
    let m := m.putNode node ⟨0, item, 0⟩
    if l.tail ≠ 0 then
      let t ← m.node l.tail
      let m := m.putNode l.tail { t with next := node }
      let n ← m.node node
      let m := m.putNode node { n with next := 0 }
      return (m.putList self { l with tail := node, size := l.size + 1 }, LIST_OK)
    else
      return (m.putList self { l with head := node, tail := node, size := l.size + 1 }, LIST_OK)

/-- `lkd_list_push(self, item)`, where `malloc` returns `node`. The member `free_fn` keeps what `malloc`
has left there. -/
def lkdListPush (m : Mem) (self item node freeFn : Ptr) : Except Fault (Mem × Int) :=
  if item = 0 then .ok (m, LIST_ERR)
  else if node = 0 then .ok (m, LIST_ERR)
  else do
    let l ← m.list self
    let item := if l.autofree ≠ 0 then strdup item else item
    let m := m.putNode node ⟨l.head, item, freeFn⟩
    let tail := if l.tail = 0 then node else l.tail
    return (m.putList self { l with head := node, tail := tail, size := l.size + 1 }, LIST_OK)

/-- `lkd_list_pop(self)` -/
def lkdListPop (m : Mem) (self : Ptr) : Except Fault (Mem × Ptr) := do
  let l ← m.list self
  if l.head = 0 then return (m, 0)
  else
    let n ← m.node l.head
    let tail := if l.tail = l.head then 0 else l.tail
    return ((m.freeNode l.head).putList self { l with head := n.next, tail := tail, size := l.size - 1 }, n.item)

/-- The search of `lkd_list_remove` from `node` on: the node before the one with the item, and that one. -/
def findItem (m : Mem) (item : Ptr) : Nat → Ptr → Ptr → Except Fault (Ptr × Ptr)
  | 0, _, _ => .error .endless
  | fuel + 1, prev, node =>
    if node = 0 then .ok (prev, node)
    else do
      let n ← m.node node
      if n.item = item then .ok (prev, node) else findItem m item fuel node n.next

/-- The end of `lkd_list_remove`, once the node is unlinked. With `autofree` the item is freed, which is
not a node. -/
def removeNode (m : Mem) (self : Ptr) (l : LkdList) (node : Ptr) (n : NodeT) : Except Fault (Mem × Int) :=
  if n.freeFn ≠ 0 then .error (.call n.freeFn)
  else .ok ((m.freeNode node).putList self { l with size := l.size - 1 }, LIST_OK)

/-- `lkd_list_remove(self, item)` -/
def lkdListRemove (m : Mem) (self item : Ptr) : Except Fault (Mem × Int) := do
  let l ← m.list self
  let (prev, node) ← findItem m item addresses 0 l.head
  if node = 0 then return (m, LIST_ERR)
  else
    let n ← m.node node
    if prev ≠ 0 then
      let p ← m.node prev
      let m := m.putNode prev { p with next := n.next }
      removeNode m self { l with tail := if n.next = 0 then prev else l.tail } node n
    else
      removeNode m self { l with head := n.next, tail := if n.next = 0 then prev else l.tail } node n

/-- The loop of `lkd_list_dup` from `node` on, with the addresses that `malloc` returns for the nodes; it
returns the copy, or NULL when an item cannot be appended. -/
def dupLoop (copy : Ptr) : List Ptr → Mem → Ptr → Except Fault (Mem × Ptr)
  | [], m, node =>
    if node = 0 then .ok (m, copy)
    else do
      let _ ← m.node node
      let m ← lkdListRelease m copy
      return (m, 0)
  | a :: mallocs, m, node =>
    if node = 0 then .ok (m, copy)
    else do
      let n ← m.node node
      let (m, r) ← lkdListAppend strdup m copy n.item a
      if r = LIST_ERR then
        let m ← lkdListRelease m copy
        return (m, 0)
      else
        let n ← m.node node
        dupLoop copy mallocs m n.next

/-- `lkd_list_dup(self)`, where `malloc` returns `copy` for the list record. -/
def lkdListDup (m : Mem) (self copy : Ptr) (mallocs : List Ptr) : Except Fault (Mem × Ptr) :=
  if self = 0 then .ok (m, 0)
  else do
    let m ← lkdListCreate m copy
    let l ← m.list self
    let c ← m.list copy
    let m := m.putList copy { c with autofree := l.autofree }
    dupLoop strdup copy mallocs m l.head

end

/-- `lkd_list_size(self)` -/
def lkdListSize (m : Mem) (self : Ptr) : Except Fault UInt64 := do
  let l ← m.list self
  return l.size

end PubsubBroker

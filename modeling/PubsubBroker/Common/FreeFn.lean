/-
The member `free_fn` of the nodes in `common/list.c`: `lkd_list_set_freefn`, and the two functions that
call what is in it. What is called is a function of the program; the calls are events here, as are the
accesses to `free_fn`, and what a call does to its item lies outside the memory of the list.
-/
import PubsubBroker.Common.LkdList

namespace PubsubBroker

/-- An access to the `free_fn` of a node, or a call of what is in it. -/
inductive FreeFnEvent
  /-- `malloc` returns memory for a node. -/
  | alloc (node : Ptr)
  | assign (node : Ptr)
  | examine (node : Ptr)
  | call (fn item : Ptr)
  deriving DecidableEq

/-- The memory, and the events so far. -/
structure Traced where
  mem : Mem
  events : List FreeFnEvent

namespace FreeFn

section
variable (strdup : Ptr → Ptr)

/-- `lkd_list_append(self, item)`, where `malloc` returns `node`: `_lkd_list_node_create` clears `free_fn`. -/
def lkdListAppend (t : Traced) (self item node : Ptr) : Except Fault (Traced × Int) := do
  let (m, r) ← PubsubBroker.lkdListAppend strdup t.mem self item node
  if r = LIST_OK then return (⟨m, t.events ++ [.alloc node, .assign node]⟩, r)
  else return (⟨m, t.events⟩, r)

/-- `lkd_list_push(self, item)`, where `malloc` returns `node`, with `freeFn` in its `free_fn`. -/
def lkdListPush (t : Traced) (self item node freeFn : Ptr) : Except Fault (Traced × Int) := do
  let (m, r) ← PubsubBroker.lkdListPush strdup t.mem self item node freeFn
  if r = LIST_OK then return (⟨m, t.events ++ [.alloc node]⟩, r)
  else return (⟨m, t.events⟩, r)

end

/-- `lkd_list_pop(self)` -/
def lkdListPop (t : Traced) (self : Ptr) : Except Fault (Traced × Ptr) := do
  let (m, item) ← PubsubBroker.lkdListPop t.mem self
  return (⟨m, t.events⟩, item)

/-- `if (node->free_fn) (node->free_fn)(node->item);`, with the node as it was read. With `autofree` the item
is freed otherwise, which is not a node. -/
def destroyItem (node : Ptr) (n : NodeT) : List FreeFnEvent :=
  .examine node :: if n.freeFn ≠ 0 then [.call n.freeFn n.item] else []

/-- The end of `lkd_list_remove`, once the node is unlinked. -/
def removeNode (t : Traced) (self : Ptr) (l : LkdList) (node : Ptr) (n : NodeT) : Except Fault (Traced × Int) :=
  .ok (⟨(t.mem.freeNode node).putList self { l with size := l.size - 1 }, t.events ++ destroyItem node n⟩, LIST_OK)

/-- `lkd_list_remove(self, item)` -/
def lkdListRemove (t : Traced) (self item : Ptr) : Except Fault (Traced × Int) := do
  let l ← t.mem.list self
  let (prev, node) ← findItem t.mem item addresses 0 l.head
  if node = 0 then return (t, LIST_ERR)
  else
    let n ← t.mem.node node
    if prev ≠ 0 then
      let p ← t.mem.node prev
      let m := t.mem.putNode prev { p with next := n.next }
      removeNode ⟨m, t.events⟩ self { l with tail := if n.next = 0 then prev else l.tail } node n
    else
      removeNode t self { l with head := n.next, tail := if n.next = 0 then prev else l.tail } node n

/-- The loop of `lkd_list_set_freefn`. -/
def setFreefnLoop (t : Traced) (item fn : Ptr) : Nat → Ptr → Except Fault (Traced × Ptr)
  | 0, _ => .error .endless
  | fuel + 1, node =>
    if node = 0 then .ok (t, 0)
    else do
      let n ← t.mem.node node
      if n.item = item then
        return (⟨t.mem.putNode node { n with freeFn := fn }, t.events ++ [.assign node]⟩, item)
      else setFreefnLoop t item fn fuel n.next

/-- `lkd_list_set_freefn(self, item, fn, at_tail)` -/
def lkdListSetFreefn (t : Traced) (self item fn : Ptr) (atTail : Int) : Except Fault (Traced × Ptr) := do
  let l ← t.mem.list self
  setFreefnLoop t item fn addresses (if atTail ≠ 0 then l.tail else l.head)

/-- The loop of `lkd_list_release`. -/
def releaseLoop : Nat → Traced → Ptr → Except Fault Traced
  | 0, _, _ => .error .endless
  | fuel + 1, t, node =>
    if node = 0 then .ok t
    else do
      let n ← t.mem.node node
      releaseLoop fuel ⟨t.mem.freeNode node, t.events ++ destroyItem node n⟩ n.next

/-- `lkd_list_release(&self)`, and what is in `self` afterwards. -/
def lkdListRelease (t : Traced) (self : Ptr) : Except Fault (Traced × Ptr) :=
  if self = 0 then .ok (t, self)
  else do
    let l ← t.mem.list self
    let t ← releaseLoop addresses t l.head
    return (⟨t.mem.freeList self, t.events⟩, 0)

end FreeFn

/-! ## A program with one list -/

/-- A call on the list, with what `malloc` returns in it. -/
inductive ListCall
  | append (item node : Ptr)
  | push (item node freeFn : Ptr)
  | pop
  | remove (item : Ptr)
  | setFreefn (item fn : Ptr) (atTail : Int)
  | release

/-- The program's variable with the list, NULL once that is released. -/
structure Owner where
  traced : Traced
  self : Ptr

namespace Owner

/-- The list is made in some memory. -/
def start (m : Mem) (self : Ptr) : Except Fault Owner := (lkdListCreate m self).map fun m => ⟨⟨m, []⟩, self⟩

variable (strdup : Ptr → Ptr)

def call (o : Owner) : ListCall → Except Fault Owner
  | .append item node => (FreeFn.lkdListAppend strdup o.traced o.self item node).map fun r => { o with traced := r.1 }
  | .push item node freeFn =>
    (FreeFn.lkdListPush strdup o.traced o.self item node freeFn).map fun r => { o with traced := r.1 }
  | .pop => (FreeFn.lkdListPop o.traced o.self).map fun r => { o with traced := r.1 }
  | .remove item => (FreeFn.lkdListRemove o.traced o.self item).map fun r => { o with traced := r.1 }
  | .setFreefn item fn atTail =>
    (FreeFn.lkdListSetFreefn o.traced o.self item fn atTail).map fun r => { o with traced := r.1 }
  | .release => (FreeFn.lkdListRelease o.traced o.self).map fun r => ⟨r.1, r.2⟩

end Owner

end PubsubBroker

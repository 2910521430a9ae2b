/-
`common/ght_hash_table.c`, `common/ght_hash_function.c`: hash tables with chained buckets. Every entry is
linked twice in both directions, in the chain of its bucket and in the order in which the entries were
inserted. The entries of all tables live in one memory, keys included; a table is the record that its
functions are given. An operation takes the addresses that its calls of `fn_alloc` return, NULL where one
fails, and ends with a fault where the C program would have undefined behaviour.
-/
import PubsubBroker.Common.LkdList

namespace PubsubBroker

/-- `GHT_HEURISTICS_NONE` -/
abbrev GHT_HEURISTICS_NONE : Int := 0
/-- `GHT_HEURISTICS_TRANSPOSE` -/
abbrev GHT_HEURISTICS_TRANSPOSE : UInt8 := 1
/-- `GHT_HEURISTICS_MOVE_TO_FRONT` -/
abbrev GHT_HEURISTICS_MOVE_TO_FRONT : UInt8 := 2

/-- `ght_hash_entry_t`, where `key` are the bytes that `key.p_key` points to. -/
structure GhtHashEntryT where
  pData : Ptr
  pNext : Ptr
  pPrev : Ptr
  pOlder : Ptr
  pNewer : Ptr
  key : List UInt8

/-- `ght_hash_table_t`. The functions for allocation are `malloc` and `free`. -/
structure GhtHashTableT where
  iItems : UInt32
  iSize : UInt32
  fnHash : List UInt8 → UInt32
  fnBucketFree : Ptr
  iHeuristics : Int
  iAutomaticRehash : Int
  ppEntries : List Ptr
  pNr : List Int
  iSizeMask : UInt32
  bucketLimit : UInt32
  pOldest : Ptr
  pNewest : Ptr

/-- `ght_iterator_t` -/
structure GhtIteratorT where
  pEntry : Ptr
  pNext : Ptr

/-- What goes wrong: an access where no entry is allocated or to a bucket that the table does not have,
a shift out of the range of `int`, a jump to NULL, or a loop without end. -/
inductive HashFault
  | access (p : Ptr)
  | bucket (i : Nat)
  | shift
  | call
  | endless
deriving DecidableEq

/-- The entries that are allocated. -/
abbrev Entries := Ptr → Option GhtHashEntryT

namespace Entries

def entry (m : Entries) (p : Ptr) : Except HashFault GhtHashEntryT :=
  match m p with
  | none => .error (.access p)
  | some e => .ok e

def modify (m : Entries) (p : Ptr) (f : GhtHashEntryT → GhtHashEntryT) : Except HashFault Entries := do
  let e ← m.entry p
  return Function.update m p (some (f e))

def setPNext (m : Entries) (p q : Ptr) : Except HashFault Entries := m.modify p fun e => { e with pNext := q }

def setPPrev (m : Entries) (p q : Ptr) : Except HashFault Entries := m.modify p fun e => { e with pPrev := q }

def setPOlder (m : Entries) (p q : Ptr) : Except HashFault Entries := m.modify p fun e => { e with pOlder := q }

def setPNewer (m : Entries) (p q : Ptr) : Except HashFault Entries := m.modify p fun e => { e with pNewer := q }

def setPData (m : Entries) (p q : Ptr) : Except HashFault Entries := m.modify p fun e => { e with pData := q }

end Entries

namespace GhtHashTableT

/-- `p_ht->pp_entries[i]` -/
def head (t : GhtHashTableT) (i : Nat) : Except HashFault Ptr :=
  match t.ppEntries[i]? with
  | none => .error (.bucket i)
  | some p => .ok p

def setHead (t : GhtHashTableT) (i : Nat) (p : Ptr) : Except HashFault GhtHashTableT :=
  if i < t.ppEntries.length then .ok { t with ppEntries := t.ppEntries.set i p } else .error (.bucket i)

/-- `p_ht->p_nr[i]` -/
def nr (t : GhtHashTableT) (i : Nat) : Except HashFault Int :=
  match t.pNr[i]? with
  | none => .error (.bucket i)
  | some n => .ok n

def setNr (t : GhtHashTableT) (i : Nat) (n : Int) : Except HashFault GhtHashTableT :=
  if i < t.pNr.length then .ok { t with pNr := t.pNr.set i n } else .error (.bucket i)

/-- `get_hash_value(p_ht, &key) & p_ht->i_size_mask` -/
def index (t : GhtHashTableT) (key : List UInt8) : Nat := (t.fnHash key &&& t.iSizeMask).toNat

end GhtHashTableT

/-- One round of the loop in `ght_one_at_a_time_hash`. -/
def hashByte (h : UInt32) (c : UInt8) : UInt32 :=
  let h := h + c.toUInt32
  let h := h + (h <<< 10)
  h ^^^ (h >>> 6)

/-- `ght_one_at_a_time_hash(p_key)` -/
def ghtOneAtATimeHash (key : List UInt8) : UInt32 :=
  let h := key.foldl hashByte 0
  let h := h + (h <<< 3)
  let h := h ^^^ (h >>> 11)
  h + (h <<< 15)

/-! ## Links -/

/-- `prev->p_next = q`, or the first entry of the bucket where there is no `prev`. -/
def linkNext (m : Entries) (t : GhtHashTableT) (lBucket : Nat) (prev q : Ptr) :
    Except HashFault (Entries × GhtHashTableT) :=
  if prev ≠ 0 then do
    let m ← m.setPNext prev q
    return (m, t)
  else do
    let t ← t.setHead lBucket q
    return (m, t)

/-- `next->p_prev = q`, where there is a `next`. -/
def linkPrev (m : Entries) (next q : Ptr) : Except HashFault Entries :=
  if next ≠ 0 then m.setPPrev next q else .ok m

/-- `older->p_newer = q`, or the oldest entry where there is no `older`. -/
def linkNewer (m : Entries) (t : GhtHashTableT) (older q : Ptr) : Except HashFault (Entries × GhtHashTableT) :=
  if older ≠ 0 then do
    let m ← m.setPNewer older q
    return (m, t)
  else return (m, { t with pOldest := q })

/-- `newer->p_older = q`, or the newest entry where there is no `newer`. -/
def linkOlder (m : Entries) (t : GhtHashTableT) (newer q : Ptr) : Except HashFault (Entries × GhtHashTableT) :=
  if newer ≠ 0 then do
    let m ← m.setPOlder newer q
    return (m, t)
  else return (m, { t with pNewest := q })

/-- `transpose(p_ht, l_bucket, p_entry)` -/
def transpose (m : Entries) (t : GhtHashTableT) (lBucket : Nat) (pEntry : Ptr) :
    Except HashFault (Entries × GhtHashTableT) := do
  let e ← m.entry pEntry
  if e.pPrev = 0 then return (m, t)
  else
    let pX := e.pPrev
    let x ← m.entry pX
    let pA := x.pPrev
    let pB := e.pNext
    let (m, t) ← linkNext m t lBucket pA pEntry
    let m ← linkPrev m pB pX
    -- `p_x` is not NULL here
    let e ← m.entry pEntry
    let m ← m.setPNext pX e.pNext
    let m ← m.setPPrev pX pEntry
    let m ← m.setPNext pEntry pX
    let m ← m.setPPrev pEntry pA
    return (m, t)

/-- `move_to_front(p_ht, l_bucket, p_entry)` -/
def moveToFront (m : Entries) (t : GhtHashTableT) (lBucket : Nat) (pEntry : Ptr) :
    Except HashFault (Entries × GhtHashTableT) := do
  let first ← t.head lBucket
  if pEntry = first then return (m, t)
  else
    let e ← m.entry pEntry
    let m ← m.setPNext e.pPrev e.pNext
    let e ← m.entry pEntry
    let m ← linkPrev m e.pNext e.pPrev
    let m ← m.setPNext pEntry first
    let m ← m.setPPrev pEntry 0
    let m ← m.setPPrev first pEntry
    let t ← t.setHead lBucket pEntry
    return (m, t)

/-- `remove_from_chain(p_ht, l_bucket, p)` -/
def removeFromChain (m : Entries) (t : GhtHashTableT) (lBucket : Nat) (p : Ptr) :
    Except HashFault (Entries × GhtHashTableT) := do
  let e ← m.entry p
  let (m, t) ← linkNext m t lBucket e.pPrev e.pNext
  let e ← m.entry p
  let m ← linkPrev m e.pNext e.pPrev
  let e ← m.entry p
  let (m, t) ← linkNewer m t e.pOlder e.pNewer
  let e ← m.entry p
  linkOlder m t e.pNewer e.pOlder

/-- What `search_in_bucket` does with the entry that it has found. -/
def applyHeuristics (m : Entries) (t : GhtHashTableT) (lBucket : Nat) (iHeuristics : UInt8) (p : Ptr) :
    Except HashFault (Entries × GhtHashTableT) :=
  if iHeuristics = GHT_HEURISTICS_MOVE_TO_FRONT then moveToFront m t lBucket p
  else if iHeuristics = GHT_HEURISTICS_TRANSPOSE then transpose m t lBucket p
  else .ok (m, t)

/-- The loop of `search_in_bucket` from `p` on. -/
def searchLoop (m : Entries) (key : List UInt8) : Nat → Ptr → Except HashFault Ptr
  | 0, _ => .error .endless
  | fuel + 1, p =>
    if p = 0 then .ok 0
    else do
      let e ← m.entry p
      -- the sizes are equal and `memcmp` finds no difference
      if e.key = key then .ok p else searchLoop m key fuel e.pNext

/-- `search_in_bucket(p_ht, l_bucket, &key, i_heuristics)` -/
def searchInBucket (m : Entries) (t : GhtHashTableT) (lBucket : Nat) (key : List UInt8) (iHeuristics : UInt8) :
    Except HashFault (Entries × GhtHashTableT × Ptr) := do
  let first ← t.head lBucket
  let p ← searchLoop m key addresses first
  if p = 0 then return (m, t, 0)
  else
    let (m, t) ← applyHeuristics m t lBucket iHeuristics p
    return (m, t, p)

/-- `he_finalize(p_ht, p)` -/
def heFinalize (m : Entries) (p : Ptr) : Except HashFault Entries := do
  let _ ← m.entry p
  return Function.update m p none

/-- `free_entry_chain(p_ht, p)` -/
def freeEntryChain : Nat → Entries → Ptr → Except HashFault Entries
  | 0, _, _ => .error .endless
  | fuel + 1, m, p =>
    if p = 0 then .ok m
    else do
      let e ← m.entry p
      let m ← heFinalize m p
      freeEntryChain fuel m e.pNext

/-! ## Creation -/

/-- The loop of `ght_create`: the size and `i` when it ends. -/
def sizeLoop (want : UInt32) : Nat → UInt32 → Nat → Except HashFault (UInt32 × Nat)
  | 0, _, _ => .error .endless
  | fuel + 1, size, i =>
    if size < want then
      if i < 31 then sizeLoop want fuel (UInt32.ofNat (2 ^ i)) (i + 1) else .error .shift
    else .ok (size, i)

/-- `ght_create(i_size)`, where no `malloc` fails. -/
def ghtCreate (iSize : UInt32) : Except HashFault GhtHashTableT := do
  let (size, i) ← sizeLoop iSize 32 1 1
  return {
    iItems := 0
    iSize := size
    fnHash := ghtOneAtATimeHash
    fnBucketFree := 0
    iHeuristics := GHT_HEURISTICS_NONE
    iAutomaticRehash := 0
    ppEntries := List.replicate size.toNat 0
    pNr := List.replicate size.toNat 0
    iSizeMask := UInt32.ofNat (2 ^ (i - 1) - 1)
    bucketLimit := 0
    pOldest := 0
    pNewest := 0 }

/-! ## Iteration -/

/-- `ght_first(p_ht, &iterator, &p_key)`: the iterator, the key and the data. -/
def ghtFirst (m : Entries) (t : GhtHashTableT) : Except HashFault (GhtIteratorT × Option (List UInt8) × Ptr) :=
  if t.pOldest ≠ 0 then do
    let e ← m.entry t.pOldest
    return (⟨t.pOldest, e.pNewer⟩, some e.key, e.pData)
  else return (⟨0, 0⟩, none, 0)

/-- `ght_next(p_ht, &iterator, &p_key)` -/
def ghtNext (m : Entries) (it : GhtIteratorT) : Except HashFault (GhtIteratorT × Option (List UInt8) × Ptr) :=
  if it.pNext ≠ 0 then do
    let e ← m.entry it.pNext
    return (⟨it.pNext, e.pNewer⟩, some e.key, e.pData)
  else return (⟨0, 0⟩, none, 0)

/-! ## Insertion -/

/-- The last entry of a bucket from `p` on. -/
def lastLoop (m : Entries) : Nat → Ptr → Except HashFault Ptr
  | 0, _ => .error .endless
  | fuel + 1, p => do
    let e ← m.entry p
    if e.pNext = 0 then .ok p else lastLoop m fuel e.pNext

/-- The entry that a full bucket loses: it is linked out, `fn_bucket_free` is called with its data and
its key, and it is freed. -/
def evictLast (m : Entries) (t : GhtHashTableT) (lKey : Nat) :
    Except HashFault (Entries × GhtHashTableT × Ptr × List UInt8) := do
  let first ← t.head lKey
  let p ← lastLoop m addresses first
  let (m, t) ← removeFromChain m t lKey p
  if t.fnBucketFree = 0 then .error .call
  else
    let e ← m.entry p
    let m ← heFinalize m p
    return (m, t, e.pData, e.key)

/-- A full bucket loses its last entry, otherwise there is one entry more. -/
def countOrEvict (m : Entries) (t : GhtHashTableT) (lKey : Nat) :
    Except HashFault (Entries × GhtHashTableT × Option (Ptr × List UInt8)) := do
  let n ← t.nr lKey
  -- the comparison is one of unsigned integers
  if t.bucketLimit ≠ 0 ∧ t.bucketLimit ≤ UInt32.ofInt n then
    let (m, t, d, k) ← evictLast m t lKey
    return (m, t, some (d, k))
  else
    let t ← t.setNr lKey (n + 1)
    return (m, { t with iItems := t.iItems + 1 }, none)

/-- The entry `p` is placed first in the bucket. -/
def linkFront (m : Entries) (t : GhtHashTableT) (lKey : Nat) (p : Ptr) : Except HashFault (Entries × GhtHashTableT) := do
  let first ← t.head lKey
  let m ← m.setPNext p first
  let m ← m.setPPrev p 0
  let m ← linkPrev m first p
  let t ← t.setHead lKey p
  return (m, t)

/-- `newest->p_newer = p`, where there is a `newest`. -/
def linkNewest (m : Entries) (newest p : Ptr) : Except HashFault Entries :=
  if newest ≠ 0 then m.setPNewer newest p else .ok m

/-- The entry `p` becomes the newest one. -/
def linkAge (m : Entries) (t : GhtHashTableT) (p : Ptr) : Except HashFault (Entries × GhtHashTableT) := do
  let oldest := if t.pOldest = 0 then p else t.pOldest
  let m ← m.setPOlder p t.pNewest
  let m ← linkNewest m t.pNewest p
  return (m, { t with pOldest := oldest, pNewest := p })

/-- The rest of `ght_insert` once the entry `p` is made and the table has its size. -/
def placeEntry (m : Entries) (t : GhtHashTableT) (lKey : Nat) (p : Ptr) :
    Except HashFault (Entries × GhtHashTableT × Option (Ptr × List UInt8)) := do
  let (m, t) ← linkFront m t lKey p
  let (m, t, evicted) ← countOrEvict m t lKey
  let (m, t) ← linkAge m t p
  return (m, t, evicted)

/-- What an insertion leaves: the memory, the table, what it returns, and the call of `fn_bucket_free`. -/
abbrev Inserted := Entries × GhtHashTableT × Int × Option (Ptr × List UInt8)

/-- `ght_insert(p_ht, p_entry_data, i_key_size, p_key_data)`, where `fn_alloc` returns `malloc` and a
rehash is done by `rehash`. -/
def insertWith (rehash : Entries → GhtHashTableT → UInt32 → Except HashFault (Entries × GhtHashTableT))
    (m : Entries) (t : GhtHashTableT) (pEntryData : Ptr) (key : List UInt8) (malloc : Ptr) :
    Except HashFault Inserted := do
  let (m, t, found) ← searchInBucket m t (t.index key) key 0
  if found ≠ 0 then return (m, t, -1, none)
  else if malloc = 0 then return (m, t, -2, none)
  else
    -- `he_create`
    let m := Function.update m malloc (some ⟨pEntryData, 0, 0, 0, 0, key⟩)
    let (m, t) ←
      if t.iAutomaticRehash ≠ 0 ∧ t.iItems > 2 * t.iSize then rehash m t (2 * t.iSize) else .ok (m, t)
    let (m, t, evicted) ← placeEntry m t (t.index key) malloc
    return (m, t, 0, evicted)

/-- `ght_insert` into the table that a rehash makes, which does not rehash by itself. -/
def insertTmp (m : Entries) (tmp : GhtHashTableT) (pEntryData : Ptr) (key : List UInt8) (malloc : Ptr) :
    Except HashFault Inserted :=
  insertWith (fun _ _ _ => .error .endless) m tmp pEntryData key malloc

/-! ## Rehashing -/

/-- The walk of `ght_rehash` over the old table, where `p` is the data of the entry that it is at. -/
def rehashLoop : Nat → Entries → GhtHashTableT → GhtIteratorT → Ptr → List Ptr →
    Except HashFault (Entries × GhtHashTableT)
  | 0, _, _, _, _, _ => .error .endless
  | fuel + 1, m, tmp, it, p, mallocs =>
    if p = 0 then .ok (m, tmp)
    else do
      let e ← m.entry it.pEntry
      -- an insertion that fails is only reported
      let (m, tmp, _, _) ← insertTmp m tmp e.pData e.key (mallocs.headD 0)
      let (it, _, p) ← ghtNext m it
      rehashLoop fuel m tmp it p mallocs.tail

/-- The loop over the buckets that frees the entries, from bucket `i` on. -/
def freeBuckets (t : GhtHashTableT) : Nat → Nat → Entries → Except HashFault Entries
  | 0, _, m => .ok m
  | n + 1, i, m => do
    let first ← t.head i
    let m ← freeEntryChain addresses m first
    freeBuckets t n (i + 1) m

/-- The table with the buckets and the entries of `tmp`. -/
def GhtHashTableT.replacedBy (t tmp : GhtHashTableT) : GhtHashTableT :=
  { t with
    iSize := tmp.iSize
    iSizeMask := tmp.iSizeMask
    iItems := tmp.iItems
    ppEntries := tmp.ppEntries
    pNr := tmp.pNr
    pOldest := tmp.pOldest
    pNewest := tmp.pNewest }

/-- `ght_rehash(p_ht, i_size)` -/
def ghtRehash (mallocs : List Ptr) (m : Entries) (t : GhtHashTableT) (iSize : UInt32) :
    Except HashFault (Entries × GhtHashTableT) := do
  let tmp ← ghtCreate iSize
  let tmp := { tmp with fnHash := t.fnHash, iHeuristics := GHT_HEURISTICS_NONE, iAutomaticRehash := 0 }
  let (it, _, p) ← ghtFirst m t
  let (m, tmp) ← rehashLoop addresses m tmp it p mallocs
  let m ← freeBuckets t t.iSize.toNat 0 m
  return (m, t.replacedBy tmp)

/-! ## The operations -/

/-- `ght_insert(p_ht, p_entry_data, i_key_size, p_key_data)`, where `fn_alloc` returns `malloc` for the
entry and `mallocs` for the entries of a rehash. -/
def ghtInsert (m : Entries) (t : GhtHashTableT) (pEntryData : Ptr) (key : List UInt8) (malloc : Ptr)
    (mallocs : List Ptr) : Except HashFault Inserted :=
  insertWith (ghtRehash mallocs) m t pEntryData key malloc

/-- `ght_get(p_ht, i_key_size, p_key_data)` -/
def ghtGet (m : Entries) (t : GhtHashTableT) (key : List UInt8) : Except HashFault (Entries × GhtHashTableT × Ptr) := do
  let (m, t, p) ← searchInBucket m t (t.index key) key (UInt8.ofInt t.iHeuristics)
  if p = 0 then return (m, t, 0)
  else
    let e ← m.entry p
    return (m, t, e.pData)

/-- `ght_replace(p_ht, p_entry_data, i_key_size, p_key_data)` -/
def ghtReplace (m : Entries) (t : GhtHashTableT) (pEntryData : Ptr) (key : List UInt8) :
    Except HashFault (Entries × GhtHashTableT × Ptr) := do
  let (m, t, p) ← searchInBucket m t (t.index key) key (UInt8.ofInt t.iHeuristics)
  if p = 0 then return (m, t, 0)
  else
    let e ← m.entry p
    let m ← m.setPData p pEntryData
    return (m, t, e.pData)

/-- `ght_remove(p_ht, i_key_size, p_key_data)` -/
def ghtRemove (m : Entries) (t : GhtHashTableT) (key : List UInt8) :
    Except HashFault (Entries × GhtHashTableT × Ptr) := do
  let lKey := t.index key
  let (m, t, p) ← searchInBucket m t lKey key 0
  if p = 0 then return (m, t, 0)
  else
    let (m, t) ← removeFromChain m t lKey p
    let t := { t with iItems := t.iItems - 1 }
    let n ← t.nr lKey
    let t ← t.setNr lKey (n - 1)
    let e ← m.entry p
    let m ← heFinalize m p
    return (m, t, e.pData)

/-- `ght_size(p_ht)` -/
def ghtSize (t : GhtHashTableT) : UInt32 := t.iItems

/-- `ght_finalize(p_ht)`: what is left of the entries. -/
def ghtFinalize (m : Entries) (t : GhtHashTableT) : Except HashFault Entries :=
  freeBuckets t t.iSize.toNat 0 m

end PubsubBroker

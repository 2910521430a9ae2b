/-
`common/zmalloc.c` as it is built without an allocator that knows its sizes: each block starts with a `size_t` that
keeps the size the program asked for, and `used_memory` counts. The address that the C library gives to a new block
is an argument of the calls (`0` for `NULL`).
-/
import PubsubBroker.Lib.Buffer
import PubsubBroker.Lib.CLang
import PubsubBroker.Lib.Heap
import PubsubBroker.Lib.Run

namespace PubsubBroker

open CLang Buffer

abbrev Cells := List (Option UInt8)

def PREFIX_SIZE : Nat := 8

/-- The allocator: its count, and the blocks of the C library. -/
structure Zmem where
  usedMemory : Nat
  blocks : Heap Cells

/-- `if (_n&(sizeof(long)-1)) _n += sizeof(long)-(_n&(sizeof(long)-1))`, for a `size_t` -/
def roundUp (n : Nat) : Nat := if n % 8 ≠ 0 then (n + (8 - n % 8)) % 2 ^ 64 else n

def updateZmallocStatAlloc (n usedMemory : Nat) : Nat := (usedMemory + roundUp n) % 2 ^ 64

def updateZmallocStatFree (n usedMemory : Nat) : Nat := (usedMemory + (2 ^ 64 - roundUp n)) % 2 ^ 64

/-- `*((size_t*)realptr)` -/
def oldsize (block : Cells) : Except MemFault Nat := do
  let bytes ← getAll block 0 PREFIX_SIZE
  return ofLowBytes bytes

/-- `zmalloc(size)` for `fill = none`, `zcalloc(size)` for `fill = some 0`, when the library gives the address `p`:
the pointer to what is behind the prefix. Without memory `zmalloc_default_oom` aborts. -/
def allocate (fill : Option UInt8) (p size : Nat) (m : Zmem) : Except MemFault (Nat × Zmem) :=
  if p = 0 then .error .assert
  else do
    let block ← copy (List.replicate ((size + PREFIX_SIZE) % 2 ^ 64) fill) 0 (lowBytes PREFIX_SIZE size)
    return (p + PREFIX_SIZE, ⟨updateZmallocStatAlloc ((size + PREFIX_SIZE) % 2 ^ 64) m.usedMemory, m.blocks.insert p block⟩)

def zmalloc (p size : Nat) (m : Zmem) : Except MemFault (Nat × Zmem) := allocate none p size m

def zcalloc (p size : Nat) (m : Zmem) : Except MemFault (Nat × Zmem) := allocate (some 0) p size m

/-- The block that `ptr` points into, behind its prefix. -/
def Zmem.block (m : Zmem) (ptr : Nat) : Except MemFault Cells :=
  match m.blocks.lookup (ptr - PREFIX_SIZE) with
  | none => .error .dangling
  | some block => .ok block

/-- The end of `zrealloc`: the library has moved the block to `p`. -/
def reallocated (ptr p size : Nat) (block : Cells) (m : Zmem) : Except MemFault (Nat × Zmem) := do
  let old ← oldsize block
  if p = 0 then .error .assert
  else do
    let n := (size + PREFIX_SIZE) % 2 ^ 64
    let block ← copy (block.take n ++ List.replicate (n - block.length) none) 0 (lowBytes PREFIX_SIZE size)
    return (p + PREFIX_SIZE, ⟨updateZmallocStatAlloc size (updateZmallocStatFree old m.usedMemory),
      (m.blocks.erase (ptr - PREFIX_SIZE)).insert p block⟩)

/-- `zrealloc(ptr, size)` -/
def zrealloc (ptr p size : Nat) (m : Zmem) : Except MemFault (Nat × Zmem) :=
  if ptr = 0 then zmalloc p size m
  else do
    let block ← m.block ptr
    reallocated ptr p size block m

def zmallocSize (ptr : Nat) (m : Zmem) : Except MemFault Nat := do
  let block ← m.block ptr
  let size ← oldsize block
  return (roundUp size + PREFIX_SIZE) % 2 ^ 64

def zfree (ptr : Nat) (m : Zmem) : Except MemFault Zmem :=
  if ptr = 0 then .ok m
  else do
    let block ← m.block ptr
    let old ← oldsize block
    return ⟨updateZmallocStatFree ((old + PREFIX_SIZE) % 2 ^ 64) m.usedMemory, m.blocks.erase (ptr - PREFIX_SIZE)⟩

/-- `free(ptr)` of the C library, which aborts where `ptr` is neither `NULL` nor the address of one of its blocks. -/
def Zmem.free (ptr : Nat) (m : Zmem) : Except MemFault Zmem :=
  if ptr = 0 then .ok m
  else
    match m.blocks.lookup ptr with
    | none => .error .assert
    | some _ => .ok ⟨m.usedMemory, m.blocks.erase ptr⟩

/-- What is stored at `ptr + i`. -/
def Zmem.store (ptr i : Nat) (bytes : List UInt8) (m : Zmem) : Except MemFault Zmem := do
  let block ← m.block ptr
  let block ← copy block (PREFIX_SIZE + i) bytes
  return ⟨m.usedMemory, m.blocks.insert (ptr - PREFIX_SIZE) block⟩

/-- `zstrdup(s)`, where `s` is what is in memory from the C string on. -/
def zstrdup (p : Nat) (s : List UInt8) (m : Zmem) : Except MemFault (Nat × Zmem) := do
  let (ptr, m) ← zmalloc p ((cstr s).length + 1) m
  let m ← m.store ptr 0 (cstr s ++ [0])
  return (ptr, m)

def zmallocUsedMemory (m : Zmem) : Nat := m.usedMemory

/-! ## What the program sees -/

/-- What a block of `size` bytes counts for. -/
def zsize (size : Nat) : Nat := (size + 7) / 8 * 8 + PREFIX_SIZE

/-- What the blocks the program has count for. -/
def counted (h : Heap Cells) : Nat := Heap.total (fun c => zsize c.length) h

/-- The block around what the program has. -/
def framed (c : Cells) : Cells := (lowBytes PREFIX_SIZE c.length).map some ++ c

/-- The blocks are those the program has, each behind its size, and the count is right. -/
structure Accounts (m : Zmem) (h : Heap Cells) : Prop where
  blocks : ∀ p, m.blocks.lookup p = (h.lookup (p + PREFIX_SIZE)).map framed
  fits : ∀ ptr c, h.lookup ptr = some c → PREFIX_SIZE < ptr ∧ c.length + PREFIX_SIZE < 2 ^ 64
  used : m.usedMemory = counted h % 2 ^ 64

theorem roundUp_eq {n : Nat} (h : n < 2 ^ 64) : roundUp n = (n + 7) / 8 * 8 % 2 ^ 64 := by
  unfold roundUp
  split <;> omega

theorem oldsize_framed {c : Cells} (h : c.length < 2 ^ 64) : oldsize (framed c) = .ok c.length := by
  have hget := getAll_append [] (lowBytes PREFIX_SIZE c.length) c
  rw [length_lowBytes] at hget
  unfold oldsize framed
  rw [List.nil_append, List.length_nil] at hget
  rw [hget, done_bind, ofLowBytes_lowBytes (by unfold PREFIX_SIZE; omega)]
  rfl

theorem copy_framed (block c : Cells) (h : block.length = PREFIX_SIZE + c.length) (hc : block.drop PREFIX_SIZE = c) :
    copy block 0 (lowBytes PREFIX_SIZE c.length) = .ok (framed c) := by
  have hcopy := copy_append [] (block.take PREFIX_SIZE) c (s := lowBytes PREFIX_SIZE c.length) (by
    rw [length_lowBytes, List.length_take]
    omega)
  have hblock : block = block.take PREFIX_SIZE ++ c := by rw [← hc, List.take_append_drop]
  rw [List.nil_append, List.nil_append, List.length_nil, ← hblock] at hcopy
  exact hcopy

variable {m : Zmem} {h : Heap Cells} {ptr p size : Nat} {c : Cells}

theorem counted_insert (hp : h.lookup ptr = none) : counted (h.insert ptr c) = zsize c.length + counted h :=
  Heap.total_insert hp

theorem counted_erase (hc : h.lookup ptr = some c) : counted h = zsize c.length + counted (h.erase ptr) :=
  Heap.total_erase hc

/-- What replaces something of the same length counts for as much. -/
theorem counted_replace {d : Cells} (hc : h.lookup ptr = some c) (hlen : d.length = c.length) :
    counted (h.insert ptr d) = counted h := by
  have htotal := Heap.total_replace (f := fun c => zsize c.length) (b := d) hc
  unfold counted
  rw [hlen] at htotal
  omega

theorem Accounts.block (hm : Accounts m h) (hc : h.lookup ptr = some c) : m.block ptr = .ok (framed c) := by
  have hptr := (hm.fits ptr c hc).1
  unfold Zmem.block
  rw [hm.blocks, Nat.sub_add_cancel (Nat.le_of_lt hptr), hc]
  rfl

/-- The pointer of the program is behind a prefix. -/
theorem Accounts.exists_add (hm : Accounts m h) (hc : h.lookup ptr = some c) : ∃ p, ptr = p + PREFIX_SIZE ∧ p ≠ 0 := by
  have hptr := (hm.fits ptr c hc).1
  exact ⟨ptr - PREFIX_SIZE, by omega, by omega⟩

/-- A block is put at an address, with a count that takes it in. -/
theorem Accounts.insert (hm : Accounts m h) (hp : p ≠ 0) (hlen : c.length + PREFIX_SIZE < 2 ^ 64) {used : Nat}
    (hused : used = counted (h.insert (p + PREFIX_SIZE) c) % 2 ^ 64) :
    Accounts ⟨used, m.blocks.insert p (framed c)⟩ (h.insert (p + PREFIX_SIZE) c) := by
  constructor
  · intro q
    simp only [Heap.lookup_insert_eq, hm.blocks, Nat.add_right_cancel_iff]
    split <;> rfl
  · intro ptr d hd
    rw [Heap.lookup_insert_eq] at hd
    split at hd
    · rename_i heq
      cases hd
      exact ⟨by omega, hlen⟩
    · exact hm.fits ptr d hd
  · exact hused

/-- A block is taken away. -/
theorem Accounts.erase (hm : Accounts m h) {used : Nat}
    (hused : used = counted (h.erase (p + PREFIX_SIZE)) % 2 ^ 64) :
    Accounts ⟨used, m.blocks.erase p⟩ (h.erase (p + PREFIX_SIZE)) := by
  constructor
  · intro q
    simp only [Heap.lookup_erase_eq, hm.blocks, Nat.add_right_cancel_iff]
    split <;> rfl
  · intro ptr d hd
    rw [Heap.lookup_erase_eq] at hd
    split at hd
    · cases hd
    · exact hm.fits ptr d hd
  · exact hused

/-- A new block, which the program sees as `size` cells. -/
theorem Accounts.allocate (hm : Accounts m h) (fill : Option UInt8) (hp : p ≠ 0) (hfree : h.lookup (p + PREFIX_SIZE) = none)
    (hsize : size + PREFIX_SIZE < 2 ^ 64) :
    ∃ m', allocate fill p size m = .ok (p + PREFIX_SIZE, m') ∧ Accounts m' (h.insert (p + PREFIX_SIZE) (List.replicate size fill)) := by
  have hlen : (List.replicate size fill).length = size := List.length_replicate
  have hcopy := copy_framed (List.replicate (size + PREFIX_SIZE) fill) (List.replicate size fill)
    (by simp only [List.length_replicate]; omega) (by rw [List.drop_replicate, Nat.add_sub_cancel])
  rw [hlen] at hcopy
  unfold PubsubBroker.allocate
  rw [if_neg hp, Nat.mod_eq_of_lt hsize, hcopy]
  refine ⟨_, rfl, hm.insert hp (by rwa [hlen]) ?_⟩
  rw [counted_insert hfree, hlen, updateZmallocStatAlloc, roundUp_eq hsize, hm.used]
  unfold zsize PREFIX_SIZE
  omega

/-- The block behind a pointer is given back. -/
theorem Accounts.zfree (hm : Accounts m h) (hc : h.lookup ptr = some c) :
    ∃ m', zfree ptr m = .ok m' ∧ Accounts m' (h.erase ptr) := by
  have hlen := (hm.fits ptr c hc).2
  have htotal := counted_erase hc
  obtain ⟨p, rfl, hp⟩ := hm.exists_add hc
  unfold PubsubBroker.zfree
  rw [if_neg (by omega), hm.block hc, done_bind, oldsize_framed (by omega), done_bind, Nat.add_sub_cancel]
  refine ⟨_, rfl, hm.erase ?_⟩
  rw [updateZmallocStatFree, Nat.mod_eq_of_lt hlen, roundUp_eq hlen, hm.used, htotal]
  unfold zsize PREFIX_SIZE
  omega

/-- What `realloc` keeps of a block is its prefix and what the program has in the part that is kept. -/
theorem copy_reallocated (c : Cells) (size : Nat) :
    copy ((framed c).take (size + PREFIX_SIZE) ++ List.replicate (size + PREFIX_SIZE - (framed c).length) none) 0
      (lowBytes PREFIX_SIZE size) = .ok (framed (c.take size ++ List.replicate (size - c.length) none)) := by
  have hlen : (c.take size ++ List.replicate (size - c.length) (none : Option UInt8)).length = size := by
    rw [List.length_append, List.length_take, List.length_replicate]
    omega
  have hhead : ((lowBytes PREFIX_SIZE c.length).map some).length = PREFIX_SIZE := by rw [List.length_map, length_lowBytes]
  have hframed : (framed c).length = PREFIX_SIZE + c.length := by rw [framed, List.length_append, hhead]
  have hcopy := copy_framed ((framed c).take (size + PREFIX_SIZE) ++
    List.replicate (size + PREFIX_SIZE - (framed c).length) none) (c.take size ++ List.replicate (size - c.length) none)
    (by rw [hlen, List.length_append, List.length_take, List.length_replicate, hframed]; omega)
    (by rw [hframed, framed, List.take_append, hhead, List.take_of_length_le (by omega), List.append_assoc,
      List.drop_left' hhead, Nat.add_sub_cancel, Nat.add_comm PREFIX_SIZE, Nat.add_sub_add_right])
  rwa [hlen] at hcopy

/-- The count goes down and up without the prefix, which makes no difference. -/
theorem Accounts.reallocated (hm : Accounts m h) (hc : h.lookup ptr = some c) (hp : p ≠ 0)
    (hfree : p + PREFIX_SIZE = ptr ∨ h.lookup (p + PREFIX_SIZE) = none) (hsize : size + PREFIX_SIZE < 2 ^ 64) :
    ∃ m', reallocated ptr p size (framed c) m = .ok (p + PREFIX_SIZE, m') ∧
      Accounts m' ((h.erase ptr).insert (p + PREFIX_SIZE) (c.take size ++ List.replicate (size - c.length) none)) := by
  have hlen := (hm.fits ptr c hc).2
  have hlen' : (c.take size ++ List.replicate (size - c.length) (none : Option UInt8)).length = size := by
    rw [List.length_append, List.length_take, List.length_replicate]
    omega
  have hgone : (h.erase ptr).lookup (p + PREFIX_SIZE) = none := by
    rw [Heap.lookup_erase_eq]
    split
    · rfl
    · rename_i hne
      exact hfree.resolve_left hne
  have htotal := counted_erase hc
  obtain ⟨q, rfl, -⟩ := hm.exists_add hc
  unfold PubsubBroker.reallocated
  rw [oldsize_framed (by omega), done_bind, if_neg hp, Nat.add_sub_cancel]
  simp only
  rw [Nat.mod_eq_of_lt hsize, copy_reallocated, done_bind]
  refine ⟨_, rfl, (hm.erase rfl).insert hp (by rwa [hlen']) ?_⟩
  rw [counted_insert hgone, hlen', updateZmallocStatAlloc, updateZmallocStatFree,
    roundUp_eq (by omega : size < 2 ^ 64), roundUp_eq (by omega : c.length < 2 ^ 64), hm.used, htotal]
  unfold zsize PREFIX_SIZE
  omega

/-- What the program has after it stored `bytes` at `i`. -/
def stored (c : Cells) (i : Nat) (bytes : List UInt8) : Cells := c.take i ++ bytes.map some ++ c.drop (i + bytes.length)

/-- The program stores within what it has. -/
theorem Accounts.store (hm : Accounts m h) (hc : h.lookup ptr = some c) (i : Nat) (bytes : List UInt8)
    (hi : i + bytes.length ≤ c.length) : ∃ m', m.store ptr i bytes = .ok m' ∧ Accounts m' (h.insert ptr (stored c i bytes)) := by
  have hlen := (hm.fits ptr c hc).2
  have hlen' : (stored c i bytes).length = c.length := by
    simp only [stored, List.length_append, List.length_take, List.length_map, List.length_drop]
    omega
  have hcopy : copy (framed c) (PREFIX_SIZE + i) bytes = .ok (framed (stored c i bytes)) := by
    have hcut : c = c.take i ++ ((c.drop i).take bytes.length ++ c.drop (i + bytes.length)) := by
      rw [← List.drop_drop, List.take_append_drop, List.take_append_drop]
    have := copy_append ((lowBytes PREFIX_SIZE c.length).map some ++ c.take i) ((c.drop i).take bytes.length)
      (c.drop (i + bytes.length)) (s := bytes) (by rw [List.length_take, List.length_drop]; omega)
    rw [List.length_append, List.length_map, length_lowBytes, List.length_take_of_le (by omega), List.append_assoc, ← hcut,
      List.append_assoc] at this
    rw [framed, framed, hlen', this, stored, List.append_assoc]
  have hcounted := counted_replace hc hlen'
  have hblock := hm.block hc
  obtain ⟨p, rfl, hp⟩ := hm.exists_add hc
  unfold Zmem.store
  rw [hblock, done_bind, hcopy, done_bind, Nat.add_sub_cancel]
  exact ⟨_, rfl, hm.insert hp (by rwa [hlen']) (by rw [hm.used, hcounted])⟩

theorem Accounts.zmallocSize (hm : Accounts m h) (hc : h.lookup ptr = some c) :
    zmallocSize ptr m = .ok (zsize c.length % 2 ^ 64) := by
  have hlen := (hm.fits ptr c hc).2
  unfold PubsubBroker.zmallocSize
  rw [hm.block hc, done_bind, oldsize_framed (by omega), done_bind, roundUp_eq (by omega)]
  unfold zsize PREFIX_SIZE
  exact congrArg Except.ok (by omega)

/-- `strlen(s)+1` bytes hold the copy and its terminator. -/
theorem Accounts.zstrdup (hm : Accounts m h) {s : List UInt8} (hp : p ≠ 0) (hfree : h.lookup (p + PREFIX_SIZE) = none)
    (hsize : (cstr s).length + 1 + PREFIX_SIZE < 2 ^ 64) :
    ∃ m', zstrdup p s m = .ok (p + PREFIX_SIZE, m') ∧ Accounts m' (h.insert (p + PREFIX_SIZE) ((cstr s ++ [0]).map some)) := by
  have hlen : (cstr s ++ [0]).length = (cstr s).length + 1 := List.length_append
  obtain ⟨m₁, hok, hm₁⟩ := hm.allocate none hp hfree hsize
  have hc := AList.lookup_insert (a := p + PREFIX_SIZE) (b := List.replicate ((cstr s).length + 1) none) h
  obtain ⟨m₂, hok', hm₂⟩ := hm₁.store hc 0 (cstr s ++ [0]) (by rw [hlen, List.length_replicate, Nat.zero_add])
  have hstored : stored (List.replicate ((cstr s).length + 1) none) 0 (cstr s ++ [0]) = (cstr s ++ [0]).map some := by
    rw [stored, List.take_zero, List.nil_append, hlen, Nat.zero_add, List.drop_eq_nil_of_le (by rw [List.length_replicate]),
      List.append_nil]
  rw [AList.insert_insert, hstored] at hm₂
  refine ⟨m₂, ?_, hm₂⟩
  unfold PubsubBroker.zstrdup zmalloc
  rw [hok, done_bind]
  simp only
  rw [hok']
  rfl

/-! ## What is not the program's to free -/

/-- No block of the library begins within another. -/
def Zmem.Apart (m : Zmem) : Prop := ∀ p block, m.blocks.lookup p = some block → ∀ i, 0 < i → i < block.length →
  m.blocks.lookup (p + i) = none

/-- What `zmalloc` returns is within a block and not its address: `free` takes it for no block at all. -/
theorem free_behind_header (hm : m.Apart) {block : Cells} (hp : m.blocks.lookup p = some block)
    (hlen : PREFIX_SIZE < block.length) : m.free (p + PREFIX_SIZE) = .error .assert := by
  have hprefix : 0 < PREFIX_SIZE := by decide
  have hnone := hm p block hp PREFIX_SIZE hprefix hlen
  unfold Zmem.free
  rw [if_neg (by omega), hnone]

/-! ## Runs -/

/-- A call, with the address that the C library gives to a new block. -/
inductive ZCall
  | zmalloc (p size : Nat)
  | zcalloc (p size : Nat)
  | zrealloc (ptr p size : Nat)
  | zfree (ptr : Nat)
  | zstrdup (p : Nat) (s : List UInt8)
  /-- What the program does with what it has. -/
  | store (ptr i : Nat) (bytes : List UInt8)
  | zmallocSize (ptr : Nat)
  | zmallocUsedMemory

/-- A call with what it returns, `0` where it returns nothing. -/
def ZCall.run (m : Zmem) : ZCall → Except MemFault (Nat × Zmem)
  | .zmalloc p size => PubsubBroker.zmalloc p size m
  | .zcalloc p size => PubsubBroker.zcalloc p size m
  | .zrealloc ptr p size => PubsubBroker.zrealloc ptr p size m
  | .zfree ptr => do
    let m ← PubsubBroker.zfree ptr m
    return (0, m)
  | .zstrdup p s => PubsubBroker.zstrdup p s m
  | .store ptr i bytes => do
    let m ← m.store ptr i bytes
    return (0, m)
  | .zmallocSize ptr => do
    let n ← PubsubBroker.zmallocSize ptr m
    return (n, m)
  | .zmallocUsedMemory => .ok (PubsubBroker.zmallocUsedMemory m, m)

/-- What a call does to what the program has, and what it returns. -/
def ZCall.apply (h : Heap Cells) : ZCall → Nat × Heap Cells
  | .zmalloc p size => (p + PREFIX_SIZE, h.insert (p + PREFIX_SIZE) (List.replicate size none))
  | .zcalloc p size => (p + PREFIX_SIZE, h.insert (p + PREFIX_SIZE) (List.replicate size (some 0)))
  | .zrealloc ptr p size =>
    let c := (h.lookup ptr).getD []
    (p + PREFIX_SIZE, (h.erase ptr).insert (p + PREFIX_SIZE) (c.take size ++ List.replicate (size - c.length) none))
  | .zfree ptr => (0, h.erase ptr)
  | .zstrdup p s => (p + PREFIX_SIZE, h.insert (p + PREFIX_SIZE) ((cstr s ++ [0]).map some))
  | .store ptr i bytes => (0, h.insert ptr (stored ((h.lookup ptr).getD []) i bytes))
  | .zmallocSize ptr => (zsize ((h.lookup ptr).getD []).length % 2 ^ 64, h)
  | .zmallocUsedMemory => (counted h % 2 ^ 64, h)

/-- The library has a place for `size` bytes and a prefix at `p`. -/
def FreeAt (h : Heap Cells) (p size : Nat) : Prop := p ≠ 0 ∧ h.lookup (p + PREFIX_SIZE) = none ∧ size + PREFIX_SIZE < 2 ^ 64

instance (h : Heap Cells) (p size : Nat) : Decidable (FreeAt h p size) := inferInstanceAs (Decidable (_ ∧ _))

/-- The library gives places that are free, and the program uses pointers that it has, within their sizes. -/
def ZCall.Legal (h : Heap Cells) : ZCall → Prop
  | .zmalloc p size | .zcalloc p size => FreeAt h p size
  | .zrealloc ptr p size => FreeAt (h.erase ptr) p size ∧ (ptr = 0 ∨ ptr ∈ h)
  | .zfree ptr => ptr = 0 ∨ ptr ∈ h
  | .zstrdup p s => FreeAt h p ((cstr s).length + 1)
  | .store ptr i bytes => ptr ∈ h ∧ i + bytes.length ≤ ((h.lookup ptr).getD []).length
  | .zmallocSize ptr => ptr ∈ h
  | .zmallocUsedMemory => True

instance ZCall.decidableLegal (h : Heap Cells) : ∀ call : ZCall, Decidable (call.Legal h)
  | .zmalloc .. | .zcalloc .. | .zstrdup .. => inferInstanceAs (Decidable (FreeAt ..))
  | .zrealloc .. | .store .. => inferInstanceAs (Decidable (_ ∧ _))
  | .zfree _ => inferInstanceAs (Decidable (_ ∨ _))
  | .zmallocSize _ => inferInstanceAs (Decidable (_ ∈ _))
  | .zmallocUsedMemory => inferInstanceAs (Decidable True)

theorem exists_of_mem (hmem : ptr ∈ h) : ∃ c, h.lookup ptr = some c :=
  Option.isSome_iff_exists.1 (AList.lookup_isSome.2 hmem)

/-- No pointer of the program is `NULL`. -/
theorem Accounts.lookup_zero (hm : Accounts m h) : h.lookup 0 = none := by
  by_contra hne
  obtain ⟨c, hc⟩ := Option.ne_none_iff_exists'.1 hne
  exact absurd (hm.fits 0 c hc).1 (Nat.not_lt_zero _)

theorem Accounts.erase_zero (hm : Accounts m h) : h.erase 0 = h := by
  apply AList.ext
  exact List.kerase_of_notMem_keys (AList.lookup_eq_none.1 hm.lookup_zero)

/-- What one call does. -/
theorem Accounts.call (hm : Accounts m h) {call : ZCall} (hl : call.Legal h) :
    ∃ m', call.run m = .ok ((call.apply h).1, m') ∧ Accounts m' (call.apply h).2 := by
  cases call with
  | zmalloc p size => exact hm.allocate none hl.1 hl.2.1 hl.2.2
  | zcalloc p size => exact hm.allocate (some 0) hl.1 hl.2.1 hl.2.2
  | zrealloc ptr p size =>
    obtain ⟨⟨hp, hfree, hsize⟩, rfl | hmem⟩ := hl
    · -- `zrealloc` of `NULL` is `zmalloc`
      rw [hm.erase_zero] at hfree
      simp only [ZCall.apply, hm.lookup_zero, hm.erase_zero, Option.getD_none, List.take_nil, List.nil_append, List.length_nil,
        Nat.sub_zero]
      exact hm.allocate none hp hfree hsize
    · obtain ⟨c, hc⟩ := exists_of_mem hmem
      have hptr := (hm.fits ptr c hc).1
      rw [Heap.lookup_erase_eq] at hfree
      simp only [ZCall.apply, hc, Option.getD_some, ZCall.run, PubsubBroker.zrealloc]
      rw [if_neg (by omega), hm.block hc, done_bind]
      -- the block may stay at its place or move to a free one
      refine hm.reallocated hc hp ?_ hsize
      split at hfree
      · rename_i heq
        exact .inl heq
      · exact .inr hfree
  | zfree ptr =>
    rcases hl with rfl | hmem
    · exact ⟨m, rfl, by rwa [ZCall.apply, hm.erase_zero]⟩
    · obtain ⟨c, hc⟩ := exists_of_mem hmem
      obtain ⟨m', hok, hm'⟩ := hm.zfree hc
      exact ⟨m', by rw [ZCall.run, hok]; rfl, hm'⟩
  | zstrdup p s => exact hm.zstrdup hl.1 hl.2.1 hl.2.2
  | store ptr i bytes =>
    obtain ⟨hmem, hi⟩ := hl
    obtain ⟨c, hc⟩ := exists_of_mem hmem
    rw [hc, Option.getD_some] at hi
    obtain ⟨m', hok, hm'⟩ := hm.store hc i bytes hi
    simp only [ZCall.apply, hc, Option.getD_some]
    exact ⟨m', by rw [ZCall.run, hok]; rfl, hm'⟩
  | zmallocSize ptr =>
    obtain ⟨c, hc⟩ := exists_of_mem hl
    simp only [ZCall.apply, hc, Option.getD_some]
    exact ⟨m, by rw [ZCall.run, hm.zmallocSize hc]; rfl, hm⟩
  | zmallocUsedMemory => exact ⟨m, congrArg (fun n => Except.ok (n, m)) hm.used, hm⟩

/-- The allocator with what its calls have returned, and what the program has. -/
abbrev ZRun := Except MemFault (Zmem × List Nat) × (Heap Cells × List Nat)

def noBlocks : ZRun := (.ok (⟨0, ∅⟩, []), (∅, []))

/-- The next call, on both sides. -/
def ZCall.both (r : ZRun) (call : ZCall) : ZRun :=
  (r.1 >>= fun p => call.run p.1 >>= fun q => .ok (q.2, p.2 ++ [q.1]), ((call.apply r.2.1).2, r.2.2 ++ [(call.apply r.2.1).1]))

def ZCall.LegalIn (r : ZRun) (call : ZCall) : Prop := call.Legal r.2.1

instance ZCall.decidableLegalIn (r : ZRun) (call : ZCall) : Decidable (call.LegalIn r) := inferInstanceAs (Decidable (call.Legal r.2.1))

/-- The allocator has come to no fault, its calls have returned what they should, and its count is right. -/
def BlocksAgree (r : ZRun) : Prop := ∃ m, r.1 = .ok (m, r.2.2) ∧ Accounts m r.2.1

/-- In a run of calls by a program that frees and uses what it has, over a library that gives out what is free: after
every call the program has in its blocks what it stored there, `zrealloc` and `zstrdup` carry it over, and
`used_memory` is the sum of what `zmalloc_size` says of the blocks that are not freed, modulo the size of a `size_t`. -/
theorem used_memory_counts {calls : List ZCall} (hlegal : Machine.AllSteps ZCall.both ZCall.LegalIn noBlocks calls) :
    ∀ js, js <+: calls → BlocksAgree (Machine.run ZCall.both noBlocks js) := by
  rintro js ⟨ks, rfl⟩
  have hstart : BlocksAgree noBlocks := by
    refine ⟨⟨0, ∅⟩, rfl, ?_, ?_, rfl⟩
    · intro p
      rw [noBlocks, AList.lookup_empty, AList.lookup_empty]
      rfl
    · intro ptr c hc
      rw [noBlocks, AList.lookup_empty] at hc
      cases hc
  -- the invariant is that the books are right, and one call keeps them
  refine Machine.AllSteps.invariant (fun r call hr hl => ?_) hstart (Machine.AllSteps.append.1 hlegal).1
  obtain ⟨m, hrun, hm⟩ := hr
  obtain ⟨m', hok, hm'⟩ := hm.call hl
  refine ⟨m', ?_, hm'⟩
  rw [ZCall.both, hrun, done_bind]
  simp only
  rw [hok, done_bind]

/-- A block grows, moves and shrinks, next to a copy of a string. -/
def someZCalls : List ZCall :=
  [.zmalloc 16 5, .zmallocUsedMemory, .store 24 1 (ascii "ab"), .zstrdup 64 (ascii "key\x00rest"), .zrealloc 24 128 17,
    .zmallocUsedMemory, .zmallocSize 136, .zrealloc 136 128 2, .zfree 72, .zcalloc 64 0, .zrealloc 0 256 8, .zfree 136,
    .zfree 0, .zfree 264, .zfree 72, .zmallocUsedMemory]

theorem someZCalls_count : (∀ js, js <+: someZCalls → BlocksAgree (Machine.run ZCall.both noBlocks js)) ∧
    (Machine.run ZCall.both noBlocks someZCalls).2.2 = [24, 16, 0, 72, 136, 48, 32, 136, 0, 72, 264, 0, 0, 0, 0, 0] := by
  constructor
  · exact used_memory_counts (by decide)
  · decide

end PubsubBroker

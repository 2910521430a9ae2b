/-
`common/sds.c` in memory: a string is a header with the length and the free space, and a buffer that goes on
behind the terminator. The functions that make a string, change it in place or reallocate it, as far as the
file has them without formats, and what each makes of the bytes.
-/
import PubsubBroker.Common.Sds
import PubsubBroker.Lib.Buffer
import Mathlib.Data.List.DropRight

namespace PubsubBroker

open CLang Buffer

/-! ## In memory -/

/-- `struct sdshdr`: the buffer is all that is behind the header in the block that was allocated. -/
structure Sdshdr where
  len : Nat
  free : Nat
  buf : List (Option UInt8)

def SDS_MAX_PREALLOC : Nat := 1024 * 1024

/-- What is behind the header in a block of `sizeof(struct sdshdr)+n+1` bytes, where that is a `size_t`. -/
def bufSize (n : Nat) : Nat := (8 + n + 1) % 2 ^ 64 - 8

/-- `zrealloc` to `sizeof(struct sdshdr)+n+1` bytes. -/
def resize (buf : List (Option UInt8)) (n : Nat) : List (Option UInt8) :=
  buf.take (bufSize n) ++ List.replicate (bufSize n - buf.length) none

/-- `sdsnewlen(init, initlen)`, where a `NULL` for `init` is `none`. -/
def sdsnewlen (init : Option (List UInt8)) (initlen : Nat) : Except MemFault Sdshdr :=
  match init with
  | none => do
    let buf ← set (List.replicate (bufSize initlen) (some 0)) initlen 0
    return ⟨toUInt initlen, 0, buf⟩
  | some t =>
    if initlen ≤ t.length then do
      let buf ← copy (List.replicate (bufSize initlen) none) 0 (t.take initlen)
      let buf ← set buf initlen 0
      return ⟨toUInt initlen, 0, buf⟩
    else .error (.access t.length)

namespace Sdshdr

/-- `sdsclear(s)` -/
def clear (sh : Sdshdr) : Except MemFault Sdshdr := do
  let buf ← set sh.buf 0 0
  return ⟨0, toUInt (sh.free + sh.len), buf⟩

/-- The loop of `strlen` over at most `n` cells. -/
def strlen (buf : List (Option UInt8)) : Nat → Nat → Except MemFault Nat
  | i, 0 => .error (.access i)
  | i, n + 1 => do
    let b ← get buf i
    if b = 0 then .ok i else strlen buf (i + 1) n

/-- `sdsupdatelen(s)` -/
def updatelen (sh : Sdshdr) : Except MemFault Sdshdr := do
  let n ← strlen sh.buf 0 sh.buf.length
  let reallen := toInt n
  return ⟨toUInt reallen, toUInt (sh.free + toUInt (sh.len - reallen)), sh.buf⟩

/-- `sdsMakeRoomFor(s, addlen)` -/
def makeRoomFor (sh : Sdshdr) (addlen : Nat) : Sdshdr :=
  if addlen ≤ sh.free then sh
  else
    let newlen := (sh.len + addlen) % 2 ^ 64
    let newlen := if newlen < SDS_MAX_PREALLOC then newlen * 2 else (newlen + SDS_MAX_PREALLOC) % 2 ^ 64
    ⟨sh.len, toUInt (newlen - sh.len), resize sh.buf newlen⟩

/-- `sdsRemoveFreeSpace(s)` -/
def removeFreeSpace (sh : Sdshdr) : Sdshdr := ⟨sh.len, 0, resize sh.buf sh.len⟩

/-- `sdsIncrLen(s, incr)` -/
def incrLen (sh : Sdshdr) (incr : Int) : Except MemFault Sdshdr :=
  if (if incr ≥ 0 then sh.free ≥ toUInt incr else sh.len ≥ toUInt (-incr)) then do
    let len := toUInt (sh.len + incr)
    let buf ← set sh.buf len 0
    return ⟨len, toUInt (sh.free - incr), buf⟩
  else .error .assert

/-- What an event handler does with `n` bytes of room and the bytes that `read` gives. -/
def readInto (sh : Sdshdr) (n : Nat) (bytes : List UInt8) : Except MemFault Sdshdr := do
  let sh := sh.makeRoomFor n
  let buf ← copy sh.buf sh.len bytes
  incrLen ⟨sh.len, sh.free, buf⟩ bytes.length

/-- `sdsgrowzero(s, len)` -/
def growzero (sh : Sdshdr) (len : Nat) : Except MemFault Sdshdr :=
  let curlen := sh.len
  if len ≤ curlen then .ok sh
  else do
    let sh := sh.makeRoomFor (len - curlen)
    let buf ← copy sh.buf curlen (List.replicate (len - curlen + 1) 0)
    let totlen := toUInt (sh.len + sh.free)
    return ⟨toUInt len, toUInt (totlen - len), buf⟩

/-- `sdscatlen(s, t, len)`, for the `len` bytes at `t`. -/
def catlen (sh : Sdshdr) (t : List UInt8) : Except MemFault Sdshdr := do
  let curlen := sh.len
  let sh := sh.makeRoomFor t.length
  let buf ← copy sh.buf curlen t
  let buf ← set buf (curlen + t.length) 0
  return ⟨toUInt (curlen + t.length), toUInt (sh.free - t.length), buf⟩

/-- `sdscpylen(s, t, len)`, for the `len` bytes at `t`. -/
def cpylen (sh : Sdshdr) (t : List UInt8) : Except MemFault Sdshdr := do
  let sh := if toUInt (sh.free + sh.len) < t.length then sh.makeRoomFor ((t.length + 2 ^ 64 - sh.len) % 2 ^ 64) else sh
  let totlen := toUInt (sh.free + sh.len)
  let buf ← copy sh.buf 0 t
  let buf ← set buf t.length 0
  return ⟨toUInt t.length, toUInt (totlen - t.length), buf⟩

/-- `strchr(cset, b)` finds the terminator of `cset` as well. -/
def inSet (cset : List UInt8) (b : UInt8) : Bool := b = 0 || b ∈ cstr cset

/-- The loop `while(sp <= end && strchr(cset, *sp)) sp++`, for `n` bytes from `sp` to `end`. -/
def trimStart (buf : List (Option UInt8)) (cset : List UInt8) : Nat → Nat → Except MemFault Nat
  | sp, 0 => .ok sp
  | sp, n + 1 => do
    let b ← get buf sp
    if inSet cset b then trimStart buf cset (sp + 1) n else .ok sp

/-- The loop `while(ep > start && strchr(cset, *ep)) ep--`. -/
def trimEnd (buf : List (Option UInt8)) (cset : List UInt8) : Nat → Except MemFault Nat
  | 0 => .ok 0
  | ep + 1 => do
    let b ← get buf (ep + 1)
    if inSet cset b then trimEnd buf cset ep else .ok (ep + 1)

/-- The same loop from the last byte, which an empty string has in front of the first one. -/
def trimLast (sh : Sdshdr) (cset : List UInt8) : Except MemFault Int :=
  if sh.len = 0 then .ok (-1) else (trimEnd sh.buf cset (sh.len - 1)).map Int.ofNat

/-- The end of `sdstrim` and of `sdsrange`. -/
def shorten (sh : Sdshdr) (buf : List (Option UInt8)) (len : Nat) : Except MemFault Sdshdr := do
  let buf ← set buf len 0
  return ⟨toUInt len, toUInt (sh.free + (sh.len - len)), buf⟩

/-- `sdstrim(s, cset)` -/
def trim (sh : Sdshdr) (cset : List UInt8) : Except MemFault Sdshdr := do
  let sp ← trimStart sh.buf cset 0 sh.len
  let ep ← sh.trimLast cset
  let len := if (sp : Int) > ep then 0 else (ep - sp + 1).toNat
  if sp ≠ 0 then do
    let buf ← moveDown sh.buf sp len
    sh.shorten buf len
  else sh.shorten sh.buf len

/-- The end of `sdsrange(s, start, end)`. -/
def cut (sh : Sdshdr) (start newlen : Nat) : Except MemFault Sdshdr :=
  if start ≠ 0 ∧ newlen ≠ 0 then do
    let buf ← moveDown sh.buf start newlen
    sh.shorten buf newlen
  else sh.shorten sh.buf newlen

/-- `sdsrange(s, start, end)` -/
def range (sh : Sdshdr) (start fin : Int) : Except MemFault Sdshdr :=
  let len : Int := sh.len
  if len = 0 then .ok sh
  else
    let start := if start < 0 then max (toInt (len + start)) 0 else start
    let fin := if fin < 0 then max (toInt (len + fin)) 0 else fin
    let newlen := if start > fin then 0 else fin - start + 1
    if newlen ≠ 0 then
      if start ≥ toInt len then sh.cut start.toNat 0
      else if fin ≥ toInt len then
        let fin := toInt (len - 1)
        sh.cut start.toNat (if start > fin then 0 else fin - start + 1).toNat
      else sh.cut start.toNat newlen.toNat
    else sh.cut 0 0

/-- A loop over the bytes of a string, with an `int` for the length. -/
def mapBytes (sh : Sdshdr) (f : UInt8 → UInt8) : Except MemFault Sdshdr := do
  let buf ← mapCells f 0 (toInt sh.len).toNat sh.buf
  return { sh with buf := buf }

/-- `sdstolower(s)` -/
def tolower (sh : Sdshdr) : Except MemFault Sdshdr := sh.mapBytes PubsubBroker.tolower

/-- `toupper` in the C locale. -/
def toupperByte (b : UInt8) : UInt8 := if 97 ≤ b ∧ b ≤ 122 then b - 32 else b

/-- `sdstoupper(s)` -/
def toupper (sh : Sdshdr) : Except MemFault Sdshdr := sh.mapBytes toupperByte

/-- The inner loop of `sdsmapchars`, over the pairs of a character of `from` and one of `to`. -/
def mapChar (table : List (UInt8 × UInt8)) (b : UInt8) : UInt8 := ((table.find? (·.1 = b)).map Prod.snd).getD b

/-- `sdsmapchars(s, from, to, setlen)` -/
def mapchars (sh : Sdshdr) (table : List (UInt8 × UInt8)) : Except MemFault Sdshdr := do
  let buf ← mapCells (mapChar table) 0 sh.len sh.buf
  return { sh with buf := buf }

/-- The bytes of a string. -/
def bytes (sh : Sdshdr) : Except MemFault (List UInt8) := getAll sh.buf 0 sh.len

end Sdshdr

/-- `memcmp` of the first bytes of two buffers. -/
def memcmp : List UInt8 → List UInt8 → Int
  | a :: as, b :: bs => if a = b then memcmp as bs else if a < b then -1 else 1
  | _, _ => 0

/-- `sdscmp(s1, s2)` -/
def sdscmp (sh₁ sh₂ : Sdshdr) : Except MemFault Int := do
  let s₁ ← getAll sh₁.buf 0 (min sh₁.len sh₂.len)
  let s₂ ← getAll sh₂.buf 0 (min sh₁.len sh₂.len)
  return if memcmp s₁ s₂ = 0 then toInt (sh₁.len - sh₂.len) else memcmp s₁ s₂

/-! ## What a header stands for -/

/-- The string in memory is `s`, with a terminator behind it, and the header is right about the buffer. -/
structure Sdshdr.Holds (sh : Sdshdr) (s : List UInt8) : Prop where
  len : sh.len = s.length
  buf : ∃ rest, sh.buf = s.map some ++ (some 0 :: rest) ∧ rest.length = sh.free
  small : sh.len + sh.free < 2 ^ 32

section
variable {sh : Sdshdr} {s : List UInt8}

theorem bufSize_of_lt {n : Nat} (h : n < 2 ^ 32) : bufSize n = n + 1 := by
  unfold bufSize
  omega

theorem toUInt_natCast {n : Nat} (h : n < 2 ^ 32) : toUInt n = n := by
  rw [toUInt_of_lt (by omega) (by omega), Int.toNat_natCast]

/-- The size of the block is `sdsAllocSize(s)`. -/
theorem Sdshdr.Holds.buf_length (h : sh.Holds s) : sh.buf.length = sh.len + sh.free + 1 := by
  obtain ⟨rest, hbuf, hrest⟩ := h.buf
  rw [hbuf, h.len]
  simp
  omega

/-- A header is put together. -/
theorem Sdshdr.Holds.of_rest {len free : Nat} {rest : List (Option UInt8)} (hlen : len = s.length) (hfree : free = rest.length)
    (hsmall : len + free < 2 ^ 32) : Sdshdr.Holds ⟨len, free, s.map some ++ (some 0 :: rest)⟩ s :=
  ⟨hlen, ⟨rest, rfl, hfree.symm⟩, hsmall⟩

theorem sdsnewlen_some {t : List UInt8} {n : Nat} (hn : n ≤ t.length) (hlt : n < 2 ^ 32) :
    ∃ sh, sdsnewlen (some t) n = .ok sh ∧ sh.Holds (t.take n) := by
  have hlen : (t.take n).length = n := List.length_take_of_le hn
  have hjunk : List.replicate (bufSize n) (none : Option UInt8) = List.replicate n none ++ [none] := by
    rw [bufSize_of_lt hlt, List.replicate_succ']
  have hcopy := copy_append [] (List.replicate n none) [none] (s := t.take n) (by simpa using hn)
  have hset := set_append ((t.take n).map some) none [] 0
  rw [List.length_map, hlen] at hset
  simp only [List.nil_append, List.length_nil] at hcopy
  have hrun : sdsnewlen (some t) n = .ok ⟨toUInt n, 0, (t.take n).map some ++ [some 0]⟩ := by
    unfold sdsnewlen
    simp only
    rw [if_pos hn, hjunk, hcopy, done_bind, hset]
    rfl
  rw [toUInt_natCast hlt] at hrun
  exact ⟨_, hrun, .of_rest hlen.symm rfl hlt⟩

theorem sdsnewlen_none {n : Nat} (hlt : n < 2 ^ 32) :
    ∃ sh, sdsnewlen none n = .ok sh ∧ sh.Holds (List.replicate n 0) := by
  have hset := set_append ((List.replicate n (0 : UInt8)).map some) (some 0) [] 0
  rw [List.length_map, List.length_replicate, List.map_replicate] at hset
  have hrun : sdsnewlen none n = .ok ⟨toUInt n, 0, (List.replicate n (0 : UInt8)).map some ++ [some 0]⟩ := by
    unfold sdsnewlen
    simp only
    rw [bufSize_of_lt hlt, List.replicate_succ', hset, List.map_replicate]
    rfl
  rw [toUInt_natCast hlt] at hrun
  exact ⟨_, hrun, .of_rest (List.length_replicate ..).symm rfl hlt⟩

namespace Sdshdr

/-- A terminator is written within the string. -/
theorem terminate_spec (h : sh.Holds s) {p : Nat} (hp : p ≤ s.length) :
    ∃ rest, Buffer.set sh.buf p 0 = .ok ((s.take p).map some ++ some 0 :: rest) ∧ rest.length = sh.len + sh.free - p := by
  obtain ⟨rest, hbuf, -⟩ := h.buf
  have hsize := h.buf_length
  have hlen := h.len
  have hl : sh.buf.take p = (s.take p).map some := by
    rw [hbuf, List.take_append_of_le_length (by simpa using hp), List.map_take]
  obtain ⟨mid, c, r, hsplit, hmid, hr⟩ := exists_split (m := sh.buf) (i := p) (n := 0) (by omega)
  obtain rfl : mid = [] := List.length_eq_zero_iff.1 hmid
  have hset := set_append (sh.buf.take p) c r 0
  rw [List.nil_append] at hsplit
  rw [← hsplit, List.length_take_of_le (by omega), hl] at hset
  exact ⟨r, hset, by omega⟩

theorem clear_spec (h : sh.Holds s) : ∃ sh', sh.clear = .ok sh' ∧ sh'.Holds [] := by
  obtain ⟨rest, hset, hrest⟩ := terminate_spec h (Nat.zero_le _)
  have hsmall := h.small
  have hrun : sh.clear = .ok ⟨0, toUInt (sh.free + sh.len), some 0 :: rest⟩ := by
    unfold clear
    rw [hset]
    rfl
  rw [← Nat.cast_add, toUInt_natCast (by omega)] at hrun
  exact ⟨_, hrun, rfl, ⟨rest, rfl, by simp only; omega⟩, by simp only; omega⟩

theorem resize_grow {buf : List (Option UInt8)} {n : Nat} (hn : n < 2 ^ 32) (hle : buf.length ≤ n + 1) :
    resize buf n = buf ++ List.replicate (n + 1 - buf.length) none := by
  unfold resize
  rw [bufSize_of_lt hn, List.take_of_length_le hle]

/-- There is room for the bytes that were asked for, and the string is the same. -/
theorem makeRoomFor_spec (h : sh.Holds s) {n : Nat} (hn : s.length + n + SDS_MAX_PREALLOC < 2 ^ 32) :
    (sh.makeRoomFor n).Holds s ∧ n ≤ (sh.makeRoomFor n).free := by
  have hpre : SDS_MAX_PREALLOC = 2 ^ 20 := rfl
  have hlen := h.len
  unfold makeRoomFor
  split
  · exact ⟨h, ‹_›⟩
  · rename_i hroom
    simp only
    rw [Nat.mod_eq_of_lt (by omega : sh.len + n < 2 ^ 64), Nat.mod_eq_of_lt (by omega : sh.len + n + SDS_MAX_PREALLOC < 2 ^ 64)]
    generalize hnew : (if sh.len + n < SDS_MAX_PREALLOC then (sh.len + n) * 2 else sh.len + n + SDS_MAX_PREALLOC) = newlen
    have hge : sh.len + n ≤ newlen := by
      rw [← hnew]
      split <;> omega
    have hlt : newlen < 2 ^ 32 := by
      rw [← hnew]
      split <;> omega
    have hfree : toUInt (newlen - sh.len) = newlen - sh.len := by
      rw [toUInt_of_lt (by omega) (by omega)]
      omega
    obtain ⟨rest, hbuf, hrest⟩ := h.buf
    have hsize := h.buf_length
    rw [resize_grow hlt (by omega), hfree]
    refine ⟨⟨hlen, ⟨rest ++ List.replicate (newlen + 1 - sh.buf.length) none, ?_, ?_⟩, ?_⟩, ?_⟩
    · simp only
      rw [hbuf, List.append_assoc, List.cons_append]
    · rw [List.length_append, List.length_replicate]
      simp only
      omega
    · simp only
      omega
    · omega

theorem removeFreeSpace_spec (h : sh.Holds s) : sh.removeFreeSpace.Holds s := by
  obtain ⟨rest, hbuf, hrest⟩ := h.buf
  have hlen := h.len
  have hsmall := h.small
  have hresize : resize sh.buf sh.len = s.map some ++ [some 0] := by
    unfold resize
    rw [bufSize_of_lt (by omega), hbuf, Nat.sub_eq_zero_of_le (by simp; omega), List.replicate_zero, List.append_nil,
      List.append_cons, List.take_left' (by simp [hlen])]
  unfold removeFreeSpace
  rw [hresize]
  exact Holds.of_rest hlen rfl (by omega)

/-- Bytes are written over the string from `p` on, where there is room for them. -/
theorem write_spec (h : sh.Holds s) {p : Nat} (hp : p ≤ s.length) {t : List UInt8} (ht : p + t.length ≤ sh.len + sh.free) :
    ∃ c rest, copy sh.buf p t = .ok ((s.take p ++ t).map some ++ c :: rest) ∧
      copy sh.buf p (t ++ [0]) = .ok ((s.take p ++ t).map some ++ some 0 :: rest) ∧
      rest.length = sh.len + sh.free - (p + t.length) := by
  obtain ⟨rest, hbuf, -⟩ := h.buf
  have hsize := h.buf_length
  have hl : sh.buf.take p = (s.take p).map some := by
    rw [hbuf, List.take_append_of_le_length (by simpa using hp), List.map_take]
  have hlen : (sh.buf.take p).length = p := List.length_take_of_le (by omega)
  obtain ⟨mid, c, r, hsplit, hmid, hr⟩ := exists_split (m := sh.buf) (i := p) (n := t.length) (by omega)
  have hcopy := copy_append (sh.buf.take p) mid (c :: r) hmid.symm
  have hnul := copy_append (sh.buf.take p) (mid ++ [c]) r (s := t ++ [0]) (by simp [hmid])
  rw [← hsplit, hlen] at hcopy
  rw [List.append_assoc, List.singleton_append, ← hsplit, hlen] at hnul
  refine ⟨c, r, ?_, ?_, by omega⟩
  · rw [hcopy, hl, List.map_append, List.append_assoc]
  · rw [hnul, hl]
    simp only [List.map_append, List.append_assoc, List.map_cons, List.map_nil, List.singleton_append]

/-- The terminator is written behind a string. -/
theorem set_behind (s : List UInt8) (c : Option UInt8) (rest : List (Option UInt8)) :
    Buffer.set (s.map some ++ c :: rest) s.length 0 = .ok (s.map some ++ some 0 :: rest) := by
  have := set_append (s.map some) c rest 0
  rwa [List.length_map] at this

theorem catlen_spec (h : sh.Holds s) {t : List UInt8} (ht : s.length + t.length + SDS_MAX_PREALLOC < 2 ^ 32) :
    ∃ sh', sh.catlen t = .ok sh' ∧ sh'.Holds (s ++ t) := by
  obtain ⟨hroom, hfree⟩ := makeRoomFor_spec h ht
  have hlen := h.len
  have hlen' := hroom.len
  have hsmall := hroom.small
  obtain ⟨c, rest, hcopy, -, hrest⟩ := write_spec hroom (Nat.le_refl _) (t := t) (by omega)
  rw [List.take_length] at hcopy
  have hset := set_behind (s ++ t) c rest
  rw [List.length_append] at hset
  have hrun : sh.catlen t = .ok ⟨toUInt (sh.len + t.length), toUInt ((sh.makeRoomFor t.length).free - t.length),
      (s ++ t).map some ++ some 0 :: rest⟩ := by
    unfold catlen
    simp only
    rw [hlen, hcopy, done_bind, hset]
    rfl
  refine ⟨_, hrun, .of_rest ?_ ?_ ?_⟩
  · rw [← Nat.cast_add, toUInt_natCast (by omega), hlen, List.length_append]
  · rw [← Nat.cast_sub hfree, toUInt_natCast (by omega)]
    omega
  · rw [← Nat.cast_add, toUInt_natCast (by omega), ← Nat.cast_sub hfree, toUInt_natCast (by omega)]
    omega

theorem cpylen_spec (h : sh.Holds s) {t : List UInt8} (ht : t.length + SDS_MAX_PREALLOC < 2 ^ 32) :
    ∃ sh', sh.cpylen t = .ok sh' ∧ sh'.Holds t := by
  have hlen := h.len
  have hsmall := h.small
  have htot : toUInt (sh.free + sh.len) = sh.free + sh.len := by rw [← Nat.cast_add, toUInt_natCast (by omega)]
  -- after the reallocation, if there is one, the bytes fit
  generalize hsh₁ : (if toUInt (sh.free + sh.len) < t.length then sh.makeRoomFor ((t.length + 2 ^ 64 - sh.len) % 2 ^ 64)
    else sh) = sh₁
  have hroom : sh₁.Holds s ∧ t.length ≤ sh₁.len + sh₁.free := by
    rw [← hsh₁, htot]
    split
    · have hmod : (t.length + 2 ^ 64 - sh.len) % 2 ^ 64 = t.length - sh.len := by omega
      rw [hmod]
      obtain ⟨h₁, hfree⟩ := makeRoomFor_spec h (n := t.length - sh.len) (by omega)
      have hlen₁ := h₁.len
      exact ⟨h₁, by omega⟩
    · exact ⟨h, by omega⟩
  obtain ⟨h₁, hfree⟩ := hroom
  have hsmall₁ := h₁.small
  have htot₁ : toUInt (sh₁.free + sh₁.len) = sh₁.free + sh₁.len := by rw [← Nat.cast_add, toUInt_natCast (by omega)]
  obtain ⟨c, rest, hcopy, -, hrest⟩ := write_spec h₁ (Nat.zero_le _) (t := t) (by omega)
  rw [List.take_zero, List.nil_append] at hcopy
  have hrun : sh.cpylen t = .ok ⟨toUInt t.length, toUInt ((sh₁.free + sh₁.len : Nat) - t.length), t.map some ++ some 0 :: rest⟩ := by
    unfold cpylen
    simp only
    rw [hsh₁, hcopy, done_bind, set_behind, htot₁]
    rfl
  refine ⟨_, hrun, .of_rest ?_ ?_ ?_⟩
  · rw [toUInt_natCast (by omega)]
  · rw [← Nat.cast_sub (by omega), toUInt_natCast (by omega)]
    omega
  · rw [toUInt_natCast (by omega), ← Nat.cast_sub (by omega), toUInt_natCast (by omega)]
    omega

theorem growzero_spec (h : sh.Holds s) {n : Nat} (hn : n + SDS_MAX_PREALLOC < 2 ^ 32) :
    ∃ sh', sh.growzero n = .ok sh' ∧ sh'.Holds (s ++ List.replicate (n - s.length) 0) := by
  have hlen := h.len
  unfold growzero
  simp only
  split
  · rw [Nat.sub_eq_zero_of_le (by omega), List.replicate_zero, List.append_nil]
    exact ⟨sh, rfl, h⟩
  · obtain ⟨hroom, hfree⟩ := makeRoomFor_spec h (n := n - sh.len) (by omega)
    generalize sh.makeRoomFor (n - sh.len) = sh₁ at hroom hfree
    have hlen₁ := hroom.len
    have hsmall := hroom.small
    obtain ⟨c, rest, -, hcopy, hrest⟩ := write_spec hroom (Nat.le_refl _) (t := List.replicate (n - sh.len) 0) (by
      rw [List.length_replicate]
      omega)
    rw [List.take_length, ← List.replicate_succ', ← hlen] at hcopy
    rw [List.length_replicate] at hrest
    rw [hcopy, done_bind, ← Nat.cast_add, toUInt_natCast hsmall, ← hlen]
    refine ⟨_, rfl, .of_rest ?_ ?_ ?_⟩
    · rw [toUInt_natCast (by omega), List.length_append, List.length_replicate]
      omega
    · rw [← Nat.cast_sub (by omega), toUInt_natCast (by omega)]
      omega
    · rw [toUInt_natCast (by omega), ← Nat.cast_sub (by omega), toUInt_natCast (by omega)]
      omega

/-- Room is made and bytes are read into it, as many as there is room for. -/
theorem readInto_spec (h : sh.Holds s) {n : Nat} (hn : s.length + n + SDS_MAX_PREALLOC < 2 ^ 32) {t : List UInt8}
    (ht : t.length ≤ n) (hint : t.length < 2 ^ 31) : ∃ sh', sh.readInto n t = .ok sh' ∧ sh'.Holds (s ++ t) := by
  obtain ⟨hroom, hfree⟩ := makeRoomFor_spec h hn
  have hlen := h.len
  have hlen' := hroom.len
  have hsmall := hroom.small
  obtain ⟨c, rest, hcopy, -, hrest⟩ := write_spec hroom (Nat.le_refl _) (t := t) (by omega)
  rw [List.take_length] at hcopy
  have hset := set_behind (s ++ t) c rest
  rw [List.length_append] at hset
  have hincr : toUInt (s.length + t.length) = s.length + t.length := by rw [← Nat.cast_add, toUInt_natCast (by omega)]
  have hrun : sh.readInto n t = .ok ⟨s.length + t.length, toUInt ((sh.makeRoomFor n).free - t.length),
      (s ++ t).map some ++ some 0 :: rest⟩ := by
    unfold readInto
    simp only
    rw [hlen', hcopy, done_bind]
    unfold incrLen
    simp only
    rw [if_pos (by rw [if_pos (by omega), toUInt_natCast (by omega)]; omega), hincr, hset]
    rfl
  refine ⟨_, hrun, .of_rest ?_ ?_ ?_⟩
  · rw [List.length_append]
  · rw [← Nat.cast_sub (by omega), toUInt_natCast (by omega)]
    omega
  · rw [← Nat.cast_sub (by omega), toUInt_natCast (by omega)]
    omega

/-- A C string is followed by a terminator, its own or that of the string it is read from. -/
theorem exists_cstr (s : List UInt8) : ∃ r, s ++ [0] = cstr s ++ 0 :: r := by
  induction s with
  | nil => exact ⟨[], rfl⟩
  | cons b s ih =>
    by_cases hb : b = 0
    · exact ⟨s ++ [0], by rw [cstr, List.takeWhile_cons_of_neg (by simpa using hb), hb]; rfl⟩
    · obtain ⟨r, hr⟩ := ih
      refine ⟨r, ?_⟩
      rw [cstr, List.takeWhile_cons_of_pos (by simpa using hb), List.cons_append, hr]
      rfl

theorem strlen_append (l : List (Option UInt8)) (s : List UInt8) (rest : List (Option UInt8)) {n : Nat} (hn : s.length < n) :
    strlen (l ++ (s.map some ++ some 0 :: rest)) l.length n = .ok (l.length + (cstr s).length) := by
  induction s generalizing l n with
  | nil =>
    obtain ⟨n, rfl⟩ := Nat.exists_eq_succ_of_ne_zero (Nat.ne_zero_of_lt hn)
    rw [strlen, List.map_nil, List.nil_append, get_append, done_bind, if_pos rfl]
    rfl
  | cons b s ih =>
    obtain ⟨n, rfl⟩ := Nat.exists_eq_succ_of_ne_zero (Nat.ne_zero_of_lt hn)
    have hrest := ih (l ++ [some b]) (Nat.lt_of_succ_lt_succ hn)
    rw [List.append_assoc, List.length_append] at hrest
    rw [strlen, List.map_cons, List.cons_append, get_append, done_bind]
    by_cases hb : b = 0
    · rw [if_pos hb, cstr, List.takeWhile_cons_of_neg (by simpa using hb)]
      rfl
    · rw [if_neg hb, cstr, List.takeWhile_cons_of_pos (by simpa using hb), List.length_cons]
      refine hrest.trans ?_
      rw [cstr, List.length_singleton, Nat.add_assoc, Nat.add_comm 1]

theorem updatelen_spec (h : sh.Holds s) (hint : (cstr s).length < 2 ^ 31) :
    ∃ sh', sh.updatelen = .ok sh' ∧ sh'.Holds (cstr s) := by
  obtain ⟨rest, hbuf, hrest⟩ := h.buf
  have hlen := h.len
  have hsmall := h.small
  obtain ⟨r, hr⟩ := exists_cstr s
  have hle := congrArg List.length hr
  rw [List.length_append, List.length_append, List.length_cons, List.length_cons, List.length_nil] at hle
  have hstrlen : strlen sh.buf 0 sh.buf.length = .ok (cstr s).length := by
    have := strlen_append [] s rest (n := sh.buf.length) (by rw [h.buf_length]; omega)
    rwa [List.nil_append, List.length_nil, Nat.zero_add, ← hbuf] at this
  have hcells : sh.buf = (cstr s).map some ++ some 0 :: (r.map some ++ rest) := by
    rw [hbuf, List.append_cons, ← List.map_singleton, ← List.map_append, hr, List.map_append, List.append_assoc]
    rfl
  have hrun : sh.updatelen = .ok ⟨toUInt (toInt (cstr s).length), toUInt (sh.free + toUInt (sh.len - toInt (cstr s).length)),
      sh.buf⟩ := by
    unfold updatelen
    rw [hstrlen]
    rfl
  rw [toInt_of_lt (by omega) (by omega), toUInt_natCast (by omega), ← Nat.cast_sub (by omega : (cstr s).length ≤ sh.len),
    toUInt_natCast (n := sh.len - (cstr s).length) (by omega), ← Nat.cast_add, toUInt_natCast (by omega)] at hrun
  refine ⟨_, hrun, rfl, ⟨r.map some ++ rest, hcells, ?_⟩, by simp only; omega⟩
  rw [List.length_append, List.length_map]
  simp only
  omega

/-- `sdsIncrLen` with a negative number trims the string. -/
theorem incrLen_spec (h : sh.Holds s) {k : Nat} (hk : k ≤ s.length) :
    ∃ sh', sh.incrLen (-k) = .ok sh' ∧ sh'.Holds (s.take (s.length - k)) := by
  have hlen := h.len
  have hsmall := h.small
  obtain ⟨rest, hset, hrest⟩ := terminate_spec h (Nat.sub_le s.length k)
  have hguard : if -(k : Int) ≥ 0 then sh.free ≥ toUInt (-k) else sh.len ≥ toUInt (- -k) := by
    split
    · have hk0 : (k : Int) = 0 := by omega
      rw [hk0]
      exact Nat.zero_le _
    · rw [neg_neg, toUInt_natCast (by omega)]
      omega
  have hlen' : toUInt (sh.len + -k) = s.length - k := by
    rw [toUInt_of_lt (by omega) (by omega)]
    omega
  have hfree : toUInt (sh.free - -k) = sh.free + k := by
    rw [toUInt_of_lt (by omega) (by omega)]
    omega
  have hrun : sh.incrLen (-k) = .ok ⟨s.length - k, sh.free + k, (s.take (s.length - k)).map some ++ some 0 :: rest⟩ := by
    unfold incrLen
    rw [if_pos hguard]
    simp only
    rw [hlen', hset, hfree]
    rfl
  exact ⟨_, hrun, .of_rest (List.length_take_of_le (Nat.sub_le ..)).symm (by omega) (by omega)⟩

theorem mapCells_spec (h : sh.Holds s) (f : UInt8 → UInt8) :
    ∃ buf, mapCells f 0 s.length sh.buf = .ok buf ∧ Holds { sh with buf := buf } (s.map f) := by
  obtain ⟨rest, hbuf, hrest⟩ := h.buf
  refine ⟨(s.map f).map some ++ some 0 :: rest, ?_, ?_⟩
  · rw [hbuf]
    exact mapCells_append f [] s (some 0 :: rest)
  · exact .of_rest (h.len.trans (List.length_map ..).symm) hrest.symm h.small

theorem mapBytes_spec (h : sh.Holds s) (f : UInt8 → UInt8) (hint : s.length < 2 ^ 31) :
    ∃ sh', sh.mapBytes f = .ok sh' ∧ sh'.Holds (s.map f) := by
  obtain ⟨buf, hok, hholds⟩ := mapCells_spec h f
  refine ⟨_, ?_, hholds⟩
  unfold mapBytes
  rw [h.len, toInt_of_lt (by omega) (by omega), Int.toNat_natCast, hok]
  rfl

theorem mapchars_spec (h : sh.Holds s) (table : List (UInt8 × UInt8)) :
    ∃ sh', sh.mapchars table = .ok sh' ∧ sh'.Holds (s.map (mapChar table)) := by
  obtain ⟨buf, hok, hholds⟩ := mapCells_spec h (mapChar table)
  refine ⟨_, ?_, hholds⟩
  unfold mapchars
  rw [h.len, hok]
  rfl

theorem bytes_spec (h : sh.Holds s) : sh.bytes = .ok s := by
  obtain ⟨rest, hbuf, -⟩ := h.buf
  unfold bytes
  rw [hbuf, h.len]
  exact getAll_append [] s (some 0 :: rest)

theorem shorten_spec (h : sh.Holds s) {buf rest : List (Option UInt8)} {t : List UInt8}
    (hset : Buffer.set buf t.length 0 = .ok (t.map some ++ some 0 :: rest)) (ht : t.length ≤ s.length)
    (hrest : rest.length = sh.len + sh.free - t.length) : ∃ sh', sh.shorten buf t.length = .ok sh' ∧ sh'.Holds t := by
  have hlen := h.len
  have hsmall := h.small
  have hrun : sh.shorten buf t.length = .ok ⟨toUInt t.length, toUInt (sh.free + (sh.len - t.length)), t.map some ++
      some 0 :: rest⟩ := by
    unfold shorten
    rw [hset]
    rfl
  rw [toUInt_natCast (by omega), ← Nat.cast_sub (by omega), ← Nat.cast_add, toUInt_natCast (by omega)] at hrun
  exact ⟨_, hrun, .of_rest rfl (by omega) (by omega)⟩

theorem cut_spec (h : sh.Holds s) (start : Nat) {n : Nat} (hn : start + n ≤ s.length ∨ n = 0) :
    ∃ sh', sh.cut start n = .ok sh' ∧ sh'.Holds ((s.drop start).take n) := by
  obtain ⟨rest, hbuf, -⟩ := h.buf
  have hlen := h.len
  have htake : ((s.drop start).take n).length = n := by
    rw [List.length_take, List.length_drop]
    omega
  unfold cut
  split
  · have hsplit : sh.buf = (s.take start).map some ++ (((s.drop start).take n).map some ++
        ((((s.drop start).drop n).map some) ++ some 0 :: rest)) := by
      rw [hbuf, ← List.append_assoc, ← List.append_assoc, ← List.map_append, ← List.map_append, List.append_assoc,
        List.take_append_drop, List.take_append_drop]
    -- the bytes to keep are moved to the front, over themselves
    have hmove := moveDown_append ((s.take start).map some) (((s.drop start).take n).map some)
      ((((s.drop start).drop n).map some) ++ some 0 :: rest) (by rw [List.length_map, htake])
    rw [← hsplit, List.length_map, List.length_take_of_le (by omega)] at hmove
    have hsize := h.buf_length
    -- the terminator goes behind them, where there is a byte at least
    obtain ⟨c, r, hr⟩ : ∃ c r, sh.buf.drop n = c :: r := by
      refine List.exists_cons_of_ne_nil fun hnil => ?_
      have := congrArg List.length hnil
      rw [List.length_drop, List.length_nil] at this
      omega
    have hr' := congrArg List.length hr
    rw [List.length_drop, List.length_cons] at hr'
    rw [hmove, done_bind, hr]
    have hshort := shorten_spec h (set_behind ((s.drop start).take n) c r) (by omega) (by omega)
    rwa [htake] at hshort
  · obtain ⟨r, hset, hr⟩ := terminate_spec h (p := n) (by omega)
    -- nothing is moved when the range starts at 0 or is empty
    have heq : (s.drop start).take n = s.take n := by
      by_cases h0 : n = 0
      · rw [h0, List.take_zero, List.take_zero]
      · rw [show start = 0 by omega, List.drop_zero]
    rw [heq] at htake ⊢
    have hset' : Buffer.set sh.buf (s.take n).length 0 = .ok ((s.take n).map some ++ some 0 :: r) := by
      rw [htake]
      exact hset
    have hshort := shorten_spec h hset' (by omega) (by omega)
    rwa [htake] at hshort

/-- A range in memory is the range of the list, for every length and all indexes. -/
theorem range_spec (h : sh.Holds s) (start fin : Int) : ∃ sh', sh.range start fin = .ok sh' ∧ sh'.Holds (sdsrange s start fin) := by
  have hlen := h.len
  have hsmall := h.small
  unfold range sdsrange
  simp only [hlen]
  generalize hstart : (if start < 0 then max (toInt (s.length + start)) 0 else start) = start'
  generalize hfin : (if fin < 0 then max (toInt (s.length + fin)) 0 else fin) = fin'
  have hstart0 : 0 ≤ start' := by
    rw [← hstart]
    split <;> omega
  by_cases h0 : (s.length : Int) = 0
  · rw [if_pos h0, if_pos h0]
    exact ⟨sh, rfl, h⟩
  rw [if_neg h0, if_neg h0]
  by_cases hnew : (if start' > fin' then 0 else fin' - start' + 1) ≠ 0
  · rw [if_pos hnew, if_pos hnew]
    have hle : start' ≤ fin' := by
      by_contra hgt
      rw [if_pos (by omega)] at hnew
      exact hnew rfl
    rw [if_neg (by omega : ¬ start' > fin')]
    by_cases hs : start' ≥ toInt s.length
    · rw [if_pos hs, if_pos hs]
      obtain ⟨sh', hok, hholds⟩ := cut_spec h start'.toNat (n := 0) (.inr rfl)
      exact ⟨sh', hok, hholds⟩
    · rw [if_neg hs, if_neg hs]
      -- a length that is no `int` is negative, and the start is not below it
      have hint : toInt s.length = s.length := by
        refine toInt_of_lt (by omega) ?_
        unfold toInt at hs
        omega
      have hlast : toInt (s.length - 1) = s.length - 1 := toInt_of_lt (by omega) (by rw [toInt] at hint; omega)
      rw [hint] at hs ⊢
      by_cases hf : fin' ≥ s.length
      · rw [if_pos hf, if_pos hf, hlast, if_neg (by omega)]
        exact cut_spec h _ (.inl (by omega))
      · rw [if_neg hf, if_neg hf]
        exact cut_spec h _ (.inl (by omega))
  · rw [if_neg hnew, if_neg hnew]
    exact cut_spec h _ (.inr rfl)

theorem trimStart_append (cset : List UInt8) (l : List (Option UInt8)) (s : List UInt8) (r : List (Option UInt8)) :
    trimStart (l ++ (s.map some ++ r)) cset l.length s.length = .ok (l.length + (s.takeWhile (inSet cset)).length) := by
  induction s generalizing l with
  | nil => rfl
  | cons b s ih =>
    have hrest := ih (l ++ [some b])
    rw [List.append_assoc, List.length_append] at hrest
    rw [List.length_cons, trimStart, List.map_cons, List.cons_append, get_append, done_bind]
    by_cases hb : inSet cset b = true
    · rw [if_pos hb, List.takeWhile_cons_of_pos hb, List.length_cons]
      refine hrest.trans ?_
      rw [List.length_singleton, Nat.add_assoc, Nat.add_comm 1]
    · rw [if_neg hb, List.takeWhile_cons_of_neg hb]
      rfl

theorem trimEnd_append (cset : List UInt8) (b : UInt8) (s : List UInt8) (r : List (Option UInt8)) :
    trimEnd (some b :: (s.map some ++ r)) cset s.length = .ok (s.rdropWhile (inSet cset)).length := by
  induction s using List.reverseRecOn generalizing r with
  | nil => rfl
  | append_singleton s c ih =>
    have hrest := ih (some c :: r)
    have hget := get_append (some b :: s.map some) c r
    rw [List.length_cons, List.length_map] at hget
    rw [List.length_append, List.length_singleton, trimEnd, List.map_append, List.append_assoc]
    simp only [List.map_cons, List.map_nil, List.singleton_append]
    rw [← List.cons_append, hget, done_bind]
    by_cases hc : inSet cset c = true
    · rw [if_pos hc, List.rdropWhile_concat_pos _ _ _ hc]
      exact hrest
    · rw [if_neg hc, List.rdropWhile_concat_neg _ _ _ hc, List.length_append]
      rfl

/-- Nothing is dropped in front of a byte to keep. -/
theorem rdropWhile_behind {p : UInt8 → Bool} (w : List UInt8) {c : UInt8} (hc : ¬ p c = true) (t : List UInt8) :
    (w ++ c :: t).rdropWhile p = w ++ c :: t.rdropWhile p := by
  induction t using List.reverseRecOn with
  | nil => exact List.rdropWhile_concat_neg _ _ _ hc
  | append_singleton t x ih =>
    rw [← List.cons_append, ← List.append_assoc]
    by_cases hx : p x = true
    · rw [List.rdropWhile_concat_pos _ _ _ hx, List.rdropWhile_concat_pos _ _ _ hx, ih]
    · rw [List.rdropWhile_concat_neg _ _ _ hx, List.rdropWhile_concat_neg _ _ _ hx, List.append_assoc, List.cons_append]

/-- The two loops of `sdstrim` leave what is between the first and the last byte to keep. -/
theorem trim_bounds (p : UInt8 → Bool) (b : UInt8) (s : List UInt8) :
    ∃ n, (if (((b :: s).takeWhile p).length : Int) > (s.rdropWhile p).length then 0
        else ((s.rdropWhile p).length - ((b :: s).takeWhile p).length + 1 : Int).toNat) = n ∧
      (((b :: s).takeWhile p).length + n ≤ (b :: s).length ∨ n = 0) ∧
      (((b :: s).drop ((b :: s).takeWhile p).length).take n) = ((b :: s).dropWhile p).rdropWhile p := by
  have hsplit : (b :: s).takeWhile p ++ (b :: s).dropWhile p = b :: s := List.takeWhile_append_dropWhile
  have hdrop : (b :: s).drop ((b :: s).takeWhile p).length = (b :: s).dropWhile p := by
    generalize (b :: s).takeWhile p = w at hsplit ⊢
    generalize (b :: s).dropWhile p = v at hsplit ⊢
    rw [← hsplit, List.drop_left]
  have hend : (s.rdropWhile p).length ≤ s.length := (List.rdropWhile_prefix ..).length_le
  rw [hdrop]
  generalize (b :: s).takeWhile p = w at hsplit
  -- either all of the bytes are trimmed, or there is a first byte to keep
  rcases hd : (b :: s).dropWhile p with _ | ⟨c, t⟩
  · rw [hd, List.append_nil] at hsplit
    refine ⟨0, ?_, .inr rfl, by rw [List.rdropWhile_nil, List.take_zero]⟩
    rw [hsplit, if_pos]
    rw [List.length_cons]
    omega
  · have hc : ¬ p c = true := by
      have := List.head_dropWhile_not p (l := b :: s) (by rw [hd]; exact List.cons_ne_nil c t)
      simp only [hd, List.head_cons] at this
      rw [this]
      exact Bool.false_ne_true
    have hkeep : (c :: t).rdropWhile p = c :: t.rdropWhile p := rdropWhile_behind [] hc t
    have hpre : t.take (t.rdropWhile p).length = t.rdropWhile p := (List.prefix_iff_eq_take.1 (List.rdropWhile_prefix ..)).symm
    have hle : (t.rdropWhile p).length ≤ t.length := (List.rdropWhile_prefix ..).length_le
    rw [hd] at hsplit
    -- and the loop from the end stops at the last one
    have hlast : (s.rdropWhile p).length = w.length + (t.rdropWhile p).length := by
      cases w with
      | nil =>
        obtain ⟨-, rfl⟩ := List.cons.inj hsplit
        rw [List.length_nil, Nat.zero_add]
      | cons a w =>
        rw [List.cons_append] at hsplit
        obtain ⟨-, hs⟩ := List.cons.inj hsplit
        rw [← hs, rdropWhile_behind w hc, List.length_append, List.length_cons, List.length_cons]
        omega
    refine ⟨(t.rdropWhile p).length + 1, ?_, .inl ?_, ?_⟩
    · rw [if_neg (by omega), hlast]
      omega
    · rw [← hsplit, List.length_append, List.length_cons]
      omega
    · rw [List.take_succ_cons, hpre, hkeep]

theorem trim_spec (h : sh.Holds s) (cset : List UInt8) :
    ∃ sh', sh.trim cset = .ok sh' ∧ sh'.Holds ((s.dropWhile (inSet cset)).rdropWhile (inSet cset)) := by
  obtain ⟨rest, hbuf, -⟩ := h.buf
  have hlen := h.len
  have hstart : trimStart sh.buf cset 0 sh.len = .ok (s.takeWhile (inSet cset)).length := by
    have := trimStart_append cset [] s (some 0 :: rest)
    rwa [List.nil_append, List.length_nil, Nat.zero_add, ← hbuf, ← hlen] at this
  -- a move of no bytes is none
  have hcut (sp n : Nat) (hsp : sp ≤ s.length) : (if sp ≠ 0 then do
      let buf ← moveDown sh.buf sp n
      sh.shorten buf n
      else sh.shorten sh.buf n) = sh.cut sp n := by
    unfold cut
    by_cases h0 : sp = 0
    · rw [if_neg (fun hne => hne h0), if_neg fun hne => hne.1 h0]
    · rw [if_pos h0]
      by_cases hn : n = 0
      · rw [if_neg fun hne => hne.2 hn, hn, moveDown_zero (by rw [h.buf_length]; omega), done_bind]
      · rw [if_pos ⟨h0, hn⟩]
  unfold trim
  rw [hstart, done_bind]
  cases s with
  | nil =>
    have hlast : sh.trimLast cset = .ok (-1) := if_pos hlen
    rw [hlast, done_bind]
    simp only
    rw [hcut _ _ (by simp)]
    exact cut_spec h 0 (n := 0) (.inr rfl)
  | cons b s =>
    have hlast : sh.trimLast cset = .ok (Int.ofNat (s.rdropWhile (inSet cset)).length) := by
      have := trimEnd_append cset b s (some 0 :: rest)
      unfold trimLast
      rw [if_neg (by rw [hlen, List.length_cons]; omega), hlen, hbuf, List.length_cons, Nat.add_sub_cancel, List.map_cons,
        List.cons_append, this]
      rfl
    obtain ⟨n, hn, hle, htake⟩ := trim_bounds (inSet cset) b s
    rw [hlast, done_bind]
    simp only [Int.ofNat_eq_natCast]
    rw [hn, hcut _ _ (List.takeWhile_prefix _).length_le, ← htake]
    exact cut_spec h _ hle

end Sdshdr

theorem getAll_take {sh : Sdshdr} {s : List UInt8} (h : sh.Holds s) {n : Nat} (hn : n ≤ s.length) :
    getAll sh.buf 0 n = .ok (s.take n) := by
  obtain ⟨rest, hbuf, -⟩ := h.buf
  have := getAll_append [] (s.take n) ((s.drop n).map some ++ some 0 :: rest)
  rwa [List.nil_append, ← List.append_assoc, ← List.map_append, List.take_append_drop, ← hbuf, List.length_nil,
    List.length_take_of_le hn] at this

theorem sdscmp_eq {sh₁ sh₂ : Sdshdr} {s₁ s₂ : List UInt8} (h₁ : sh₁.Holds s₁) (h₂ : sh₂.Holds s₂) : sdscmp sh₁ sh₂ =
    .ok (if memcmp (s₁.take (min s₁.length s₂.length)) (s₂.take (min s₁.length s₂.length)) = 0 then toInt (s₁.length - s₂.length)
      else memcmp (s₁.take (min s₁.length s₂.length)) (s₂.take (min s₁.length s₂.length))) := by
  unfold sdscmp
  rw [h₁.len, h₂.len, getAll_take h₁ (Nat.min_le_left ..), done_bind, getAll_take h₂ (Nat.min_le_right ..)]
  rfl

/-- The order of two lists where one is no longer than the other. -/
theorem memcmp_take : ∀ (s₁ s₂ : List UInt8),
    (memcmp (s₁.take (min s₁.length s₂.length)) (s₂.take (min s₁.length s₂.length)) = 0 →
      ((s₁ = s₂ ↔ s₁.length = s₂.length) ∧ (s₁ < s₂ ↔ s₁.length < s₂.length))) ∧
    (memcmp (s₁.take (min s₁.length s₂.length)) (s₂.take (min s₁.length s₂.length)) ≠ 0 →
      s₁ ≠ s₂ ∧ (memcmp (s₁.take (min s₁.length s₂.length)) (s₂.take (min s₁.length s₂.length)) < 0 ↔ s₁ < s₂))
  | [], s₂ => by cases s₂ <;> simp [memcmp]
  | a :: s₁, [] => by simp [memcmp]
  | a :: s₁, b :: s₂ => by
    have ih := memcmp_take s₁ s₂
    simp only [List.length_cons, Nat.succ_min_succ, List.take_succ_cons, memcmp, List.cons_lt_cons_iff, List.cons.injEq]
    by_cases hab : a = b
    · subst hab
      simpa using ih
    · rw [if_neg hab]
      simp only [hab, false_and, or_false]
      split
      · exact ⟨fun h => absurd h (by decide), fun _ => ⟨fun h => hab (List.cons.inj h).1, iff_of_true (by decide) ‹_›⟩⟩
      · exact ⟨fun h => absurd h (by decide), fun _ => ⟨fun h => hab (List.cons.inj h).1, iff_of_false (by decide) ‹_›⟩⟩

/-- `sdscmp` compares as the lists of the bytes are compared. -/
theorem sdscmp_spec {sh₁ sh₂ : Sdshdr} {s₁ s₂ : List UInt8} (h₁ : sh₁.Holds s₁) (h₂ : sh₂.Holds s₂) (hl₁ : s₁.length < 2 ^ 31)
    (hl₂ : s₂.length < 2 ^ 31) : ∃ cmp, sdscmp sh₁ sh₂ = .ok cmp ∧ (cmp = 0 ↔ s₁ = s₂) ∧ (cmp < 0 ↔ s₁ < s₂) := by
  refine ⟨_, sdscmp_eq h₁ h₂, ?_⟩
  obtain ⟨hsame, hdiff⟩ := memcmp_take s₁ s₂
  rw [toInt_of_lt (by omega) (by omega)]
  split
  · obtain ⟨heq, hlt⟩ := hsame ‹_›
    rw [heq, hlt]
    omega
  · obtain ⟨hne, hlt⟩ := hdiff ‹_›
    exact ⟨iff_of_false ‹_› hne, hlt⟩

end

end PubsubBroker

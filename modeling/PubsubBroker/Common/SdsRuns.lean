/-
Runs of calls of `common/sds.c` on any number of strings: they never access memory beyond a buffer, never use a byte
that was not written, and give the functions on lists of bytes that the broker is modelled with.
-/
import PubsubBroker.Common.SdsHdr
import PubsubBroker.Lib.Run

namespace PubsubBroker

open CLang Buffer

/-! ## Calls -/

/-- A call that changes one string; a C string is given by a buffer that holds it. -/
inductive SdsEdit
  | clear
  | updatelen
  | makeRoomFor (addlen : Nat)
  | removeFreeSpace
  /-- `sdsIncrLen(s, -k)` -/
  | dropLast (k : Nat)
  /-- What an event handler does with what it reads. -/
  | read (n : Nat) (bytes : List UInt8)
  | growzero (len : Nat)
  | catlen (t : List UInt8)
  | cat (t : List UInt8)
  | cpylen (t : List UInt8)
  | cpy (t : List UInt8)
  | trim (cset : List UInt8)
  | range (start fin : Int)
  | tolower
  | toupper
  | mapchars (table : List (UInt8 × UInt8))

def SdsEdit.run (sh : Sdshdr) : SdsEdit → Except MemFault Sdshdr
  | .clear => sh.clear
  | .updatelen => sh.updatelen
  | .makeRoomFor addlen => .ok (sh.makeRoomFor addlen)
  | .removeFreeSpace => .ok sh.removeFreeSpace
  | .dropLast k => sh.incrLen (-k)
  | .read n bytes => sh.readInto n bytes
  | .growzero len => sh.growzero len
  | .catlen t => sh.catlen t
  | .cat t => sh.catlen (cstr t)
  | .cpylen t => sh.cpylen t
  | .cpy t => sh.cpylen (cstr t)
  | .trim cset => sh.trim cset
  | .range start fin => sh.range start fin
  | .tolower => sh.tolower
  | .toupper => sh.toupper
  | .mapchars table => sh.mapchars table

/-- What a call makes of the bytes. -/
def SdsEdit.apply (s : Sds) : SdsEdit → Sds
  | .clear => []
  | .updatelen => cstr s
  | .makeRoomFor _ | .removeFreeSpace => s
  | .dropLast k => s.take (s.length - k)
  | .read _ bytes => s ++ bytes
  | .growzero len => s ++ List.replicate (len - s.length) 0
  | .catlen t => s ++ t
  | .cat t => s ++ cstr t
  | .cpylen t => t
  | .cpy t => cstr t
  | .trim cset => (s.dropWhile (Sdshdr.inSet cset)).rdropWhile (Sdshdr.inSet cset)
  | .range start fin => sdsrange s start fin
  | .tolower => sdstolower s
  | .toupper => s.map Sdshdr.toupperByte
  | .mapchars table => s.map (Sdshdr.mapChar table)

/-- The calls in question: lengths stay in an `unsigned int` with what is allocated in advance, and in an `int`
where the function has one, as indexes do. The last index of a range is not `INT_MAX`, where the length of the range
from the first byte on would overflow. -/
def SdsEdit.Legal (s : Sds) : SdsEdit → Prop
  | .clear | .removeFreeSpace | .trim _ | .mapchars _ => True
  | .updatelen => (cstr s).length < 2 ^ 31
  | .makeRoomFor addlen => s.length + addlen + SDS_MAX_PREALLOC < 2 ^ 32
  | .dropLast k => k ≤ s.length ∧ k < 2 ^ 31
  | .range start fin => (-2 ^ 31 ≤ start ∧ start < 2 ^ 31) ∧ -2 ^ 31 ≤ fin ∧ fin < 2 ^ 31 - 1
  | .read n bytes => s.length + n + SDS_MAX_PREALLOC < 2 ^ 32 ∧ bytes.length ≤ n ∧ bytes.length < 2 ^ 31
  | .growzero len => len + SDS_MAX_PREALLOC < 2 ^ 32
  | .catlen t => s.length + t.length + SDS_MAX_PREALLOC < 2 ^ 32
  | .cat t => s.length + (cstr t).length + SDS_MAX_PREALLOC < 2 ^ 32
  | .cpylen t => t.length + SDS_MAX_PREALLOC < 2 ^ 32
  | .cpy t => (cstr t).length + SDS_MAX_PREALLOC < 2 ^ 32
  | .tolower | .toupper => s.length < 2 ^ 31

instance SdsEdit.decidableLegal (s : Sds) : ∀ e : SdsEdit, Decidable (e.Legal s)
  | .clear | .removeFreeSpace | .trim _ | .mapchars _ => inferInstanceAs (Decidable True)
  | .updatelen | .makeRoomFor _ | .growzero _ | .catlen _ | .cat _ | .cpylen _ | .cpy _ | .tolower | .toupper =>
    inferInstanceAs (Decidable (_ < (_ : Nat)))
  | .dropLast _ => inferInstanceAs (Decidable (_ ∧ _))
  | .range _ _ => inferInstanceAs (Decidable ((_ ∧ _) ∧ _ ∧ _))
  | .read _ _ => inferInstanceAs (Decidable (_ ∧ _ ∧ _))

open Sdshdr in
theorem SdsEdit.run_spec {sh : Sdshdr} {s : Sds} (h : sh.Holds s) {e : SdsEdit} (hl : e.Legal s) :
    ∃ sh', e.run sh = .ok sh' ∧ sh'.Holds (e.apply s) := by
  cases e with
  | clear => exact clear_spec h
  | updatelen => exact updatelen_spec h hl
  | makeRoomFor addlen => exact ⟨_, rfl, (makeRoomFor_spec h hl).1⟩
  | removeFreeSpace => exact ⟨_, rfl, removeFreeSpace_spec h⟩
  | dropLast k => exact incrLen_spec h hl.1
  | read n bytes => exact readInto_spec h hl.1 hl.2.1 hl.2.2
  | growzero len => exact growzero_spec h hl
  | catlen t => exact catlen_spec h hl
  | cat t => exact catlen_spec h hl
  | cpylen t => exact cpylen_spec h hl
  | cpy t => exact cpylen_spec h hl
  | trim cset => exact trim_spec h cset
  | range start fin => exact range_spec h start fin
  | tolower => exact mapBytes_spec h _ hl
  | toupper => exact mapBytes_spec h _ hl
  | mapchars table => exact mapchars_spec h table

/-- A call on strings that are held by variables. -/
inductive SdsOp
  /-- `x = sdsnewlen(init, initlen)` -/
  | newlen (x : Nat) (init : Option (List UInt8)) (initlen : Nat)
  /-- `y = sdsdup(x)` -/
  | dup (x y : Nat)
  | free (x : Nat)
  | edit (x : Nat) (e : SdsEdit)
  /-- `x = sdscatsds(x, y)` -/
  | catsds (x y : Nat)
  | cmp (x y : Nat)
  | len (x : Nat)
  /-- What `write(fd, x, sdslen(x))` writes. -/
  | bytes (x : Nat)

inductive SdsRet
  | none
  | len (n : Nat)
  | order (o : Ordering)
  | bytes (s : List UInt8)
  deriving DecidableEq

/-- The strings in memory. -/
abbrev SdsMem := Nat → Option Sdshdr

def SdsMem.string (w : SdsMem) (x : Nat) : Except MemFault Sdshdr :=
  match w x with
  | none => .error .dangling
  | some sh => .ok sh

/-- `sdscatlen` of the bytes of `y`. A reallocation of `x` leaves a pointer to the bytes of `x` itself behind. -/
def catFrom (x y : Nat) (sh : Sdshdr) (t : List UInt8) : Except MemFault Sdshdr :=
  if x = y ∧ sh.free < t.length then .error .dangling else sh.catlen t

def SdsMem.call (w : SdsMem) : SdsOp → Except MemFault (SdsMem × SdsRet)
  | .newlen x init initlen => do
    let sh ← sdsnewlen init initlen
    return (Function.update w x (some sh), .none)
  | .dup x y => do
    let sh ← w.string x
    let t ← sh.bytes
    let sh' ← sdsnewlen (some t) sh.len
    return (Function.update w y (some sh'), .none)
  | .free x => do
    let _ ← w.string x
    return (Function.update w x none, .none)
  | .edit x e => do
    let sh ← w.string x
    let sh' ← e.run sh
    return (Function.update w x (some sh'), .none)
  | .catsds x y => do
    let sh ← w.string x
    let sh₂ ← w.string y
    let t ← sh₂.bytes
    let sh' ← catFrom x y sh t
    return (Function.update w x (some sh'), .none)
  | .cmp x y => do
    let sh₁ ← w.string x
    let sh₂ ← w.string y
    let cmp ← sdscmp sh₁ sh₂
    return (w, .order (if cmp = 0 then .eq else if cmp < 0 then .lt else .gt))
  | .len x => do
    let sh ← w.string x
    return (w, .len sh.len)
  | .bytes x => do
    let sh ← w.string x
    let t ← sh.bytes
    return (w, .bytes t)

/-- The program, and what its calls have returned. -/
abbrev SdsProgram := Except MemFault (SdsMem × List SdsRet)

def SdsProgram.step (p : SdsProgram) (op : SdsOp) : SdsProgram := do
  let (w, rs) ← p
  let (w, r) ← w.call op
  return (w, rs ++ [r])

/-- The strings as lists of bytes. -/
abbrev Strings := Nat → Option Sds

/-- The same call on lists of bytes. -/
def Strings.call (q : Strings) : SdsOp → Strings × SdsRet
  | .newlen x none initlen => (Function.update q x (some (List.replicate initlen 0)), .none)
  | .newlen x (some t) initlen => (Function.update q x (some (t.take initlen)), .none)
  | .dup x y => (Function.update q y (q x), .none)
  | .free x => (Function.update q x none, .none)
  | .edit x e => (Function.update q x ((q x).map e.apply), .none)
  | .catsds x y => (Function.update q x ((q x).map (· ++ (q y).getD [])), .none)
  | .cmp x y => (q, .order (if q x = q y then .eq else if (q x).getD [] < (q y).getD [] then .lt else .gt))
  | .len x => (q, .len ((q x).getD []).length)
  | .bytes x => (q, .bytes ((q x).getD []))

/-- The calls in question: on strings that are there, of lengths that the header has room for. -/
def SdsOp.Legal (q : Strings) : SdsOp → Prop
  | .newlen _ init initlen => (∀ t, init = some t → initlen ≤ t.length) ∧ initlen < 2 ^ 32
  | .dup x _ | .free x | .len x | .bytes x => q x ≠ none
  | .edit x e => ∃ s, q x = some s ∧ e.Legal s
  | .catsds x y => x ≠ y ∧ ∃ s t, q x = some s ∧ q y = some t ∧ s.length + t.length + SDS_MAX_PREALLOC < 2 ^ 32
  | .cmp x y => ∃ s t, q x = some s ∧ q y = some t ∧ s.length < 2 ^ 31 ∧ t.length < 2 ^ 31

/-- The strings in memory are those of the lists. -/
def StringsAre (w : SdsMem) (q : Strings) : Prop :=
  ∀ x, w x = none ∧ q x = none ∨ ∃ sh s, w x = some sh ∧ q x = some s ∧ sh.Holds s

section
variable {w : SdsMem} {q : Strings} {x : Nat}

theorem SdsMem.string_of_some {sh : Sdshdr} (h : w x = some sh) : w.string x = .ok sh := by
  unfold SdsMem.string
  rw [h]

theorem StringsAre.exists_of_some (h : StringsAre w q) {s : Sds} (hq : q x = some s) : ∃ sh, w x = some sh ∧ sh.Holds s := by
  rcases h x with ⟨-, hnone⟩ | ⟨sh, s', hw, hq', hs⟩
  · rw [hnone] at hq
    cases hq
  · rw [hq'] at hq
    cases hq
    exact ⟨sh, hw, hs⟩

theorem StringsAre.update (h : StringsAre w q) (x : Nat) {sh : Sdshdr} {s : Sds} (hs : sh.Holds s) :
    StringsAre (Function.update w x (some sh)) (Function.update q x (some s)) := by
  intro y
  by_cases hy : y = x
  · subst hy
    rw [Function.update_self, Function.update_self]
    exact .inr ⟨sh, s, rfl, rfl, hs⟩
  · rw [Function.update_of_ne hy, Function.update_of_ne hy]
    exact h y

/-- What a call returns and leaves. -/
theorem StringsAre.call (h : StringsAre w q) {op : SdsOp} (hl : op.Legal q) :
    ∃ w', w.call op = .ok (w', (q.call op).2) ∧ StringsAre w' (q.call op).1 := by
  cases op with
  | newlen x init n =>
    cases init with
    | none =>
      obtain ⟨sh, hok, hs⟩ := sdsnewlen_none hl.2
      exact ⟨_, by rw [SdsMem.call, hok]; rfl, h.update x hs⟩
    | some t =>
      obtain ⟨sh, hok, hs⟩ := sdsnewlen_some (hl.1 t rfl) hl.2
      exact ⟨_, by rw [SdsMem.call, hok]; rfl, h.update x hs⟩
  | dup x y =>
    obtain ⟨s, hq⟩ := Option.ne_none_iff_exists'.1 hl
    obtain ⟨sh, hw, hs⟩ := h.exists_of_some hq
    have hsmall := hs.small
    obtain ⟨sh', hok, hs'⟩ := sdsnewlen_some (t := s) (n := sh.len) (Nat.le_of_eq hs.len) (by omega)
    -- the copy is made of the whole buffer
    rw [hs.len, List.take_length] at hs'
    refine ⟨Function.update w y (some sh'), ?_, ?_⟩
    · rw [SdsMem.call, SdsMem.string_of_some hw, done_bind, Sdshdr.bytes_spec hs, done_bind, hok]
      rfl
    · have := h.update y hs'
      rwa [← hq] at this
  | free x =>
    obtain ⟨s, hq⟩ := Option.ne_none_iff_exists'.1 hl
    obtain ⟨sh, hw, -⟩ := h.exists_of_some hq
    refine ⟨Function.update w x none, ?_, fun y => ?_⟩
    · rw [SdsMem.call, SdsMem.string_of_some hw]
      rfl
    · simp only [Strings.call]
      by_cases hy : y = x
      · subst hy
        rw [Function.update_self, Function.update_self]
        exact .inl ⟨rfl, rfl⟩
      · rw [Function.update_of_ne hy, Function.update_of_ne hy]
        exact h y
  | edit x e =>
    obtain ⟨s, hq, hle⟩ := hl
    obtain ⟨sh, hw, hs⟩ := h.exists_of_some hq
    obtain ⟨sh', hok, hs'⟩ := SdsEdit.run_spec hs hle
    refine ⟨Function.update w x (some sh'), ?_, ?_⟩
    · rw [SdsMem.call, SdsMem.string_of_some hw, done_bind, hok]
      rfl
    · simp only [Strings.call, hq]
      exact h.update x hs'
  | catsds x y =>
    -- the string that is appended is another one, so that it does not move
    obtain ⟨hne, s, t, hq, hq', hlen⟩ := hl
    obtain ⟨sh, hw, hs⟩ := h.exists_of_some hq
    obtain ⟨sh₂, hw', ht⟩ := h.exists_of_some hq'
    obtain ⟨sh', hok, hs'⟩ := Sdshdr.catlen_spec hs hlen
    refine ⟨Function.update w x (some sh'), ?_, ?_⟩
    · rw [SdsMem.call, SdsMem.string_of_some hw, done_bind, SdsMem.string_of_some hw', done_bind, Sdshdr.bytes_spec ht,
        done_bind, catFrom, if_neg fun heq => hne heq.1, hok]
      rfl
    · simp only [Strings.call, hq, hq']
      exact h.update x hs'
  | cmp x y =>
    obtain ⟨s, t, hq, hq', hls, hlt⟩ := hl
    obtain ⟨sh₁, hw, hs⟩ := h.exists_of_some hq
    obtain ⟨sh₂, hw', ht⟩ := h.exists_of_some hq'
    obtain ⟨cmp, hok, heq, hlt⟩ := sdscmp_spec hs ht hls hlt
    refine ⟨w, ?_, h⟩
    rw [SdsMem.call, SdsMem.string_of_some hw, done_bind, SdsMem.string_of_some hw', done_bind, hok, done_bind]
    simp only [Strings.call, hq, hq', Option.some.injEq, Option.getD_some, heq, hlt]
    rfl
  | len x =>
    obtain ⟨s, hq⟩ := Option.ne_none_iff_exists'.1 hl
    obtain ⟨sh, hw, hs⟩ := h.exists_of_some hq
    refine ⟨w, ?_, h⟩
    rw [SdsMem.call, SdsMem.string_of_some hw, Strings.call, hq, Option.getD_some, ← hs.len]
    rfl
  | bytes x =>
    obtain ⟨s, hq⟩ := Option.ne_none_iff_exists'.1 hl
    obtain ⟨sh, hw, hs⟩ := h.exists_of_some hq
    refine ⟨w, ?_, h⟩
    rw [SdsMem.call, SdsMem.string_of_some hw, done_bind, Sdshdr.bytes_spec hs, Strings.call, hq, Option.getD_some]
    rfl

/-- The program and the lists, before the first call. -/
def noStrings : SdsProgram × (Strings × List SdsRet) := (.ok (fun _ => none, []), (fun _ => none, []))

/-- The next call, on both sides. -/
def SdsOp.both (p : SdsProgram × (Strings × List SdsRet)) (op : SdsOp) : SdsProgram × (Strings × List SdsRet) :=
  (p.1.step op, ((p.2.1.call op).1, p.2.2 ++ [(p.2.1.call op).2]))

/-- The call is one of those in question, for the strings that there are. -/
def SdsOp.LegalIn (p : SdsProgram × (Strings × List SdsRet)) (op : SdsOp) : Prop := op.Legal p.2.1

/-- The program has come to no fault, its strings are the lists, and its calls have returned the same. -/
def StringsAgree (p : SdsProgram × (Strings × List SdsRet)) : Prop := ∃ w, p.1 = .ok (w, p.2.2) ∧ StringsAre w p.2.1

theorem StringsAgree.step {p : SdsProgram × (Strings × List SdsRet)} (h : StringsAgree p) {op : SdsOp} (hl : op.LegalIn p) :
    StringsAgree (SdsOp.both p op) := by
  obtain ⟨p₁, q, rs⟩ := p
  obtain ⟨w, hp, hare⟩ := h
  simp only at hp hare
  subst hp
  obtain ⟨w', hok, hare'⟩ := hare.call hl
  refine ⟨w', ?_, hare'⟩
  show SdsProgram.step (.ok (w, rs)) op = .ok (w', rs ++ [(q.call op).2])
  rw [SdsProgram.step, done_bind]
  simp only
  rw [hok]
  rfl

/-- In a run of calls the strings in memory are lists of bytes after every call: no call accesses memory beyond a buffer
or uses a byte that was not written, each returns what the lists give, and each string has its terminator. -/
theorem strings_are_lists {ops : List SdsOp} (hlegal : Machine.AllSteps SdsOp.both SdsOp.LegalIn noStrings ops) :
    ∀ js, js <+: ops → StringsAgree (Machine.run SdsOp.both noStrings js) := by
  rintro js ⟨ks, rfl⟩
  have hstart : StringsAgree noStrings := ⟨fun _ => none, rfl, fun _ => .inl ⟨rfl, rfl⟩⟩
  exact Machine.AllSteps.invariant (fun p op h hl => h.step hl) hstart (Machine.AllSteps.append.1 hlegal).1

end

/-- Two strings; the first one is read into, trimmed, cut and compared with a copy of itself. -/
def someSdsCalls : List SdsOp :=
  [.newlen 0 (some (ascii "ping")) 2, .edit 0 (.read 4 (ascii "ng\r\n")), .edit 0 (.trim (ascii "\r\n")), .dup 0 1,
    .edit 1 (.range 1 (-2)), .cmp 0 1, .catsds 0 1, .edit 0 (.growzero 8), .edit 0 .updatelen, .bytes 0, .edit 0 (.dropLast 1),
    .edit 0 .toupper, .bytes 0, .edit 1 .clear, .len 1, .free 1]

theorem someSdsCalls_legal : Machine.AllSteps SdsOp.both SdsOp.LegalIn noStrings someSdsCalls := by
  refine ⟨⟨fun t ht => ?_, by decide⟩, ⟨_, rfl, by decide, by decide, by decide⟩, ⟨_, rfl, trivial⟩, Option.some_ne_none _,
    ⟨_, rfl, by decide⟩, ⟨_, _, rfl, rfl, by decide, by decide⟩, ⟨by decide, _, _, rfl, rfl, by decide⟩, ⟨_, rfl, by decide⟩,
    ⟨_, rfl, by decide⟩, Option.some_ne_none _, ⟨_, rfl, by decide⟩, ⟨_, rfl, by decide⟩, Option.some_ne_none _,
    ⟨_, rfl, trivial⟩, Option.some_ne_none _, Option.some_ne_none _, trivial⟩
  cases ht
  decide

theorem someSdsCalls_agree : (∀ js, js <+: someSdsCalls → StringsAgree (Machine.run SdsOp.both noStrings js)) ∧
    (Machine.run SdsOp.both noStrings someSdsCalls).2.2 =
      [.none, .none, .none, .none, .none, .order .gt, .none, .none, .none, .bytes (ascii "pingin"), .none, .none,
        .bytes (ascii "PINGI"), .none, .len 0, .none] :=
  ⟨strings_are_lists someSdsCalls_legal, by decide⟩

end PubsubBroker

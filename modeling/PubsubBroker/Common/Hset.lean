/-
`common/hset.c`: sets of keys, each a hash table together with a value that stands in for data that is
NULL. The topics of the server are a hash table of such sets: `subscribe_channel` makes a set for a new
topic and `single_chan_publish` goes over the set of a topic. Both are here on the tables in memory, and
agree with the finite maps that the server is modelled with.
-/
import PubsubBroker.Common.GhtRuns

namespace PubsubBroker

/-- `hset` -/
structure Hset where
  table : Ptr
  fakeVal : Ptr

/-- The hash tables, and the sets. -/
structure HsetMem where
  mem : HashMem
  hsets : Ptr → Option Hset

namespace HsetMem

def hset (w : HsetMem) (p : Ptr) : Except HashFault Hset :=
  match w.hsets p with
  | none => .error (.access p)
  | some hs => .ok hs

/-- A call of a hash table function. -/
def ght (w : HsetMem) (op : HashOp) : Except HashFault (HsetMem × HashRet) := do
  let (mem, r) ← w.mem.call op
  return (⟨mem, w.hsets⟩, r)

end HsetMem

/-- `hset_create(size)`, where `malloc` returns `self` and `fakeVal` and the table is made at `table`. -/
def hsetCreate (w : HsetMem) (size : UInt32) (self fakeVal table : Ptr) : Except HashFault (HsetMem × Ptr) :=
  if self = 0 then .ok (w, 0)
  -- the value is copied to where `malloc` says
  else if fakeVal = 0 then .error (.access 0)
  else do
    let (w, _) ← w.ght (.create table size)
    return (⟨w.mem, Function.update w.hsets self (some ⟨table, fakeVal⟩)⟩, self)

/-- `hset_release(p_hset)` -/
def hsetRelease (w : HsetMem) (self : Ptr) : Except HashFault HsetMem := do
  let hs ← w.hset self
  let (w, _) ← w.ght (.finalize hs.table)
  return ⟨w.mem, Function.update w.hsets self none⟩

/-- `hset_insert(p_hset, key_size, key_data, val_data)`, where `malloc` returns `malloc`. -/
def hsetInsert (w : HsetMem) (self : Ptr) (key : List UInt8) (val malloc : Ptr) :
    Except HashFault (HsetMem × HashRet) := do
  let hs ← w.hset self
  w.ght (.insert hs.table (if val = 0 then hs.fakeVal else val) key malloc [])

/-- `hset_remove(p_hset, key_size, key_data)` -/
def hsetRemove (w : HsetMem) (self : Ptr) (key : List UInt8) : Except HashFault (HsetMem × HashRet) := do
  let hs ← w.hset self
  w.ght (.remove hs.table key)

/-- `hset_has(p_hset, key_size, key_data)` -/
def hsetHas (w : HsetMem) (self : Ptr) (key : List UInt8) : Except HashFault (HsetMem × HashRet) := do
  let hs ← w.hset self
  let (w, r) ← w.ght (.get hs.table key)
  return (w, .code (if r = .data 0 then 0 else 1))

/-- `hset_size(p_hset)` -/
def hsetSize (w : HsetMem) (self : Ptr) : Except HashFault (HsetMem × HashRet) := do
  let hs ← w.hset self
  w.ght (.size hs.table)

/-- `for (val = hset_first(p_hset, &it, &key); val; val = hset_next(p_hset, &it, &key))` -/
def hsetWalk (w : HsetMem) (self : Ptr) : Except HashFault (HsetMem × HashRet) := do
  let hs ← w.hset self
  w.ght (.walk hs.table)

/-! ## Runs -/

/-- A call of a set function, with the addresses that `malloc` returns in it. -/
inductive HsetOp
  | create (size : UInt32) (self fakeVal table : Ptr)
  | insert (self : Ptr) (key : List UInt8) (val malloc : Ptr)
  | remove (self : Ptr) (key : List UInt8)
  | has (self : Ptr) (key : List UInt8)
  | size (self : Ptr)
  | walk (self : Ptr)
  | release (self : Ptr)

def HsetMem.call (w : HsetMem) : HsetOp → Except HashFault (HsetMem × HashRet)
  | .create size self fakeVal table => (hsetCreate w size self fakeVal table).map fun r => (r.1, .data r.2)
  | .insert self key val malloc => hsetInsert w self key val malloc
  | .remove self key => hsetRemove w self key
  | .has self key => hsetHas w self key
  | .size self => hsetSize w self
  | .walk self => hsetWalk w self
  | .release self => (hsetRelease w self).map fun w => (w, .none)

abbrev HsetProgram := Except HashFault (HsetMem × List HashRet)

def HsetProgram.step (s : HsetProgram) (op : HsetOp) : HsetProgram := do
  let (w, rs) ← s
  let (w, r) ← w.call op
  return (w, rs ++ [r])

/-! ## Sets -/

/-- The sets, each with its stand-in value, and what the calls return. -/
structure Sets where
  set : Ptr → Option (Ptr × Table Ptr)
  returned : List HashRet

/-- A call on one set with the stand-in value `fakeVal`. -/
def Sets.change (q : Sets) (self : Ptr) (f : Ptr → Table Ptr → Table Ptr × HashRet) : Sets :=
  match q.set self with
  | none => q
  | some (fakeVal, t) => ⟨Function.update q.set self (some (fakeVal, (f fakeVal t).1)), q.returned ++ [(f fakeVal t).2]⟩

/-- The calls on sets: membership is what it says, whatever data goes with a key. -/
def Sets.step (q : Sets) : HsetOp → Sets
  | .create _ self fakeVal _ => ⟨Function.update q.set self (some (fakeVal, Table.empty)), q.returned ++ [.data self]⟩
  | .insert self key val malloc => q.change self fun fakeVal t =>
    match t.insert key (if val = 0 then fakeVal else val) with
    | none => (t, .code (-1))
    | some t' => if malloc = 0 then (t, .code (-2)) else (t', .code 0)
  | .remove self key => q.change self fun _ t => (t.erase key, .data ((t.get key).getD 0))
  | .has self key => q.change self fun _ t => (t, .code (if (t.get key).isSome then 1 else 0))
  | .size self => q.change self fun _ t => (t, .size (UInt32.ofNat t.entries.length))
  | .walk self => q.change self fun _ t => (t, .items t.entries)
  | .release self =>
    match q.set self with
    | none => q
    | some _ => ⟨Function.update q.set self none, q.returned ++ [.none]⟩

/-- The sets in memory: each has a table of its own, which stands for its map. -/
structure SetsAre (w : HsetMem) (map : Ptr → Option (Table Ptr)) (set : Ptr → Option (Ptr × Table Ptr)) : Prop where
  /-- None of the tables rehashes by itself. -/
  tables : ∃ age, TablesAre w.mem map age fun _ => 0
  absent : ∀ p, set p = none → w.hsets p = none
  held : ∀ p s, set p = some s → s.1 ≠ 0 ∧ ∃ hs, w.hsets p = some hs ∧ hs.fakeVal = s.1 ∧ map hs.table = some s.2
  apart : ∀ p q hp hq, w.hsets p = some hp → w.hsets q = some hq → p ≠ q → hp.table ≠ hq.table

/-- Every table is one of `own`, or that of a set. -/
def Owned (w : HsetMem) (map : Ptr → Option (Table Ptr)) (own : List Ptr) : Prop :=
  ∀ q, map q ≠ none → q ∈ own ∨ ∃ p hs, w.hsets p = some hs ∧ hs.table = q

/-- The calls in question: on sets that were made, while `malloc` returns NULL or memory that is not in use,
and does not fail for a set. -/
def HsetOp.Legal (w : HsetMem) : HsetOp → Prop
  | .create n self fakeVal table => self ≠ 0 ∧ fakeVal ≠ 0 ∧ w.hsets self = none ∧ w.mem.tables table = none ∧
    n.toNat ≤ 2 ^ 30
  | .insert self _ _ malloc => Fresh w.mem.entries [malloc] ∧ w.hsets self ≠ none
  | .remove self _ | .has self _ | .size self | .walk self | .release self => w.hsets self ≠ none

section
variable {w : HsetMem} {map : Ptr → Option (Table Ptr)} {set : Ptr → Option (Ptr × Table Ptr)} {p : Ptr}
  {hs : Hset} {fakeVal : Ptr} {tbl : Table Ptr} {own : List Ptr}

/-! ## Whose the tables are -/

/-- A call on a table that there is. -/
theorem Owned.update (h : Owned w map own) {w' : HsetMem} (hhsets : w'.hsets = w.hsets) {q : Ptr} (hq : map q = some tbl)
    (tbl' : Table Ptr) : Owned w' (Function.update map q (some tbl')) own := by
  intro r hr
  rw [hhsets]
  by_cases hrq : r = q
  · subst hrq
    exact h r (by rw [hq]; exact Option.some_ne_none tbl)
  · rw [Function.update_of_ne hrq] at hr
    exact h r hr

/-- A new set brings its table. -/
theorem Owned.create (h : Owned w map own) {w' : HsetMem} (hnew : w.hsets p = none)
    (hhsets : w'.hsets = Function.update w.hsets p (some hs)) (tbl' : Table Ptr) :
    Owned w' (Function.update map hs.table (some tbl')) own := by
  intro r hr
  rw [hhsets]
  by_cases hrt : r = hs.table
  · exact .inr ⟨p, hs, Function.update_self .., hrt.symm⟩
  · rw [Function.update_of_ne hrt] at hr
    refine (h r hr).imp_right ?_
    rintro ⟨q, hq, hhq, htable⟩
    have hqp : q ≠ p := by
      rintro rfl
      rw [hnew] at hhq
      cases hhq
    exact ⟨q, hq, (Function.update_of_ne hqp ..).trans hhq, htable⟩

/-- A set that is released takes its table with it. -/
theorem Owned.release (h : Owned w map own) {w' : HsetMem} (hhs : w.hsets p = some hs)
    (hhsets : w'.hsets = Function.update w.hsets p none) : Owned w' (Function.update map hs.table none) own := by
  intro r hr
  have hrt : r ≠ hs.table := by
    rintro rfl
    rw [Function.update_self] at hr
    exact hr rfl
  rw [Function.update_of_ne hrt] at hr
  rw [hhsets]
  refine (h r hr).imp_right ?_
  rintro ⟨q, hq, hhq, htable⟩
  have hqp : q ≠ p := by
    rintro rfl
    rw [hhs] at hhq
    cases hhq
    exact hrt htable.symm
  exact ⟨q, hq, (Function.update_of_ne hqp ..).trans hhq, htable⟩

/-! ## Calls -/

theorem HsetMem.hset_of_some (h : w.hsets p = some hs) : w.hset p = .ok hs := by
  unfold HsetMem.hset
  rw [h]

theorem HsetMem.ght_of_ok {op : HashOp} {mem : HashMem} {r : HashRet} (h : w.mem.call op = .ok (mem, r)) :
    w.ght op = .ok (⟨mem, w.hsets⟩, r) := by
  unfold HsetMem.ght
  rw [h]
  rfl

theorem SetsAre.exists_set (h : SetsAre w map set) (hp : w.hsets p ≠ none) :
    ∃ hs tbl, set p = some (hs.fakeVal, tbl) ∧ w.hsets p = some hs ∧ hs.fakeVal ≠ 0 ∧ map hs.table = some tbl := by
  rcases hset : set p with _ | ⟨fakeVal, tbl⟩
  · exact absurd (h.absent p hset) hp
  · obtain ⟨h0, hs, hhs, rfl, hmap⟩ := h.held p _ hset
    exact ⟨hs, tbl, rfl, hhs, h0, hmap⟩

theorem TablesAre.table_ne_none {m : HashMem} {age : Ptr → List Ptr} {auto : Ptr → Int} (h : TablesAre m map age auto)
    (hp : map p = some tbl) : m.tables p ≠ none := by
  obtain ⟨t, ht, -⟩ := h.held p tbl hp
  rw [ht]
  exact Option.some_ne_none t

/-- A call leaves the sets where they are, and takes no other memory for entries than `mallocs`. -/
structure HsetMem.Keeps (w w' : HsetMem) (mallocs : List Ptr) : Prop where
  hsets : w'.hsets = w.hsets
  entries : ∀ b, w.mem.entries b = none → b ∉ mallocs → w'.mem.entries b = none

/-- A call that leaves it to the program when a table rehashes. -/
def HashOp.KeepsAuto (o : HashOp) : Prop := o.auto (fun _ => 0) = fun _ => 0

/-- A call on one table, whatever it is the table of. -/
theorem SetsAre.called (h : SetsAre w map set) {q : Ptr} (hq : map q = some tbl) {o : HashOp} (hl : o.Legal w.mem)
    (hauto : o.KeepsAuto) {f : Table Ptr → Table Ptr × HashRet} (hspec : Maps.step ⟨map, []⟩ o = Maps.change ⟨map, []⟩ q f) :
    ∃ w' age, w.ght o = .ok (w', (f tbl).2) ∧ w.Keeps w' o.mallocs ∧
      TablesAre w'.mem (Function.update map q (some (f tbl).1)) age fun _ => 0 := by
  obtain ⟨age, htables⟩ := h.tables
  obtain ⟨mem, age', r, hcall, hret, htables', hframe⟩ := htables.call hl
  rw [hspec, Maps.change, hauto] at htables'
  rw [hspec, Maps.change] at hret
  simp only [hq, List.nil_append, List.cons.injEq, and_true] at hret htables'
  subst hret
  exact ⟨⟨mem, w.hsets⟩, age', HsetMem.ght_of_ok hcall, ⟨rfl, hframe⟩, htables'⟩

/-- A call on the table of one set. -/
theorem SetsAre.ght (h : SetsAre w map set) (hset : set p = some (hs.fakeVal, tbl)) (hhs : w.hsets p = some hs)
    (hmap : map hs.table = some tbl) {o : HashOp} (hl : o.Legal w.mem) (hauto : o.KeepsAuto)
    {f : Table Ptr → Table Ptr × HashRet} (hspec : Maps.step ⟨map, []⟩ o = Maps.change ⟨map, []⟩ hs.table f) :
    ∃ w', w.ght o = .ok (w', (f tbl).2) ∧ w.Keeps w' o.mallocs ∧
      SetsAre w' (Function.update map hs.table (some (f tbl).1)) (Function.update set p (some (hs.fakeVal, (f tbl).1))) := by
  obtain ⟨w', age, hcall, hkeeps, htables⟩ := h.called hmap hl hauto hspec
  refine ⟨w', hcall, hkeeps, ⟨age, htables⟩, fun r hr => ?_, fun r s hr => ?_, by rw [hkeeps.hsets]; exact h.apart⟩
  · have hrp : r ≠ p := by
      rintro rfl
      rw [Function.update_self] at hr
      cases hr
    rw [Function.update_of_ne hrp] at hr
    rw [hkeeps.hsets]
    exact h.absent r hr
  · rw [hkeeps.hsets]
    by_cases hrp : r = p
    · subst hrp
      rw [Function.update_self] at hr
      cases hr
      exact ⟨(h.held r _ hset).1, hs, hhs, rfl, Function.update_self ..⟩
    · rw [Function.update_of_ne hrp] at hr
      obtain ⟨h0, hs', hhs', hfake, hmap'⟩ := h.held r s hr
      refine ⟨h0, hs', hhs', hfake, ?_⟩
      rw [Function.update_of_ne (h.apart r p hs' hs hhs' hhs hrp)]
      exact hmap'

/-- A call on a table that is no set's. -/
theorem SetsAre.other (h : SetsAre w map set) {q : Ptr} (hq : map q = some tbl)
    (hno : ∀ r hr, w.hsets r = some hr → hr.table ≠ q) {o : HashOp} (hl : o.Legal w.mem) (hauto : o.KeepsAuto)
    {f : Table Ptr → Table Ptr × HashRet} (hspec : Maps.step ⟨map, []⟩ o = Maps.change ⟨map, []⟩ q f) :
    ∃ w', w.ght o = .ok (w', (f tbl).2) ∧ w.Keeps w' o.mallocs ∧ SetsAre w' (Function.update map q (some (f tbl).1)) set := by
  obtain ⟨w', age, hcall, hkeeps, htables⟩ := h.called hq hl hauto hspec
  refine ⟨w', hcall, hkeeps, ⟨age, htables⟩, hkeeps.hsets ▸ h.absent, fun r s hr => ?_,
    by rw [hkeeps.hsets]; exact h.apart⟩
  obtain ⟨h0, hs', hhs', hfake, hmap'⟩ := h.held r s hr
  rw [hkeeps.hsets]
  refine ⟨h0, hs', hhs', hfake, ?_⟩
  rw [Function.update_of_ne (hno r hs' hhs')]
  exact hmap'

/-- A call that only asks, on any table. -/
theorem SetsAre.asked (h : SetsAre w map set) {q : Ptr} (hq : map q = some tbl) {o : HashOp} (hl : o.Legal w.mem)
    (hauto : o.KeepsAuto) {g : Table Ptr → HashRet}
    (hspec : Maps.step ⟨map, []⟩ o = Maps.change ⟨map, []⟩ q fun t => (t, g t)) :
    ∃ w', w.ght o = .ok (w', g tbl) ∧ w.Keeps w' o.mallocs ∧ SetsAre w' map set := by
  obtain ⟨w', age, hcall, hkeeps, htables⟩ := h.called hq hl hauto hspec
  rw [Function.update_eq_self_iff.2 hq.symm] at htables
  refine ⟨w', hcall, hkeeps, ⟨age, htables⟩, hkeeps.hsets ▸ h.absent, fun r s hr => ?_, by rw [hkeeps.hsets]; exact h.apart⟩
  rw [hkeeps.hsets]
  exact h.held r s hr

/-- A table that stands for a map may be asked. -/
theorem SetsAre.used (h : SetsAre w map set) {q : Ptr} (hq : map q = some tbl) : w.mem.tables q ≠ none := by
  obtain ⟨age, htables⟩ := h.tables
  exact htables.table_ne_none hq

/-- Where no table stands for a map there is none. -/
theorem SetsAre.unused (h : SetsAre w map set) {q : Ptr} (hq : map q = none) : w.mem.tables q = none := by
  obtain ⟨age, htables⟩ := h.tables
  exact (htables.absent q hq).1

/-- The address that `malloc` returns is the table of no set yet. -/
theorem SetsAre.table_ne (h : SetsAre w map set) {table : Ptr} (htable : w.mem.tables table = none) {q : Ptr} {hq : Hset}
    (hhq : w.hsets q = some hq) : hq.table ≠ table := by
  rintro rfl
  obtain ⟨hs, tbl, -, hhs, -, hmap⟩ := h.exists_set (p := q) (by rw [hhq]; exact Option.some_ne_none hq)
  rw [hhq] at hhs
  cases hhs
  exact h.used hmap htable

/-- A table is made. -/
theorem SetsAre.newTable (h : SetsAre w map set) (n : UInt32) {table : Ptr} (htable : w.mem.tables table = none)
    (hn : n.toNat ≤ 2 ^ 30) :
    ∃ w', w.ght (.create table n) = .ok (w', .none) ∧ w.Keeps w' [] ∧
      SetsAre w' (Function.update map table (some Table.empty)) set := by
  obtain ⟨age, htables⟩ := h.tables
  obtain ⟨mem, age', r, hcall, hret, htables', hframe⟩ := htables.call (o := .create table n) ⟨htable, hn⟩
  rw [show (HashOp.create table n).auto (fun _ => 0) = fun _ => 0 from Function.update_eq_self ..] at htables'
  obtain rfl : HashRet.none = r := List.singleton_inj.1 hret
  refine ⟨⟨mem, w.hsets⟩, HsetMem.ght_of_ok hcall, ⟨rfl, hframe⟩, ⟨age', htables'⟩, h.absent, fun q s hq => ?_, h.apart⟩
  obtain ⟨h0, hs, hhs, hf, hmap⟩ := h.held q s hq
  exact ⟨h0, hs, hhs, hf, (Function.update_of_ne (h.table_ne htable hhs) ..).trans hmap⟩

/-- A set is made, and has a table of its own. -/
theorem SetsAre.create (h : SetsAre w map set) {n : UInt32} {self table : Ptr} (hself : self ≠ 0)
    (hfake : fakeVal ≠ 0) (hnew : w.hsets self = none) (htable : w.mem.tables table = none) (hn : n.toNat ≤ 2 ^ 30) :
    ∃ w', hsetCreate w n self fakeVal table = .ok (w', self) ∧
      w'.hsets = Function.update w.hsets self (some ⟨table, fakeVal⟩) ∧
      (∀ b, w.mem.entries b = none → w'.mem.entries b = none) ∧
      SetsAre w' (Function.update map table (some Table.empty))
        (Function.update set self (some (fakeVal, Table.empty))) := by
  obtain ⟨w₁, hcall, hkeeps, h₁⟩ := h.newTable n htable hn
  refine ⟨⟨w₁.mem, Function.update w.hsets self (some ⟨table, fakeVal⟩)⟩, ?_, rfl,
    fun b hb => hkeeps.entries b hb List.not_mem_nil, h₁.tables, ?_, ?_, ?_⟩
  · unfold hsetCreate
    rw [if_neg hself, if_neg hfake, hcall, ← hkeeps.hsets]
    rfl
  · intro q hq
    have hqs : q ≠ self := by
      rintro rfl
      rw [Function.update_self] at hq
      cases hq
    rw [Function.update_of_ne hqs] at hq
    exact (Function.update_of_ne hqs ..).trans (h.absent q hq)
  · intro q s hq
    by_cases hqs : q = self
    · subst hqs
      rw [Function.update_self] at hq
      cases hq
      exact ⟨hfake, ⟨table, fakeVal⟩, Function.update_self .., rfl, Function.update_self ..⟩
    · rw [Function.update_of_ne hqs] at hq
      obtain ⟨h0, hs, hhs, hf, hmap⟩ := h₁.held q s hq
      rw [hkeeps.hsets] at hhs
      exact ⟨h0, hs, (Function.update_of_ne hqs ..).trans hhs, hf, hmap⟩
  · intro q r hq hr hhq hhr hne
    simp only at hhq hhr
    -- no set has the table that was made for this one
    by_cases hqs : q = self
    · subst hqs
      rw [Function.update_self] at hhq
      rw [Function.update_of_ne (Ne.symm hne)] at hhr
      cases hhq
      exact Ne.symm (h.table_ne htable hhr)
    · rw [Function.update_of_ne hqs] at hhq
      by_cases hrs : r = self
      · subst hrs
        rw [Function.update_self] at hhr
        cases hhr
        exact h.table_ne htable hhq
      · rw [Function.update_of_ne hrs] at hhr
        exact h.apart q r hq hr hhq hhr hne

/-- A set is released, and its table with it. -/
theorem SetsAre.release (h : SetsAre w map set) (hp : w.hsets p ≠ none) :
    ∃ hs w', w.hsets p = some hs ∧ hsetRelease w p = .ok w' ∧ w'.hsets = Function.update w.hsets p none ∧
      SetsAre w' (Function.update map hs.table none) (Function.update set p none) := by
  obtain ⟨hs, tbl, hset, hhs, -, hmap⟩ := h.exists_set hp
  obtain ⟨age, htables⟩ := h.tables
  obtain ⟨mem, age', r, hcall, -, htables', -⟩ := htables.call (o := .finalize hs.table) (htables.table_ne_none hmap)
  simp only [Maps.step, hmap] at htables'
  refine ⟨hs, ⟨mem, Function.update w.hsets p none⟩, hhs, ?_, rfl, ⟨age', htables'⟩, ?_, ?_, ?_⟩
  · unfold hsetRelease
    rw [HsetMem.hset_of_some hhs, ok_bind, HsetMem.ght_of_ok hcall]
    rfl
  · intro q hq
    by_cases hqp : q = p
    · subst hqp
      exact Function.update_self ..
    · rw [Function.update_of_ne hqp] at hq
      exact (Function.update_of_ne hqp ..).trans (h.absent q hq)
  · intro q s hq
    have hqp : q ≠ p := by
      rintro rfl
      rw [Function.update_self] at hq
      cases hq
    rw [Function.update_of_ne hqp] at hq
    obtain ⟨h0, hs', hhs', hf, hmap'⟩ := h.held q s hq
    refine ⟨h0, hs', (Function.update_of_ne hqp ..).trans hhs', hf, ?_⟩
    rw [Function.update_of_ne (h.apart q p hs' hs hhs' hhs hqp)]
    exact hmap'
  · intro q r hq hr hhq hhr hne
    simp only at hhq hhr
    -- the tables of two sets are different, so the others keep theirs
    have hqp : q ≠ p := by
      rintro rfl
      rw [Function.update_self] at hhq
      cases hhq
    have hrp : r ≠ p := by
      rintro rfl
      rw [Function.update_self] at hhr
      cases hhr
    rw [Function.update_of_ne hqp] at hhq
    rw [Function.update_of_ne hrp] at hhr
    exact h.apart q r hq hr hhq hhr hne

/-- The data of a set is never NULL, so what is found tells whether the key is there. -/
theorem SetsAre.get_eq_null (h : SetsAre w map set) {table : Ptr} (hmap : map table = some tbl) (key : List UInt8) :
    (tbl.get key).getD 0 = 0 ↔ tbl.get key = none := by
  obtain ⟨age, htables⟩ := h.tables
  obtain ⟨t, -, hs, -⟩ := htables.held table tbl hmap
  rcases hget : tbl.get key with _ | d
  · exact iff_of_true rfl rfl
  · exact iff_of_false (hs.data _ (Table.get_eq_some.1 hget)) (Option.some_ne_none d)

/-- A table does not rehash by itself, so an insertion needs memory for the entry only. -/
theorem SetsAre.legal_insert (h : SetsAre w map set) {q : Ptr} (hmap : map q = some tbl) {d malloc : Ptr} (hd : d ≠ 0)
    (hfresh : Fresh w.mem.entries [malloc]) (key : List UInt8) : HashOp.Legal w.mem (.insert q d key malloc []) := by
  obtain ⟨age, htables⟩ := h.tables
  obtain ⟨t, ht, -, ha⟩ := htables.held q tbl hmap
  exact ⟨hd, hfresh, t, ht, fun hre => absurd ha hre.1⟩

/-- What is put into a set is not NULL. -/
theorem fakeVal_ne_zero (h0 : hs.fakeVal ≠ 0) (val : Ptr) : (if val = 0 then hs.fakeVal else val) ≠ 0 := by
  split
  · exact h0
  · assumption

/-- A call on one set, once its table has been called. -/
theorem Sets.answer {q : Sets} {w' : HsetMem} {map' : Ptr → Option (Table Ptr)} {op : HsetOp}
    {f : Ptr → Table Ptr → Table Ptr × HashRet} (hset : q.set p = some (fakeVal, tbl)) (hspec : q.step op = q.change p f)
    (hcall : w.call op = .ok (w', (f fakeVal tbl).2))
    (hare : SetsAre w' map' (Function.update q.set p (some (fakeVal, (f fakeVal tbl).1)))) (hown : Owned w' map' own) :
    ∃ w' map' r, w.call op = .ok (w', r) ∧ (q.step op).returned = q.returned ++ [r] ∧ SetsAre w' map' (q.step op).set ∧
      Owned w' map' own := by
  refine ⟨w', map', _, hcall, ?_, ?_, hown⟩
  · rw [hspec, Sets.change, hset]
  · rw [hspec, Sets.change, hset]
    exact hare

/-- What a call returns and leaves. -/
theorem SetsAre.call {q : Sets} (h : SetsAre w map q.set) (hown : Owned w map own) {op : HsetOp} (hl : op.Legal w) :
    ∃ w' map' r, w.call op = .ok (w', r) ∧ (q.step op).returned = q.returned ++ [r] ∧ SetsAre w' map' (q.step op).set ∧
      Owned w' map' own := by
  cases op with
  | create n self fakeVal table =>
    obtain ⟨hself, hfake, hnew, htable, hn⟩ := hl
    obtain ⟨w', hok, hhsets, -, hare⟩ := h.create hself hfake hnew htable hn
    exact ⟨w', _, _, by rw [HsetMem.call, hok]; rfl, rfl, hare, hown.create hnew hhsets _⟩
  | insert self key val malloc =>
    obtain ⟨hs, tbl, hset, hhs, h0, hmap⟩ := h.exists_set hl.2
    obtain ⟨w', hok, hkeeps, hare⟩ := h.ght hset hhs hmap (h.legal_insert hmap (fakeVal_ne_zero h0 val) hl.1 key) rfl rfl
    refine Sets.answer hset rfl ?_ hare (hown.update hkeeps.hsets hmap _)
    rw [HsetMem.call, hsetInsert, HsetMem.hset_of_some hhs, ok_bind]
    exact hok
  | remove self key =>
    obtain ⟨hs, tbl, hset, hhs, -, hmap⟩ := h.exists_set hl
    obtain ⟨w', hok, hkeeps, hare⟩ := h.ght hset hhs hmap (o := .remove hs.table key) (h.used hmap) rfl rfl
    refine Sets.answer hset rfl ?_ hare (hown.update hkeeps.hsets hmap _)
    rw [HsetMem.call, hsetRemove, HsetMem.hset_of_some hhs, ok_bind]
    exact hok
  | has self key =>
    obtain ⟨hs, tbl, hset, hhs, -, hmap⟩ := h.exists_set hl
    obtain ⟨w', hok, hkeeps, hare⟩ := h.ght hset hhs hmap (o := .get hs.table key) (h.used hmap) rfl rfl
    refine Sets.answer hset rfl ?_ hare (hown.update hkeeps.hsets hmap _)
    have hfound : (if HashRet.data ((tbl.get key).getD 0) = .data 0 then (0 : Int) else 1) =
        if (tbl.get key).isSome then 1 else 0 := by
      have hnull := h.get_eq_null hmap key
      rcases hget : tbl.get key with _ | d
      · rfl
      · rw [hget] at hnull
        rw [if_neg fun he => absurd (hnull.1 (HashRet.data.inj he)) (Option.some_ne_none d)]
        rfl
    rw [HsetMem.call, hsetHas, HsetMem.hset_of_some hhs, ok_bind, hok, ok_bind]
    simp only [hfound]
    rfl
  | size self =>
    obtain ⟨hs, tbl, hset, hhs, -, hmap⟩ := h.exists_set hl
    obtain ⟨w', hok, hkeeps, hare⟩ := h.ght hset hhs hmap (o := .size hs.table) (h.used hmap) rfl rfl
    refine Sets.answer hset rfl ?_ hare (hown.update hkeeps.hsets hmap _)
    rw [HsetMem.call, hsetSize, HsetMem.hset_of_some hhs, ok_bind]
    exact hok
  | walk self =>
    obtain ⟨hs, tbl, hset, hhs, -, hmap⟩ := h.exists_set hl
    obtain ⟨w', hok, hkeeps, hare⟩ := h.ght hset hhs hmap (o := .walk hs.table) (h.used hmap) rfl rfl
    refine Sets.answer hset rfl ?_ hare (hown.update hkeeps.hsets hmap _)
    rw [HsetMem.call, hsetWalk, HsetMem.hset_of_some hhs, ok_bind]
    exact hok
  | release self =>
    obtain ⟨hs, tbl, hset, -, -, -⟩ := h.exists_set hl
    obtain ⟨hs', w', hhs', hok, hhsets, hare⟩ := h.release hl
    have hq : q.step (.release self) = ⟨Function.update q.set self none, q.returned ++ [.none]⟩ := by
      rw [Sets.step, hset]
    rw [hq]
    refine ⟨w', _, .none, ?_, rfl, hare, hown.release hhs' hhsets⟩
    rw [HsetMem.call, hok]
    rfl

/-! ## A run of calls -/

/-- The program and the sets, before the first call. -/
def noSets : HsetProgram × Sets := (.ok (⟨⟨fun _ => none, fun _ => none⟩, fun _ => none⟩, []), ⟨fun _ => none, []⟩)

/-- The next call, on both sides. -/
def HsetOp.both (s : HsetProgram × Sets) (op : HsetOp) : HsetProgram × Sets := (s.1.step op, s.2.step op)

/-- The program has come to no fault, its sets are the sets, its calls have returned the same, and it has no
other tables than those of the sets. -/
def HsetsAgree (s : HsetProgram × Sets) : Prop :=
  ∃ w map, s.1 = .ok (w, s.2.returned) ∧ SetsAre w map s.2.set ∧ Owned w map []

/-- The call is one of those in question, in the memory that the program has come to. -/
def HsetOp.LegalIn (s : HsetProgram × Sets) (op : HsetOp) : Prop :=
  match s.1 with
  | .error _ => True
  | .ok (w, _) => op.Legal w

/-- Nothing has been allocated. -/
theorem noSets_are : SetsAre ⟨⟨fun _ => none, fun _ => none⟩, fun _ => none⟩ (fun _ => none) fun _ => none := by
  refine ⟨⟨fun _ => [], ⟨fun _ _ => ⟨rfl, rfl⟩, fun _ _ h => ?_, fun _ _ _ => List.disjoint_nil_left _,
    fun _ h => absurd rfl h⟩⟩, fun _ _ => rfl, fun _ _ h => ?_, fun _ _ _ _ h => ?_⟩
  · cases h
  · cases h
  · cases h

theorem noSets_agree : HsetsAgree noSets := ⟨_, _, rfl, noSets_are, fun _ h => absurd rfl h⟩

theorem HsetsAgree.step {s : HsetProgram × Sets} (h : HsetsAgree s) {op : HsetOp} (hl : op.LegalIn s) :
    HsetsAgree (HsetOp.both s op) := by
  obtain ⟨s₁, q⟩ := s
  obtain ⟨w, map, hs, h, hown⟩ := h
  simp only at hs h
  subst hs
  obtain ⟨w', map', r, hcall, hret, hare, hown'⟩ := h.call hown hl
  refine ⟨w', map', ?_, hare, hown'⟩
  show HsetProgram.step (.ok (w, q.returned)) op = .ok (w', (q.step op).returned)
  rw [HsetProgram.step, ok_bind]
  simp only
  rw [hcall, hret]
  rfl

/-- In a run of calls on sets that were made, membership, size and iteration are those of the sets after
every call, no call comes to a fault, and the tables and entries that are allocated are those of the sets: a
set that is released takes its table and its entries with it. -/
theorem hsets_are_sets {ops : List HsetOp} (hlegal : Machine.AllSteps HsetOp.both HsetOp.LegalIn noSets ops) :
    ∀ js, js <+: ops → HsetsAgree (Machine.run HsetOp.both noSets js) := by
  rintro js ⟨ks, rfl⟩
  exact Machine.AllSteps.invariant (fun s op h hl => h.step hl) noSets_agree (Machine.AllSteps.append.1 hlegal).1

end

/-- Two sets, one of keys with data and one of keys without. -/
def someHsetCalls : List HsetOp :=
  [.create 16 1 30 2, .create 2 3 31 4, .insert 1 [97] 7 16, .insert 3 [97] 0 17, .insert 1 [97] 9 18, .insert 1 [98] 8 18,
    .insert 3 [98] 0 0, .has 3 [98], .remove 1 [97], .has 1 [97], .walk 1, .size 3, .walk 3, .release 3]

theorem someHsetCalls_legal : Machine.AllSteps HsetOp.both HsetOp.LegalIn noSets someHsetCalls := by
  have hfresh {m : Entries} {p : Ptr} (hp : p ≠ 0 → m p = none) : Fresh m [p] := ⟨by simpa using hp, by simp⟩
  refine ⟨⟨by decide, by decide, rfl, rfl, by decide⟩, ⟨by decide, by decide, rfl, rfl, by decide⟩, ?_⟩
  refine ⟨⟨hfresh fun _ => rfl, Option.some_ne_none _⟩, ⟨hfresh fun _ => rfl, Option.some_ne_none _⟩,
    ⟨hfresh fun _ => rfl, Option.some_ne_none _⟩, ⟨hfresh fun _ => rfl, Option.some_ne_none _⟩,
    ⟨hfresh fun h => absurd rfl h, Option.some_ne_none _⟩, ?_⟩
  exact ⟨Option.some_ne_none _, Option.some_ne_none _, Option.some_ne_none _, Option.some_ne_none _,
    Option.some_ne_none _, Option.some_ne_none _, Option.some_ne_none _, trivial⟩

theorem someHsetCalls_agree : (∀ js, js <+: someHsetCalls → HsetsAgree (Machine.run HsetOp.both noSets js)) ∧
    (Machine.run HsetOp.both noSets someHsetCalls).2.returned =
      [.data 1, .data 3, .code 0, .code 0, .code (-1), .code 0, .code (-2), .code 0, .data 7, .code 0,
        .items [([98], 8)], .size 1, .items [([97], 31)], .none] :=
  ⟨hsets_are_sets someHsetCalls_legal, by decide⟩

end PubsubBroker

/-
Runs of hash table operations: the tables whose entries live in one memory, side by side with the finite
maps that they stand for. Whatever the hash function does with the keys, whichever heuristic moves the
entries and whenever a table is rehashed, every call returns what the maps give, and the memory holds the
entries of the tables and nothing else.
-/
import Mathlib.Data.List.TakeWhile
import PubsubBroker.Lib.Run
import PubsubBroker.Common.GhtRehash

namespace PubsubBroker

open DLinked Entries

/-! ## Operations -/

/-- A call, with the addresses that `fn_alloc` returns in it. -/
inductive HashOp
  | create (self : Ptr) (iSize : UInt32)
  | insert (self pEntryData : Ptr) (key : List UInt8) (malloc : Ptr) (mallocs : List Ptr)
  | get (self : Ptr) (key : List UInt8)
  | replace (self pEntryData : Ptr) (key : List UInt8)
  | remove (self : Ptr) (key : List UInt8)
  | size (self : Ptr)
  | walk (self : Ptr)
  | rehash (self : Ptr) (iSize : UInt32) (mallocs : List Ptr)
  | setHash (self : Ptr) (fnHash : List UInt8 → UInt32)
  | setHeuristics (self : Ptr) (iHeuristics : Int)
  | setRehash (self : Ptr) (bRehash : Int)
  | finalize (self : Ptr)

/-- What a call returns. -/
inductive HashRet
  | none
  | code (n : Int)
  | data (p : Ptr)
  | size (n : UInt32)
  | items (cs : List (List UInt8 × Ptr))
  deriving DecidableEq

/-- The tables and the entries that are allocated. -/
structure HashMem where
  entries : Entries
  tables : Ptr → Option GhtHashTableT

namespace HashMem

def table (w : HashMem) (p : Ptr) : Except HashFault GhtHashTableT :=
  match w.tables p with
  | none => .error (.access p)
  | some t => .ok t

def put (w : HashMem) (p : Ptr) (m : Entries) (t : GhtHashTableT) : HashMem :=
  ⟨m, Function.update w.tables p (some t)⟩

/-- A call in the memory `w`. -/
def call (w : HashMem) : HashOp → Except HashFault (HashMem × HashRet)
  | .create self iSize => (ghtCreate iSize).map fun t => (w.put self w.entries t, .none)
  | .insert self d key malloc mallocs => do
    let t ← w.table self
    (ghtInsert w.entries t d key malloc mallocs).map fun r => (w.put self r.1 r.2.1, .code r.2.2.1)
  | .get self key => do
    let t ← w.table self
    (ghtGet w.entries t key).map fun r => (w.put self r.1 r.2.1, .data r.2.2)
  | .replace self d key => do
    let t ← w.table self
    (ghtReplace w.entries t d key).map fun r => (w.put self r.1 r.2.1, .data r.2.2)
  | .remove self key => do
    let t ← w.table self
    (ghtRemove w.entries t key).map fun r => (w.put self r.1 r.2.1, .data r.2.2)
  | .size self => do
    let t ← w.table self
    return (w, .size (ghtSize t))
  | .walk self => do
    let t ← w.table self
    (ghtWalk w.entries t).map fun cs => (w, .items cs)
  | .rehash self iSize mallocs => do
    let t ← w.table self
    (ghtRehash mallocs w.entries t iSize).map fun r => (w.put self r.1 r.2, .none)
  | .setHash self fnHash => do
    let t ← w.table self
    return (w.put self w.entries { t with fnHash := fnHash }, .none)
  | .setHeuristics self iHeuristics => do
    let t ← w.table self
    return (w.put self w.entries { t with iHeuristics := iHeuristics }, .none)
  | .setRehash self bRehash => do
    let t ← w.table self
    return (w.put self w.entries { t with iAutomaticRehash := bRehash }, .none)
  | .finalize self => do
    let t ← w.table self
    (ghtFinalize w.entries t).map fun m => (⟨m, Function.update w.tables self none⟩, .none)

end HashMem

/-- The program: the memory and what the calls so far have returned, or the fault it came to. -/
abbrev HashProgram := Except HashFault (HashMem × List HashRet)

def HashProgram.step (s : HashProgram) (op : HashOp) : HashProgram := do
  let (w, rs) ← s
  let (w, r) ← w.call op
  return (w, rs ++ [r])

/-! ## Maps -/

/-- The maps that the tables stand for, and what the calls return. -/
structure Maps where
  map : Ptr → Option (Table Ptr)
  returned : List HashRet

/-- A call on one map. -/
def Maps.change (q : Maps) (self : Ptr) (f : Table Ptr → Table Ptr × HashRet) : Maps :=
  match q.map self with
  | none => q
  | some t => ⟨Function.update q.map self (some (f t).1), q.returned ++ [(f t).2]⟩

/-- The calls on maps. The hash function, a heuristic and a rehash mean nothing to them. -/
def Maps.step (q : Maps) : HashOp → Maps
  | .create self _ => ⟨Function.update q.map self (some Table.empty), q.returned ++ [.none]⟩
  | .insert self d key malloc _ => q.change self fun t =>
    match t.insert key d with
    | none => (t, .code (-1))
    | some t' => if malloc = 0 then (t, .code (-2)) else (t', .code 0)
  | .get self key => q.change self fun t => (t, .data ((t.get key).getD 0))
  | .replace self d key => q.change self fun t => (t.replace key d, .data ((t.get key).getD 0))
  | .remove self key => q.change self fun t => (t.erase key, .data ((t.get key).getD 0))
  | .size self => q.change self fun t => (t, .size (UInt32.ofNat t.entries.length))
  | .walk self => q.change self fun t => (t, .items t.entries)
  | .rehash self .. | .setHash self _ | .setHeuristics self _ | .setRehash self _ => q.change self fun t => (t, .none)
  | .finalize self =>
    match q.map self with
    | none => q
    | some _ => ⟨Function.update q.map self none, q.returned ++ [.none]⟩

/-- The program and the maps, before the first call. -/
def noTables : HashProgram × Maps := (.ok (⟨fun _ => none, fun _ => none⟩, []), ⟨fun _ => none, []⟩)

/-- The next call, on both sides. -/
def HashOp.both (s : HashProgram × Maps) (op : HashOp) : HashProgram × Maps := (s.1.step op, s.2.step op)

/-- A table that stands for a map. -/
structure StandsFor (m : Entries) (t : GhtHashTableT) (age : List Ptr) (tbl : Table Ptr) : Prop where
  rep : ∃ chains, HashRep m t chains age
  items : age.filterMap m.content = tbl.entries
  limit : t.bucketLimit = 0
  size : ∃ k ≤ 30, t.iSize.toNat = 2 ^ k
  data : ∀ c ∈ tbl.entries, c.2 ≠ 0

/-- The tables of the memory are the maps, each with entries of its own, and every entry is in a table. The
tables rehash by themselves as `auto` says. -/
structure TablesAre (w : HashMem) (map : Ptr → Option (Table Ptr)) (age : Ptr → List Ptr) (auto : Ptr → Int) : Prop where
  absent : ∀ p, map p = none → w.tables p = none ∧ age p = []
  held : ∀ p tbl, map p = some tbl →
    ∃ t, w.tables p = some t ∧ StandsFor w.entries t (age p) tbl ∧ t.iAutomaticRehash = auto p
  apart : ∀ p q, p ≠ q → (age p).Disjoint (age q)
  owned : ∀ a, w.entries a ≠ none → ∃ p, a ∈ age p

/-- Which tables rehash by themselves after a call. -/
def HashOp.auto (auto : Ptr → Int) : HashOp → Ptr → Int
  | .create self _ => Function.update auto self 0
  | .setRehash self bRehash => Function.update auto self bRehash
  | _ => auto

def AgreesWith (auto : Ptr → Int) (s : HashProgram × Maps) : Prop :=
  ∃ w age, s.1 = .ok (w, s.2.returned) ∧ TablesAre w s.2.map age auto

/-- The addresses that `fn_alloc` returns in a call. -/
def HashOp.mallocs : HashOp → List Ptr
  | .insert _ _ _ malloc mallocs => malloc :: mallocs
  | .rehash _ _ mallocs => mallocs
  | _ => []

/-- The same after the call `op` in the memory `w`, which takes no other memory than what `fn_alloc` returns. -/
structure AgreesAfter (w : HashMem) (q : Maps) (auto : Ptr → Int) (op : HashOp) : Prop where
  agrees : AgreesWith (op.auto auto) (HashOp.both (.ok (w, q.returned), q) op)
  allocates : ∀ w' r, w.call op = .ok (w', r) → ∀ b, w.entries b = none → b ∉ op.mallocs → w'.entries b = none

/-- The program has come to no fault, its tables are the maps, and its calls have returned the same. -/
def Agrees (s : HashProgram × Maps) : Prop := ∃ auto, AgreesWith auto s

/-- There is memory for every entry in a rehash. -/
def RoomFor (w : HashMem) (t : GhtHashTableT) (mallocs : List Ptr) : Prop :=
  0 ∉ mallocs ∧ ∀ cs, ghtWalk w.entries t = .ok cs → cs.length ≤ mallocs.length

/-- The calls in question: on tables that were made, of a size whose power of two is an `int`, with data that
is not NULL, while `fn_alloc` returns NULL or memory that is not in use, and does not fail in a rehash. The
hash function is set before there are entries. -/
def HashOp.Legal (w : HashMem) : HashOp → Prop
  | .create self iSize => w.tables self = none ∧ iSize.toNat ≤ 2 ^ 30
  | .insert self d _ malloc mallocs => d ≠ 0 ∧ Fresh w.entries (malloc :: mallocs) ∧
    ∃ t, w.tables self = some t ∧ (Rehashes t → RoomFor w t mallocs ∧ t.iSize.toNat ≤ 2 ^ 29)
  | .replace self d _ => d ≠ 0 ∧ w.tables self ≠ none
  | .rehash self iSize mallocs => iSize.toNat ≤ 2 ^ 30 ∧ Fresh w.entries mallocs ∧
    ∃ t, w.tables self = some t ∧ RoomFor w t mallocs
  | .setHash self _ => ∃ t, w.tables self = some t ∧ t.pOldest = 0
  | .get self _ | .remove self _ | .size self | .walk self | .setHeuristics self _ | .setRehash self _
  | .finalize self => w.tables self ≠ none

/-- The call is one of those in question, in the memory that the program has come to. -/
def HashOp.LegalIn (s : HashProgram × Maps) (op : HashOp) : Prop :=
  match s.1 with
  | .error _ => True
  | .ok (w, _) => op.Legal w

/-! ## A step -/

section
variable {w : HashMem} {q : Maps} {age : Ptr → List Ptr} {m m' : Entries} {t t' : GhtHashTableT} {as as' : List Ptr}
  {tbl tbl' : Table Ptr} {p : Ptr} {key : List UInt8} {d : Ptr} {auto auto' : Ptr → Int}

theorem HashMem.table_of_some (h : w.tables p = some t) : w.table p = .ok t := by
  unfold HashMem.table
  rw [h]

/-- The entry with a key that the map has. -/
theorem StandsFor.exists_entry (h : StandsFor m t as tbl) (hget : tbl.get key = some d) :
    ∃ us a vs, as = us ++ a :: vs ∧ m.content a = some (key, d) ∧
      tbl.entries = us.filterMap m.content ++ (key, d) :: vs.filterMap m.content := by
  rw [Table.get_eq_some, ← h.items] at hget
  obtain ⟨a, ha, hc⟩ := List.mem_filterMap.1 hget
  obtain ⟨us, vs, rfl⟩ := List.append_of_mem ha
  refine ⟨us, a, vs, rfl, hc, ?_⟩
  rw [← h.items, List.filterMap_append, List.filterMap_cons_some hc]

theorem StandsFor.missing (h : StandsFor m t as tbl) (hget : key ∉ tbl.keys) : ∀ a ∈ as, ¬HasKey m key a := by
  rintro a ha ⟨v, hv⟩
  apply hget
  rw [Table.keys, ← h.items]
  exact List.mem_map.2 ⟨(key, v), List.mem_filterMap.2 ⟨a, ha, hv⟩, rfl⟩

/-- What is in a table is allocated. -/
theorem TablesAre.allocated {map : Ptr → Option (Table Ptr)} (h : TablesAre w map age auto) {a : Ptr} (ha : a ∈ age p) :
    w.entries a ≠ none := by
  rcases hm : map p with _ | tbl
  · rw [(h.absent p hm).2] at ha
    cases ha
  · obtain ⟨t, -, hs, -⟩ := h.held p tbl hm
    obtain ⟨chains, hrep⟩ := hs.rep
    exact hrep.allocated ha

/-- What is at one address after a call, and the memory around it. -/
theorem TablesAre.evolve {map : Ptr → Option (Table Ptr)} (h : TablesAre w map age auto) {ot : Option GhtHashTableT}
    {om : Option (Table Ptr)} (hnone : om = none → ot = none ∧ as' = [])
    (hsome : ∀ tbl', om = some tbl' → ∃ t', ot = some t' ∧ StandsFor m' t' as' tbl' ∧ t'.iAutomaticRehash = auto' p)
    (hauto : ∀ r, r ≠ p → auto' r = auto r) (mallocs : List Ptr) (hev : Evolves w.entries m' (age p) as' mallocs) :
    TablesAre ⟨m', Function.update w.tables p ot⟩ (Function.update map p om) (Function.update age p as') auto' := by
  -- the entries of the other tables are neither lost nor new
  have hout : ∀ r, r ≠ p → ∀ a ∈ age r, a ∉ age p ∧ a ∉ as' ∧ m' a = w.entries a := by
    intro r hr a ha
    have hap : a ∉ age p := fun hmem => h.apart r p hr ha hmem
    have hne := h.allocated ha
    have has : a ∉ as' := fun hmem => (hev.fresh a hmem).elim hap fun hnone => hne hnone.2
    exact ⟨hap, has, hev.frame a hap has⟩
  refine ⟨?_, ?_, ?_, ?_⟩
  · intro r hr
    by_cases hrp : r = p
    · subst hrp
      rw [Function.update_self] at hr
      rw [Function.update_self]
      exact ⟨(Function.update_self ..).trans (hnone hr).1, (hnone hr).2⟩
    · rw [Function.update_of_ne hrp] at hr
      rw [Function.update_of_ne hrp]
      exact ⟨(Function.update_of_ne hrp ..).trans (h.absent r hr).1, (h.absent r hr).2⟩
  · intro r tblr hr
    by_cases hrp : r = p
    · subst hrp
      rw [Function.update_self] at hr
      obtain ⟨t', ht', hs⟩ := hsome tblr hr
      rw [Function.update_self]
      exact ⟨t', (Function.update_self ..).trans ht', hs⟩
    · rw [Function.update_of_ne hrp] at hr
      rw [Function.update_of_ne hrp]
      obtain ⟨tr, htr, hsr, har⟩ := h.held r tblr hr
      obtain ⟨chains, hrep⟩ := hsr.rep
      have hstay : ∀ a ∈ age r, m' a = w.entries a := fun a ha => (hout r hrp a ha).2.2
      refine ⟨tr, (Function.update_of_ne hrp ..).trans htr, ⟨⟨chains, hrep.frame hstay⟩, ?_, hsr.limit, hsr.size, hsr.data⟩,
        har.trans (hauto r hrp).symm⟩
      rw [← hsr.items]
      exact List.filterMap_congr fun a ha => by
        unfold content
        simp only [hstay a ha]
  · have hdisj : ∀ r, r ≠ p → (age r).Disjoint as' := fun r hr a ha has => (hout r hr a ha).2.1 has
    intro r s hrs
    by_cases hrp : r = p
    · subst hrp
      rw [Function.update_self, Function.update_of_ne (Ne.symm hrs)]
      exact (hdisj s (Ne.symm hrs)).symm
    · by_cases hsp : s = p
      · subst hsp
        rw [Function.update_self, Function.update_of_ne hrp]
        exact hdisj r hrp
      · rw [Function.update_of_ne hrp, Function.update_of_ne hsp]
        exact h.apart r s hrs
  · intro a ha
    by_cases has : a ∈ as'
    · exact ⟨p, by rw [Function.update_self]; exact has⟩
    · have hap : a ∉ age p := fun hmem => ha (hev.freed a hmem has)
      obtain ⟨r, hr⟩ := h.owned a (by rw [← hev.frame a hap has]; exact ha)
      have hrp : r ≠ p := by
        rintro rfl
        exact hap hr
      exact ⟨r, by rw [Function.update_of_ne hrp]; exact hr⟩

/-- What a call returns and leaves, when it changes one table. -/
theorem AgreesAfter.of_change {op : HashOp} (h : TablesAre w q.map age auto) (hp : q.map p = some tbl)
    {f : Table Ptr → Table Ptr × HashRet} (hspec : q.step op = q.change p f)
    (hcall : w.call op = .ok (w.put p m' t', (f tbl).2)) (hs : StandsFor m' t' as' (f tbl).1)
    (hev : Evolves w.entries m' (age p) as' op.mallocs) (hself : t'.iAutomaticRehash = op.auto auto p)
    (hauto : ∀ r, r ≠ p → op.auto auto r = auto r) : AgreesAfter w q auto op := by
  have hq : q.step op = ⟨Function.update q.map p (some (f tbl).1), q.returned ++ [(f tbl).2]⟩ := by
    rw [hspec, Maps.change, hp]
  refine ⟨⟨w.put p m' t', Function.update age p as', ?_, ?_⟩, fun w' r hcall' b hb hbm => ?_⟩
  rotate_right
  · rw [hcall] at hcall'
    cases hcall'
    by_cases hage : b ∈ as'
    · rcases hev.fresh b hage with hold | hnew
      · exact absurd hb (h.allocated hold)
      · exact absurd hnew.1 hbm
    · by_cases hold : b ∈ age p
      · exact hev.freed b hold hage
      · exact (hev.frame b hold hage).trans hb
  · show HashProgram.step (.ok (w, q.returned)) op = .ok (_, (q.step op).returned)
    unfold HashProgram.step
    rw [ok_bind]
    simp only
    rw [hcall, hq]
    rfl
  · show TablesAre _ (q.step op).map _ _
    rw [hq]
    exact h.evolve (fun h => by cases h) (fun _ he => by cases he; exact ⟨t', rfl, hs, hself⟩) hauto _ hev

theorem StandsFor.setup (h : StandsFor m t as tbl) {chains : Nat → List Ptr} (hrep : HashRep m' t' chains as')
    (hsame : SameSetup t t') (hitems : as'.filterMap m'.content = tbl'.entries) (hdata : ∀ c ∈ tbl'.entries, c.2 ≠ 0) :
    StandsFor m' t' as' tbl' := by
  obtain ⟨k, hk, hsize⟩ := h.size
  exact ⟨⟨chains, hrep⟩, hitems, hsame.limit.trans h.limit, ⟨k, hk, (congrArg _ hsame.size).trans hsize⟩, hdata⟩

theorem HashMem.put_self (h : w.tables p = some t) : w.put p w.entries t = w := by
  unfold HashMem.put
  rw [Function.update_eq_self_iff.2 h.symm]

/-- A call that leaves the table as it is. -/
theorem AgreesAfter.of_stay {op : HashOp} (h : TablesAre w q.map age auto) (hp : q.map p = some tbl)
    (hs : StandsFor w.entries t (age p) tbl) (ha : t.iAutomaticRehash = auto p) (hauto : op.auto auto = auto) {r : HashRet}
    (hspec : q.step op = q.change p fun tbl => (tbl, r)) (hcall : w.call op = .ok (w.put p w.entries t, r)) :
    AgreesAfter w q auto op :=
  .of_change h hp (f := fun tbl => (tbl, r)) hspec hcall hs (.of_same fun _ _ => rfl) (by rw [hauto]; exact ha)
    fun r _ => congrFun hauto r

/-- The table at an address that the program uses. -/
theorem TablesAre.exists_of_ne_none {map : Ptr → Option (Table Ptr)} (h : TablesAre w map age auto)
    (hp : w.tables p ≠ none) :
    ∃ tbl t, map p = some tbl ∧ w.tables p = some t ∧ StandsFor w.entries t (age p) tbl ∧ t.iAutomaticRehash = auto p := by
  rcases hm : map p with _ | tbl
  · exact absurd (h.absent p hm).1 hp
  · obtain ⟨t, ht, hs, ha⟩ := h.held p tbl hm
    exact ⟨tbl, t, rfl, ht, hs, ha⟩

theorem Maps.change_congr {f g : Table Ptr → Table Ptr × HashRet} (hp : q.map p = some tbl) (hfg : f tbl = g tbl) :
    q.change p f = q.change p g := by
  unfold Maps.change
  rw [hp]
  simp only [hfg]

theorem agrees_get (h : TablesAre w q.map age auto) (hp : w.tables p ≠ none) (key : List UInt8) :
    AgreesAfter w q auto (.get p key) := by
  obtain ⟨tbl, t, hmap, ht, hs, ha⟩ := h.exists_of_ne_none hp
  obtain ⟨chains, hrep⟩ := hs.rep
  rcases hget : tbl.get key with _ | d
  · refine .of_stay h hmap hs ha rfl (r := .data 0) (Maps.change_congr hmap (by rw [hget]; rfl)) ?_
    rw [HashMem.call, HashMem.table_of_some ht, ok_bind, hrep.get_missing (hs.missing (Table.get_eq_none.1 hget))]
    rfl
  · obtain ⟨us, a, vs, has, hc, -⟩ := hs.exists_entry hget
    obtain ⟨m', t', chains', hok, hrep', hsame, hcont, hframe⟩ := hrep.get_found (a := a) (by rw [has]; simp) hc
    refine .of_change h hmap (f := fun tbl => (tbl, .data ((tbl.get key).getD 0))) rfl ?_
      (hs.setup hrep' hsame (by rw [hcont]; exact hs.items) hs.data) (.of_same hframe)
      (hsame.rehash.trans ha) fun _ _ => rfl
    rw [HashMem.call, HashMem.table_of_some ht, ok_bind, hok, hget]
    rfl

theorem agrees_replace (h : TablesAre w q.map age auto) (hp : w.tables p ≠ none) (key : List UInt8) {v : Ptr} (hv : v ≠ 0) :
    AgreesAfter w q auto (.replace p v key) := by
  obtain ⟨tbl, t, hmap, ht, hs, ha⟩ := h.exists_of_ne_none hp
  obtain ⟨chains, hrep⟩ := hs.rep
  rcases hget : tbl.get key with _ | d
  · have hkey := Table.get_eq_none.1 hget
    refine .of_stay h hmap hs ha rfl (r := .data 0)
      (Maps.change_congr hmap (by rw [hget, Table.replace_of_notMem hkey]; rfl)) ?_
    rw [HashMem.call, HashMem.table_of_some ht, ok_bind, hrep.replace_missing (hs.missing hkey)]
    rfl
  · obtain ⟨us, a, vs, has, hc, hent⟩ := hs.exists_entry hget
    obtain ⟨m', t', chains', hok, hrep', hsame, hcont, hframe⟩ := hrep.replace_found (a := a) (by rw [has]; simp) hc v
    -- only the data of the one entry is another
    have hnd := List.nodup_cons.1 (List.nodup_middle.1 (has ▸ hrep.order.nodup))
    rw [List.mem_append, not_or] at hnd
    have hpart (l : List Ptr) (ha : a ∉ l) : l.filterMap m'.content = l.filterMap w.entries.content :=
      List.filterMap_congr fun b hb => by rw [hcont, Function.update_of_ne (by rintro rfl; exact ha hb)]
    have hitems : (age p).filterMap m'.content = (tbl.replace key v).entries := by
      have hca : m'.content a = some (key, v) := by rw [hcont, Function.update_self]
      rw [Table.entries_replace hent, has, List.filterMap_append, List.filterMap_cons_some hca, hpart us hnd.1.1,
        hpart vs hnd.1.2]
    have hdata : ∀ c ∈ (tbl.replace key v).entries, c.2 ≠ 0 := by
      have hold := hs.data
      rw [hent] at hold
      rw [Table.entries_replace hent]
      simp only [List.forall_mem_append, List.forall_mem_cons] at hold ⊢
      exact ⟨hold.1, hv, hold.2.2⟩
    refine .of_change h hmap (f := fun tbl => (tbl.replace key v, .data ((tbl.get key).getD 0))) rfl ?_
      (hs.setup hrep' hsame hitems hdata) (.of_same hframe)
      (hsame.rehash.trans ha) fun _ _ => rfl
    rw [HashMem.call, HashMem.table_of_some ht, ok_bind, hok, hget]
    rfl

theorem agrees_remove (h : TablesAre w q.map age auto) (hp : w.tables p ≠ none) (key : List UInt8) :
    AgreesAfter w q auto (.remove p key) := by
  obtain ⟨tbl, t, hmap, ht, hs, ha⟩ := h.exists_of_ne_none hp
  obtain ⟨chains, hrep⟩ := hs.rep
  rcases hget : tbl.get key with _ | d
  · have hkey := Table.get_eq_none.1 hget
    refine .of_stay h hmap hs ha rfl (r := .data 0)
      (Maps.change_congr hmap (by rw [hget, Table.erase_of_notMem hkey]; rfl)) ?_
    rw [HashMem.call, HashMem.table_of_some ht, ok_bind, hrep.remove_missing (hs.missing hkey)]
    rfl
  · obtain ⟨us, a, vs, has, hc, hent⟩ := hs.exists_entry hget
    rw [has] at hrep
    obtain ⟨m', t', chains', hok, hrep', hsame, hcont, hnone, hframe⟩ := hrep.remove_found hc
    have hnd := List.nodup_cons.1 (List.nodup_middle.1 hrep.order.nodup)
    have hitems : (us ++ vs).filterMap m'.content = (tbl.erase key).entries := by
      rw [Table.entries_erase hent, ← List.filterMap_append]
      exact List.filterMap_congr fun b hb => by
        rw [hcont, Function.update_of_ne (by rintro rfl; exact hnd.1 hb)]
    have hdata : ∀ c ∈ (tbl.erase key).entries, c.2 ≠ 0 := fun c hcm => hs.data c (List.mem_of_mem_filter hcm)
    refine .of_change h hmap (f := fun tbl => (tbl.erase key, .data ((tbl.get key).getD 0))) rfl ?_
      (hs.setup hrep' hsame hitems hdata) ?_ (hsame.rehash.trans ha) fun _ _ => rfl
    · rw [HashMem.call, HashMem.table_of_some ht, ok_bind, hok, hget]
      rfl
    · rw [has]
      refine ⟨fun b hb => .inl ?_, fun b hb hb' => ?_, fun b hb _ => hframe b hb⟩
      · exact ((List.sublist_cons_self a vs).append_left us).subset hb
      · have hba : b = a := by
          simp only [List.mem_append, List.mem_cons, not_or] at hb hb'
          rcases hb with hb | hb | hb
          · exact absurd hb hb'.1
          · exact hb
          · exact absurd hb hb'.2
        rw [hba]
        exact hnone

theorem agrees_size (h : TablesAre w q.map age auto) (hp : w.tables p ≠ none) :
    AgreesAfter w q auto (.size p) := by
  obtain ⟨tbl, t, hmap, ht, hs, ha⟩ := h.exists_of_ne_none hp
  obtain ⟨chains, hrep⟩ := hs.rep
  -- every entry has a key and data, so there are as many of them
  have hlen : tbl.entries.length = (age p).length := by
    rw [← hs.items]
    have hall : ∀ l : List Ptr, (∀ a ∈ l, a ∈ age p) → (l.filterMap w.entries.content).length = l.length := by
      intro l hl
      induction l with
      | nil => rfl
      | cons a l ih =>
        rw [List.forall_mem_cons] at hl
        obtain ⟨c, hc⟩ := hrep.content_of_mem hl.1
        rw [List.filterMap_cons_some hc, List.length_cons, List.length_cons, ih hl.2]
    exact hall _ fun _ ha => ha
  refine .of_stay h hmap hs ha rfl (r := .size t.iItems) (Maps.change_congr hmap ?_) ?_
  · rw [hlen, ← hrep.items]
  · rw [HashMem.call, HashMem.table_of_some ht, ok_bind, HashMem.put_self ht]
    rfl

/-- The walk over a table that holds no NULL data sees the map. -/
theorem StandsFor.walk (hs : StandsFor m t as tbl) : ghtWalk m t = .ok tbl.entries := by
  obtain ⟨chains, hrep⟩ := hs.rep
  rw [ghtWalk_ok hrep, hs.items]
  exact congrArg _ (List.takeWhile_eq_self_iff.2 fun c hc => decide_eq_true (hs.data c hc))

theorem agrees_walk (h : TablesAre w q.map age auto) (hp : w.tables p ≠ none) :
    AgreesAfter w q auto (.walk p) := by
  obtain ⟨tbl, t, hmap, ht, hs, ha⟩ := h.exists_of_ne_none hp
  refine .of_stay h hmap hs ha rfl (r := .items tbl.entries) (Maps.change_congr hmap rfl) ?_
  rw [HashMem.call, HashMem.table_of_some ht, ok_bind, hs.walk, HashMem.put_self ht]
  rfl

theorem agrees_setHash (h : TablesAre w q.map age auto) (ht : w.tables p = some t) (hempty : t.pOldest = 0)
    (fnHash : List UInt8 → UInt32) : AgreesAfter w q auto (.setHash p fnHash) := by
  obtain ⟨tbl, t₀, hmap, ht₀, hs, ha⟩ := h.exists_of_ne_none (p := p) (by rw [ht]; exact Option.some_ne_none t)
  rw [ht] at ht₀
  cases ht₀
  obtain ⟨chains, hrep⟩ := hs.rep
  have hnil : age p = [] := (headD_eq_null_iff hrep.order.null_notMem).1 (hrep.oldest.symm.trans hempty)
  have hs' : StandsFor w.entries { t with fnHash := fnHash } (age p) tbl := by
    refine ⟨⟨chains, { hrep with mem := fun i a => ?_ }⟩, hs.items, hs.limit, hs.size, hs.data⟩
    -- the buckets are empty
    rw [hrep.mem i a, hnil]
    simp
  refine .of_change h hmap (f := fun tbl => (tbl, .none)) rfl ?_ hs' (.of_same fun _ _ => rfl) ha fun _ _ => rfl
  rw [HashMem.call, HashMem.table_of_some ht, ok_bind]
  rfl

theorem agrees_setHeuristics (h : TablesAre w q.map age auto) (hp : w.tables p ≠ none) (iHeuristics : Int) :
    AgreesAfter w q auto (.setHeuristics p iHeuristics) := by
  obtain ⟨tbl, t, hmap, ht, hs, ha⟩ := h.exists_of_ne_none hp
  obtain ⟨chains, hrep⟩ := hs.rep
  have hs' : StandsFor w.entries { t with iHeuristics := iHeuristics } (age p) tbl :=
    ⟨⟨chains, { hrep with }⟩, hs.items, hs.limit, hs.size, hs.data⟩
  refine .of_change h hmap (f := fun tbl => (tbl, .none)) rfl ?_ hs' (.of_same fun _ _ => rfl) ha fun _ _ => rfl
  rw [HashMem.call, HashMem.table_of_some ht, ok_bind]
  rfl

theorem agrees_setRehash (h : TablesAre w q.map age auto) (hp : w.tables p ≠ none) (bRehash : Int) :
    AgreesAfter w q auto (.setRehash p bRehash) := by
  obtain ⟨tbl, t, hmap, ht, hs, ha⟩ := h.exists_of_ne_none hp
  obtain ⟨chains, hrep⟩ := hs.rep
  have hs' : StandsFor w.entries { t with iAutomaticRehash := bRehash } (age p) tbl :=
    ⟨⟨chains, { hrep with }⟩, hs.items, hs.limit, hs.size, hs.data⟩
  refine .of_change h hmap (f := fun tbl => (tbl, .none)) rfl ?_ hs' (.of_same fun _ _ => rfl)
    (by rw [HashOp.auto, Function.update_self]) fun _ hr => Function.update_of_ne hr ..
  rw [HashMem.call, HashMem.table_of_some ht, ok_bind]
  rfl

/-- With memory for every entry a rehash keeps them all. -/
theorem StandsFor.survive (hs : StandsFor w.entries t as tbl) {mallocs : List Ptr} (hroom : RoomFor w t mallocs) :
    survivors tbl.entries mallocs = tbl.entries :=
  survivors_eq hs.data hroom.1 (hroom.2 _ hs.walk)

theorem agrees_rehash (h : TablesAre w q.map age auto) (ht : w.tables p = some t) {iSize : UInt32} {mallocs : List Ptr}
    (hw : iSize.toNat ≤ 2 ^ 30) (hfresh : Fresh w.entries mallocs) (hroom : RoomFor w t mallocs) :
    AgreesAfter w q auto (.rehash p iSize mallocs) := by
  obtain ⟨tbl, t₀, hmap, ht₀, hs, ha⟩ := h.exists_of_ne_none (p := p) (by rw [ht]; exact Option.some_ne_none t)
  rw [ht] at ht₀
  cases ht₀
  obtain ⟨chains, hrep⟩ := hs.rep
  obtain ⟨m', t', chains', age', hok, hrep', hitems, hways, hsize, -, hev⟩ := ghtRehash_ok hrep hw hfresh
  rw [hs.items, hs.survive hroom] at hitems
  obtain ⟨k, hk, hkeq, -⟩ := hsize
  refine .of_change h hmap (f := fun tbl => (tbl, .none)) rfl ?_
    ⟨⟨chains', hrep'⟩, hitems, hways.limit.trans hs.limit, ⟨k, hk, hkeq⟩, hs.data⟩ hev (hways.rehash.trans ha)
    fun _ _ => rfl
  rw [HashMem.call, HashMem.table_of_some ht, ok_bind, hok]
  rfl

theorem agrees_insert (h : TablesAre w q.map age auto) (ht : w.tables p = some t) {key : List UInt8} {d malloc : Ptr}
    {mallocs : List Ptr} (hd : d ≠ 0) (hfresh : Fresh w.entries (malloc :: mallocs))
    (hroom : Rehashes t → RoomFor w t mallocs ∧ t.iSize.toNat ≤ 2 ^ 29) :
    AgreesAfter w q auto (.insert p d key malloc mallocs) := by
  obtain ⟨tbl, t₀, hmap, ht₀, hs, ha⟩ := h.exists_of_ne_none (p := p) (by rw [ht]; exact Option.some_ne_none t)
  rw [ht] at ht₀
  cases ht₀
  obtain ⟨chains, hrep⟩ := hs.rep
  rcases hins : tbl.insert key d with _ | tbl'
  · -- the key is there
    obtain ⟨v, hget⟩ := Table.mem_keys.1 (Table.insert_eq_none.1 hins)
    obtain ⟨us, a, vs, has, hc, -⟩ := hs.exists_entry hget
    refine .of_stay h hmap hs ha rfl (r := .code (-1)) (Maps.change_congr hmap (by simp only [hins])) ?_
    rw [HashMem.call, HashMem.table_of_some ht, ok_bind, insert_duplicate hrep (a := a) (by rw [has]; simp) ⟨v, hc⟩]
    rfl
  · obtain ⟨hkey, hent⟩ := Table.insert_some hins
    have hnew := hs.missing hkey
    by_cases h0 : malloc = 0
    · subst h0
      refine .of_stay h hmap hs ha rfl (r := .code (-2)) (Maps.change_congr hmap (by simp only [hins, if_true])) ?_
      rw [HashMem.call, HashMem.table_of_some ht, ok_bind, insert_nomem hrep hnew]
      rfl
    · have hdouble : Rehashes t → (2 * t.iSize).toNat ≤ 2 ^ 30 := by
        intro hre
        have := (hroom hre).2
        rw [UInt32.toNat_mul]
        exact (Nat.mod_le _ _).trans (by simp; omega)
      obtain ⟨m', t', chains', age', hok, hrep', hitems, hways, hsize, hev⟩ :=
        insert_new hrep hs.limit hnew h0 d hfresh hdouble
      have hall : age'.filterMap m'.content = tbl'.entries := by
        rw [hitems, hs.items, hent]
        split
        · rename_i hre
          rw [hs.survive (hroom hre).1]
        · rfl
      have hsize' : ∃ k ≤ 30, t'.iSize.toNat = 2 ^ k := by
        unfold SizedFrom at hsize
        split at hsize
        · exact hsize
        · rw [hsize]
          exact hs.size
      have hdata : ∀ c ∈ tbl'.entries, c.2 ≠ 0 := by
        rw [hent, List.forall_mem_append, List.forall_mem_singleton]
        exact ⟨hs.data, hd⟩
      refine .of_change h hmap (f := fun _ => (tbl', .code 0)) ?_ ?_
        ⟨⟨chains', hrep'⟩, hall, hways.limit.trans hs.limit, hsize', hdata⟩ hev (hways.rehash.trans ha) fun _ _ => rfl
      · exact Maps.change_congr hmap (by simp only [hins, if_neg h0])
      · rw [HashMem.call, HashMem.table_of_some ht, ok_bind, hok]
        rfl

theorem agrees_create (h : TablesAre w q.map age auto) (hp : w.tables p = none) {iSize : UInt32}
    (hw : iSize.toNat ≤ 2 ^ 30) : AgreesAfter w q auto (.create p iSize) := by
  obtain ⟨t, hok, hcreated, hrep⟩ := ghtCreate_ok hw w.entries
  obtain ⟨k, hk, hsize, -⟩ := hcreated.size
  have hnone : q.map p = none := by
    rcases hm : q.map p with _ | tbl
    · rfl
    · obtain ⟨t, ht, -⟩ := h.held p tbl hm
      rw [hp] at ht
      cases ht
  have hare : TablesAre ⟨w.entries, Function.update w.tables p (some t)⟩ (Function.update q.map p (some Table.empty))
      (Function.update age p []) ((HashOp.create p iSize).auto auto) := by
    refine h.evolve (fun he => by cases he) (fun _ he => ?_) (fun _ hr => Function.update_of_ne hr ..) [] ?_
    · cases he
      refine ⟨t, rfl, ⟨⟨_, hrep⟩, rfl, hcreated.limit, ⟨k, hk, hsize⟩, by simp [Table.empty]⟩, ?_⟩
      rw [hcreated.rehash, HashOp.auto, Function.update_self]
    · rw [(h.absent p hnone).2]
      exact .of_same fun _ _ => rfl
  have hcall : w.call (.create p iSize) = .ok (w.put p w.entries t, .none) := by
    rw [HashMem.call, hok]
    rfl
  refine ⟨⟨_, _, ?_, hare⟩, fun w' r hcall' b hb _ => ?_⟩
  rotate_right
  · rw [hcall] at hcall'
    cases hcall'
    exact hb
  show HashProgram.step (.ok (w, q.returned)) (.create p iSize) = _
  unfold HashProgram.step
  rw [ok_bind]
  simp only
  rw [hcall]
  rfl

theorem agrees_finalize (h : TablesAre w q.map age auto) (hp : w.tables p ≠ none) :
    AgreesAfter w q auto (.finalize p) := by
  obtain ⟨tbl, t, hmap, ht, hs, ha⟩ := h.exists_of_ne_none hp
  obtain ⟨chains, hrep⟩ := hs.rep
  have hq : q.step (.finalize p) = ⟨Function.update q.map p none, q.returned ++ [.none]⟩ := by
    rw [Maps.step, hmap]
  have hcall : w.call (.finalize p) = .ok (⟨freed w.entries (age p), Function.update w.tables p none⟩, .none) := by
    rw [HashMem.call, HashMem.table_of_some ht, ok_bind, ghtFinalize, freeBuckets_all hrep]
    rfl
  refine ⟨⟨⟨freed w.entries (age p), Function.update w.tables p none⟩, Function.update age p [], ?_, ?_⟩,
    fun w' r hcall' b hb _ => ?_⟩
  rotate_right
  · rw [hcall] at hcall'
    cases hcall'
    exact (if_neg fun hmem => h.allocated hmem hb).trans hb
  · show HashProgram.step (.ok (w, q.returned)) (.finalize p) = .ok (_, (q.step (.finalize p)).returned)
    unfold HashProgram.step
    rw [ok_bind]
    simp only
    rw [hcall, hq]
    rfl
  · show TablesAre _ (q.step (.finalize p)).map _ _
    rw [hq]
    refine h.evolve (fun _ => ⟨rfl, rfl⟩) (fun _ he => by cases he) (fun _ _ => rfl) []
      ⟨fun a ha => ?_, fun a ha _ => if_pos ha, fun a ha _ => if_neg ha⟩
    cases ha

/-- A call in question keeps the agreement. -/
theorem TablesAre.agrees (h : TablesAre w q.map age auto) {op : HashOp} (hl : op.Legal w) : AgreesAfter w q auto op := by
  cases op with
  | create self iSize => exact agrees_create h hl.1 hl.2
  | insert self d key malloc mallocs =>
    obtain ⟨hd, hfresh, t, ht, hroom⟩ := hl
    exact agrees_insert h ht hd hfresh hroom
  | get self key => exact agrees_get h hl key
  | replace self d key => exact agrees_replace h hl.2 key hl.1
  | remove self key => exact agrees_remove h hl key
  | size self => exact agrees_size h hl
  | walk self => exact agrees_walk h hl
  | rehash self iSize mallocs =>
    obtain ⟨hw, hfresh, t, ht, hroom⟩ := hl
    exact agrees_rehash h ht hw hfresh hroom
  | setHash self fnHash =>
    obtain ⟨t, ht, hempty⟩ := hl
    exact agrees_setHash h ht hempty fnHash
  | setHeuristics self iHeuristics => exact agrees_setHeuristics h hl iHeuristics
  | setRehash self bRehash => exact agrees_setRehash h hl bRehash
  | finalize self => exact agrees_finalize h hl

theorem Agrees.step {s : HashProgram × Maps} (h : Agrees s) {op : HashOp} (hl : op.LegalIn s) :
    Agrees (HashOp.both s op) := by
  obtain ⟨s₁, q⟩ := s
  obtain ⟨auto, w, age, hs, h⟩ := h
  simp only at hs h
  subst hs
  exact ⟨_, (h.agrees hl).agrees⟩

/-- A call by itself: what it returns and leaves is what the maps give, and it takes no other memory than what
`fn_alloc` returns. -/
theorem TablesAre.call {map : Ptr → Option (Table Ptr)} (h : TablesAre w map age auto) {o : HashOp} (hl : o.Legal w) :
    ∃ w' age' r, w.call o = .ok (w', r) ∧ (Maps.step ⟨map, []⟩ o).returned = [r] ∧
      TablesAre w' (Maps.step ⟨map, []⟩ o).map age' (o.auto auto) ∧
      ∀ b, w.entries b = none → b ∉ o.mallocs → w'.entries b = none := by
  obtain ⟨⟨w', age', hok, hare⟩, hframe⟩ := TablesAre.agrees (q := ⟨map, []⟩) h hl
  obtain ⟨⟨w₁, r⟩, hcall, hret⟩ : ∃ x, w.call o = .ok x ∧ (.ok (x.1, [x.2]) : HashProgram) =
      .ok (w', (Maps.step ⟨map, []⟩ o).returned) := by
    unfold HashOp.both HashProgram.step at hok
    simp only [ok_bind] at hok
    rcases hc : w.call o with f | x
    · rw [hc] at hok
      cases hok
    · rw [hc] at hok
      exact ⟨x, rfl, hok⟩
  obtain ⟨rfl, hr⟩ := Prod.mk.inj (Except.ok.inj hret)
  exact ⟨w₁, age', r, hcall, hr.symm, hare, hframe w₁ r hcall⟩

end

/-! ## A run -/

theorem noTables_agrees : Agrees noTables :=
  ⟨fun _ => 0, _, fun _ => [], rfl, ⟨fun _ _ => ⟨rfl, rfl⟩, fun _ _ h => (by cases h), fun _ _ _ => List.disjoint_nil_left _,
    fun _ h => absurd rfl h⟩⟩

/-- In a run of calls on tables that were made, with data that is not NULL and memory for every rehash, the
tables are finite maps after every call: no call comes to a fault, each returns what the map gives, and
the entries that are allocated are those of the tables. The number of entries in a bucket is taken for an
`int`. -/
theorem tables_are_maps {ops : List HashOp} (hlegal : Machine.AllSteps HashOp.both HashOp.LegalIn noTables ops) :
    ∀ js, js <+: ops → Agrees (Machine.run HashOp.both noTables js) := by
  rintro js ⟨ks, rfl⟩
  exact Machine.AllSteps.invariant (fun s op h hl => h.step hl) noTables_agrees (Machine.AllSteps.append.1 hlegal).1

/-- Calls on two tables of one bucket each; the fourth entry of the first one makes it rehash. -/
def someHashCalls : List HashOp :=
  [.create 1 1, .setHash 1 (fun key => UInt32.ofNat key.length), .setRehash 1 1, .setHeuristics 1 2, .create 2 1,
    .insert 1 7 [97] 16 [], .insert 1 8 [98] 17 [], .insert 2 7 [97] 18 [], .insert 1 9 [97] 19 [],
    .insert 1 5 [99, 99] 20 [], .insert 1 6 [100] 21 [22, 23, 24], .get 1 [97], .remove 1 [98], .walk 1, .finalize 2]

theorem roomFor_of_walk {w : HashMem} {t : GhtHashTableT} {mallocs : List Ptr} {cs : List (List UInt8 × Ptr)}
    (hwalk : ghtWalk w.entries t = .ok cs) (h0 : 0 ∉ mallocs) (hlen : cs.length ≤ mallocs.length) : RoomFor w t mallocs := by
  refine ⟨h0, fun cs' hcs => ?_⟩
  rw [hwalk] at hcs
  cases hcs
  exact hlen

theorem someHashCalls_legal : Machine.AllSteps HashOp.both HashOp.LegalIn noTables someHashCalls := by
  refine ⟨⟨rfl, by decide⟩, ⟨_, rfl, rfl⟩, Option.some_ne_none _, Option.some_ne_none _, ⟨rfl, by decide⟩, ?_⟩
  have hfresh {m : Entries} {p : Ptr} (hp : m p = none) : Fresh m [p] := ⟨by simp [hp], by simp⟩
  refine ⟨⟨by decide, hfresh rfl, _, rfl, fun h => absurd h (by decide)⟩,
    ⟨by decide, hfresh rfl, _, rfl, fun h => absurd h (by decide)⟩,
    ⟨by decide, hfresh rfl, _, rfl, fun h => absurd h (by decide)⟩,
    ⟨by decide, hfresh rfl, _, rfl, fun h => absurd h (by decide)⟩,
    ⟨by decide, hfresh rfl, _, rfl, fun h => absurd h (by decide)⟩, ?_⟩
  refine ⟨⟨by decide, ⟨fun a ha _ => ?_, by simp⟩, _, rfl, fun _ => ⟨roomFor_of_walk rfl (by decide) (by decide), by decide⟩⟩,
    Option.some_ne_none _, Option.some_ne_none _, Option.some_ne_none _, Option.some_ne_none _, trivial⟩
  fin_cases ha <;> rfl

theorem someHashCalls_agree : (∀ js, js <+: someHashCalls → Agrees (Machine.run HashOp.both noTables js)) ∧
    (Machine.run HashOp.both noTables someHashCalls).2.returned =
      [.none, .none, .none, .none, .none, .code 0, .code 0, .code 0, .code (-1), .code 0, .code 0, .data 7, .data 8,
        .items [([97], 7), ([99, 99], 5), ([100], 6)], .none] :=
  ⟨tables_are_maps someHashCalls_legal, by decide⟩

end PubsubBroker

/-
The tables of the server where the source has them: `subscibe_table`, `subcli_table` and `sub_commands` are hash
tables in memory, and the client set of a topic is a set of `hset.c`. In a run of the server every use that it
makes of them comes to no fault and gives what the maps of the model give.
-/
import PubsubBroker.Broker.Clients
import PubsubBroker.Common.Hset

namespace PubsubBroker

open CLang

/-! ## The tables in memory -/

def SIZE512 : UInt32 := 512
def SUB_SET_LEN : UInt32 := 16

/-- A use that the server makes of its tables. -/
inductive TableCall
  /-- `process_command` looks the command `name` up. -/
  | command (name : Sds)
  /-- `subscribe_channel` for the client at `r`, whose id is `id`. -/
  | subscribe (r : Nat) (id channel : Sds)
  /-- `single_chan_publish` goes over the clients of a channel. -/
  | publish (channel : Sds)
  /-- `accept_sub_handler` registers the client at `r`. -/
  | register (r : Nat) (id : Sds)

/-- What the server gets from it. -/
inductive TableRet
  | command (cmd : Option SubCommand)
  | status (st : Status)
  | clients (cs : List Ptr)
  | registered

/-- The addresses that `malloc` returns in a call: for a set, for its stand-in value and its table, for the entry
that goes into the set and for the one that goes into a table of the server. -/
structure Mallocs where
  self : Ptr
  fakeVal : Ptr
  table : Ptr
  member : Ptr
  entry : Ptr

/-- The trie, and the addresses of the tables. -/
structure HashStores (T : Datrie) where
  mem : HsetMem
  subTrie : T.Trie
  subscibeTable : Ptr
  subcliTable : Ptr
  subCommands : Ptr

/-- The maps of the server. -/
structure Stores (T : Datrie) extends Topics T where
  subcliTable : Table Nat

section
variable {T : Datrie} (conv : Iconv)

/-- `sub_command_table + i` -/
def commandAddr (i : Nat) : Ptr := UInt64.ofNat (i + 1)

/-- The command that a pointer into `sub_command_table` is to. -/
def commandAt (p : Ptr) : Option SubCommand := if p = 0 then none else subCommandTable[p.toNat - 1]?

/-- The loop of `sub_commands_init` from the `i`-th command on. -/
def insertCommands (subCommands : Ptr) : HsetMem → Nat → List SubCommand → List Ptr → Except HashFault HsetMem
  | w, _, [], _ => .ok w
  | w, i, cmd :: cmds, mallocs => do
    let (w, _) ← w.ght (.insert subCommands (commandAddr i) cmd.name (mallocs.headD 0) [])
    insertCommands subCommands w (i + 1) cmds mallocs.tail

/-- `sub_commands_init()` -/
def subCommandsInit (w : HsetMem) (subCommands : Ptr) (mallocs : List Ptr) : Except HashFault HsetMem := do
  let (w, _) ← w.ght (.create subCommands (3 * UInt32.ofNat subCommandTable.length))
  insertCommands subCommands w 0 subCommandTable mallocs

variable (T) in
/-- The part of `server_init` that makes the tables and the trie. -/
def HashStores.init (subcliTable subscibeTable subCommands : Ptr) (mallocs : List Ptr) : Except HashFault (HashStores T) := do
  let (w, _) ← HsetMem.ght ⟨⟨fun _ => none, fun _ => none⟩, fun _ => none⟩ (.create subcliTable SIZE512)
  let (w, _) ← w.ght (.create subscibeTable SIZE512)
  let w ← subCommandsInit w subCommands mallocs
  return ⟨w, T.create, subscibeTable, subcliTable, subCommands⟩

/-- A new topic in `subscribe_channel`: the caller goes into a set, and the set into the table. -/
def storeTopic (s : HashStores T) (client : Ptr) (id channel : Sds) (m : Mallocs) :
    Except HashFault (HashStores T × Status) := do
  let (w, hs) ← hsetCreate s.mem SUB_SET_LEN m.self m.fakeVal m.table
  let (w, _) ← hsetInsert w hs id client m.member
  let (w, r) ← w.ght (.insert s.subscibeTable hs channel m.entry [])
  if r = .code (-1) then do
    let w ← hsetRelease w hs
    return ({ s with mem := w }, .err)
  else return ({ s with mem := w }, .ok)

/-- `subscribe_channel(c, channel)` for the client at the address `client`. -/
def subscribeChannelHash (s : HashStores T) (client : Ptr) (id channel : Sds) (m : Mallocs) :
    Except HashFault (HashStores T × Status) :=
  if T.retrieve s.subTrie (chanAlpha conv channel) then .ok (s, .ok)
  else
    match T.store s.subTrie (chanAlpha conv channel) with
    | none => .ok (s, .err)
    | some trie => storeTopic { s with subTrie := trie } client id channel m

/-- The pointer that a call returns. -/
def HashRet.pointer : HashRet → Ptr
  | .data p => p
  | _ => 0

/-- The data that a loop over a table comes by. -/
def HashRet.walked : HashRet → List Ptr
  | .items cs => cs.map Prod.snd
  | _ => []

/-- The clients that the loop of `single_chan_publish` goes over. What it does for a client leaves the tables
alone. -/
def chanClients (w : HsetMem) (subSet : Ptr) : Except HashFault (HsetMem × List Ptr) :=
  if subSet = 0 then .ok (w, [])
  else (hsetWalk w subSet).map fun r => (r.1, r.2.walked)

/-- A use of the tables, where the client at `r` is at the address `addr r`. -/
def HashStores.call (addr : Nat → Ptr) (s : HashStores T) (m : Mallocs) : TableCall → Except HashFault (HashStores T × TableRet)
  | .command name => do
    let (w, r) ← s.mem.ght (.get s.subCommands name)
    return ({ s with mem := w }, .command (commandAt r.pointer))
  | .subscribe r id channel => do
    let (s, st) ← subscribeChannelHash conv s (addr r) id channel m
    return (s, .status st)
  | .publish channel => do
    let (w, r) ← s.mem.ght (.get s.subscibeTable channel)
    let (w, cs) ← chanClients w r.pointer
    return ({ s with mem := w }, .clients cs)
  | .register r id => do
    let (w, _) ← s.mem.ght (.insert s.subcliTable (addr r) id m.entry [])
    return ({ s with mem := w }, .registered)

/-! ## The maps -/

/-- The same use of the maps. -/
def Stores.call (addr : Nat → Ptr) (t : Stores T) : TableCall → Stores T × TableRet
  | .command name => (t, .command (subCommandTable.find? (·.name = name)))
  | .subscribe r id channel =>
    let (st, topics) := subscribeChannel conv t.toTopics r id channel
    ({ t with toTopics := topics }, .status st)
  | .publish channel => (t, .clients ((t.members channel).map addr))
  | .register r id => ({ t with subcliTable := (t.subcliTable.insert id r).getD t.subcliTable }, .registered)

def Broker.stores (b : Broker T) : Stores T := ⟨b.toTopics, b.subcliTable⟩

/-- The uses that an event makes of the tables. -/
def tableCalls (b : Broker T) : Op → List TableCall
  | .accept _ sec pid _ _ => [.register b.subClis.length (createObjectid sec pid (toInt (b.subIncCounter + 1)))]
  | .command r argv0 topics =>
    match b.subClis[r]? with
    | none => []
    | some c =>
      if c.live then
        .command (commandName argv0) ::
          if commandName argv0 = ascii "subscribe" then topics.map (.subscribe r c.id ·) else []
      else []
  | .publish msg junk => (publishedTo conv b msg junk).map .publish
  | .readFail _ | .writable _ _ _ => []

/-! ## What the memory holds -/

/-- A set in memory that holds the clients of a topic. -/
def HoldsClients (addr : Nat → Ptr) (set : Ptr → Option (Ptr × Table Ptr)) (p : Ptr) (subSet : Table Nat) : Prop :=
  ∃ fakeVal tbl, set p = some (fakeVal, tbl) ∧ Table.Rel (fun q r => q = addr r) tbl subSet

/-- What `sub_commands_init` puts into its table. -/
def commandEntries : List (List UInt8 × Ptr) := subCommandTable.zipIdx.map fun c => (c.1.name, commandAddr c.2)

/-- The tables in memory hold what the maps hold, and none of the three is the table of a set. There is no set
but those of the topics, and no table but the three and those of the sets. -/
structure StoresAre (addr : Nat → Ptr) (s : HashStores T) (t : Stores T) (map : Ptr → Option (Table Ptr))
    (set : Ptr → Option (Ptr × Table Ptr)) : Prop where
  sets : SetsAre s.mem map set
  subTrie : s.subTrie = t.subTrie
  topics : ∃ tbl, map s.subscibeTable = some tbl ∧ Table.Rel (HoldsClients addr set) tbl t.subscibeTable
  clients : ∃ tbl, map s.subcliTable = some tbl ∧ Table.Rel (fun q r => q = addr r) tbl t.subcliTable
  commands : ∃ tbl, map s.subCommands = some tbl ∧ tbl.entries = commandEntries
  own : ∀ r hr, s.mem.hsets r = some hr →
    hr.table ≠ s.subscibeTable ∧ hr.table ≠ s.subcliTable ∧ hr.table ≠ s.subCommands
  stored : ∀ r hr, s.mem.hsets r = some hr → ∃ tbl, map s.subscibeTable = some tbl ∧ ∃ e ∈ tbl.entries, e.2 = r
  owned : Owned s.mem map [s.subscibeTable, s.subcliTable, s.subCommands]
  apart : s.subscibeTable ≠ s.subcliTable ∧ s.subscibeTable ≠ s.subCommands ∧ s.subcliTable ≠ s.subCommands

section
variable {addr : Nat → Ptr} {s : HashStores T} {t : Stores T} {map : Ptr → Option (Table Ptr)}
  {set : Ptr → Option (Ptr × Table Ptr)}

/-- The tables other than `subscibe_table` are what they were, and no set is lost. -/
theorem StoresAre.topics_changed (h : StoresAre addr s t map set) {w : HsetMem} {map' : Ptr → Option (Table Ptr)}
    {set' : Ptr → Option (Ptr × Table Ptr)} {table : Table (Table Nat)} (hw : SetsAre w map' set')
    (hmap : ∀ q tbl, q ≠ s.subscibeTable → map q = some tbl → map' q = some tbl)
    (hown : ∀ r hr, w.hsets r = some hr → s.mem.hsets r = some hr ∨ s.mem.mem.tables hr.table = none)
    (htopics : ∃ tbl, map' s.subscibeTable = some tbl ∧ Table.Rel (HoldsClients addr set') tbl table)
    (hstored : ∀ r hr, w.hsets r = some hr → ∃ tbl, map' s.subscibeTable = some tbl ∧ ∃ e ∈ tbl.entries, e.2 = r)
    (howned : Owned w map' [s.subscibeTable, s.subcliTable, s.subCommands]) :
    StoresAre addr { s with mem := w } { t with subscibeTable := table } map' set' := by
  obtain ⟨topics, hmapT, -⟩ := h.topics
  obtain ⟨clients, hmapC, hclients⟩ := h.clients
  obtain ⟨commands, hmapK, hcommands⟩ := h.commands
  refine ⟨hw, h.subTrie, htopics, ⟨clients, hmap _ _ (Ne.symm h.apart.1) hmapC, hclients⟩,
    ⟨commands, hmap _ _ (Ne.symm h.apart.2.1) hmapK, hcommands⟩, fun r hr hhr => ?_, hstored, howned, h.apart⟩
  rcases hown r hr hhr with hold | hnew
  · exact h.own r hr hold
  · refine ⟨?_, ?_, ?_⟩
    · rintro rfl'
      exact h.sets.used hmapT (rfl' ▸ hnew)
    · rintro rfl'
      exact h.sets.used hmapC (rfl' ▸ hnew)
    · rintro rfl'
      exact h.sets.used hmapK (rfl' ▸ hnew)

/-- The memory has changed without any table or set changing what it stands for. -/
theorem StoresAre.of_mem (h : StoresAre addr s t map set) {w : HsetMem} (hw : SetsAre w map set)
    (hsets : w.hsets = s.mem.hsets) : StoresAre addr { s with mem := w } t map set :=
  { h with
    sets := hw
    own := hsets ▸ h.own
    stored := hsets ▸ h.stored
    owned := fun q hq => hsets ▸ h.owned q hq }

theorem commandAt_get {tbl : Table Ptr} (h : tbl.entries = commandEntries) (name : Sds) :
    commandAt ((tbl.get name).getD 0) = subCommandTable.find? (·.name = name) := by
  have hget : (tbl.get name).getD 0 = ((commandEntries.find? (·.1 = name)).map Prod.snd).getD 0 := by
    rw [Table.get, h]
  rw [hget]
  unfold commandEntries subCommandTable
  simp only [List.zipIdx_cons, List.zipIdx_nil, List.map_cons, List.map_nil, List.find?_cons, List.find?_nil]
  by_cases h₁ : ascii "ping" = name
  · subst h₁
    rfl
  · by_cases h₂ : ascii "subscribe" = name
    · subst h₂
      rfl
    · by_cases h₃ : ascii "unsubscribe" = name
      · subst h₃
        rfl
      · simp [h₁, h₂, h₃]
        rfl

/-- A command is looked up. -/
theorem StoresAre.command (h : StoresAre addr s t map set) (name : Sds) (m : Mallocs) :
    ∃ w, s.call conv addr m (.command name) = .ok ({ s with mem := w }, (t.call conv addr (.command name)).2) ∧
      StoresAre addr { s with mem := w } t map set := by
  obtain ⟨tbl, hmap, hentries⟩ := h.commands
  obtain ⟨w, hok, hkeeps, hare⟩ := h.sets.asked hmap (o := .get s.subCommands name) (h.sets.used hmap) rfl rfl
  refine ⟨w, ?_, h.of_mem hare hkeeps.hsets⟩
  rw [HashStores.call, hok, ok_bind]
  simp only [HashRet.pointer, commandAt_get hentries]
  rfl

/-- The clients of a channel are gone over. -/
theorem StoresAre.publish (h : StoresAre addr s t map set) (channel : Sds) (m : Mallocs) :
    ∃ w, s.call conv addr m (.publish channel) = .ok ({ s with mem := w }, (t.call conv addr (.publish channel)).2) ∧
      StoresAre addr { s with mem := w } t map set := by
  obtain ⟨tbl, hmap, hrel⟩ := h.topics
  obtain ⟨w, hok, hkeeps, hare⟩ := h.sets.asked hmap (o := .get s.subscibeTable channel) (h.sets.used hmap) rfl rfl
  have h' := h.of_mem hare hkeeps.hsets
  rw [HashStores.call, hok, ok_bind]
  simp only
  rcases hrel.get channel with ⟨hget, hget'⟩ | ⟨p, subSet, hget, hget', fakeVal, members, hset, hmembers⟩
  · refine ⟨w, ?_, h'⟩
    rw [hget]
    simp only [Stores.call, Topics.members, hget']
    rfl
  · -- a set is not at NULL, so `single_chan_publish` goes over it
    have hp : p ≠ 0 := by
      have hnull := h.sets.get_eq_null hmap channel
      rw [hget] at hnull
      exact fun h0 => absurd (hnull.1 h0) (Option.some_ne_none p)
    obtain ⟨-, hs, hhs, -, htable⟩ := hare.held p _ hset
    obtain ⟨w', hok', hkeeps', hare'⟩ := hare.asked htable (o := .walk hs.table) (hare.used htable) rfl rfl
    refine ⟨w', ?_, h'.of_mem hare' hkeeps'.hsets⟩
    -- the addresses in the set are those of the clients, in their order
    have hclients : members.entries.map Prod.snd = (subSet.entries.map Prod.snd).map addr := by
      have hvals : ∀ {l : List (List UInt8 × Ptr)} {l' : List (List UInt8 × Nat)},
          List.Forall₂ (fun e e' => e.1 = e'.1 ∧ e.2 = addr e'.2) l l' → l.map Prod.snd = (l'.map Prod.snd).map addr := by
        intro l l' hl
        induction hl with
        | nil => rfl
        | cons he _ ih => rw [List.map_cons, List.map_cons, List.map_cons, he.2, ih]
      exact hvals hmembers
    have hwalk : hsetWalk w p = .ok (w', .items members.entries) := by
      rw [hsetWalk, HsetMem.hset_of_some hhs, ok_bind]
      exact hok'
    have hchan : chanClients w p = .ok (w', (t.members channel).map addr) := by
      rw [chanClients, if_neg hp, hwalk]
      simp only [Except.map, HashRet.walked, hclients, Topics.members, hget', Option.map_some, Option.getD_some]
    rw [hget, Option.getD_some, HashRet.pointer, hchan, ok_bind]
    rfl

/-- A client is registered, unless the id is there. -/
theorem StoresAre.register (h : StoresAre addr s t map set) {r : Nat} (haddr : addr r ≠ 0) (id : Sds) {m : Mallocs}
    (hentry : m.entry ≠ 0) (hfree : s.mem.mem.entries m.entry = none) :
    ∃ s' map', s.call conv addr m (.register r id) = .ok (s', (t.call conv addr (.register r id)).2) ∧
      StoresAre addr s' (t.call conv addr (.register r id)).1 map' set := by
  obtain ⟨tbl, hmap, hrel⟩ := h.clients
  have hfresh : Fresh s.mem.mem.entries [m.entry] := ⟨by simp [hfree], by simp⟩
  obtain ⟨w, hok, hkeeps, hare⟩ := h.sets.other hmap (fun q hq hhq => (h.own q hq hhq).2.1)
    (h.sets.legal_insert hmap haddr hfresh id) rfl rfl
  refine ⟨{ s with mem := w }, _, ?_, ⟨hare, h.subTrie, ?_, ?_, ?_, hkeeps.hsets ▸ h.own, fun q hq hhq => ?_,
    h.owned.update hkeeps.hsets hmap _, h.apart⟩⟩
  · rw [HashStores.call, hok, ok_bind]
    rfl
  · obtain ⟨topics, htopics, hrest⟩ := h.topics
    exact ⟨topics, (Function.update_of_ne h.apart.1 ..).trans htopics, hrest⟩
  · refine ⟨_, Function.update_self .., ?_⟩
    rcases hrel.insert (R := fun q r => q = addr r) (w := r) rfl id with ⟨hins, hins'⟩ | ⟨u, u', hins, hins', hu⟩
    · simp only [Stores.call, hins, hins']
      exact hrel
    · simp only [Stores.call, hins, hins', if_neg hentry]
      exact hu
  · obtain ⟨commands, hcommands, hrest⟩ := h.commands
    exact ⟨commands, (Function.update_of_ne (Ne.symm h.apart.2.2) ..).trans hcommands, hrest⟩
  · rw [hkeeps.hsets] at hhq
    obtain ⟨topics, htopics, he⟩ := h.stored q hq hhq
    exact ⟨topics, (Function.update_of_ne h.apart.1 ..).trans htopics, he⟩

/-- The addresses that `malloc` returns in `subscribe_channel` are not in use. -/
structure Mallocs.New (m : Mallocs) (w : HsetMem) : Prop where
  self : m.self ≠ 0 ∧ w.hsets m.self = none
  fakeVal : m.fakeVal ≠ 0
  table : w.mem.tables m.table = none
  member : m.member ≠ 0 ∧ w.mem.entries m.member = none
  entry : m.entry ≠ 0 ∧ w.mem.entries m.entry = none
  ne : m.entry ≠ m.member

/-- A set is made for a caller. -/
theorem SetsAre.newSet {w : HsetMem} (h : SetsAre w map set) {own : List Ptr} (hown : Owned w map own) {m : Mallocs}
    (hm : m.New w) {client : Ptr} (hclient : client ≠ 0) (id : Sds) :
    ∃ w₁ w₂ map' set', hsetCreate w SUB_SET_LEN m.self m.fakeVal m.table = .ok (w₁, m.self) ∧
      hsetInsert w₁ m.self id client m.member = .ok (w₂, .code 0) ∧
      w₂.hsets = Function.update w.hsets m.self (some ⟨m.table, m.fakeVal⟩) ∧ w₂.mem.entries m.entry = none ∧
      (∀ q, q ≠ m.table → map' q = map q) ∧ (∀ p, p ≠ m.self → set' p = set p) ∧
      (∃ members, Table.empty.insert id client = some members ∧ set' m.self = some (m.fakeVal, members)) ∧
      SetsAre w₂ map' set' ∧ Owned w₂ map' own := by
  obtain ⟨w₁, hok₁, hhsets₁, hentries₁, hare₁⟩ := h.create (n := SUB_SET_LEN) hm.self.1 hm.fakeVal hm.self.2 hm.table
    (by decide)
  have hhs : w₁.hsets m.self = some ⟨m.table, m.fakeVal⟩ := by rw [hhsets₁, Function.update_self]
  have hmap : Function.update map m.table (some Table.empty) m.table = some Table.empty := Function.update_self ..
  have hfresh : Fresh w₁.mem.entries [m.member] := ⟨by simp [hentries₁ _ hm.member.2], by simp⟩
  obtain ⟨w₂, hok₂, hkeeps, hare₂⟩ := hare₁.ght (Function.update_self ..) hhs hmap
    (hare₁.legal_insert hmap hclient hfresh id) rfl rfl
  obtain ⟨members, hins⟩ : ∃ members, Table.empty.insert id client = some members := ⟨_, rfl⟩
  simp only [hins, if_neg hm.member.1] at hok₂ hare₂
  refine ⟨w₁, w₂, _, _, hok₁, ?_, hkeeps.hsets.trans hhsets₁, ?_, fun q hq => ?_, fun p hp => ?_, ⟨members, hins, ?_⟩, hare₂,
    (hown.create hm.self.2 hhsets₁ _).update hkeeps.hsets hmap _⟩
  · rw [hsetInsert, HsetMem.hset_of_some hhs, ok_bind, if_neg hclient]
    exact hok₂
  · exact hkeeps.entries _ (hentries₁ _ hm.entry.2) fun hmem => hm.ne (List.mem_singleton.1 hmem)
  · rw [Function.update_of_ne hq, Function.update_of_ne hq]
  · rw [Function.update_of_ne hp, Function.update_of_ne hp]
  · exact Function.update_self ..

instance (m : Mallocs) (w : HsetMem) : Decidable (m.New w) :=
  decidable_of_iff ((m.self ≠ 0 ∧ w.hsets m.self = none) ∧ m.fakeVal ≠ 0 ∧ w.mem.tables m.table = none ∧
      (m.member ≠ 0 ∧ w.mem.entries m.member = none) ∧ (m.entry ≠ 0 ∧ w.mem.entries m.entry = none) ∧ m.entry ≠ m.member)
    ⟨fun h => ⟨h.1, h.2.1, h.2.2.1, h.2.2.2.1, h.2.2.2.2.1, h.2.2.2.2.2⟩,
      fun h => ⟨h.self, h.fakeVal, h.table, h.member, h.entry, h.ne⟩⟩

/-- A new topic is stored, or its set is released again if the table has the topic. -/
theorem StoresAre.storeTopic (h : StoresAre addr s t map set) {r : Nat} (haddr : addr r ≠ 0) (id channel : Sds) {m : Mallocs}
    (hm : m.New s.mem) :
    (t.subscibeTable.insert channel ((Table.empty.insert id r).getD Table.empty) = none ∧
      ∃ s' map' set', storeTopic s (addr r) id channel m = .ok (s', .err) ∧ StoresAre addr s' t map' set') ∨
    ∃ table, t.subscibeTable.insert channel ((Table.empty.insert id r).getD Table.empty) = some table ∧
      ∃ s' map' set', storeTopic s (addr r) id channel m = .ok (s', .ok) ∧
        StoresAre addr s' { t with subscibeTable := table } map' set' := by
  obtain ⟨tbl, hmap, hrel⟩ := h.topics
  obtain ⟨w₁, w₂, map₂, set₂, hok₁, hok₂, hhsets₂, hentry₂, hmap₂, hset₂, ⟨members, hmembers, hself₂⟩, hare₂, howned₂⟩ :=
    h.sets.newSet h.owned hm haddr id
  have hne {q : Ptr} {u : Table Ptr} (hq : map q = some u) : q ≠ m.table := fun he => h.sets.used hq (he ▸ hm.table)
  have hmapT : map₂ s.subscibeTable = some tbl := (hmap₂ _ (hne hmap)).trans hmap
  -- the sets of the topics so far are where they were
  have hstay {set' : Ptr → Option (Ptr × Table Ptr)} (hset' : ∀ p, p ≠ m.self → set' p = set p) (p : Ptr) (u : Table Nat)
      (hp : HoldsClients addr set p u) : HoldsClients addr set' p u := by
    obtain ⟨fakeVal, members, hset, hclients⟩ := hp
    obtain ⟨-, hs, hhs, -⟩ := h.sets.held p _ hset
    have hps : p ≠ m.self := by
      rintro rfl
      rw [hm.self.2] at hhs
      cases hhs
    exact ⟨fakeVal, members, (hset' p hps).trans hset, hclients⟩
  have hown {w : HsetMem} (hw : w.hsets = Function.update s.mem.hsets m.self (some ⟨m.table, m.fakeVal⟩)) (q : Ptr) (hq : Hset)
      (hhq : w.hsets q = some hq) : s.mem.hsets q = some hq ∨ s.mem.mem.tables hq.table = none := by
    rw [hw] at hhq
    by_cases hqs : q = m.self
    · subst hqs
      rw [Function.update_self] at hhq
      cases hhq
      exact .inr hm.table
    · rw [Function.update_of_ne hqs] at hhq
      exact .inl hhq
  -- the new set has the caller
  have hnew : HoldsClients addr set₂ m.self ((Table.empty.insert id r).getD Table.empty) := by
    refine ⟨m.fakeVal, members, hself₂, ?_⟩
    rcases Table.Rel.empty.insert (R := fun q r => q = addr r) (w := r) rfl id with ⟨hins, -⟩ | ⟨u, u', hins, hins', hu⟩
    · rw [hmembers] at hins
      cases hins
    · rw [hmembers] at hins
      cases hins
      rw [hins', Option.getD_some]
      exact hu
  have hfresh : Fresh w₂.mem.entries [m.entry] := ⟨by simp [hentry₂], by simp⟩
  have hself : m.self ≠ 0 := hm.self.1
  have hno (q : Ptr) (hq : Hset) (hhq : w₂.hsets q = some hq) : hq.table ≠ s.subscibeTable := by
    rcases hown hhsets₂ q hq hhq with hold | hfree
    · exact (h.own q hq hold).1
    · rintro he
      exact h.sets.used hmap (he ▸ hfree)
  obtain ⟨w₃, hok₃, hkeeps, hare₃⟩ := hare₂.other hmapT hno (hare₂.legal_insert hmapT hself hfresh channel) rfl rfl
  have hhsets₃ : w₃.hsets = Function.update s.mem.hsets m.self (some ⟨m.table, m.fakeVal⟩) := hkeeps.hsets.trans hhsets₂
  have hstored := hrel.mono (hstay hset₂)
  -- the table refuses a topic that it has already, and then the set goes again
  rcases hstored.insert hnew channel with ⟨hins, hins'⟩ | ⟨u, u', hins, hins', hu⟩
  · simp only [hins] at hok₃ hare₃
    rw [Function.update_eq_self_iff.2 hmapT.symm] at hare₃
    have hhs : w₃.hsets m.self = some ⟨m.table, m.fakeVal⟩ := by rw [hhsets₃, Function.update_self]
    obtain ⟨hs, w₄, hhs', hok₄, hhsets₄, hare₄⟩ := hare₃.release (p := m.self) (by rw [hhs]; exact Option.some_ne_none _)
    rw [hhs] at hhs'
    cases hhs'
    have hrun : PubsubBroker.storeTopic s (addr r) id channel m = .ok ({ s with mem := w₄ }, .err) := by
      rw [PubsubBroker.storeTopic, hok₁, ok_bind]
      simp only
      rw [hok₂, ok_bind]
      simp only
      rw [hok₃, ok_bind]
      simp only [if_true]
      rw [hok₄]
      rfl
    have hhsets₄' := hhsets₄
    rw [hhsets₃, Function.update_idem] at hhsets₄
    have hset₄ (p : Ptr) (hp : p ≠ m.self) : Function.update set₂ m.self none p = set p :=
      (Function.update_of_ne hp ..).trans (hset₂ p hp)
    have hown₄ (q : Ptr) (hq : Hset) (hhq : w₄.hsets q = some hq) : s.mem.hsets q = some hq := by
      have hqs : q ≠ m.self := by
        rintro rfl
        rw [hhsets₄, Function.update_self] at hhq
        cases hhq
      rwa [hhsets₄, Function.update_of_ne hqs] at hhq
    have hmapT₄ : Function.update map₂ m.table none s.subscibeTable = some tbl := by
      rw [Function.update_of_ne (hne hmap)]
      exact hmapT
    refine .inl ⟨hins', _, _, _, hrun, h.topics_changed hare₄ (fun q v _ hv => ?_) (fun q hq hhq => .inl (hown₄ q hq hhq))
      ⟨tbl, hmapT₄, hrel.mono (hstay hset₄)⟩ (fun q hq hhq => ?_) ?_⟩
    · rw [Function.update_of_ne (hne hv), hmap₂ q (hne hv)]
      exact hv
    · -- what is left are the sets of the topics
      obtain ⟨topics, htopics, he⟩ := h.stored q hq (hown₄ q hq hhq)
      rw [hmap] at htopics
      cases htopics
      exact ⟨tbl, hmapT₄, he⟩
    · exact Owned.release (fun q hq => hkeeps.hsets ▸ howned₂ q hq) hhs hhsets₄'
  · simp only [hins, if_neg hm.entry.1] at hok₃ hare₃
    have hrun : PubsubBroker.storeTopic s (addr r) id channel m = .ok ({ s with mem := w₃ }, .ok) := by
      rw [PubsubBroker.storeTopic, hok₁, ok_bind]
      simp only
      rw [hok₂, ok_bind]
      simp only
      rw [hok₃, ok_bind]
      rfl
    refine .inr ⟨u', hins', _, _, _, hrun, h.topics_changed hare₃ (fun q v hq hv => ?_) (hown hhsets₃)
      ⟨_, Function.update_self .., hu⟩ (fun q hq hhq => ⟨u, Function.update_self .., ?_⟩)
      (howned₂.update hkeeps.hsets hmapT _)⟩
    · rw [Function.update_of_ne hq, hmap₂ q (hne hv)]
      exact hv
    · -- the new set is that of the new topic
      have hentries := (Table.insert_some hins).2
      rw [hhsets₃] at hhq
      by_cases hqs : q = m.self
      · exact ⟨(channel, m.self), by rw [hentries]; exact List.mem_append_right _ (List.mem_singleton_self _), hqs.symm⟩
      · rw [Function.update_of_ne hqs] at hhq
        obtain ⟨topics, htopics, e, he, heq⟩ := h.stored q hq hhq
        rw [hmap] at htopics
        cases htopics
        exact ⟨e, by rw [hentries]; exact List.mem_append_left _ he, heq⟩

/-- `subscribe_channel`, on the tables and on the maps. -/
theorem StoresAre.subscribe (h : StoresAre addr s t map set) {r : Nat} (haddr : addr r ≠ 0) (id channel : Sds) {m : Mallocs}
    (hm : m.New s.mem) :
    ∃ s' map' set', s.call conv addr m (.subscribe r id channel) = .ok (s', (t.call conv addr (.subscribe r id channel)).2) ∧
      StoresAre addr s' (t.call conv addr (.subscribe r id channel)).1 map' set' := by
  have htrie := h.subTrie
  simp only [HashStores.call, subscribeChannelHash, Stores.call, subscribeChannel]
  rw [htrie]
  split
  · exact ⟨s, map, set, rfl, h⟩
  · rcases hstore : T.store t.subTrie (chanAlpha conv channel) with _ | trie
    · exact ⟨s, map, set, rfl, h⟩
    · have h' : StoresAre addr { s with subTrie := trie } { t with subTrie := trie } map set := { h with subTrie := rfl }
      rcases h'.storeTopic haddr id channel hm with ⟨hins, s', map', set', hok, hare⟩ | ⟨table, hins, s', map', set', hok, hare⟩
      · refine ⟨s', map', set', ?_, ?_⟩
        · simp only [hok, ok_bind, hins]
          rfl
        · simp only [hins]
          exact hare
      · refine ⟨s', map', set', ?_, ?_⟩
        · simp only [hok, ok_bind, hins]
          rfl
        · simp only [hins]
          exact hare

/-- The commands are put into a table one after the other. -/
theorem SetsAre.insertCommands {q : Ptr} : ∀ (cmds : List SubCommand) (i : Nat) (mallocs : List Ptr) {w : HsetMem}
    {map : Ptr → Option (Table Ptr)} {tbl : Table Ptr}, SetsAre w map set → map q = some tbl →
    (∀ r hr, w.hsets r = some hr → hr.table ≠ q) → (tbl.keys ++ cmds.map SubCommand.name).Nodup → i + cmds.length < 2 ^ 64 →
    cmds.length ≤ mallocs.length → mallocs.Nodup → (∀ a ∈ mallocs, a ≠ 0 ∧ w.mem.entries a = none) →
    ∃ w' tbl', insertCommands q w i cmds mallocs = .ok w' ∧ w'.hsets = w.hsets ∧
      tbl'.entries = tbl.entries ++ (cmds.zipIdx i).map (fun c => (c.1.name, commandAddr c.2)) ∧
      SetsAre w' (Function.update map q (some tbl')) set
  | [], i, _, w, map, tbl, h, hq, _, _, _, _, _, _ => by
    refine ⟨w, tbl, rfl, rfl, (List.append_nil _).symm, ?_⟩
    rw [Function.update_eq_self_iff.2 hq.symm]
    exact h
  | cmd :: cmds, i, [], _, _, _, _, _, _, _, _, hlen, _, _ => absurd hlen (Nat.not_succ_le_zero _)
  | cmd :: cmds, i, a :: mallocs, w, map, tbl, h, hq, hno, hkeys, hi, hlen, hnd, hfree => by
    have ha := hfree a (List.mem_cons_self ..)
    have hfresh : Fresh w.mem.entries [a] := ⟨by simp [ha.2], by simp⟩
    have haddr : commandAddr i ≠ 0 := by
      intro h0
      have := congrArg UInt64.toNat h0
      rw [commandAddr, UInt64.toNat_ofNat_of_lt' (by rw [List.length_cons] at hi; show i + 1 < 2 ^ 64; omega)] at this
      exact absurd this (Nat.succ_ne_zero i)
    obtain ⟨w₁, hok, hkeeps, hare⟩ := h.other hq hno (h.legal_insert hq haddr hfresh cmd.name) rfl rfl
    rcases hins : tbl.insert cmd.name (commandAddr i) with _ | tbl₁
    · refine absurd (Table.insert_eq_none.1 hins) fun hmem => ?_
      exact List.disjoint_of_nodup_append hkeys hmem (List.mem_cons_self ..)
    simp only [hins, if_neg ha.1] at hok hare
    have hentries := (Table.insert_some hins).2
    have hkeys₁ : (tbl₁.keys ++ cmds.map SubCommand.name).Nodup := by
      rw [Table.keys, hentries, List.map_append, List.append_assoc]
      exact hkeys
    rw [List.nodup_cons] at hnd
    obtain ⟨w', tbl', hok', hhsets', hentries', hare'⟩ := SetsAre.insertCommands cmds (i + 1) mallocs hare
      (Function.update_self ..) (hkeeps.hsets ▸ hno) hkeys₁ (by rw [List.length_cons] at hi; omega) (Nat.le_of_succ_le_succ hlen)
      hnd.2 fun b hb => ⟨(hfree b (List.mem_cons_of_mem _ hb)).1, hkeeps.entries b (hfree b (List.mem_cons_of_mem _ hb)).2
        fun he => hnd.1 (List.mem_singleton.1 he ▸ hb)⟩
    rw [Function.update_idem] at hare'
    refine ⟨w', tbl', ?_, hhsets'.trans hkeeps.hsets, ?_, hare'⟩
    · rw [PubsubBroker.insertCommands, List.headD_cons, hok, ok_bind]
      exact hok'
    · rw [hentries', hentries, List.zipIdx_cons, List.map_cons, List.append_assoc]
      rfl

end

/-- The tables that `server_init` makes are those of the server that has just started. -/
theorem HashStores.init_are (T : Datrie) (addr : Nat → Ptr) (counter : Int) {subcliTable subscibeTable subCommands : Ptr}
    (htables : [subcliTable, subscibeTable, subCommands].Nodup) {mallocs : List Ptr}
    (hlen : subCommandTable.length ≤ mallocs.length) (hnd : mallocs.Nodup) (h0 : 0 ∉ mallocs) :
    ∃ s map set, HashStores.init T subcliTable subscibeTable subCommands mallocs = .ok s ∧
      StoresAre addr s (Broker.init T counter).stores map set := by
  simp only [List.nodup_cons, List.mem_cons, List.not_mem_nil, or_false, not_or, not_false_eq_true,
    List.nodup_nil, and_true] at htables
  obtain ⟨⟨hne₁, hne₂⟩, hne₃⟩ := htables
  obtain ⟨w₁, hok₁, hkeeps₁, hare₁⟩ := noSets_are.newTable SIZE512 (noSets_are.unused (q := subcliTable) rfl) (by decide)
  obtain ⟨w₂, hok₂, hkeeps₂, hare₂⟩ := hare₁.newTable SIZE512
    (hare₁.unused (q := subscibeTable) (Function.update_of_ne (Ne.symm hne₁) ..)) (by decide)
  obtain ⟨w₃, hok₃, hkeeps₃, hare₃⟩ := hare₂.newTable (3 * UInt32.ofNat subCommandTable.length)
    (hare₂.unused (q := subCommands) (by rw [Function.update_of_ne (Ne.symm hne₃), Function.update_of_ne (Ne.symm hne₂)])) (by decide)
  have hhsets : w₃.hsets = fun _ => none := (hkeeps₃.hsets.trans hkeeps₂.hsets).trans hkeeps₁.hsets
  have hfree (a : Ptr) : w₃.mem.entries a = none :=
    hkeeps₃.entries a (hkeeps₂.entries a (hkeeps₁.entries a rfl List.not_mem_nil) List.not_mem_nil) List.not_mem_nil
  obtain ⟨w, tbl, hok, hhsets', hentries, hare⟩ := hare₃.insertCommands subCommandTable 0 mallocs (Function.update_self ..)
    (fun r hr hhr => by rw [hhsets] at hhr; cases hhr) (by decide) (by decide) hlen hnd
    fun a ha => ⟨fun he => h0 (he ▸ ha), hfree a⟩
  refine ⟨⟨w, T.create, subscibeTable, subcliTable, subCommands⟩, _, _, ?_,
    ⟨hare, rfl, ⟨Table.empty, ?_, .empty⟩, ⟨Table.empty, ?_, .empty⟩, ⟨tbl, ?_, hentries⟩,
    fun r hr hhr => ?_, fun r hr hhr => ?_, ?_, Ne.symm hne₁, hne₃, hne₂⟩⟩
  · rw [HashStores.init, hok₁, ok_bind]
    simp only
    rw [hok₂, ok_bind]
    simp only [subCommandsInit]
    rw [hok₃, ok_bind]
    simp only
    rw [hok]
    rfl
  · show Function.update _ _ _ subscibeTable = _
    rw [Function.update_of_ne hne₃, Function.update_of_ne hne₃, Function.update_self]
  · show Function.update _ _ _ subcliTable = _
    rw [Function.update_of_ne hne₂, Function.update_of_ne hne₂, Function.update_of_ne hne₁, Function.update_self]
  · exact Function.update_self ..
  · rw [hhsets', hhsets] at hhr
    cases hhr
  · rw [hhsets', hhsets] at hhr
    cases hhr
  · -- only the three tables were made
    intro q hq
    left
    by_contra hnot
    simp only [List.mem_cons, List.not_mem_nil, or_false, not_or] at hnot
    rw [Function.update_of_ne hnot.2.2, Function.update_of_ne hnot.2.2, Function.update_of_ne hnot.1,
      Function.update_of_ne hnot.2.1] at hq
    exact hq rfl

/-! ## Runs -/

/-- The addresses that `malloc` returns in a use of the tables are not in use. -/
def TableCall.Legal (s : HashStores T) (m : Mallocs) : TableCall → Prop
  | .register _ _ => m.entry ≠ 0 ∧ s.mem.mem.entries m.entry = none
  | .subscribe _ _ _ => m.New s.mem
  | .command _ | .publish _ => True

instance TableCall.decidableLegal (s : HashStores T) (m : Mallocs) : ∀ c : TableCall, Decidable (c.Legal s m)
  | .register _ _ => inferInstanceAs (Decidable (_ ∧ _))
  | .subscribe _ _ _ => inferInstanceAs (Decidable (m.New s.mem))
  | .command _ | .publish _ => inferInstanceAs (Decidable True)

/-- What one use of the tables gives and leaves. -/
theorem StoresAre.call {addr : Nat → Ptr} {s : HashStores T} {t : Stores T} {map : Ptr → Option (Table Ptr)}
    {set : Ptr → Option (Ptr × Table Ptr)} (h : StoresAre addr s t map set) (haddr : ∀ r, addr r ≠ 0) {c : TableCall}
    {m : Mallocs} (hl : c.Legal s m) :
    ∃ s' map' set', s.call conv addr m c = .ok (s', (t.call conv addr c).2) ∧
      StoresAre addr s' (t.call conv addr c).1 map' set' := by
  cases c with
  | command name =>
    obtain ⟨w, hok, hare⟩ := h.command conv name m
    exact ⟨_, map, set, hok, hare⟩
  | subscribe r id channel => exact h.subscribe conv (haddr r) id channel hl
  | publish channel =>
    obtain ⟨w, hok, hare⟩ := h.publish conv channel m
    exact ⟨_, map, set, hok, hare⟩
  | register r id =>
    obtain ⟨s', map', hok, hare⟩ := h.register conv (haddr r) id hl.1 hl.2
    exact ⟨s', map', set, hok, hare⟩

/-- The server with its tables in memory, and what they have given it. -/
abbrev StoresProgram (T : Datrie) := Except HashFault (HashStores T × List TableRet)

def StoresProgram.step (addr : Nat → Ptr) (p : StoresProgram T) (c : TableCall × Mallocs) : StoresProgram T := do
  let (s, rs) ← p
  let (s, r) ← s.call conv addr c.2 c.1
  return (s, rs ++ [r])

def Stores.step (addr : Nat → Ptr) (t : Stores T × List TableRet) (c : TableCall) : Stores T × List TableRet :=
  ((t.1.call conv addr c).1, t.2 ++ [(t.1.call conv addr c).2])

/-- The next use of the tables, on both sides. -/
def TableCall.both (addr : Nat → Ptr) (p : StoresProgram T × (Stores T × List TableRet)) (c : TableCall × Mallocs) :
    StoresProgram T × (Stores T × List TableRet) :=
  (p.1.step conv addr c, Stores.step conv addr p.2 c.1)

/-- The addresses are not in use in the memory that the program has come to. -/
def TableCall.LegalIn (p : StoresProgram T × (Stores T × List TableRet)) (c : TableCall × Mallocs) : Prop :=
  match p.1 with
  | .error _ => True
  | .ok (s, _) => c.1.Legal s c.2

instance (p : StoresProgram T × (Stores T × List TableRet)) (c : TableCall × Mallocs) : Decidable (TableCall.LegalIn p c) :=
  match h : p.1 with
  | .error _ => decidable_of_iff True (by rw [TableCall.LegalIn, h])
  | .ok (s, _) => decidable_of_iff (c.1.Legal s c.2) (by rw [TableCall.LegalIn, h])

/-- The program has come to no fault, its tables hold what the maps hold and have given what the maps give. -/
def StoresAgree (addr : Nat → Ptr) (p : StoresProgram T × (Stores T × List TableRet)) : Prop :=
  ∃ s map set, p.1 = .ok (s, p.2.2) ∧ StoresAre addr s p.2.1 map set

/-- The tables after `server_init` and the maps of the server that has just started. -/
def startedStores (T : Datrie) (subcliTable subscibeTable subCommands : Ptr) (mallocs : List Ptr) (counter : Int) :
    StoresProgram T × (Stores T × List TableRet) :=
  ((HashStores.init T subcliTable subscibeTable subCommands mallocs).map fun s => (s, []), ((Broker.init T counter).stores, []))

theorem StoresAgree.step {addr : Nat → Ptr} (haddr : ∀ r, addr r ≠ 0) {p : StoresProgram T × (Stores T × List TableRet)}
    (h : StoresAgree addr p) {c : TableCall × Mallocs} (hl : TableCall.LegalIn p c) : StoresAgree addr (TableCall.both conv addr p c) := by
  obtain ⟨p₁, t, rs⟩ := p
  obtain ⟨s, map, set, hp, hare⟩ := h
  simp only at hp hare
  subst hp
  obtain ⟨s', map', set', hok, hare'⟩ := hare.call conv haddr hl
  refine ⟨s', map', set', ?_, hare'⟩
  show StoresProgram.step conv addr (.ok (s, rs)) c = .ok (s', rs ++ [(t.call conv addr c.1).2])
  rw [StoresProgram.step, ok_bind]
  simp only
  rw [hok]
  rfl

variable (reg : Nat → Nat → RegOutcome)

theorem replyAll_subcliTable (b : Broker T) (rs : List (Nat × List Sds)) :
    (replyAll reg b rs).subcliTable = b.subcliTable := by
  have hstep (b : Broker T) (r : Nat × List Sds) : (replyStep reg b r).subcliTable = b.subcliTable := reply_subcliTable ..
  exact Machine.run_proj hstep b rs

/-- A use moves the maps. -/
def storesStep (addr : Nat → Ptr) (t : Stores T) (c : TableCall) : Stores T := (t.call conv addr c).1

theorem run_publish (addr : Nat → Ptr) (t : Stores T) (channels : List Sds) :
    Machine.run (storesStep conv addr) t (channels.map .publish) = t := by
  induction channels with
  | nil => rfl
  | cons channel channels ih => exact ih

theorem run_subscribe (addr : Nat → Ptr) (r : Nat) (id : Sds) : ∀ (channels : List Sds) (t : Stores T),
    Machine.run (storesStep conv addr) t (channels.map (.subscribe r id ·)) =
      { t with toTopics := subscribeChannels conv t.toTopics r id channels }
  | [], _ => rfl
  | channel :: channels, t => by
    rw [List.map_cons, Machine.run_cons, run_subscribe addr r id channels]
    rfl

/-- An event moves the maps by the uses that it makes of them. -/
theorem step_stores (addr : Nat → Ptr) (b : Broker T) (op : Op) :
    (step conv reg b op).stores = Machine.run (storesStep conv addr) b.stores (tableCalls conv b op) := by
  cases op with
  | accept fd sec pid junk out => rfl
  | command r argv0 topics =>
    rcases step_command conv reg b r argv0 topics with ⟨hdead, heq⟩ | ⟨c, hc, hlive, heq⟩
    · have hnone : tableCalls conv b (.command r argv0 topics) = [] := by
        simp only [tableCalls]
        rcases hc : b.subClis[r]? with _ | c
        · rfl
        · exact if_neg fun hlive => hdead ⟨c, hc, hlive⟩
      rw [heq, hnone]
      rfl
    · have hcalls : tableCalls conv b (.command r argv0 topics) = .command (commandName argv0) ::
          if commandName argv0 = ascii "subscribe" then topics.map (.subscribe r c.id ·) else [] := by
        simp only [tableCalls, hc, hlive, if_true]
      rw [heq, hcalls, Machine.run_cons, Broker.stores, reply_toTopics, reply_subcliTable, commandTopics]
      split
      · exact (run_subscribe conv addr r c.id topics b.stores).symm
      · rfl
  | publish msg junk =>
    simp only [step, tableCalls, processPubReadBuf_eq]
    rw [run_publish, Broker.stores, Broker.stores, replyAll_toTopics, replyAll_subcliTable]
  | readFail r =>
    simp only [step]
    split <;> rfl
  | writable r ws junk =>
    simp only [step]
    split <;> rfl

/-- The maps move whatever the memory does. -/
theorem run_both_stores (addr : Nat → Ptr) : ∀ (cs : List (TableCall × Mallocs)) (p : StoresProgram T × (Stores T × List TableRet)),
    (Machine.run (TableCall.both conv addr) p cs).2.1 = Machine.run (storesStep conv addr) p.2.1 (cs.map Prod.fst)
  | [], _ => rfl
  | c :: cs, p => run_both_stores addr cs (TableCall.both conv addr p c)

/-- In every run of the server, each use that it makes of its tables in memory comes to no fault and gives what the
maps of the model give, and in the end the tables hold what the maps hold. -/
theorem stores_in_memory {addr : Nat → Ptr} (haddr : ∀ r, addr r ≠ 0) {subcliTable subscibeTable subCommands : Ptr}
    (htables : [subcliTable, subscibeTable, subCommands].Nodup) {mallocs : List Ptr}
    (hlen : subCommandTable.length ≤ mallocs.length) (hnd : mallocs.Nodup) (h0 : 0 ∉ mallocs) (counter : Int) (ops : List Op)
    {cs : List (TableCall × Mallocs)}
    (hcs : cs.map Prod.fst = Machine.emitted (step conv reg) (tableCalls conv) (Broker.init T counter) ops)
    (hlegal : Machine.AllSteps (TableCall.both conv addr) TableCall.LegalIn
      (startedStores T subcliTable subscibeTable subCommands mallocs counter) cs) :
    ∃ s rs map set, Machine.run (TableCall.both conv addr)
        (startedStores T subcliTable subscibeTable subCommands mallocs counter) cs =
        (.ok (s, rs), (serve T conv reg counter ops).stores, rs) ∧
      StoresAre addr s (serve T conv reg counter ops).stores map set := by
  obtain ⟨s₀, map₀, set₀, hinit, hare₀⟩ := HashStores.init_are T addr counter htables hlen hnd h0
  have hstart : StoresAgree addr (startedStores T subcliTable subscibeTable subCommands mallocs counter) :=
    ⟨s₀, map₀, set₀, by rw [startedStores, hinit]; rfl, hare₀⟩
  obtain ⟨s, map, set, hok, hare⟩ := Machine.AllSteps.invariant (fun p c h hl => h.step conv haddr hl) hstart hlegal
  have hmaps : (Machine.run (TableCall.both conv addr)
      (startedStores T subcliTable subscibeTable subCommands mallocs counter) cs).2.1 = (serve T conv reg counter ops).stores := by
    rw [run_both_stores, hcs]
    exact (Machine.run_emitted (step_stores conv reg addr) (Broker.init T counter) ops).symm
  rw [hmaps] at hare
  exact ⟨s, _, map, set, Prod.ext hok (Prod.ext hmaps rfl), hare⟩

end

/-! ## A subscriber of two topics and a message to both -/

def someOps : List Op :=
  [.accept 5 1 1 ⟨0, 0, .alloc 0⟩ .ok, .command 0 (ascii "SUBSCRIBE") [ascii "n", ascii "ne"], .publish (ascii "new") fun _ => 7,
    .command 0 (ascii "ping") []]

/-- The addresses from `a` on. -/
def mallocsFrom (a : Ptr) : Mallocs := ⟨a, a + 1, a + 2, a + 3, a + 4⟩

def someTableCalls : List (TableCall × Mallocs) :=
  [(.register 0 (createObjectid 1 1 1), mallocsFrom 10), (.command (ascii "subscribe"), mallocsFrom 20),
    (.subscribe 0 (createObjectid 1 1 1) (ascii "n"), mallocsFrom 20), (.subscribe 0 (createObjectid 1 1 1) (ascii "ne"), mallocsFrom 30),
    (.publish (ascii "n"), mallocsFrom 40), (.publish (ascii "ne"), mallocsFrom 40), (.command (ascii "ping"), mallocsFrom 40)]

def clientAddr (r : Nat) : Ptr := if r = 0 then 100 else 200

theorem someTableCalls_legal : Machine.AllSteps (TableCall.both asciiConv clientAddr) TableCall.LegalIn
    (startedStores listTrie 1 2 3 [4, 5, 6] 0) someTableCalls := by
  decide +kernel

theorem someOps_in_memory : ∃ s rs map set, Machine.run (TableCall.both asciiConv clientAddr)
      (startedStores listTrie 1 2 3 [4, 5, 6] 0) someTableCalls =
      (.ok (s, rs), (serve listTrie asciiConv (fun _ _ => .ok) 0 someOps).stores, rs) ∧
    StoresAre clientAddr s (serve listTrie asciiConv (fun _ _ => .ok) 0 someOps).stores map set :=
  stores_in_memory asciiConv (fun _ _ => .ok) (fun r => by unfold clientAddr; split <;> decide) (by decide) (by decide) (by decide)
    (by decide) 0 someOps rfl someTableCalls_legal

end PubsubBroker

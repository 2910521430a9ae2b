/-
The ids of the subscribers. An id shows the second, the process and a counter that `accept_sub_handler`
increments; `create_objectid` shows 0 in place of a counter it has no digits for, and the server's counter
goes on growing. `ids_distinct_iff` says for which runs the ids of clients close to each other differ.
-/
import PubsubBroker.Broker.Clients

namespace PubsubBroker

open CLang

/-! ## The register of clients -/

/-- A connection that was accepted: what its id is made from. -/
structure Accept where
  sec : Nat
  pid : Nat

/-- The part of the server that accepted connections move. -/
structure Register where
  /-- The ids of the clients, in the order of their creation. -/
  ids : List Sds
  counter : Int
  table : Table Nat

namespace Register

def init (counter : Int) : Register := ⟨[], counter, .empty⟩

/-- The id of the next client. -/
def nextId (g : Register) (sec pid : Nat) : Sds := createObjectid sec pid (toInt (g.counter + 1))

def accept (g : Register) (a : Accept) : Register where
  ids := g.ids ++ [g.nextId a.sec a.pid]
  counter := toInt (g.counter + 1)
  table := (g.table.insert (g.nextId a.sec a.pid) g.ids.length).getD g.table

/-- Incrementing wraps only once. -/
theorem toInt_succ (n : Int) : toInt (toInt n + 1) = toInt (n + 1) := by
  unfold toInt; omega

variable (counter : Int)

theorem run_snoc (as : List Accept) (a : Accept) :
    Machine.run accept (init counter) (as ++ [a]) = (Machine.run accept (init counter) as).accept a :=
  Machine.run_append ..

theorem run_length (as : List Accept) : (Machine.run accept (init counter) as).ids.length = as.length := by
  induction as using List.reverseRecOn with
  | nil => rfl
  | append_singleton as a ih => rw [run_snoc, accept, List.length_append, List.length_append, ih]; rfl

/-- The counter of the next connection. -/
theorem run_counter (as : List Accept) :
    toInt ((Machine.run accept (init counter) as).counter + 1) = toInt (counter + (as.length + 1)) := by
  induction as using List.reverseRecOn with
  | nil => simp [init]
  | append_singleton as a ih =>
    rw [run_snoc]
    simp only [accept]
    rw [ih, toInt_succ, List.length_append, List.length_singleton, Nat.cast_add, Nat.cast_one, add_assoc]

/-- The id of the `i`-th connection. -/
theorem run_ids (as : List Accept) (i : Nat) : (Machine.run accept (init counter) as).ids[i]? =
    as[i]?.map fun a => createObjectid a.sec a.pid (toInt (counter + (i + 1))) := by
  induction as using List.reverseRecOn with
  | nil => simp [init]
  | append_singleton as a ih =>
    rw [run_snoc, accept, List.getElem?_append, List.getElem?_append, run_length]
    split
    · exact ih
    · rename_i hge
      by_cases hi : i = as.length
      · subst hi
        simp [nextId, run_counter]
      · rw [List.getElem?_eq_none_iff.2 (by simp; omega), List.getElem?_eq_none_iff.2 (by simp; omega)]
        rfl

/-- The table goes from ids to the clients that have them. -/
theorem run_table (as : List Accept) : ∀ e ∈ (Machine.run accept (init counter) as).table.entries,
    (Machine.run accept (init counter) as).ids[e.2]? = some e.1 := by
  induction as using List.reverseRecOn with
  | nil => intro e he; cases he
  | append_singleton as a ih =>
    rw [run_snoc]
    generalize Machine.run accept (init counter) as = g at ih
    have hold (e : Sds × Nat) (he : e ∈ g.table.entries) : (g.accept a).ids[e.2]? = some e.1 := by
      have := ih e he
      rw [accept, List.getElem?_append_left (List.getElem?_eq_some_iff.1 this).1, this]
    intro e he
    simp only [accept] at he
    cases hins : g.table.insert (g.nextId a.sec a.pid) g.ids.length with
    | none =>
      rw [hins, Option.getD_none] at he
      exact hold e he
    | some table =>
      rw [hins, Option.getD_some, (Table.insert_some hins).2, List.mem_append, List.mem_singleton] at he
      rcases he with he | rfl
      · exact hold e he
      · exact List.getElem?_concat_length

end Register

/-! ## The register of the server -/

section
variable {T : Datrie} (conv : Iconv) (reg : Nat → Nat → RegOutcome)

def Broker.register (b : Broker T) : Register := ⟨b.subClis.map SubClient.id, b.subIncCounter, b.subcliTable⟩

/-- The connection that an event is. -/
def acceptOf : Op → List Accept
  | .accept _ sec pid _ _ => [⟨sec, pid⟩]
  | _ => []

/-- The connections accepted in a run. -/
def accepts (ops : List Op) : List Accept := ops.flatMap acceptOf

theorem map_id_of_continues {l l' : List SubClient} (h : List.Forall₂ Continues l l') :
    l'.map SubClient.id = l.map SubClient.id := by
  induction h with
  | nil => rfl
  | cons hc _ ih => rw [List.map_cons, List.map_cons, hc.id, ih]

/-- What an event that is not a connection leaves of the register. -/
theorem register_of_continues {b b' : Broker T} (h : List.Forall₂ Continues b.subClis b'.subClis)
    (hcounter : b'.subIncCounter = b.subIncCounter) (htable : b'.subcliTable = b.subcliTable) :
    b'.register = b.register := by
  unfold Broker.register
  rw [map_id_of_continues h, hcounter, htable]

theorem register_update (b : Broker T) (r : Nat) {f : SubClient → SubClient} (hf : ∀ c, Continues c (f c)) :
    (b.update r f).register = b.register := register_of_continues (continue_update b r hf) rfl rfl

theorem register_reply (b : Broker T) (r : Nat) (ps : List Sds) : (reply reg b r ps).register = b.register := by
  refine register_of_continues (continue_reply reg b r ps) ?_ (reply_subcliTable ..)
  unfold reply
  split <;> rfl

/-- The register moves by the connections. -/
theorem step_register (b : Broker T) (op : Op) :
    (step conv reg b op).register = Machine.run Register.accept b.register (acceptOf op) := by
  cases op with
  | accept fd sec pid junk out =>
    unfold acceptOf
    rw [Machine.run_cons, Machine.run_nil]
    simp [step, acceptSub, Broker.register, Register.accept, Register.nextId, subCliCreate]
  | command r argv0 topics =>
    rcases step_command conv reg b r argv0 topics with ⟨-, heq⟩ | ⟨c, -, -, heq⟩
    · rw [heq]
      rfl
    · rw [heq]
      exact register_reply ..
  | publish msg junk =>
    simp only [step]
    rw [processPubReadBuf_eq]
    have hstep (b : Broker T) (r : Nat × List Sds) : (replyStep reg b r).register = b.register := register_reply ..
    exact Machine.run_proj hstep b _
  | readFail r =>
    simp only [step]
    split
    · exact register_update b r continues_subCliRelease
    · rfl
  | writable r ws junk =>
    simp only [step]
    split
    · exact register_update b r fun c => continues_sendReplyToSubcli (reg r) c ws junk
    · rfl

variable (T) in
theorem serve_register (counter : Int) (ops : List Op) :
    (serve T conv reg counter ops).register = Machine.run Register.accept (.init counter) (accepts ops) := by
  have := Machine.run_emitted (step_register (T := T) conv reg) (.init T counter) ops
  rwa [Machine.emitted_flatMap] at this

/-! ## Distinct ids -/

/-- Clients fewer than `2 ^ 24` connections apart have different ids. -/
def IdsDistinct (b : Broker T) : Prop :=
  ∀ i j c d, b.subClis[i]? = some c → b.subClis[j]? = some d → i < j → j < i + 2 ^ 24 → c.id ≠ d.id

/-- An insertion under the id of a client is not refused because of a client fewer than `2 ^ 24` connections
older. -/
def InsertsApart (b : Broker T) : Op → Prop
  | .accept _ sec pid _ _ => ∀ r, b.subcliTable.get (createObjectid sec pid (toInt (b.subIncCounter + 1))) = some r →
      r + 2 ^ 24 ≤ b.subClis.length
  -- the client set of a topic is a new one
  | .command r _ _ => ∀ c, b.subClis[r]? = some c → (Table.empty : Table Nat).insert c.id r ≠ none
  | _ => True

/-- A counter that ids do not tell from 0. -/
def ShownAsZero (counter : Int) : Prop := counter < 1 ∨ 2 ^ 24 ≤ counter

/-- Two connections of one process in one second, as far as ids tell. -/
def SameSecond (a a' : Accept) : Prop :=
  a.sec % (2 ^ 31 - 1) = a'.sec % (2 ^ 31 - 1) ∧ a.pid % (2 ^ 15 - 1) = a'.pid % (2 ^ 15 - 1)

/-- No two connections fewer than `2 ^ 24` apart are made in one second with counters that are both shown
as 0. -/
def AcceptsApart (counter : Int) (as : List Accept) : Prop :=
  ∀ (i j : Nat) (a a' : Accept), as[i]? = some a → as[j]? = some a' → i < j → j < i + 2 ^ 24 →
    ShownAsZero (toInt (counter + (i + 1))) → ShownAsZero (toInt (counter + (j + 1))) → ¬ SameSecond a a'

/-- Among that many successive counters only those shown as 0 are shown alike. -/
theorem shownSeq_eq_iff {counter : Int} {i j : Nat} (hij : i < j) (hj : j < i + 2 ^ 24) :
    shownSeq (toInt (counter + (i + 1))) = shownSeq (toInt (counter + (j + 1))) ↔
      ShownAsZero (toInt (counter + (i + 1))) ∧ ShownAsZero (toInt (counter + (j + 1))) := by
  unfold shownSeq ShownAsZero toInt
  split <;> split <;> omega

/-- The ids that are distinct are those of connections apart. -/
theorem idsDistinct_iff (counter : Int) (ops : List Op) :
    IdsDistinct (serve T conv reg counter ops) ↔ AcceptsApart counter (accepts ops) := by
  -- the id of a client is that of its connection, whatever has happened since
  have hids (i : Nat) : (serve T conv reg counter ops).subClis[i]?.map SubClient.id =
      (accepts ops)[i]?.map fun a => createObjectid a.sec a.pid (toInt (counter + (i + 1))) := by
    rw [← Register.run_ids, ← serve_register T conv reg, ← List.getElem?_map]
    rfl
  constructor
  · intro h i j a a' ha ha' hij hj hzero hzero' hsame
    have hi := hids i
    have hj' := hids j
    rw [ha, Option.map_some, Option.map_eq_some_iff] at hi
    rw [ha', Option.map_some, Option.map_eq_some_iff] at hj'
    obtain ⟨c, hc, hcid⟩ := hi
    obtain ⟨d, hd, hdid⟩ := hj'
    refine h i j c d hc hd hij hj ?_
    rw [hcid, hdid, createObjectid_eq_iff]
    exact ⟨hsame.1, hsame.2, (shownSeq_eq_iff hij hj).2 ⟨hzero, hzero'⟩⟩
  · intro h i j c d hc hd hij hj heq
    have hi := hids i
    have hj' := hids j
    rw [hc, Option.map_some, eq_comm, Option.map_eq_some_iff] at hi
    rw [hd, Option.map_some, eq_comm, Option.map_eq_some_iff] at hj'
    obtain ⟨a, ha, haid⟩ := hi
    obtain ⟨a', ha', haid'⟩ := hj'
    rw [← haid, ← haid', createObjectid_eq_iff] at heq
    obtain ⟨hsec, hpid, hseq⟩ := heq
    obtain ⟨hzero, hzero'⟩ := (shownSeq_eq_iff hij hj).1 hseq
    exact h i j a a' ha ha' hij hj hzero hzero' ⟨hsec, hpid⟩

theorem accepts_mono {before ops : List Op} (h : before <+: ops) : accepts before <+: accepts ops := by
  obtain ⟨after, rfl⟩ := h
  exact ⟨accepts after, (List.flatMap_append ..).symm⟩

theorem AcceptsApart.mono {counter : Int} {as bs : List Accept} (h : AcceptsApart counter bs) (hpre : as <+: bs) :
    AcceptsApart counter as := by
  obtain ⟨cs, rfl⟩ := hpre
  have hold (i : Nat) (a : Accept) (ha : as[i]? = some a) : (as ++ cs)[i]? = some a := by
    rw [List.getElem?_append_left (List.getElem?_eq_some_iff.1 ha).1, ha]
  intro i j a a' ha ha'
  exact h i j a a' (hold i a ha) (hold j a' ha')

/-- What an insertion finds is the id of a client. -/
theorem IdsDistinct.insertsApart {counter : Int} {before : List Op} {op : Op}
    (h : IdsDistinct (serve T conv reg counter (before ++ [op]))) :
    InsertsApart (serve T conv reg counter before) op := by
  cases op with
  | accept fd sec pid junk out =>
    intro r hr
    by_contra hclose
    have hfound : (serve T conv reg counter before).register.ids[r]? =
        some ((serve T conv reg counter before).register.nextId sec pid) := by
      have htable := Register.run_table counter (accepts before)
      rw [← serve_register T conv reg] at htable
      exact htable _ (Table.get_eq_some.1 hr)
    have hids : (serve T conv reg counter (before ++ [.accept fd sec pid junk out])).subClis.map SubClient.id =
        (serve T conv reg counter before).register.ids ++ [(serve T conv reg counter before).register.nextId sec pid] := by
      rw [serve_append, Machine.run_cons, Machine.run_nil]
      exact congrArg Register.ids (step_register conv reg _ _)
    have hlen : (serve T conv reg counter before).register.ids.length =
        (serve T conv reg counter before).subClis.length := List.length_map ..
    have hlt := (List.getElem?_eq_some_iff.1 hfound).1
    -- the client that is found and the new one have the same id
    rw [List.ext_getElem?_iff] at hids
    have hold := hids r
    have hnew := hids (serve T conv reg counter before).subClis.length
    rw [List.getElem?_map, List.getElem?_append_left hlt, hfound, Option.map_eq_some_iff] at hold
    rw [List.getElem?_map, ← hlen, List.getElem?_concat_length, Option.map_eq_some_iff] at hnew
    obtain ⟨c, hc, hcid⟩ := hold
    obtain ⟨d, hd, hdid⟩ := hnew
    exact h r _ c d hc hd hlt (by omega) (hcid.trans hdid.symm)
  | command r argv0 topics =>
    intro c _ hnone
    rw [Table.insert_eq_none] at hnone
    cases hnone
  | publish msg junk => trivial
  | readFail r => trivial
  | writable r ws junk => trivial

/-- In a run clients fewer than `2 ^ 24` connections apart have different ids, and none of them stands in
the way of the other's insertion, exactly when no two such connections are made in one second with counters
that are both shown as 0. -/
theorem ids_distinct_iff (counter : Int) (ops : List Op) :
    (∀ before, before <+: ops → IdsDistinct (serve T conv reg counter before)) ∧
        Machine.AllSteps (step conv reg) InsertsApart (.init T counter) ops ↔
      AcceptsApart counter (accepts ops) := by
  constructor
  · rintro ⟨hids, -⟩
    exact (idsDistinct_iff conv reg counter ops).1 (hids ops List.prefix_rfl)
  · intro h
    have hids (before : List Op) (hpre : before <+: ops) : IdsDistinct (serve T conv reg counter before) :=
      (idsDistinct_iff conv reg counter before).2 (h.mono (accepts_mono hpre))
    exact ⟨hids, Machine.AllSteps.intro fun before op hpre => IdsDistinct.insertsApart conv reg (hids _ hpre)⟩

end

/-- Two connections in one second, behind a counter that has started at its limit. -/
def atLimit : Broker listTrie := serve listTrie asciiConv (fun _ _ => .ok) (2 ^ 24 - 1)
  [.accept 5 1 1 ⟨0, 0, .alloc 0⟩ .ok, .accept 6 1 1 ⟨0, 0, .alloc 0⟩ .ok]

/-- They get one id, and the second client is not put into the table. -/
theorem same_id :
    (∃ c d, atLimit.subClis[0]? = some c ∧ atLimit.subClis[1]? = some d ∧ c.live = true ∧ d.live = true ∧
      c.id = d.id) ∧ ¬ IdsDistinct atLimit ∧ atLimit.subcliTable.entries.map Prod.snd = [0] := by
  have hclients : (atLimit.subClis[0]?.map fun c => (c.live, c.id)) = some (true, createObjectid 1 1 0) ∧
      (atLimit.subClis[1]?.map fun c => (c.live, c.id)) = some (true, createObjectid 1 1 0) := by decide +kernel
  obtain ⟨hfst, hsnd⟩ := hclients
  obtain ⟨c, hc, hcid⟩ := Option.map_eq_some_iff.1 hfst
  obtain ⟨d, hd, hdid⟩ := Option.map_eq_some_iff.1 hsnd
  simp only [Prod.mk.injEq] at hcid hdid
  have hsame : c.id = d.id := hcid.2.trans hdid.2.symm
  refine ⟨⟨c, d, hc, hd, hcid.1, hdid.1, hsame⟩, fun h => ?_, by decide +kernel⟩
  exact h 0 1 c d hc hd (by omega) (by omega) hsame

end PubsubBroker

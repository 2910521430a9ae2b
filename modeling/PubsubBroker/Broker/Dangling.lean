/-
Dangling clients: the tables of the server hold pointers to clients, and no release takes them out.
`no_dangling_iff` says that they stay valid exactly as long as no client that is still stored is
released.
-/
import PubsubBroker.Broker.Subscribe
import PubsubBroker.Protocol.Lifetime

namespace PubsubBroker

open CLang

section
variable {T : Datrie}

/-! ## Pointers -/

/-- A client set holds the pointer. -/
def Topics.Holds (t : Topics T) (x : Nat) : Prop := ∃ e ∈ t.subscibeTable.entries, ∃ m ∈ e.2.entries, m.2 = x

/-- The pointer is in `subcli_table` or in a client set of `subscibe_table`. -/
def Broker.Stored (b : Broker T) (x : Nat) : Prop := (∃ e ∈ b.subcliTable.entries, e.2 = x) ∨ b.toTopics.Holds x

instance (t : Topics T) (x : Nat) : Decidable (t.Holds x) := inferInstanceAs (Decidable (∃ e ∈ _, ∃ m ∈ _, _))

instance (b : Broker T) (x : Nat) : Decidable (b.Stored x) := inferInstanceAs (Decidable (_ ∨ _))

/-- Every pointer that is stored is to a live client, and no client was used after it was freed. -/
structure NoDangling (b : Broker T) : Prop where
  live : ∀ x, b.Stored x → b.Live x
  untouched : ∀ c ∈ b.subClis, c.touched = false

theorem Topics.holds_of_mem_members {t : Topics T} {x : Nat} {k : Sds} (h : x ∈ t.members k) : t.Holds x := by
  unfold Topics.members at h
  cases hget : t.subscibeTable.get k with
  | none => simp [hget] at h
  | some hs =>
    rw [hget, Option.map_some, Option.getD_some, List.mem_map] at h
    obtain ⟨m, hm, hx⟩ := h
    exact ⟨(k, hs), Table.get_eq_some.1 hget, m, hm, hx⟩

/-- `subscribe_channel` stores no pointer but its caller's. -/
theorem holds_subscribeChannel {conv : Iconv} {t : Topics T} {r x : Nat} {id channel : Sds}
    (h : (subscribeChannel conv t r id channel).2.Holds x) : x = r ∨ t.Holds x := by
  unfold subscribeChannel at h
  split at h
  · exact .inr h
  · split at h
    · exact .inr h
    · simp only at h
      split at h
      · exact .inr h
      · rename_i table hins
        obtain ⟨e, he, m, hm, hx⟩ := h
        simp only [(Table.insert_some hins).2, List.mem_append, List.mem_singleton] at he
        rcases he with he | rfl
        · exact .inr ⟨e, he, m, hm, hx⟩
        · rw [newSet_entries, List.mem_singleton] at hm
          exact .inl (by rw [← hx, hm])

theorem holds_subscribeChannels {conv : Iconv} {r x : Nat} {id : Sds} : ∀ (topics : List Sds) {t : Topics T},
    (subscribeChannels conv t r id topics).Holds x → x = r ∨ t.Holds x
  | [], _, h => .inr h
  | channel :: topics, t, h => by
    rcases holds_subscribeChannels topics (t := (subscribeChannel conv t r id channel).2) h with h | h
    · exact .inl h
    · exact holds_subscribeChannel h

theorem holds_commandTopics {conv : Iconv} {t : Topics T} {r x : Nat} {id argv0 : Sds} {topics : List Sds}
    (h : (commandTopics conv t r id argv0 topics).Holds x) : x = r ∨ t.Holds x := by
  unfold commandTopics at h
  split at h
  · exact holds_subscribeChannels topics h
  · exact .inr h

/-! ## One client -/

/-- A record is overwritten: the others keep their lives. -/
theorem NoDangling.set {b b' : Broker T} (h : NoDangling b) {r : Nat} {c c' : SubClient}
    (hc : b.subClis[r]? = some c) (hclis : b'.subClis = b.subClis.set r c')
    (hstored : ∀ x, b'.Stored x → x = r ∨ b.Stored x) (hlive : b'.Stored r → c'.live = true)
    (htouched : c'.touched = false) : NoDangling b' := by
  obtain ⟨hlt, -⟩ := List.getElem?_eq_some_iff.1 hc
  constructor
  · intro x hx
    unfold Broker.Live
    rw [hclis]
    by_cases hxr : x = r
    · subst hxr
      exact ⟨c', by rw [List.getElem?_set_self hlt], hlive hx⟩
    · rw [List.getElem?_set_ne (Ne.symm hxr)]
      exact h.live x ((hstored x hx).resolve_left hxr)
  · intro d hd
    rw [hclis] at hd
    rcases List.mem_or_eq_of_mem_set hd with hd | rfl
    · exact h.untouched d hd
    · exact htouched

/-- A record is overwritten in place: the pointers stay valid if it is alive or not stored. -/
theorem NoDangling.update_iff {b : Broker T} (h : NoDangling b) {r : Nat} {c : SubClient}
    (hc : b.subClis[r]? = some c) {f : SubClient → SubClient} (htouched : (f c).touched = false) :
    NoDangling (b.update r f) ↔ (b.Stored r → (f c).live = true) := by
  constructor
  · intro h' hr
    obtain ⟨d, hd, hl⟩ := h'.live r hr
    rw [Broker.getElem?_update hc] at hd
    cases hd
    exact hl
  · intro hlive
    refine h.set hc ?_ (fun x hx => .inr hx) hlive htouched
    rw [Broker.update, List.modify_eq_set_getElem?, hc]
    rfl

theorem NoDangling.healthy {b : Broker T} (h : NoDangling b) {r : Nat} {c : SubClient} (hc : b.subClis[r]? = some c)
    (hl : c.live = true) : Healthy c :=
  ⟨hl, h.untouched c (List.mem_of_getElem? hc)⟩

section
variable (reg : Nat → Nat → RegOutcome)

/-- A reply to a live client, which the tables may get to hold. -/
theorem NoDangling.reply {b : Broker T} {t : Topics T} (h : NoDangling b) {r : Nat} (hr : b.Live r)
    (ht : ∀ x, t.Holds x → x = r ∨ b.toTopics.Holds x) (ps : List Sds) :
    NoDangling (reply reg { b with toTopics := t } r ps) := by
  obtain ⟨c, hc, hl⟩ := hr
  have hlife := (h.healthy hc hl).addPieces (reg r) ps
  unfold PubsubBroker.reply
  simp only [hc]
  refine h.set hc rfl (fun x hx => ?_) (fun _ => hlife.live) hlife.untouched
  rcases hx with hx | hx
  · exact .inr (.inl hx)
  · exact (ht x hx).imp_right .inr

/-- Replies to clients that are stored. -/
theorem NoDangling.replyAll : ∀ (rs : List (Nat × List Sds)) {b : Broker T}, NoDangling b →
    (∀ r ∈ rs, b.Stored r.1) → NoDangling (replyAll reg b rs)
  | [], _, h, _ => h
  | r :: rs, b, h, hrs => by
    rw [List.forall_mem_cons] at hrs
    have hstep : NoDangling (replyStep reg b r) := h.reply reg (h.live _ hrs.1) (fun x hx => .inr hx) r.2
    have hstored (x : Nat) : (replyStep reg b r).Stored x ↔ b.Stored x := by
      unfold Broker.Stored replyStep
      rw [reply_toTopics, reply_subcliTable]
    exact NoDangling.replyAll rs hstep fun r' hr' => (hstored _).2 (hrs.2 r' hr')

/-! ## Steps -/

/-- A new client. -/
theorem NoDangling.acceptSub {b : Broker T} (h : NoDangling b) (fd sec pid : Nat) (junk : Junk) (out : RegOutcome) :
    NoDangling (acceptSub b fd sec pid junk out) := by
  have hold {b' : Broker T} {c : SubClient} (hclis : b'.subClis = b.subClis ++ [c]) (ht : c.touched = false)
      (hstored : ∀ x, b'.Stored x → b.Stored x ∨ (x = b.subClis.length ∧ c.live = true)) : NoDangling b' := by
    constructor
    · intro x hx
      unfold Broker.Live
      rw [hclis]
      rcases hstored x hx with hx | ⟨rfl, hl⟩
      · obtain ⟨d, hd, hdl⟩ := h.live x hx
        exact ⟨d, by rw [List.getElem?_append_left (List.getElem?_eq_some_iff.1 hd).1, hd], hdl⟩
      · exact ⟨c, List.getElem?_concat_length, hl⟩
    · intro d hd
      rw [hclis, List.mem_append, List.mem_singleton] at hd
      rcases hd with hd | rfl
      · exact h.untouched d hd
      · exact ht
  -- only `subcli_table` may have a new pointer, which is to the new record
  refine hold rfl rfl fun x hx => ?_
  rcases hx with ⟨e, he, rfl⟩ | hx
  · simp only [PubsubBroker.acceptSub] at he
    cases hins : b.subcliTable.insert (subCliCreate junk fd (createObjectid sec pid (toInt (b.subIncCounter + 1)))).id
        b.subClis.length with
    | none =>
      rw [hins, Option.getD_none] at he
      exact .inl (.inl ⟨e, he, rfl⟩)
    | some table =>
      rw [hins, Option.getD_some, (Table.insert_some hins).2, List.mem_append, List.mem_singleton] at he
      rcases he with he | rfl
      · exact .inl (.inl ⟨e, he, rfl⟩)
      · exact .inr ⟨rfl, rfl⟩
  · exact .inl (.inr hx)

/-- The step releases no client that is stored: neither at the end of file or on a read error, nor when
`write` fails for good. -/
def KeepsStored (b : Broker T) : Op → Prop
  | .readFail r => ¬ (b.Live r ∧ b.Stored r)
  | .writable r ws junk => ∀ c, b.subClis[r]? = some c → c.live = true → b.Stored r → flushEnd c ws junk ≠ .error
  | _ => True

/-- A step keeps the pointers valid exactly when it releases no client that is stored. -/
theorem noDangling_step_iff (conv : Iconv) {b : Broker T} (h : NoDangling b) (op : Op) :
    NoDangling (step conv reg b op) ↔ KeepsStored b op := by
  cases op with
  | accept fd sec pid junk out => exact iff_of_true (h.acceptSub ..) trivial
  | command r argv0 topics =>
    refine iff_of_true ?_ trivial
    rcases step_command conv reg b r argv0 topics with ⟨-, heq⟩ | ⟨c, hc, hl, heq⟩
    · rwa [heq]
    · rw [heq]
      exact h.reply reg ⟨c, hc, hl⟩ (fun x hx => holds_commandTopics hx) _
  | publish msg junk =>
    refine iff_of_true ?_ trivial
    simp only [step]
    rw [processPubReadBuf_eq]
    have := h.replyAll reg (((publishedTo conv b msg junk).flatMap b.members).map fun r => (r, bulkPieces msg)) (by
      intro r hr
      obtain ⟨x, hx, rfl⟩ := List.mem_map.1 hr
      obtain ⟨chan, -, hx⟩ := List.mem_flatMap.1 hx
      -- whoever gets the message is in the set of a topic
      exact .inr (Topics.holds_of_mem_members hx))
    exact ⟨this.live, this.untouched⟩
  | readFail r =>
    simp only [step, KeepsStored]
    by_cases hlive : b.Live r
    · obtain ⟨c, hc, hl⟩ := hlive
      obtain ⟨hdead, ht⟩ := (h.healthy hc hl).subCliRelease
      rw [if_pos ⟨c, hc, hl⟩, h.update_iff hc ht, hdead]
      constructor
      · rintro hr ⟨-, hs⟩
        exact absurd (hr hs) (by simp)
      · intro hr hs
        exact absurd ⟨⟨c, hc, hl⟩, hs⟩ hr
    · rw [if_neg hlive]
      exact iff_of_true h fun hr => hlive hr.1
  | writable r ws junk =>
    simp only [step, KeepsStored]
    by_cases hlive : b.Live r
    · obtain ⟨c, hc, hl⟩ := hlive
      -- a flush releases the client exactly where `write` fails for good
      obtain ⟨ht, hend⟩ := (h.healthy hc hl).sendReplyToSubcli (reg r) ws junk
      rw [if_pos ⟨c, hc, hl⟩, h.update_iff (f := (sendReplyToSubcli (reg r) junk · ws)) hc ht, hend]
      constructor
      · intro hr d hd _ hs
        rw [hc] at hd
        cases hd
        exact hr hs
      · intro hr hs
        exact hr c hc hl hs
    · rw [if_neg hlive]
      exact iff_of_true h fun c hc hl => absurd ⟨c, hc, hl⟩ hlive

/-! ## Runs -/

variable (T) in
/-- In every state of a run all stored pointers are to live clients and no
released client was used, exactly when no step releases a client that is stored. -/
theorem no_dangling_iff (conv : Iconv) (counter : Int) (ops : List Op) :
    (∀ before, before <+: ops → NoDangling (serve T conv reg counter before)) ↔
      Machine.AllSteps (step conv reg) KeepsStored (.init T counter) ops := by
  have hinit : NoDangling (Broker.init T counter) := by
    refine ⟨fun x hx => ?_, by simp [Broker.init]⟩
    rcases hx with ⟨e, he, -⟩ | ⟨e, he, -⟩
    · cases he
    · cases he
  exact Machine.invariant_iff_allSteps (I := NoDangling) (fun b op h => noDangling_step_iff reg conv h op) hinit ops

end

end

/-- A client that stays may be published to. -/
theorem no_dangling_publish :
    NoDangling (serve listTrie asciiConv (fun _ _ => .ok) 0
      (connectAndSubscribe (ascii "n") ++ [.publish (ascii "n") fun _ => 7])) := by
  refine (no_dangling_iff listTrie (fun _ _ => .ok) asciiConv 0 _).2 ?_ _ List.prefix_rfl
  exact ⟨trivial, trivial, trivial, trivial⟩

/-- A client that has left is still stored, and the next message is written to it. -/
theorem dangling_after_detach :
    let b := serve listTrie asciiConv (fun _ _ => .ok) 0 (connectAndSubscribe (ascii "n") ++ [.readFail 0])
    b.Stored 0 ∧ ¬ b.Live 0 ∧
      ∃ c ∈ (step asciiConv (fun _ _ => .ok) b (.publish (ascii "n") fun _ => 7)).subClis, c.touched = true := by
  decide +kernel

end PubsubBroker

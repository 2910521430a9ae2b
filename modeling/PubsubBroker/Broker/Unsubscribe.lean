/-
Unsubscribing: `unsubscribe_command` answers and does nothing else, so a client stays in the client sets
it was put into. `delivered_wanted` says for which runs every message that is delivered still starts with
a topic whose latest command was a `subscribe`.
-/
import PubsubBroker.Broker.Deliver

namespace PubsubBroker

open CLang

/-! ## The log of the commands -/

/-- A command that was executed, which is one that was not answered with an error. Its own reply may have been
dropped, where the write buffer was full. -/
structure Executed where
  client : Nat
  proc : SubCommandProc
  topics : List Sds

/-- The topics that a command names. Without arguments `unsubscribe` names every topic. -/
def Executed.Names (e : Executed) (k : Sds) : Prop :=
  match e.proc with
  | .ping => False
  | .subscribe => k ∈ e.topics
  | .unsubscribe => e.topics = [] ∨ k ∈ e.topics

instance (e : Executed) (k : Sds) : Decidable (e.Names k) :=
  match e with
  | ⟨_, .ping, _⟩ => inferInstanceAs (Decidable False)
  | ⟨_, .subscribe, topics⟩ => inferInstanceAs (Decidable (k ∈ topics))
  | ⟨_, .unsubscribe, topics⟩ => inferInstanceAs (Decidable (topics = [] ∨ k ∈ topics))

/-- The latest command of the client that names the topic is a `subscribe`. -/
def Wants (log : List Executed) (r : Nat) (k : Sds) : Prop :=
  (log.filter fun e => e.client = r ∧ e.Names k).getLast?.map Executed.proc = some .subscribe

instance (log : List Executed) (r : Nat) (k : Sds) : Decidable (Wants log r k) := inferInstanceAs (Decidable (_ = _))

theorem wants_concat {log : List Executed} {e : Executed} {r : Nat} {k : Sds} :
    Wants (log ++ [e]) r k ↔ if e.client = r ∧ e.Names k then e.proc = .subscribe else Wants log r k := by
  unfold Wants
  rw [List.filter_append, List.filter_cons]
  split
  · rename_i h
    rw [List.filter_nil, List.getLast?_concat, if_pos (of_decide_eq_true h)]
    simp
  · rename_i h
    rw [List.filter_nil, List.append_nil, if_neg (by simpa using h)]

section
variable {T : Datrie} (conv : Iconv) (reg : Nat → Nat → RegOutcome)

/-- The command that an event executes. -/
def executed (b : Broker T) : Op → List Executed
  | .command r argv0 topics =>
    match findCommand argv0 with
    | none => []
    | some cmd => if b.Live r ∧ ¬ arityRefused cmd.arity (topics.length + 1) then [⟨r, cmd.proc, topics⟩] else []
  | _ => []

theorem executed_cases (b : Broker T) (op : Op) : executed b op = [] ∨ ∃ e, executed b op = [e] := by
  cases op with
  | command r argv0 topics =>
    simp only [executed]
    cases findCommand argv0 with
    | none => exact .inl rfl
    | some cmd =>
      simp only
      split
      · exact .inr ⟨_, rfl⟩
      · exact .inl rfl
  | _ => exact .inl rfl

/-- The server and the commands it has executed. -/
structure Logged (T : Datrie) where
  broker : Broker T
  log : List Executed

def logStep (s : Logged T) (op : Op) : Logged T := ⟨step conv reg s.broker op, s.log ++ executed s.broker op⟩

variable (T) in
/-- The server after a sequence of events, with its log. -/
def serveLogged (counter : Int) (ops : List Op) : Logged T :=
  Machine.run (logStep conv reg) ⟨.init T counter, []⟩ ops

variable (T) in
theorem serveLogged_broker (counter : Int) (ops : List Op) :
    (serveLogged T conv reg counter ops).broker = serve T conv reg counter ops := by
  induction ops using List.reverseRecOn with
  | nil => rfl
  | append_singleton ops op ih =>
    unfold serveLogged at *
    rw [serve_append, Machine.run_append, Machine.run_cons, Machine.run_nil, Machine.run_cons, Machine.run_nil, ← ih]
    rfl

/-! ## Members and subscriptions -/

/-- A call of `subscribe_channel` makes no member but its caller, and of no topic but its own. -/
theorem mem_members_of_subscribeStep {t : Topics T} {s : Subscription} {x : Nat} {p : Sds}
    (h : x ∈ (subscribeStep conv t s).members p) : x ∈ t.members p ∨ (s.client = x ∧ s.channel = p) := by
  unfold subscribeStep subscribeChannel at h
  split at h
  · exact .inl h
  · split at h
    · exact .inl h
    · simp only at h
      split at h
      · exact .inl h
      · rename_i table hins
        refine ((mem_members_insert hins (newSet_entries ..) p).1 h).imp id ?_
        rintro ⟨hp, hx⟩
        exact ⟨hx.symm, hp.symm⟩

theorem mem_members_of_run (calls : List Subscription) {t : Topics T} {x : Nat} {p : Sds}
    (h : x ∈ (Machine.run (subscribeStep conv) t calls).members p) :
    x ∈ t.members p ∨ ∃ s ∈ calls, s.client = x ∧ s.channel = p := by
  induction calls generalizing t with
  | nil => exact .inl h
  | cons s calls ih =>
    rcases ih h with h | ⟨s', hs', heq⟩
    · exact (mem_members_of_subscribeStep conv h).imp id fun heq => ⟨s, List.mem_cons_self .., heq⟩
    · exact .inr ⟨s', List.mem_cons_of_mem _ hs', heq⟩

/-- A client becomes a member by a `subscribe` of its own that names the topic. -/
theorem mem_members_of_step {b : Broker T} {op : Op} {x : Nat} {p : Sds} (h : x ∈ (step conv reg b op).members p) :
    x ∈ b.members p ∨ ∃ e ∈ executed b op, e.client = x ∧ e.proc = .subscribe ∧ p ∈ e.topics := by
  rw [step_toTopics] at h
  refine (mem_members_of_run conv _ h).imp id ?_
  rintro ⟨s, hs, rfl, rfl⟩
  cases op with
  | command r argv0 topics =>
    simp only [subscriptions] at hs
    cases hc : b.subClis[r]? with
    | none => simp [hc] at hs
    | some c =>
      simp only [hc] at hs
      split at hs
      · rename_i hsub
        obtain ⟨k, hk, rfl⟩ := List.mem_map.1 hs
        have hpos := List.length_pos_of_mem hk
        refine ⟨⟨r, .subscribe, topics⟩, ?_, rfl, rfl, hk⟩
        simp only [executed, findCommand_subscribe hsub.2]
        rw [if_pos ⟨⟨c, hc, hsub.1⟩, by unfold arityRefused; omega⟩]
        exact List.mem_singleton_self _
      · cases hs
  | _ => cases hs

/-! ## Runs -/

/-- An `unsubscribe` leaves the client, for every topic it is a member of, a prefix that it wants. -/
def UnsubscribeOk (s : Logged T) (op : Op) : Prop :=
  ∀ e ∈ executed s.broker op, e.proc = .unsubscribe → ∀ p ∈ s.broker.subscibeTable.keys, e.client ∈ s.broker.members p →
    ∃ k ∈ p.inits, Wants s.log e.client k ∧ ¬ e.Names k

instance (s : Logged T) (op : Op) : Decidable (UnsubscribeOk s op) := inferInstanceAs (Decidable (∀ e ∈ _, _))

/-- The members of a topic want a prefix of it. -/
def MembersWant (s : Logged T) : Prop := ∀ x p, x ∈ s.broker.members p → ∃ k ∈ p.inits, Wants s.log x k

theorem MembersWant.step {s : Logged T} (h : MembersWant s) {op : Op} (hop : UnsubscribeOk s op) :
    MembersWant (logStep conv reg s op) := by
  intro x p hx
  have hmem := mem_members_of_step conv reg hx
  unfold logStep
  rcases executed_cases s.broker op with hnone | ⟨e, he⟩
  · rw [hnone] at hmem
    simp only [hnone, List.append_nil]
    exact h x p (hmem.resolve_right (by simp))
  · rw [he] at hmem
    simp only [he]
    rcases hmem with hmem | ⟨e', he', hclient, hproc, hp⟩
    · by_cases hown : e.client = x ∧ e.proc = .unsubscribe
      · obtain ⟨rfl, hproc⟩ := hown
        have he' : e ∈ executed s.broker op := by rw [he]; exact List.mem_singleton_self _
        obtain ⟨k, hk, hwants, hnames⟩ := hop e he' hproc p (Topics.mem_keys_of_mem_members hmem) hmem
        refine ⟨k, hk, wants_concat.2 ?_⟩
        rw [if_neg fun hn => hnames hn.2]
        exact hwants
      · obtain ⟨k, hk, hwants⟩ := h x p hmem
        refine ⟨k, hk, wants_concat.2 ?_⟩
        split
        · rename_i hnames
          -- what names a topic is a `subscribe` or an `unsubscribe`
          cases hproc : e.proc with
          | ping => simp [Executed.Names, hproc] at hnames
          | subscribe => rfl
          | unsubscribe => exact absurd ⟨hnames.1, hproc⟩ hown
        · exact hwants
    · obtain rfl := List.mem_singleton.1 he'
      refine ⟨p, by simp, wants_concat.2 ?_⟩
      rw [if_pos ⟨hclient, by simpa [Executed.Names, hproc] using hp⟩]
      exact hproc

/-- In a run in which no `unsubscribe` takes the last wanted prefix from a topic that its client is a member
of, a message is delivered only to a client whose latest command naming some prefix of the message is a
`subscribe`. The commands that count are those executed, also with a reply that did not fit, and in a run with
releases the clients are those whose records are at addresses of their own. -/
theorem delivered_wanted (counter : Int) {ops : List Op}
    (hok : Machine.AllSteps (logStep conv reg) UnsubscribeOk ⟨.init T counter, []⟩ ops) :
    ∀ before, before <+: ops → ∀ r msg junk, Delivered conv reg (serve T conv reg counter before) msg junk r →
      ∃ k ∈ msg.inits, Wants (serveLogged T conv reg counter before).log r k := by
  rintro before ⟨after, rfl⟩ r msg junk hdelivered
  have hwant : MembersWant (serveLogged T conv reg counter before) := by
    refine (Machine.AllSteps.append.1 hok).1.invariant (I := MembersWant) (fun s op h hop => h.step conv reg hop) ?_
    intro x p hx
    cases hx
  obtain ⟨p, hp, -, hmem⟩ := reached_of_delivered hdelivered
  rw [← serveLogged_broker] at hmem
  obtain ⟨k, hk, hwants⟩ := hwant r p hmem
  exact ⟨k, (List.mem_inits ..).2 (((List.mem_inits ..).1 hk).trans ((List.mem_inits ..).1 hp)), hwants⟩

end

/-- A client that unsubscribes from another topic. -/
theorem delivered_wanted_other :
    let ops := connectAndSubscribe (ascii "n") ++ [.command 0 (ascii "unsubscribe") [ascii "x"]]
    ∃ k ∈ (ascii "net").inits, Wants (serveLogged listTrie asciiConv (fun _ _ => .ok) 0 ops).log 0 k := by
  intro ops
  have hok : Machine.AllSteps (logStep asciiConv fun _ _ => .ok) UnsubscribeOk ⟨.init listTrie 0, []⟩ ops :=
    ⟨by decide +kernel, by decide +kernel, by decide +kernel, trivial⟩
  refine delivered_wanted asciiConv (fun _ _ => .ok) 0 hok ops List.prefix_rfl 0 (ascii "net") (fun _ => 7) ?_
  decide +kernel

/-- A client that has unsubscribed from its only topic still gets its messages. -/
theorem delivered_after_unsubscribe :
    let ops := connectAndSubscribe (ascii "n") ++ [.command 0 (ascii "unsubscribe") [ascii "n"]]
    (serve listTrie asciiConv (fun _ _ => .ok) 0 ops).Live 0 ∧
      Delivered asciiConv (fun _ _ => .ok) (serve listTrie asciiConv (fun _ _ => .ok) 0 ops) (ascii "n") (fun _ => 7) 0 ∧
      ¬ ∃ k ∈ (ascii "n").inits, Wants (serveLogged listTrie asciiConv (fun _ _ => .ok) 0 ops).log 0 k := by
  decide +kernel

end PubsubBroker

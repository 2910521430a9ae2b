/-
`process_command`: which procedure it calls, and what it does when it calls none. `argv[0]` is looked up
as a C string, so the part behind its first NUL plays no role; apart from that the dispatch is exact.
-/
import PubsubBroker.Broker.Subscribe

namespace PubsubBroker

open CLang

/-! ## The procedure that is called -/

/-- The procedure that `process_command` calls for `argv[0]` and `argc`, if any. -/
def calledProc (argv0 : Sds) (argc : Int) : Option SubCommandProc :=
  (findCommand argv0).bind fun cmd => if arityRefused cmd.arity argc then none else some cmd.proc

/-- What the arity of a command asks for: that many arguments, or at least `-arity` of them. -/
def ArityOk (arity argc : Int) : Prop := if arity > 0 then argc = arity else |arity| ≤ argc

/-- A request names the command, up to the case of letters, and has arguments as its arity asks for. -/
structure SubCommand.Matches (cmd : SubCommand) (argv0 : Sds) (argc : Int) : Prop where
  name : sdstolower argv0 = sdstolower cmd.name
  arity : ArityOk cmd.arity argc

theorem not_arityRefused_iff {arity argc : Int} : ¬ arityRefused arity argc ↔ ArityOk arity argc := by
  unfold arityRefused ArityOk
  split_ifs with hpos
  · constructor
    · intro hr
      by_contra hne
      exact hr (.inl ⟨hpos, fun heq => hne heq.symm⟩)
    · rintro rfl (⟨-, hne⟩ | hlt)
      · exact hne rfl
      · omega
  · rw [abs_of_nonpos (by omega)]
    constructor
    · intro hr
      by_contra hlt
      exact hr (.inr (by omega))
    · rintro hle (⟨h1, -⟩ | hlt)
      · exact hpos h1
      · omega

/-- The names in the table are in lower case and hold no NUL. -/
theorem subCommandTable_names : ∀ cmd ∈ subCommandTable, sdstolower cmd.name = cmd.name ∧ 0 ∉ cmd.name := by
  intro cmd hmem
  simp only [subCommandTable, List.mem_cons, List.not_mem_nil, or_false] at hmem
  rcases hmem with rfl | rfl | rfl <;> decide

/-- The procedure of an entry is called exactly when the entry is found and its arity accepts. -/
theorem calledProc_eq_some_iff {cmd : SubCommand} (hcmd : cmd ∈ subCommandTable) (argv0 : Sds) (argc : Int) :
    calledProc argv0 argc = some cmd.proc ↔ commandName argv0 = cmd.name ∧ ArityOk cmd.arity argc := by
  have hfind : calledProc argv0 argc = some cmd.proc ↔ findCommand argv0 = some cmd ∧ ¬ arityRefused cmd.arity argc := by
    unfold calledProc
    constructor
    · intro h
      obtain ⟨cmd', hfind, hproc⟩ := Option.bind_eq_some_iff.1 h
      split at hproc
      · cases hproc
      · rename_i harity
        have hmem := List.mem_of_find?_eq_some hfind
        have hsame : cmd' = cmd := by
          simp only [subCommandTable, List.mem_cons, List.not_mem_nil, or_false] at hmem hcmd
          rcases hmem with rfl | rfl | rfl <;> rcases hcmd with rfl | rfl | rfl <;> first | rfl | cases hproc
        exact hsame ▸ ⟨hfind, harity⟩
    · rintro ⟨hfind, harity⟩
      rw [hfind, Option.bind_some, if_neg harity]
  have hname : findCommand argv0 = some cmd ↔ commandName argv0 = cmd.name := by
    unfold findCommand
    constructor
    · intro h
      have hname : cmd.name = commandName argv0 := by simpa using List.find?_some h
      exact hname.symm
    · intro h
      rw [h]
      simp only [subCommandTable, List.mem_cons, List.not_mem_nil, or_false] at hcmd
      rcases hcmd with rfl | rfl | rfl <;> rfl
  rw [hfind, hname, not_arityRefused_iff]

/-- A table entry is matched exactly when it is found and `argv[0]` ends at its first NUL. -/
theorem matches_iff {cmd : SubCommand} (hcmd : cmd ∈ subCommandTable) (argv0 : Sds) (argc : Int) :
    cmd.Matches argv0 argc ↔ 0 ∉ argv0 ∧ commandName argv0 = cmd.name ∧ ArityOk cmd.arity argc := by
  obtain ⟨hlower, h0⟩ := subCommandTable_names cmd hcmd
  constructor
  · rintro ⟨hname, harity⟩
    rw [hlower] at hname
    -- a NUL in `argv[0]` would be one in the name
    have hnul : 0 ∉ argv0 := by
      intro hmem
      apply h0
      rw [← hname, sdstolower]
      exact List.mem_map.2 ⟨0, hmem, by decide⟩
    refine ⟨hnul, ?_, harity⟩
    rw [commandName, cstr_eq_self.2 hnul, hname]
  · rintro ⟨hnul, hname, harity⟩
    rw [commandName, cstr_eq_self.2 hnul] at hname
    exact ⟨hname.trans hlower.symm, harity⟩

/-! ## What the call does -/

section
variable {T : Datrie} (conv : Iconv) (reg : Nat → Nat → RegOutcome)

/-- `cmd->proc(c)` for the client at `r` with the id `id`. -/
def runProc (b : Broker T) (r : Nat) (id : Sds) (topics : List Sds) : SubCommandProc → Broker T
  | .ping => pingCommand reg b r
  | .subscribe => subscribeCommand conv reg b r id topics
  | .unsubscribe => unsubscribeCommand reg b r

/-- A procedure is run, or one error reply is made and nothing else. -/
theorem processCommand_calledProc (b : Broker T) (r : Nat) (id argv0 : Sds) (topics : List Sds) :
    (∃ proc, calledProc argv0 (topics.length + 1) = some proc ∧
      processCommand conv reg b r id argv0 topics = runProc conv reg b r id topics proc) ∨
    (calledProc argv0 (topics.length + 1) = none ∧
      ∃ text, processCommand conv reg b r id argv0 topics = reply reg b r (errorPieces text)) := by
  unfold calledProc processCommand
  cases hfind : findCommand argv0 with
  | none => exact .inr ⟨rfl, _, rfl⟩
  | some cmd =>
    by_cases harity : arityRefused cmd.arity (topics.length + 1)
    · refine .inr ⟨?_, ascii "wrong number of arguments for " ++ [SQUOTE] ++ commandName argv0 ++ [SQUOTE] ++
        ascii " command", ?_⟩
      · rw [Option.bind_some, if_pos harity]
      · simp only [if_pos harity]
        rfl
    · refine .inl ⟨cmd.proc, ?_, ?_⟩
      · rw [Option.bind_some, if_neg harity]
      · simp only [if_neg harity]
        cases cmd.proc <;> rfl

/-- The dispatch is exact: a procedure of the table is run exactly when the whole of `argv[0]` names its
entry and `argc` satisfies the arity; otherwise the topics stay as they are and there is one error reply,
whose text is one line. -/
structure DispatchExact (b : Broker T) (r : Nat) (c : SubClient) (argv0 : Sds) (topics : List Sds) : Prop where
  called : ∀ cmd ∈ subCommandTable, calledProc argv0 (topics.length + 1) = some cmd.proc ↔
    cmd.Matches argv0 (topics.length + 1)
  runs : ∀ cmd ∈ subCommandTable, cmd.Matches argv0 (topics.length + 1) →
    processCommand conv reg b r c.id argv0 topics = runProc conv reg b r c.id topics cmd.proc
  otherwise : (∀ cmd ∈ subCommandTable, ¬ cmd.Matches argv0 (topics.length + 1)) →
    (processCommand conv reg b r c.id argv0 topics).toTopics = b.toTopics ∧
    ∃ text, (processCommand conv reg b r c.id argv0 topics).replies = b.replies ++ [⟨r, c, [ascii "-ERR ", text, crlf]⟩] ∧
      CR ∉ text ∧ LF ∉ text

variable {conv reg}

/-- Line ends in the text of an error are replaced. -/
theorem errorPieces_clean (text : Sds) :
    ∃ text', errorPieces text = [ascii "-ERR ", text', crlf] ∧ CR ∉ text' ∧ LF ∉ text' := by
  refine ⟨_, rfl, ?_, ?_⟩
  all_goals
    rw [List.mem_map]
    rintro ⟨b, -, hb⟩
    split at hb
    · exact absurd hb (by decide)
    · rename_i hne
      simp [hb] at hne

theorem replies_reply {b : Broker T} {r : Nat} {c : SubClient} (hc : b.subClis[r]? = some c) (pieces : List Sds) :
    (reply reg b r pieces).replies = b.replies ++ [⟨r, c, pieces⟩] := by
  unfold reply
  rw [hc]

/-- `process_command` dispatches exactly unless what precedes a NUL in `argv[0]` names a command whose
arity accepts the arguments. -/
theorem dispatch_exact_iff {b : Broker T} {r : Nat} {c : SubClient} (hc : b.subClis[r]? = some c) (argv0 : Sds)
    (topics : List Sds) : DispatchExact conv reg b r c argv0 topics ↔
      ¬ (0 ∈ argv0 ∧ ∃ cmd ∈ subCommandTable, commandName argv0 = cmd.name ∧ ArityOk cmd.arity (topics.length + 1)) := by
  have hcalled : ∀ cmd ∈ subCommandTable, calledProc argv0 (topics.length + 1) = some cmd.proc ↔
      commandName argv0 = cmd.name ∧ ArityOk cmd.arity (topics.length + 1) :=
    fun cmd hcmd => calledProc_eq_some_iff hcmd argv0 _
  have hmatch : ∀ cmd ∈ subCommandTable, cmd.Matches argv0 (topics.length + 1) ↔
      0 ∉ argv0 ∧ calledProc argv0 (topics.length + 1) = some cmd.proc := fun cmd hcmd => by
    rw [matches_iff hcmd, hcalled cmd hcmd]
  constructor
  · rintro hexact ⟨hnul, cmd, hcmd, hfound⟩
    exact ((hmatch cmd hcmd).1 ((hexact.called cmd hcmd).1 ((hcalled cmd hcmd).2 hfound))).1 hnul
  · intro hcond
    -- without a NUL in front of a name, what is called is what is named
    have hcall : ∀ cmd ∈ subCommandTable, calledProc argv0 (topics.length + 1) = some cmd.proc ↔
        cmd.Matches argv0 (topics.length + 1) := by
      intro cmd hcmd
      rw [hmatch cmd hcmd, iff_and_self]
      intro hsome hnul
      exact hcond ⟨hnul, cmd, hcmd, (hcalled cmd hcmd).1 hsome⟩
    refine ⟨hcall, fun cmd hcmd hm => ?_, fun hnone => ?_⟩
    · rcases processCommand_calledProc conv reg b r c.id argv0 topics with ⟨proc, hproc, heq⟩ | ⟨hproc, -⟩
      · rw [(hcall cmd hcmd).2 hm] at hproc
        cases hproc
        exact heq
      · rw [(hcall cmd hcmd).2 hm] at hproc
        cases hproc
    · rcases processCommand_calledProc conv reg b r c.id argv0 topics with ⟨proc, hproc, -⟩ | ⟨-, text, heq⟩
      · have hentry : ∃ cmd ∈ subCommandTable, cmd.proc = proc := by
          cases proc with
          | ping => exact ⟨⟨ascii "ping", .ping, 1⟩, by simp [subCommandTable], rfl⟩
          | subscribe => exact ⟨⟨ascii "subscribe", .subscribe, -2⟩, by simp [subCommandTable], rfl⟩
          | unsubscribe => exact ⟨⟨ascii "unsubscribe", .unsubscribe, -1⟩, by simp [subCommandTable], rfl⟩
        obtain ⟨cmd, hcmd, rfl⟩ := hentry
        exact absurd ((hcall cmd hcmd).1 hproc) (hnone cmd hcmd)
      · obtain ⟨text', hpieces, hclean⟩ := errorPieces_clean text
        rw [heq, replies_reply hc, hpieces, reply_toTopics]
        exact ⟨rfl, text', rfl, hclean⟩

end

/-- A server with one client, `zeroedClient 5 []`. -/
def loneBroker : Broker listTrie := { Broker.init listTrie 0 with subClis := [zeroedClient 5 []] }

theorem dispatch_exact_subscribe :
    DispatchExact asciiConv (fun _ _ => .ok) loneBroker 0 (zeroedClient 5 []) (ascii "SUBscribe") [ascii "n"] ↔
      ¬ (0 ∈ ascii "SUBscribe" ∧ ∃ cmd ∈ subCommandTable, commandName (ascii "SUBscribe") = cmd.name ∧
        ArityOk cmd.arity ([ascii "n"].length + 1)) :=
  dispatch_exact_iff rfl (ascii "SUBscribe") [ascii "n"]

/-- An `argv[0]` of six bytes, `ping`, a NUL and an `x`, is answered as a `ping`. -/
theorem dispatch_ping_nul : loneBroker.subClis[0]? = some (zeroedClient 5 []) ∧
    (∀ cmd ∈ subCommandTable, ¬ cmd.Matches (ascii "ping" ++ [0, 120]) 1) ∧
    calledProc (ascii "ping" ++ [0, 120]) 1 = some .ping ∧
    processCommand asciiConv (fun _ _ => .ok) loneBroker 0 [] (ascii "ping" ++ [0, 120]) [] =
      pingCommand (fun _ _ => .ok) loneBroker 0 ∧
    ¬ DispatchExact asciiConv (fun _ _ => .ok) loneBroker 0 (zeroedClient 5 []) (ascii "ping" ++ [0, 120]) [] := by
  have hping : (⟨ascii "ping", .ping, 1⟩ : SubCommand) ∈ subCommandTable := by simp [subCommandTable]
  have hcalled : calledProc (ascii "ping" ++ [0, 120]) 1 = some .ping := by decide
  have hmatch : ∀ cmd ∈ subCommandTable, ¬ cmd.Matches (ascii "ping" ++ [0, 120]) 1 := fun cmd hcmd hm =>
    ((matches_iff hcmd _ _).1 hm).1 (by decide)
  exact ⟨rfl, hmatch, hcalled, rfl, fun h => hmatch _ hping ((h.called _ hping).1 hcalled)⟩

end PubsubBroker

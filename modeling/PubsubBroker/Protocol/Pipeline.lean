/-
Requests that arrive together. The loop of `process_sub_read_buf` parses everything in the buffer and
executes once, after it: a buffer of one request is executed as its sender meant it, a buffer of
several is not.
-/
import PubsubBroker.Protocol.Wire

namespace PubsubBroker

open CLang

/-! ## The driver loop -/

/-- The driver loop ends, and takes `c` to `c'`. -/
def Drives (c c' : SubClient) : Prop := ∀ fuel, c.readBuf.length ≤ fuel → parseLoop fuel c = some c'

theorem Drives.nil {c : SubClient} (h : c.readBuf = []) : Drives c c := by
  intro fuel _
  cases fuel <;> simp [parseLoop, h]

/-- A call that fails ends the loop. -/
theorem Drives.err {c c' : SubClient} (h : processRequest c = (.err, c')) (hne : c.readBuf ≠ []) : Drives c c' := by
  intro fuel hfuel
  have hpos := List.length_pos_of_ne_nil hne
  obtain ⟨n, rfl⟩ : ∃ n, fuel = n + 1 := ⟨fuel - 1, by omega⟩
  rw [parseLoop, if_neg (by omega), h]

/-- A call that succeeds on a buffer it shortens goes on with what is left. -/
theorem Drives.ok {c c1 c' : SubClient} (h : processRequest c = (.ok, c1))
    (hlt : c1.readBuf.length < c.readBuf.length) (h1 : Drives c1 c') : Drives c c' := by
  intro fuel hfuel
  obtain ⟨n, rfl⟩ : ∃ n, fuel = n + 1 := ⟨fuel - 1, by omega⟩
  rw [parseLoop, if_neg (by omega), h]
  exact h1 n (by omega)

theorem Drives.processSubReadBuf {c c' : SubClient} (h : Drives c c') :
    processSubReadBuf c = some (finishRead c') := by
  unfold PubsubBroker.processSubReadBuf
  rw [h _ le_rfl]
  rfl

/-! ## What is executed -/

/-- The command a request stands for: one without arguments executes nothing. -/
def Request.command (r : Request) : Option Command := if r.args = [] then none else some (r.args.map some)

/-- After the loop the held arguments are executed, if there are any, and the client is idle. -/
theorem Holding.finishRead {c : SubClient} {args : List Sds} {buf : List UInt8} (h : Holding c args buf) :
    (finishRead c).2 = (if args = [] then none else some (args.map some)) ∧ Holding (finishRead c).1 [] buf := by
  have hidle : ∀ c' : SubClient, c'.argc = 0 → c'.args = [] := fun c' h0 => by
    unfold SubClient.args
    rw [h0]
    rfl
  have hargc := h.argc
  unfold PubsubBroker.finishRead
  by_cases hnil : args = []
  · subst hnil
    rw [if_pos (by simpa using hargc), if_pos rfl]
    exact ⟨rfl, h.multiBulkLen, h.bulkLen, rfl, hidle _ rfl, h.readBuf⟩
  · have hpos := List.length_pos_of_ne_nil hnil
    rw [if_neg (by omega), if_neg hnil, h.held]
    exact ⟨rfl, rfl, rfl, rfl, hidle _ rfl, h.readBuf⟩

theorem Request.encode_ne_nil (r : Request) : r.encode ≠ [] := by
  cases r <;> simp [encode, countLine]

/-- One complete request in the buffer of an idle client is executed, with its arguments as `argv`
holds them. -/
theorem processSubReadBuf_encode {c : SubClient} {r : Request} (hwf : r.WellFormed) (hc : Holding c [] r.encode) :
    ∃ c', processSubReadBuf c = some (c', r.command) ∧ Holding c' [] [] ∧ c'.strays = c.strays := by
  rw [← List.append_nil r.encode] at hc
  obtain ⟨c1, hreq, hc1, hstrays⟩ := processRequest_encode hwf hc (.inr rfl)
  have hlt : c1.readBuf.length < c.readBuf.length := by
    rw [hc1.readBuf, hc.readBuf, List.append_nil]
    exact List.length_pos_of_ne_nil r.encode_ne_nil
  obtain ⟨hcmd, hfin⟩ := hc1.finishRead
  refine ⟨(finishRead c1).1, ?_, hfin, (finishRead_strays c1).trans hstrays⟩
  rw [(Drives.ok hreq hlt (.nil hc1.readBuf)).processSubReadBuf, Request.command, ← hcmd]

/-! ## Pipelining -/

/-- One call executes each of the requests once, in order and with its own arguments, and leaves an
empty buffer and an idle client. -/
def Pipelined (c : SubClient) (rs : List Request) : Prop :=
  ∃ c' cmd, processSubReadBuf c = some (c', cmd) ∧ cmd.toList = rs.map (fun r => r.ownArgs.map some) ∧
    c'.readBuf = [] ∧ c'.Idle

/-- No argument that is copied as a C string holds a NUL. -/
def Request.NulFree : Request → Prop
  | multibulk _ => True
  | inline line => ∀ token ∈ (inline line).ownArgs, 0 ∉ token

theorem Request.args_eq_ownArgs {r : Request} : r.args = r.ownArgs ↔ r.NulFree := by
  cases r with
  | multibulk args => exact ⟨fun _ => trivial, fun _ => rfl⟩
  | inline line =>
    unfold args NulFree
    conv_lhs => rhs; rw [← List.map_id (inline line).ownArgs]
    rw [List.map_inj_left]
    exact forall₂_congr fun token _ => cstr_eq_self

/-- One request is executed as it should be exactly when none of its tokens holds a NUL. -/
theorem pipelined_singleton {c : SubClient} {r : Request} (hwf : r.WellFormed) (hargs : r.ownArgs ≠ [])
    (hc : Holding c [] r.encode) : Pipelined c [r] ↔ r.NulFree := by
  have hne : r.args ≠ [] := by
    cases r with
    | multibulk args => exact hargs
    | inline line => exact fun h => hargs (List.map_eq_nil_iff.1 h)
  obtain ⟨c1, hrun, hc1, -⟩ := processSubReadBuf_encode hwf hc
  rw [Request.command, if_neg hne] at hrun
  rw [← Request.args_eq_ownArgs]
  constructor
  · rintro ⟨c', cmd, hrun', hcmd, -, -⟩
    rw [hrun] at hrun'
    obtain ⟨rfl, rfl⟩ := Prod.mk.inj (Option.some.inj hrun')
    exact List.map_injective_iff.2 (Option.some_injective _) (List.head_eq_of_cons_eq hcmd)
  · intro heq
    exact ⟨c1, _, hrun, by rw [heq]; rfl, hc1.readBuf, hc1.idle⟩

/-- The requests in the buffer of an idle client are executed as they should be exactly when there is
at most one of them and no token of it holds a NUL. -/
theorem pipelining {c : SubClient} {rs : List Request} (hidle : c.Idle)
    (hwf : ∀ r ∈ rs, r.WellFormed ∧ r.ownArgs ≠ []) (hbuf : c.readBuf = Request.encodeAll rs) :
    Pipelined c rs ↔ rs.length ≤ 1 ∧ ∀ r ∈ rs, r.NulFree := by
  have hc : Holding c [] (Request.encodeAll rs) := hbuf ▸ .of_idle hidle
  rcases rs with _ | ⟨r, _ | ⟨r', rs⟩⟩
  · obtain ⟨hcmd, hfin⟩ := hc.finishRead
    refine iff_of_true ⟨(finishRead c).1, (finishRead c).2, ?_, ?_, hfin.readBuf, hfin.idle⟩ (by simp)
    · exact (Drives.nil hc.readBuf).processSubReadBuf
    · rw [hcmd]
      rfl
  · obtain ⟨hwf, hargs⟩ := hwf r (List.mem_singleton_self r)
    rw [Request.encodeAll_cons, Request.encodeAll_nil, List.append_nil] at hc
    rw [pipelined_singleton hwf hargs hc]
    simp
  · -- one call executes at most one command
    refine ⟨?_, fun h => absurd h.1 (by simp)⟩
    rintro ⟨c', cmd, -, hcmd, -, -⟩
    have := congrArg List.length hcmd
    cases cmd <;> simp at this

theorem pipelining_ping :
    (zeroedClient 5 []).Idle ∧
      (Pipelined { zeroedClient 5 [] with readBuf := Request.encodeAll [.inline (ascii "ping")] } [.inline (ascii "ping")] ↔
        [Request.inline (ascii "ping")].length ≤ 1 ∧ ∀ r ∈ [Request.inline (ascii "ping")], r.NulFree) :=
  ⟨⟨rfl, rfl, rfl⟩, pipelining ⟨rfl, rfl, rfl⟩
    (by
      simp only [List.mem_singleton, forall_eq]
      exact ⟨⟨by decide, by decide, by decide, by decide +kernel⟩, by decide +kernel⟩) rfl⟩

/-- Two pipelined requests: one command is executed, and its name was never written. -/
theorem pipelined_pings :
    let rs := [Request.multibulk [ascii "PING"], Request.multibulk [ascii "PING"]]
    let c := { zeroedClient 5 [] with readBuf := Request.encodeAll rs }
    (∀ r ∈ rs, r.WellFormed ∧ r.ownArgs ≠ []) ∧ c.Idle ∧ ¬ Pipelined c rs ∧
      (processSubReadBuf c).map Prod.snd = some (some [none, some (ascii "PING")]) := by
  intro rs c
  have hrun : (processSubReadBuf c).map Prod.snd = some (some [none, some (ascii "PING")]) := by decide +kernel
  refine ⟨?_, ⟨rfl, rfl, rfl⟩, ?_, hrun⟩
  · simp only [rs, List.mem_cons, List.not_mem_nil, or_false, or_self, forall_eq]
    exact ⟨⟨by decide, by decide, by decide⟩, by decide⟩
  · rintro ⟨c', cmd, heq, hcmd, -⟩
    rw [heq] at hrun
    cases Option.some.inj hrun
    cases hcmd

end PubsubBroker

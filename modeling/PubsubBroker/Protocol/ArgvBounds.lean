/-
The bounds of `c->argv`. The array is allocated by the call that starts a request, filled by the
calls that parse it and read by `process_command` and `free_client_argv` after the loop. Nothing
ties these together when one loop parses two requests, so the bounds hold exactly as long as no
request takes the array from another one (`CallOk`).
-/
import PubsubBroker.Protocol.ParseSpec
import PubsubBroker.Protocol.Runs

namespace PubsubBroker

open CLang

/-! ## The bounds -/

/-- What was stored since `argv` was allocated lies within its slots, the entries below `argc` were
stored, and there is room for the bulks still to come. -/
structure ArgvOk (c : SubClient) : Prop where
  argc : 0 ≤ c.argc
  writes : ∀ i, c.argv.cells i ≠ none → 0 ≤ i ∧ i < c.argv.slots
  reads : ∀ i, 0 ≤ i → i < c.argc → c.argv.cells i ≠ none
  room : c.argc + c.multiBulkLen ≤ c.argv.slots

/-- A call takes the array from no request: a count line is accepted only when no argument is held,
and the slots of an inline request that its empty tokens leave unused are enough for the bulks that
a multibulk request still expects. -/
structure CallOk (c : SubClient) : Prop where
  multibulk : c.readBuf.head? = some 42 → c.multiBulkLen = 0 →
    ∀ ll p, readMultibulkLen c.readBuf = .length ll p → 0 < ll → c.argc = 0
  inline : c.readBuf.head? ≠ some 42 → ∀ argv n, readLine c.readBuf = .tokens argv n →
    (argv.filter (·.length ≠ 0)).length + c.multiBulkLen ≤ argv.length

/-- The bounds speak of the array and the two counters only. -/
theorem ArgvOk.congr {c c' : SubClient} (h : ArgvOk c) (hv : c'.argv = c.argv) (hc : c'.argc = c.argc)
    (hm : c'.multiBulkLen = c.multiBulkLen) : ArgvOk c' :=
  ⟨by rw [hc]; exact h.argc, by rw [hv]; exact h.writes, by rw [hv, hc]; exact h.reads, by rw [hv, hc, hm]; exact h.room⟩

/-- Nothing is stored and nothing counted. -/
theorem ArgvOk.of_empty {c : SubClient} (hc : c.argc = 0) (hcells : ∀ i, c.argv.cells i = none)
    (hroom : c.multiBulkLen ≤ c.argv.slots) : ArgvOk c :=
  ⟨by omega, fun i hi => absurd (hcells i) hi, fun i h0 hi => by omega, by omega⟩

/-- Arguments pushed into free slots keep the bounds. -/
theorem ArgvOk.pushArgs {c : SubClient} (h : ArgvOk { c with multiBulkLen := 0 }) (args : List Sds) (m : Nat)
    (hroom : c.argc + args.length + m ≤ c.argv.slots) : ArgvOk { c.pushArgs args with multiBulkLen := m } := by
  have hargc : 0 ≤ c.argc := h.argc
  refine ⟨?_, fun i hi => ?_, fun i h0 hi => ?_, ?_⟩
  · simp only [SubClient.pushArgs_argc]; omega
  · simp only [SubClient.pushArgs_cells, SubClient.pushArgs_slots] at hi ⊢
    split at hi
    · omega
    · exact h.writes i hi
  · simp only [SubClient.pushArgs_cells, SubClient.pushArgs_argc] at hi ⊢
    split
    · intro hnone
      rw [List.getElem?_eq_none_iff] at hnone
      omega
    · exact h.reads i h0 (by simp only; omega)
  · simpa using hroom

/-- The bulk loop keeps the bounds. -/
theorem multibulkLoop_argvOk {n pos : Nat} {c : SubClient} (h : ArgvOk c) (hn : c.multiBulkLen = n) :
    ArgvOk (multibulkLoop n pos c).2 := by
  obtain ⟨args, bl, buf, rej, hle, -, heq⟩ := multibulkLoop_shape n pos c hn
  have hroom := h.room
  have h0 : ArgvOk { c with multiBulkLen := 0 } := ⟨h.argc, h.writes, h.reads, by simp only; omega⟩
  rw [heq]
  exact (h0.pushArgs args (n - args.length) (by omega)).congr rfl rfl rfl

/-! ## One call -/

/-- An array allocated under arguments that are still counted leaves the first of them unwritten. -/
theorem not_argvOk_alloc {n m pos : Nat} {c : SubClient} (hc : 0 < c.argc) :
    ¬ ArgvOk (multibulkLoop n pos { c with multiBulkLen := n, argv := .alloc m }).2 := by
  intro h
  obtain ⟨args, bl, buf, rej, -, -, heq⟩ :=
    multibulkLoop_shape n pos { c with multiBulkLen := n, argv := .alloc m } rfl
  rw [heq] at h
  refine h.reads 0 le_rfl ?_ ?_
  · simp only [SubClient.pushArgs_argc]; omega
  · simp only [SubClient.pushArgs_cells]
    rw [if_neg (by omega)]
    rfl

/-- `process_multibulk_buffer` stays within the bounds exactly when a count line it accepts finds no
argument held. -/
theorem processMultibulkBuffer_argvOk {c : SubClient} (h : ArgvOk c) :
    ArgvOk (processMultibulkBuffer c).2 ↔
      (c.multiBulkLen = 0 → ∀ ll p, readMultibulkLen c.readBuf = .length ll p → 0 < ll → c.argc = 0) := by
  rcases processMultibulkBuffer_cases c with
    ⟨hm, p, hr, heq⟩ | ⟨hm, hr, heq⟩ | ⟨hm, ll, p, hr, hll, heq⟩ | ⟨hm, ll, p, hr, hll, heq⟩ | ⟨hm, heq⟩ <;>
    rw [heq]
  · refine iff_of_true (h.congr rfl rfl rfl) ?_
    intro _ ll q hr' _
    cases hr.symm.trans hr'
  · refine iff_of_true h ?_
    intro _ ll q hr' _
    cases hr.symm.trans hr'
  · refine iff_of_true (h.congr rfl rfl rfl) ?_
    intro _ ll' q hr' hpos
    rw [hr] at hr'
    cases hr'
    omega
  · constructor
    · intro hok _ _ _ _ _
      by_contra hne
      have := h.argc
      exact not_argvOk_alloc (by omega) hok
    · intro hk
      -- the new array has a slot for each bulk, and none of them is used yet
      have h0 : c.argc = 0 := hk hm ll p hr hll
      exact multibulkLoop_argvOk (.of_empty h0 (fun _ => rfl) le_rfl) rfl
  · refine iff_of_true (multibulkLoop_argvOk h rfl) ?_
    intro h0
    exact absurd h0 hm

/-- `process_inline_buffer` stays within the bounds exactly when the line it accepts leaves room for
the bulks that are expected. -/
theorem processInlineBuffer_argvOk {c : SubClient} (h : ArgvOk c) :
    ArgvOk (processInlineBuffer c).2 ↔ ∀ argv n, readLine c.readBuf = .tokens argv n →
      (argv.filter (·.length ≠ 0)).length + c.multiBulkLen ≤ argv.length := by
  rcases processInlineBuffer_cases c with ⟨hr, heq⟩ | ⟨hr, heq⟩ | ⟨argv, n, hr, heq⟩ <;> rw [heq]
  · refine iff_of_true (h.congr rfl rfl rfl) ?_
    intro argv' n' hr'
    cases hr.symm.trans hr'
  · refine iff_of_true h ?_
    intro argv' n' hr'
    cases hr.symm.trans hr'
  · constructor
    · intro hok argv' n' hr'
      rw [hr] at hr'
      cases hr'
      have := hok.room
      simp only [SubClient.pushArgs_argc, SubClient.pushArgs_slots, SubClient.pushArgs_multiBulkLen,
        List.length_map, Argv.alloc] at this
      omega
    · intro hk
      have hk := hk argv n hr
      refine (ArgvOk.pushArgs (.of_empty rfl (fun _ => rfl) (Nat.zero_le _)) _ c.multiBulkLen ?_).congr rfl rfl
        (by simp)
      simp only [Argv.alloc, List.length_map]
      omega

/-- From a client within the bounds, a parser call stays within them exactly when it takes the array
from no request. -/
theorem processRequest_argvOk {c : SubClient} (h : ArgvOk c) : ArgvOk (processRequest c).2 ↔ CallOk c := by
  rw [processRequest_eq]
  by_cases h42 : c.readBuf.head? = some 42
  · rw [if_pos h42, processMultibulkBuffer_argvOk (c := { c with reqType := REQ_MULTIBULK }) (h.congr rfl rfl rfl)]
    constructor
    · intro hk
      exact ⟨fun _ => hk, fun hne => absurd h42 hne⟩
    · intro hk
      exact hk.multibulk h42
  · rw [if_neg h42, processInlineBuffer_argvOk (c := { c with reqType := REQ_INLINE }) (h.congr rfl rfl rfl)]
    constructor
    · intro hk
      exact ⟨fun h' => absurd h' h42, fun _ => hk⟩
    · intro hk
      exact hk.inline h42

/-! ## Runs -/

/-- What follows the loop frees the array with its arguments, or keeps it for a request under way. -/
theorem ArgvOk.finishRead {c : SubClient} (h : ArgvOk c) : ArgvOk (finishRead c).1 := by
  have hargc := h.argc
  unfold PubsubBroker.finishRead
  split
  · rename_i h0
    exact h.congr (by simp [freeClientArgv, h0]) h0.symm rfl
  · rename_i h0
    refine .of_empty rfl (fun i => ?_) (Nat.zero_le _)
    simp only [resetClient, freeClientArgv, if_pos (by omega : c.argc > 0)]
    rfl

/-- From an idle client, a run stays within the bounds of `argv` exactly when no call takes the array
from a request whose arguments it holds or still expects. -/
theorem argv_bounds {c : SubClient} (hidle : c.Idle) (hcells : ∀ i, c.argv.cells i = none)
    (chunks : List (List UInt8)) :
    (∀ s ∈ runCalls c chunks, ArgvOk (processRequest s).2) ↔ ∀ s ∈ runCalls c chunks, CallOk s := by
  have hc : ArgvOk c := .of_empty hidle.argc hcells (by rw [hidle.multiBulkLen]; exact Nat.zero_le _)
  have hcall : ∀ {s c st}, ArgvOk s → CallOk s → processRequest s = (st, c) → ArgvOk c := by
    intro s c st hs hk heq
    have := (processRequest_argvOk hs).2 hk
    rwa [heq] at this
  exact (runCalls_rule (R := ArgvOk) (L := ArgvOk) (C := fun _ => True) (fun _ _ h _ => h.congr rfl rfl rfl)
    (fun _ => processRequest_argvOk) (fun _ _ => hcall) (fun _ _ hs hk heq => (hcall hs hk heq).finishRead)
    (fun _ h _ => h.finishRead) chunks c hc (fun _ _ => trivial)).1

theorem argv_bounds_ping :
    (zeroedClient 5 []).Idle ∧ (∀ i, (zeroedClient 5 []).argv.cells i = none) ∧
      ((∀ s ∈ runCalls (zeroedClient 5 []) [ascii "PING\r\n"], ArgvOk (processRequest s).2) ↔
        ∀ s ∈ runCalls (zeroedClient 5 []) [ascii "PING\r\n"], CallOk s) :=
  ⟨⟨rfl, rfl, rfl⟩, fun _ => rfl, argv_bounds ⟨rfl, rfl, rfl⟩ (fun _ => rfl) [ascii "PING\r\n"]⟩

/-- Two requests in one read: the second allocates one slot and is stored behind it. -/
theorem argv_overrun : ¬ ∀ s ∈ runCalls (zeroedClient 5 []) [ascii "*1\r\n$4\r\nPING\r\n*1\r\n$4\r\nPING\r\n"],
    ArgvOk (processRequest s).2 := by
  intro h
  have hout : ∃ s ∈ runCalls (zeroedClient 5 []) [ascii "*1\r\n$4\r\nPING\r\n*1\r\n$4\r\nPING\r\n"],
      (processRequest s).2.argv.cells 1 ≠ none ∧ (processRequest s).2.argv.slots = 1 := by decide +kernel
  obtain ⟨s, hs, hcell, hslots⟩ := hout
  have := (h s hs).writes 1 hcell
  omega

end PubsubBroker

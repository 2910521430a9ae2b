/-
Reading from a subscriber: the parsers and the commands put together as in `sub_ev_handler`. The parsers
touch the request state of a record only, and a read of one whole request is the event `command`.
-/
import PubsubBroker.Broker.State
import PubsubBroker.Protocol.Pipeline

namespace PubsubBroker

open CLang

/-! ## What the parsers leave alone -/

/-- The record without the state of the request under way. -/
def SubClient.sansRequest (c : SubClient) : SubClient :=
  { c with
    readBuf := []
    reqType := 0
    multiBulkLen := 0
    bulkLen := 0
    argc := 0
    argv := .alloc 0
    rejected := []
    strays := [] }

theorem trimTo_sansRequest (c : SubClient) (pos : Nat) : (trimTo c pos).sansRequest = c.sansRequest := by
  unfold trimTo
  split <;> rfl

theorem multibulkLoop_sansRequest (n pos : Nat) (c : SubClient) :
    (multibulkLoop n pos c).2.sansRequest = c.sansRequest := by
  induction n generalizing pos c with
  | zero => exact trimTo_sansRequest c pos
  | succ n ih =>
    rw [multibulkLoop]
    split
    · rfl
    · exact trimTo_sansRequest c pos
    · simp only
      split
      · exact trimTo_sansRequest ..
      · exact ih ..

theorem copyTokens_sansRequest (tokens : List Sds) (c : SubClient) :
    (copyTokens c tokens).sansRequest = c.sansRequest := by
  induction tokens generalizing c with
  | nil => rfl
  | cons token tokens ih =>
    change (copyTokens (if token.length ≠ 0 then c.pushArg (cstr token) else c) tokens).sansRequest = _
    rw [ih]
    split <;> rfl

theorem processRequest_sansRequest (c : SubClient) : (processRequest c).2.sansRequest = c.sansRequest := by
  rw [processRequest_eq]
  split
  · unfold processMultibulkBuffer
    split
    · split
      · rfl
      · rfl
      · split
        · rfl
        · exact multibulkLoop_sansRequest ..
    · exact multibulkLoop_sansRequest ..
  · unfold processInlineBuffer
    split
    · rfl
    · rfl
    · exact copyTokens_sansRequest ..

theorem parseLoop_sansRequest : ∀ (fuel : Nat) {c c' : SubClient}, parseLoop fuel c = some c' →
    c'.sansRequest = c.sansRequest
  | 0, c, c', h => by
    unfold parseLoop at h
    split at h
    · cases h
      rfl
    · cases h
  | fuel + 1, c, c', h => by
    have hstep := processRequest_sansRequest c
    unfold parseLoop at h
    split at h
    · cases h
      rfl
    · cases hreq : processRequest c with
      | mk st c1 =>
        rw [hreq] at h hstep
        cases st with
        | ok => exact (parseLoop_sansRequest fuel h).trans hstep
        | err =>
          cases h
          exact hstep

theorem subRead_sansRequest {c c' : SubClient} {chunk : List UInt8} {cmd : Option Command}
    (h : subRead c chunk = some (c', cmd)) : c'.sansRequest = c.sansRequest := by
  obtain ⟨c1, hloop, hfin⟩ := Option.map_eq_some_iff.1 h
  have hc1 := parseLoop_sansRequest _ hloop
  unfold finishRead at hfin
  split at hfin
  · cases hfin
    exact hc1
  · cases hfin
    exact hc1

/-! ## `sub_ev_handler` -/

section
variable {T : Datrie} (conv : Iconv) (reg : Nat → Nat → RegOutcome)

/-- `sub_ev_handler` when `read` returns `chunk`: `none` if the parsers do not return, if an argument was stored
outside `argv`, or if one of the command was never written. The source resets the request state behind the
command, which does not look at it. -/
def subEvRead (b : Broker T) (r : Nat) (chunk : List UInt8) : Option (Broker T) :=
  match b.subClis[r]? with
  | none => some b
  | some c =>
    match subRead c chunk with
    | none => none
    | some (c', cmd) =>
      if c'.strays ≠ [] then none
      else
        match cmd with
        | none => some (b.update r fun _ => c')
        | some cmd =>
          match cmd.mapM id with
          | some (argv0 :: topics) => some (processCommand conv reg (b.update r fun _ => c') r c.id argv0 topics)
          | _ => none

theorem mapM_map_some (args : List Sds) : (args.map some).mapM id = some args := by
  induction args with
  | nil => rfl
  | cons arg args ih => simp [ih]

/-- Reading one whole request from a client that waits for one is the event `command`. -/
theorem subEvRead_request {b : Broker T} {r : Nat} {c : SubClient} {req : Request} {argv0 : Sds} {topics : List Sds}
    (hc : b.subClis[r]? = some c) (hlive : c.live = true) (hidle : c.Idle) (hbuf : c.readBuf = []) (hstrays : c.strays = [])
    (hwf : req.WellFormed) (hargs : req.args = argv0 :: topics) :
    ∃ c', Holding c' [] [] ∧ c'.sansRequest = c.sansRequest ∧
      subEvRead conv reg b r req.encode = some (step conv reg (b.update r fun _ => c') (.command r argv0 topics)) := by
  have hhold : Holding { c with readBuf := c.readBuf ++ req.encode } [] req.encode := by
    rw [hbuf, List.nil_append]
    exact .of_idle ⟨hidle.argc, hidle.multiBulkLen, hidle.bulkLen⟩
  obtain ⟨c', hrun, hc', hstrays'⟩ := processSubReadBuf_encode hwf hhold
  rw [Request.command, hargs, if_neg (List.cons_ne_nil _ _)] at hrun
  have hread : subRead c req.encode = some (c', some (req.args.map some)) := by
    rw [hargs]
    exact hrun
  have hsame : c'.sansRequest = c.sansRequest := subRead_sansRequest hread
  have hid : c'.sansRequest.id = c.sansRequest.id := congrArg SubClient.id hsame
  have hlive' : c'.sansRequest.live = c.sansRequest.live := congrArg SubClient.live hsame
  change c'.id = c.id at hid
  change c'.live = c.live at hlive'
  refine ⟨c', hc', hsame, ?_⟩
  have hget : (b.update r fun _ => c').subClis[r]? = some c' := Broker.getElem?_update hc _
  unfold subEvRead
  simp only [hc]
  rw [hread, hargs]
  simp only [hstrays', hstrays, ne_eq, not_true_eq_false, if_false, mapM_map_some, step, hget, hlive', hlive, if_true, hid]

end

end PubsubBroker

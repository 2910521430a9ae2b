/-
Runs of the request parsers: a sequence of reads, each followed by the loop of `process_sub_read_buf`
over whatever the buffer holds then. `runCalls_rule` is the induction behind every property of the
parser calls of a run: an invariant between reads, one between calls, and what a call has to keep.
-/
import PubsubBroker.Protocol.Parse

namespace PubsubBroker

/-- The clients that the loop of `process_sub_read_buf` calls a parser on, in order. -/
def callStates : Nat → SubClient → List SubClient
  | 0, _ => []
  | fuel + 1, c =>
    if c.readBuf.length = 0 then []
    else
      c :: match processRequest c with
        | (.ok, c) => callStates fuel c
        | (.err, _) => []

/-- The clients that a parser is called on in the course of a sequence of reads. -/
def runCalls (c : SubClient) : List (List UInt8) → List SubClient
  | [] => []
  | chunk :: chunks =>
    callStates (c.readBuf ++ chunk).length { c with readBuf := c.readBuf ++ chunk } ++
      match subRead c chunk with
      | some (c, _) => runCalls c chunks
      | none => []

/-- The clients that the reads leave, one after each call of `process_sub_read_buf`. -/
def readStates (c : SubClient) : List (List UInt8) → List SubClient
  | [] => []
  | chunk :: chunks =>
    match subRead c chunk with
    | some (c, _) => c :: readStates c chunks
    | none => []

variable {R L P Q : SubClient → Prop} {C : List UInt8 → Prop}

/-- One loop: `L` holds of every client a parser is called on, `R` of the client that is left. -/
theorem callStates_rule
    (hPQ : ∀ s, L s → (P s ↔ Q s))
    (hok : ∀ s c, L s → Q s → processRequest s = (.ok, c) → L c)
    (herr : ∀ s c, L s → Q s → processRequest s = (.err, c) → R (finishRead c).1)
    (hdone : ∀ s, L s → s.readBuf = [] → R (finishRead s).1) :
    ∀ (fuel : Nat) (c : SubClient), L c →
      ((∀ s ∈ callStates fuel c, P s) ↔ ∀ s ∈ callStates fuel c, Q s) ∧
      ((∀ s ∈ callStates fuel c, Q s) → ∀ c', parseLoop fuel c = some c' → R (finishRead c').1)
  | 0, c, hc => by
    refine ⟨by simp [callStates], fun _ c' h => ?_⟩
    unfold parseLoop at h
    split at h
    · rename_i hlen
      cases h
      exact hdone c hc (List.length_eq_zero_iff.1 hlen)
    · cases h
  | fuel + 1, c, hc => by
    unfold callStates parseLoop
    split
    · rename_i hlen
      refine ⟨by simp, fun _ c' h => ?_⟩
      cases h
      exact hdone c hc (List.length_eq_zero_iff.1 hlen)
    · cases heq : processRequest c with
      | mk st c1 =>
        cases st with
        | ok =>
          simp only [List.forall_mem_cons]
          have ih := fun hq => callStates_rule hPQ hok herr hdone fuel c1 (hok c c1 hc hq heq)
          exact ⟨(and_congr_left fun _ => hPQ c hc).trans (and_congr_right fun hq => (ih hq).1),
            fun hq => (ih hq.1).2 hq.2⟩
        | err =>
          simp only [List.forall_mem_cons, List.not_mem_nil, false_implies, implies_true, and_true]
          refine ⟨hPQ c hc, fun hq c' h => ?_⟩
          cases h
          exact herr c c1 hc hq heq

/-- A run: when every read turns `R` into `L`, the calls of the run meet `P` exactly when they meet
`Q`, and as long as they do, `R` holds between the reads. -/
theorem runCalls_rule
    (hread : ∀ c chunk, R c → C chunk → L { c with readBuf := c.readBuf ++ chunk })
    (hPQ : ∀ s, L s → (P s ↔ Q s))
    (hok : ∀ s c, L s → Q s → processRequest s = (.ok, c) → L c)
    (herr : ∀ s c, L s → Q s → processRequest s = (.err, c) → R (finishRead c).1)
    (hdone : ∀ s, L s → s.readBuf = [] → R (finishRead s).1) :
    ∀ (chunks : List (List UInt8)) (c : SubClient), R c → (∀ chunk ∈ chunks, C chunk) →
      ((∀ s ∈ runCalls c chunks, P s) ↔ ∀ s ∈ runCalls c chunks, Q s) ∧
      ((∀ s ∈ runCalls c chunks, Q s) → ∀ s ∈ readStates c chunks, R s)
  | [], c, _, _ => by simp [runCalls, readStates]
  | chunk :: chunks, c, hc, hchunks => by
    rw [List.forall_mem_cons] at hchunks
    have hloop := callStates_rule hPQ hok herr hdone (c.readBuf ++ chunk).length _ (hread c chunk hc hchunks.1)
    unfold runCalls readStates
    simp only [List.forall_mem_append, hloop.1]
    cases hs : subRead c chunk with
    | none => simp
    | some r =>
      obtain ⟨c1, hparse, rfl⟩ := Option.map_eq_some_iff.1 hs
      have ih := fun hq => runCalls_rule hread hPQ hok herr hdone chunks _ (hloop.2 hq c1 hparse) hchunks.2
      refine ⟨and_congr_right fun hq => (ih hq).1, fun hq => ?_⟩
      rw [List.forall_mem_cons]
      exact ⟨hloop.2 hq.1 c1 hparse, (ih hq.1).2 hq.2⟩

end PubsubBroker

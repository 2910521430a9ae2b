/-
The records of the subscribers over an event: a connection puts a new one behind them, and every other
event leaves each record one that continues it.
-/
import PubsubBroker.Broker.Subscribe
import PubsubBroker.Protocol.Lifetime

namespace PubsubBroker

open CLang

section
variable {T : Datrie} (conv : Iconv) (reg : Nat → Nat → RegOutcome)

theorem continue_update (b : Broker T) (r : Nat) {f : SubClient → SubClient} (hf : ∀ c, Continues c (f c)) :
    List.Forall₂ Continues b.subClis (b.update r f).subClis := by
  refine List.forall₂_iff_get.2 ⟨by simp [Broker.update], fun i h1 h2 => ?_⟩
  simp only [Broker.update, List.get_eq_getElem, List.getElem_modify]
  split
  · exact hf _
  · exact .refl _

theorem continue_reply (b : Broker T) (r : Nat) (ps : List Sds) :
    List.Forall₂ Continues b.subClis (reply reg b r ps).subClis := by
  rw [reply_subClis]
  exact continue_update b r (continues_addPieces (reg r) ps)

theorem forall₂_continues_trans {l l' l'' : List SubClient} (h : List.Forall₂ Continues l l')
    (h' : List.Forall₂ Continues l' l'') : List.Forall₂ Continues l l'' := by
  induction h generalizing l'' with
  | nil => exact h'
  | cons hc _ ih =>
    cases h' with
    | cons hc' hrest => exact .cons (hc.trans hc') (ih hrest)

theorem continue_replyAll : ∀ (rs : List (Nat × List Sds)) (b : Broker T),
    List.Forall₂ Continues b.subClis (replyAll reg b rs).subClis
  | [], _ => List.forall₂_same.2 fun c _ => .refl c
  | r :: rs, b => forall₂_continues_trans (continue_reply reg b r.1 r.2) (continue_replyAll rs (replyStep reg b r))

/-- The replies that an event makes. -/
def repliesOf (b : Broker T) : Op → List (Nat × List Sds)
  | .command r argv0 topics => if b.Live r then [(r, commandPieces argv0 topics)] else []
  | .publish msg junk => ((publishedTo conv b msg junk).flatMap b.members).map fun r => (r, bulkPieces msg)
  | _ => []

/-- What an event does to the records. -/
theorem step_subClis (b : Broker T) (op : Op) : (step conv reg b op).subClis =
    match op with
    | .accept fd sec pid junk out => (acceptSub b fd sec pid junk out).subClis
    | .readFail r => (if b.Live r then b.update r subCliRelease else b).subClis
    | .writable r ws junk => (if b.Live r then b.update r (sendReplyToSubcli (reg r) junk · ws) else b).subClis
    | op => (replyAll reg b (repliesOf conv b op)).subClis := by
  cases op with
  | command r argv0 topics =>
    simp only [repliesOf]
    rcases step_command conv reg b r argv0 topics with ⟨hdead, heq⟩ | ⟨c, hc, hlive, heq⟩
    · rw [heq, if_neg hdead]
      rfl
    · rw [heq, if_pos ⟨c, hc, hlive⟩]
      simp only [reply, replyAll, replyStep, Machine.run_cons, Machine.run_nil, hc]
  | publish msg junk =>
    simp only [step]
    rw [processPubReadBuf_eq]
    rfl
  | _ => rfl

/-- The record that an event creates, as `sub_cli_create` returns it. -/
def created (b : Broker T) : Op → List SubClient
  | .accept fd sec pid junk _ => [subCliCreate junk fd (createObjectid sec pid (toInt (b.subIncCounter + 1)))]
  | _ => []

/-- Every record, the new one included, is continued. -/
theorem step_continues (b : Broker T) (op : Op) :
    List.Forall₂ Continues (b.subClis ++ created b op) (step conv reg b op).subClis := by
  have hsame : List.Forall₂ Continues b.subClis b.subClis := List.forall₂_same.2 fun c _ => .refl c
  rw [step_subClis]
  cases op with
  | accept fd sec pid junk out =>
    have hnew {c c' : SubClient} (hc : Continues c c') : List.Forall₂ Continues (b.subClis ++ [c]) (b.subClis ++ [c']) :=
      List.rel_append hsame (.cons hc .nil)
    cases out with
    | ok => exact hnew ⟨rfl, rfl, fun h => h, rfl⟩
    | addFails => exact hnew ⟨rfl, rfl, fun h => h, rfl⟩
  | command r argv0 topics =>
    simp only [created, List.append_nil]
    exact continue_replyAll reg _ b
  | publish msg junk =>
    simp only [created, List.append_nil]
    exact continue_replyAll reg _ b
  | readFail r =>
    simp only [created, List.append_nil]
    split
    · exact continue_update b r continues_subCliRelease
    · exact hsame
  | writable r ws junk =>
    simp only [created, List.append_nil]
    split
    · exact continue_update b r fun c => continues_sendReplyToSubcli (reg r) c ws junk
    · exact hsame

end

end PubsubBroker

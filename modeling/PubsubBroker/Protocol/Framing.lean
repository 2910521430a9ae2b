/-
Framing of replies. The pieces of a reply are appended one by one, and nothing takes the first ones
back when a later one does not fit. `allOrNone_iff` says exactly when a reply is appended or dropped as
a whole, and a stream of such replies stays a concatenation of complete ones.
-/
import PubsubBroker.Protocol.Reply

namespace PubsubBroker

open CLang

/-! ## The pieces that fit -/

theorem length_fitting_le (a : Nat) (ps : List Sds) : (fitting a ps).length ≤ a := by
  induction ps generalizing a with
  | nil => simp [fitting]
  | cons p ps ih =>
    unfold fitting
    split
    · have := ih (a - p.length)
      rw [List.length_append]
      omega
    · exact ih a

theorem length_fitting_le_flatten (a : Nat) (ps : List Sds) : (fitting a ps).length ≤ ps.flatten.length := by
  induction ps generalizing a with
  | nil => simp [fitting]
  | cons p ps ih =>
    unfold fitting
    rw [List.flatten_cons, List.length_append]
    split
    · have := ih (a - p.length)
      rw [List.length_append]
      omega
    · have := ih a
      omega

theorem fitting_eq_flatten_iff {a : Nat} {ps : List Sds} : fitting a ps = ps.flatten ↔ ps.flatten.length ≤ a := by
  constructor
  · intro h
    rw [← h]
    exact length_fitting_le a ps
  · intro h
    induction ps generalizing a with
    | nil => rfl
    | cons p ps ih =>
      rw [List.flatten_cons, List.length_append] at h
      rw [fitting, if_pos (by omega), ih (by omega), List.flatten_cons]

theorem fitting_eq_nil_iff {a : Nat} {ps : List Sds} (hne : [] ∉ ps) :
    fitting a ps = [] ↔ ∀ p ∈ ps, a < p.length := by
  induction ps generalizing a with
  | nil => simp [fitting]
  | cons p ps ih =>
    simp only [List.mem_cons, not_or] at hne
    rw [List.forall_mem_cons, fitting]
    split
    · rename_i h
      constructor
      · intro he
        exact absurd (List.append_eq_nil_iff.1 he).1 (Ne.symm hne.1)
      · rintro ⟨hlt, -⟩
        omega
    · rename_i h
      rw [ih hne.2]
      constructor
      · intro he
        exact ⟨by omega, he⟩
      · rintro ⟨-, he⟩
        exact he

theorem afterRefusals_suffix (reg : Nat → RegOutcome) (n : Nat) (ps : List Sds) : afterRefusals reg n ps <:+ ps := by
  induction ps generalizing n with
  | nil => exact List.suffix_rfl
  | cons p ps ih =>
    unfold afterRefusals
    split
    · exact List.suffix_rfl
    · exact (ih (n + 1)).trans (List.suffix_cons p ps)

theorem served_suffix (reg : Nat → RegOutcome) (c : SubClient) (ps : List Sds) : served reg c ps <:+ ps := by
  unfold served
  split
  · exact List.suffix_rfl
  · exact afterRefusals_suffix ..

/-- A suffix with as many bytes is all of the list, when no piece is empty. -/
theorem eq_of_suffix_of_length {ps qs : List Sds} (h : qs <:+ ps) (hne : [] ∉ ps)
    (hlen : ps.flatten.length ≤ qs.flatten.length) : qs = ps := by
  obtain ⟨t, rfl⟩ := h
  cases t with
  | nil => rfl
  | cons p t =>
    have hp : p ≠ [] := fun h0 => hne (by simp [h0])
    have := List.length_pos_of_ne_nil hp
    simp only [List.cons_append, List.flatten_cons, List.flatten_append, List.length_append] at hlen
    omega

/-! ## Replies as a whole -/

section
variable (reg : Nat → RegOutcome)

/-- All pieces of the reply are appended, or none. -/
def AllOrNone (c : SubClient) (ps : List Sds) : Prop :=
  (addPieces reg c ps).appended = c.appended ∨ (addPieces reg c ps).appended = c.appended ++ ps.flatten

/-- No registration is refused and the reply fits as a whole, or none of the pieces that get past the
registration fits. -/
def ReplyOk (c : SubClient) (ps : List Sds) : Prop :=
  (served reg c ps = ps ∧ ps.flatten.length ≤ c.wbuf.available) ∨ ∀ p ∈ served reg c ps, c.wbuf.available < p.length

instance (c : SubClient) (ps : List Sds) : Decidable (ReplyOk reg c ps) := inferInstanceAs (Decidable (_ ∨ _))

theorem allOrNone_iff {c : SubClient} {ps : List Sds} (hne : [] ∉ ps) : AllOrNone reg c ps ↔ ReplyOk reg c ps := by
  have hserved : [] ∉ served reg c ps := fun h => hne ((served_suffix reg c ps).subset h)
  unfold AllOrNone ReplyOk
  rw [addPieces_appended, or_comm]
  refine or_congr ?_ ?_
  · rw [List.append_cancel_left_eq]
    constructor
    · intro h
      have hall : served reg c ps = ps := by
        refine eq_of_suffix_of_length (served_suffix reg c ps) hne ?_
        rw [← h]
        exact length_fitting_le_flatten ..
      rw [hall, fitting_eq_flatten_iff] at h
      exact ⟨hall, h⟩
    · rintro ⟨hall, hfit⟩
      rw [hall, fitting_eq_flatten_iff]
      exact hfit
  · rw [List.append_right_eq_self, fitting_eq_nil_iff hserved]

end

/-! ## Complete replies -/

/-- A complete RESP reply: a status line, an error line, or a bulk. -/
inductive IsReply : List UInt8 → Prop
  | status (s : Sds) (hcr : CR ∉ s) (hlf : LF ∉ s) : IsReply (43 :: s ++ crlf)
  | error (s : Sds) (hcr : CR ∉ s) (hlf : LF ∉ s) : IsReply (ascii "-ERR " ++ s ++ crlf)
  | bulk (s : Sds) : IsReply (bulk s)

/-- A concatenation of complete replies. -/
def Framed (bytes : List UInt8) : Prop := ∃ rs : List (List UInt8), (∀ r ∈ rs, IsReply r) ∧ bytes = rs.flatten

theorem Framed.nil : Framed [] := ⟨[], by simp, rfl⟩

theorem Framed.append {bytes r : List UInt8} (h : Framed bytes) (hr : IsReply r) : Framed (bytes ++ r) := by
  obtain ⟨rs, hrs, rfl⟩ := h
  refine ⟨rs ++ [r], fun x hx => ?_, by simp⟩
  rcases List.mem_append.1 hx with hx | hx
  · exact hrs x hx
  · exact List.mem_singleton.1 hx ▸ hr

/-- What every reply of the broker is made of. -/
structure Reply (ps : List Sds) : Prop where
  whole : IsReply ps.flatten
  pieces : [] ∉ ps

theorem Reply.bulk {cnt : Sds} (h : cnt ≠ []) : Reply (bulkPieces cnt) := by
  refine ⟨?_, ?_⟩
  · have : (bulkPieces cnt).flatten = PubsubBroker.bulk cnt := by simp [bulkPieces, PubsubBroker.bulk, bulkBody, crlf]
    rw [this]
    exact .bulk cnt
  · simp only [bulkPieces, crlf, bulkHeader, List.mem_cons, List.not_mem_nil, or_false, not_or]
    exact ⟨by simp, Ne.symm h, by simp⟩

theorem Reply.error {text : Sds} (h : text ≠ []) : Reply (errorPieces text) := by
  have hno : ∀ b ∈ text.map (fun b => if b = CR ∨ b = LF then 32 else b), b ≠ CR ∧ b ≠ LF := by
    intro b hb
    obtain ⟨x, -, rfl⟩ := List.mem_map.1 hb
    split
    · exact ⟨by decide, by decide⟩
    · rename_i hx
      exact not_or.1 hx
  refine ⟨?_, ?_⟩
  · have := IsReply.error _ (fun hb => (hno _ hb).1 rfl) (fun hb => (hno _ hb).2 rfl)
    simpa [errorPieces] using this
  · simp only [errorPieces, crlf, List.mem_cons, List.not_mem_nil, or_false, not_or]
    exact ⟨by decide, fun h0 => h (List.map_eq_nil_iff.1 h0.symm), by simp⟩

theorem Reply.pong : Reply pongPieces := ⟨.status (ascii "PONG") (by decide) (by decide), by decide⟩

theorem Reply.subscribe : Reply subscribePieces := ⟨.status (ascii "subscribe") (by decide) (by decide), by decide⟩

theorem Reply.unsubscribe : Reply unsubscribePieces :=
  ⟨.status (ascii "unsubscribe") (by decide) (by decide), by decide⟩

end PubsubBroker

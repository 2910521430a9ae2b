/-
What the uninitialised fields of a new client do. `sub_cli_create` leaves `req_type`, `argc` and `argv`
as `malloc` returned them. The type is guessed before it is read and `argv` is allocated before it is
written, but `argc` is counted up from whatever it was until a request line assigns it, and a bulk that
is stored before that goes to wherever it points: `junk_unobserved_iff` is about two runs, from clients
that differ in nothing else.
-/
import PubsubBroker.Protocol.Termination

namespace PubsubBroker

open CLang

/-! ## What a run shows -/

/-- What a read shows of the request state: the command that is executed, the entries of `argv` that are
freed behind it, the buffer that is left, and where a store has missed `argv` so far, which is memory of
something else. -/
structure Observed where
  command : Option Command
  freed : Command
  readBuf : Sds
  strays : List Int

/-- `sub_ev_handler` on a read, with what it shows. `free_client_argv` frees `argv[0]` to `argv[argc - 1]`. -/
def observeRead (c : SubClient) (chunk : List UInt8) : Option (SubClient × Observed) :=
  (parseLoop (c.readBuf ++ chunk).length { c with readBuf := c.readBuf ++ chunk }).map fun c =>
    ((finishRead c).1, ⟨(finishRead c).2, c.args, (finishRead c).1.readBuf, (finishRead c).1.strays⟩)

/-- What a sequence of reads shows, up to a read that does not return. -/
def observe (c : SubClient) : List (List UInt8) → List Observed
  | [] => []
  | chunk :: chunks =>
    match observeRead c chunk with
    | none => []
    | some (c, o) => o :: observe c chunks

/-! ## Two runs of the parsers -/

/-- `c'` is `c` but for the fields that `sub_cli_create` does not assign, with `argc` ahead by `d`, and for
what was stored outside the slots. -/
def Shifted (d : Int) (c c' : SubClient) : Prop :=
  ∃ rt v l, c' = { c with reqType := rt, argc := c.argc + d, argv := v, strays := l }

theorem Shifted.readBuf {d : Int} {c c' : SubClient} (h : Shifted d c c') : c'.readBuf = c.readBuf := by
  obtain ⟨rt, v, l, rfl⟩ := h
  rfl

theorem Shifted.argc {d : Int} {c c' : SubClient} (h : Shifted d c c') : c'.argc = c.argc + d := by
  obtain ⟨rt, v, l, rfl⟩ := h
  rfl

theorem Shifted.trimTo {d : Int} {c c' : SubClient} (h : Shifted d c c') (pos : Nat) :
    Shifted d (trimTo c pos) (trimTo c' pos) := by
  obtain ⟨rt, v, l, rfl⟩ := h
  unfold PubsubBroker.trimTo
  split
  · exact ⟨rt, v, l, rfl⟩
  · exact ⟨rt, v, l, rfl⟩

theorem Shifted.pushArg {d : Int} {c c' : SubClient} (h : Shifted d c c') (arg : Sds) :
    Shifted d (c.pushArg arg) (c'.pushArg arg) := by
  obtain ⟨rt, v, l, rfl⟩ := h
  refine ⟨rt, (SubClient.pushArg { c with argc := c.argc + d, argv := v } arg).argv,
    (SubClient.pushArg { c with argc := c.argc + d, argv := v, strays := l } arg).strays, ?_⟩
  simp only [SubClient.pushArg, SubClient.mk.injEq, and_true, true_and]
  omega

theorem Shifted.update {d : Int} {c c' : SubClient} (h : Shifted d c c') (n : Nat) (bl : Int) (buf : Sds)
    (rej : List Sds) :
    Shifted d { c with multiBulkLen := n, bulkLen := bl, readBuf := buf, rejected := rej }
      { c' with multiBulkLen := n, bulkLen := bl, readBuf := buf, rejected := rej } := by
  obtain ⟨rt, v, l, rfl⟩ := h
  exact ⟨rt, v, l, rfl⟩

/-- The bulk loop does not look at the fields. -/
theorem multibulkLoop_shifted {d : Int} : ∀ (n pos : Nat) {c c' : SubClient}, Shifted d c c' →
    (multibulkLoop n pos c').1 = (multibulkLoop n pos c).1 ∧
      Shifted d (multibulkLoop n pos c).2 (multibulkLoop n pos c').2
  | 0, pos, c, c', h => ⟨rfl, h.trimTo pos⟩
  | n + 1, pos, c, c', h => by
    have hpush (arg : Sds) := (h.pushArg arg).update n (-1) c.readBuf c.rejected
    obtain ⟨rt, v, l, rfl⟩ := h
    rw [multibulkLoop, multibulkLoop]
    simp only
    cases (if c.bulkLen = -1 then readBulkLen c.readBuf pos else .length c.bulkLen pos) with
    | reject p => exact ⟨rfl, rt, v, l, rfl⟩
    | wait => exact ⟨rfl, Shifted.trimTo ⟨rt, v, l, rfl⟩ pos⟩
    | length ll p =>
      simp only
      split
      · exact ⟨rfl, Shifted.trimTo ⟨rt, v, l, rfl⟩ p⟩
      · exact multibulkLoop_shifted n _ (hpush _)

theorem processMultibulkBuffer_shifted {d : Int} {c c' : SubClient} (h : Shifted d c c') :
    (processMultibulkBuffer c').1 = (processMultibulkBuffer c).1 ∧
      Shifted d (processMultibulkBuffer c).2 (processMultibulkBuffer c').2 := by
  obtain ⟨rt, v, l, rfl⟩ := h
  unfold processMultibulkBuffer
  simp only
  split
  · cases readMultibulkLen c.readBuf with
    | reject p => exact ⟨rfl, rt, v, l, rfl⟩
    | wait => exact ⟨rfl, rt, v, l, rfl⟩
    | length ll p =>
      simp only
      split
      · exact ⟨rfl, rt, v, l, rfl⟩
      · exact multibulkLoop_shifted _ _ ⟨rt, .alloc ll.toNat, l, rfl⟩
  · exact multibulkLoop_shifted _ _ ⟨rt, v, l, rfl⟩

/-- `process_inline_buffer` is called and accepts a line. -/
def AcceptsLine (c : SubClient) : Prop :=
  c.readBuf.head? ≠ some 42 ∧ ∃ argv n, readLine c.readBuf = .tokens argv n

/-- A line that is accepted assigns the fields. -/
theorem processRequest_line {d : Int} {c c' : SubClient} (h : Shifted d c c') (hstrays : c'.strays = c.strays)
    (hline : AcceptsLine c) : processRequest c' = processRequest c := by
  obtain ⟨h42, argv, n, hr⟩ := hline
  obtain ⟨rt, v, l, rfl⟩ := h
  obtain rfl : l = c.strays := hstrays
  rw [processRequest_eq, processRequest_eq, if_neg h42, if_neg h42]
  unfold processInlineBuffer
  simp only [hr]

/-- Every other call does not look at them. -/
theorem processRequest_shifted {d : Int} {c c' : SubClient} (h : Shifted d c c') (hline : ¬ AcceptsLine c) :
    (processRequest c').1 = (processRequest c).1 ∧ Shifted d (processRequest c).2 (processRequest c').2 := by
  rw [processRequest_eq, processRequest_eq, h.readBuf]
  by_cases h42 : c.readBuf.head? = some 42
  · rw [if_pos h42, if_pos h42]
    obtain ⟨rt, v, l, rfl⟩ := h
    exact processMultibulkBuffer_shifted ⟨REQ_MULTIBULK, v, l, rfl⟩
  · rw [if_neg h42, if_neg h42]
    obtain ⟨rt, v, l, rfl⟩ := h
    unfold processInlineBuffer
    simp only
    cases hr : readLine c.readBuf with
    | reject => exact ⟨rfl, REQ_INLINE, v, l, rfl⟩
    | wait => exact ⟨rfl, REQ_INLINE, v, l, rfl⟩
    | tokens argv n => exact absurd ⟨h42, argv, n, hr⟩ hline

/-! ## Stores -/

/-- The next bulk at `pos` is all there. -/
def BulkAt (c : SubClient) (pos : Nat) : Prop := ∃ ll p, BodyAt c pos ll p ∧ toUInt (ll + 2) ≤ c.readBuf.length - p

/-- `process_multibulk_buffer` is called and finds a bulk to store. -/
structure StoresBulk (c : SubClient) : Prop where
  type : c.readBuf.head? = some 42
  started : c.multiBulkLen = 0 → ∃ ll p, readMultibulkLen c.readBuf = .length ll p ∧ 0 < ll ∧ BulkAt c p
  underWay : c.multiBulkLen ≠ 0 → BulkAt c 0

/-- A line is accepted before a bulk is stored. -/
def LineFirst : List SubClient → Prop
  | [] => False
  | s :: calls => AcceptsLine s ∨ ¬ StoresBulk s ∧ LineFirst calls

theorem suffix_pushArg (c : SubClient) (arg : Sds) : c.strays <:+ (c.pushArg arg).strays := by
  unfold SubClient.pushArg
  simp only
  split
  · exact List.suffix_rfl
  · exact List.suffix_cons ..

theorem suffix_pushArgs : ∀ (args : List Sds) (c : SubClient), c.strays <:+ (c.pushArgs args).strays
  | [], _ => List.suffix_rfl
  | a :: args, c => (suffix_pushArg c a).trans (suffix_pushArgs args (c.pushArg a))

theorem suffix_multibulkLoop {n pos : Nat} {c : SubClient} {l : List Int} (hn : c.multiBulkLen = n) (hl : c.strays = l) :
    l <:+ (multibulkLoop n pos c).2.strays := by
  obtain ⟨args, bl, buf, rej, -, -, heq⟩ := multibulkLoop_shape n pos c hn
  rw [heq, ← hl]
  exact suffix_pushArgs args c

/-- Without a bulk nothing is stored. -/
theorem multibulkLoop_quiet {pos : Nat} {c : SubClient} (h : ¬ BulkAt c pos) : ∀ n,
    (multibulkLoop n pos c).2.strays = c.strays ∧ (multibulkLoop n pos c).2.argc = c.argc := by
  have htrim (d : SubClient) (q : Nat) : (trimTo d q).strays = d.strays ∧ (trimTo d q).argc = d.argc := by
    unfold trimTo
    split <;> exact ⟨rfl, rfl⟩
  intro n
  cases n with
  | zero => exact htrim c pos
  | succ n =>
    rcases multibulkLoop_cases n pos c with ⟨p, -, -, heq⟩ | ⟨-, -, heq⟩ | ⟨ll, p, -, -, heq⟩ | ⟨ll, p, hb, hfull, -⟩
    · rw [heq]
      exact ⟨rfl, rfl⟩
    · rw [heq]
      exact htrim c pos
    · rw [heq]
      exact htrim { c with bulkLen := ll } p
    · exact absurd ⟨ll, p, hb, hfull⟩ h

/-- A bulk is stored at `argv[argc]`, which a negative `argc` has outside the slots. -/
theorem multibulkLoop_stray {n pos : Nat} {c : SubClient} {l : List Int} (hn : n ≠ 0) (hargc : c.argc < 0)
    (hl : c.argc :: c.strays = l) (h : BulkAt c pos) : l <:+ (multibulkLoop n pos c).2.strays := by
  obtain ⟨ll, p, hb, hfull⟩ := h
  obtain ⟨m, rfl⟩ := Nat.exists_eq_succ_of_ne_zero hn
  rw [multibulkLoop_take hb hfull, ← hl]
  exact suffix_multibulkLoop rfl (if_neg (by omega))

theorem suffix_processRequest (c : SubClient) : c.strays <:+ (processRequest c).2.strays := by
  rw [processRequest_eq]
  split
  · rcases processMultibulkBuffer_cases { c with reqType := REQ_MULTIBULK } with
      ⟨-, p, -, heq⟩ | ⟨-, -, heq⟩ | ⟨-, ll, p, -, -, heq⟩ | ⟨-, ll, p, -, -, heq⟩ | ⟨-, heq⟩
    · exact heq ▸ List.suffix_rfl
    · exact heq ▸ List.suffix_rfl
    · exact heq ▸ List.suffix_rfl
    · exact heq ▸ suffix_multibulkLoop rfl rfl
    · exact heq ▸ suffix_multibulkLoop rfl rfl
  · rcases processInlineBuffer_cases { c with reqType := REQ_INLINE } with ⟨-, heq⟩ | ⟨-, heq⟩ | ⟨argv, n, -, heq⟩
    · exact heq ▸ List.suffix_rfl
    · exact heq ▸ List.suffix_rfl
    · rw [heq]
      refine List.IsSuffix.trans ?_ (suffix_pushArgs _ _)
      exact List.suffix_rfl

/-- A call that neither accepts a line nor stores a bulk leaves `argc`. -/
theorem processRequest_quiet {c : SubClient} (h : ¬ StoresBulk c) (hline : ¬ AcceptsLine c) :
    (processRequest c).2.strays = c.strays ∧ (processRequest c).2.argc = c.argc := by
  rw [processRequest_eq]
  by_cases h42 : c.readBuf.head? = some 42
  · rw [if_pos h42]
    rcases processMultibulkBuffer_cases { c with reqType := REQ_MULTIBULK } with
      ⟨-, p, -, heq⟩ | ⟨-, -, heq⟩ | ⟨-, ll, p, -, -, heq⟩ | ⟨hm, ll, p, hr, hll, heq⟩ | ⟨hm, heq⟩ <;> rw [heq]
    · exact ⟨rfl, rfl⟩
    · exact ⟨rfl, rfl⟩
    · exact ⟨rfl, rfl⟩
    · refine multibulkLoop_quiet (fun hbulk => ?_) _
      exact h ⟨h42, fun _ => ⟨ll, p, hr, hll, hbulk⟩, fun hm' => absurd hm hm'⟩
    · refine multibulkLoop_quiet (fun hbulk => ?_) _
      exact h ⟨h42, fun hm' => absurd hm' hm, fun _ => hbulk⟩
  · rw [if_neg h42]
    rcases processInlineBuffer_cases { c with reqType := REQ_INLINE } with ⟨-, heq⟩ | ⟨-, heq⟩ | ⟨argv, n, hr, -⟩
    · rw [heq]
      exact ⟨rfl, rfl⟩
    · rw [heq]
      exact ⟨rfl, rfl⟩
    · exact absurd ⟨h42, argv, n, hr⟩ hline

theorem processRequest_stray {c : SubClient} (h : StoresBulk c) (hargc : c.argc < 0) :
    c.argc :: c.strays <:+ (processRequest c).2.strays := by
  rw [processRequest_eq, if_pos h.type]
  rcases processMultibulkBuffer_cases { c with reqType := REQ_MULTIBULK } with
    ⟨hm, p, hr, -⟩ | ⟨hm, hr, -⟩ | ⟨hm, ll, p, hr, hll, -⟩ | ⟨hm, ll, p, hr, hll, heq⟩ | ⟨hm, heq⟩
  · obtain ⟨ll, q, hr', -, -⟩ := h.started hm
    cases hr.symm.trans hr'
  · obtain ⟨ll, q, hr', -, -⟩ := h.started hm
    cases hr.symm.trans hr'
  · obtain ⟨ll', q, hr', hll', -⟩ := h.started hm
    cases hr.symm.trans hr'
    omega
  · obtain ⟨ll', q, hr', -, hbulk⟩ := h.started hm
    cases hr.symm.trans hr'
    rw [heq]
    have hn : ll.toNat ≠ 0 := by omega
    exact multibulkLoop_stray hn hargc rfl hbulk
  · rw [heq]
    exact multibulkLoop_stray hm hargc rfl (h.underWay hm)

theorem Shifted.storesBulk {d : Int} {c c' : SubClient} (h : Shifted d c c') : StoresBulk c' ↔ StoresBulk c := by
  obtain ⟨rt, v, l, rfl⟩ := h
  exact ⟨fun hs => ⟨hs.type, hs.started, hs.underWay⟩, fun hs => ⟨hs.type, hs.started, hs.underWay⟩⟩

theorem Shifted.acceptsLine {d : Int} {c c' : SubClient} (h : Shifted d c c') : AcceptsLine c' ↔ AcceptsLine c := by
  unfold AcceptsLine
  rw [h.readBuf]

/-! ## Two runs of the driver loop -/

/-- A loop that accepts a line before it stores a bulk ends in the same client whatever the fields were. -/
theorem parseLoop_line {d : Int} : ∀ (fuel : Nat) {c c' : SubClient}, Shifted d c c' → c'.strays = c.strays →
    LineFirst (callStates fuel c) → parseLoop fuel c' = parseLoop fuel c
  | 0, c, c', _, _, hline => by simp [callStates, LineFirst] at hline
  | fuel + 1, c, c', h, hstrays, hline => by
    unfold callStates at hline
    rw [parseLoop, parseLoop, h.readBuf]
    split
    · rename_i hnil
      simp [hnil, LineFirst] at hline
    · rename_i hne
      rw [if_neg hne] at hline
      by_cases hfirst : AcceptsLine c
      · rw [processRequest_line h hstrays hfirst]
      · obtain ⟨hst, hshift⟩ := processRequest_shifted h hfirst
        obtain ⟨hquiet, hrest⟩ := hline.resolve_left hfirst
        -- neither client has stored anything
        have hkept := (processRequest_quiet hquiet hfirst).1
        have hkept' := (processRequest_quiet (h.storesBulk.not.2 hquiet) (h.acceptsLine.not.2 hfirst)).1
        rw [hstrays, ← hkept] at hkept'
        generalize processRequest c = r at hst hshift hrest hkept' ⊢
        generalize processRequest c' = r' at hst hshift hkept' ⊢
        obtain ⟨st, c1⟩ := r
        obtain ⟨st', c1'⟩ := r'
        obtain rfl : st' = st := hst
        cases st' with
        | ok => exact parseLoop_line fuel hshift hkept' hrest
        | err => simp [LineFirst] at hrest

theorem suffix_parseLoop : ∀ (fuel : Nat) {c c1 : SubClient}, parseLoop fuel c = some c1 → c.strays <:+ c1.strays
  | 0, c, c1, hloop => by
    rw [parseLoop] at hloop
    split at hloop
    · cases hloop
      exact List.suffix_rfl
    · cases hloop
  | fuel + 1, c, c1, hloop => by
    have hreq := suffix_processRequest c
    rw [parseLoop] at hloop
    split at hloop
    · cases hloop
      exact List.suffix_rfl
    · generalize processRequest c = r at hreq hloop
      obtain ⟨st, c2⟩ := r
      cases st with
      | ok => exact hreq.trans (suffix_parseLoop fuel hloop)
      | err =>
        cases hloop
        exact hreq

/-- A loop that accepts a line, but not before it has stored a bulk, stores that one at a negative `argc`
outside the slots. -/
theorem parseLoop_stray {d : Int} : ∀ (fuel : Nat) {c c' c1' : SubClient}, Shifted d c c' → c'.argc < 0 →
    ¬ LineFirst (callStates fuel c) → (∃ s ∈ callStates fuel c, AcceptsLine s) → parseLoop fuel c' = some c1' →
    c'.argc :: c'.strays <:+ c1'.strays
  | 0, c, c', c1', _, _, _, hline, _ => by simp [callStates] at hline
  | fuel + 1, c, c', c1', h, hargc, hnot, hline, hloop => by
    unfold callStates at hnot hline
    rw [parseLoop, h.readBuf] at hloop
    split at hloop
    · rename_i hnil
      simp [hnil] at hline
    · rename_i hne
      rw [if_neg hne] at hnot hline
      rw [LineFirst, not_or, not_and_or, not_not] at hnot
      obtain ⟨hfirst, hnot⟩ := hnot
      have hrest := ((List.exists_mem_cons_iff ..).1 hline).resolve_left hfirst
      obtain ⟨hst, hshift⟩ := processRequest_shifted h hfirst
      by_cases hstores : StoresBulk c
      · have hstray := processRequest_stray (h.storesBulk.2 hstores) hargc
        generalize processRequest c' = r' at hstray hloop
        obtain ⟨st', c2'⟩ := r'
        cases st' with
        | ok => exact hstray.trans (suffix_parseLoop fuel hloop)
        | err =>
          cases hloop
          exact hstray
      · obtain ⟨hkept, hcount⟩ := processRequest_quiet (h.storesBulk.not.2 hstores) (h.acceptsLine.not.2 hfirst)
        have hnot := hnot.resolve_left hstores
        generalize processRequest c = r at hst hshift hnot hrest
        generalize processRequest c' = r' at hst hshift hkept hcount hloop
        obtain ⟨st, c2⟩ := r
        obtain ⟨st', c2'⟩ := r'
        obtain rfl : st' = st := hst
        cases st' with
        | ok =>
          have := parseLoop_stray fuel hshift (hcount ▸ hargc) hnot hrest hloop
          rwa [hcount, hkept] at this
        | err => simp at hrest

/-- A loop that accepts no line keeps the two clients apart. -/
theorem parseLoop_shifted {d : Int} : ∀ (fuel : Nat) {c c' c1 : SubClient}, Shifted d c c' →
    (¬ ∃ s ∈ callStates fuel c, AcceptsLine s) → parseLoop fuel c = some c1 →
    ∃ c1', parseLoop fuel c' = some c1' ∧ Shifted d c1 c1'
  | 0, c, c', c1, h, _, hloop => by
    rw [parseLoop] at hloop
    rw [parseLoop, h.readBuf]
    split at hloop
    · rename_i hnil
      cases hloop
      exact ⟨c', by rw [if_pos hnil], h⟩
    · cases hloop
  | fuel + 1, c, c', c1, h, hline, hloop => by
    unfold callStates at hline
    rw [parseLoop] at hloop
    rw [parseLoop, h.readBuf]
    split at hloop
    · rename_i hnil
      cases hloop
      exact ⟨c', by rw [if_pos hnil], h⟩
    · rename_i hne
      rw [if_neg hne, List.exists_mem_cons_iff, not_or] at hline
      rw [if_neg hne]
      obtain ⟨hst, hshift⟩ := processRequest_shifted h hline.1
      have hrest := hline.2
      generalize processRequest c = r at hst hshift hrest hloop
      generalize processRequest c' = r' at hst hshift ⊢
      obtain ⟨st, c2⟩ := r
      obtain ⟨st', c2'⟩ := r'
      obtain rfl : st' = st := hst
      cases st' with
      | ok => exact parseLoop_shifted fuel hshift hrest hloop
      | err =>
        cases hloop
        exact ⟨c2', rfl, hshift⟩

/-- Arguments are only added, or counted from zero. -/
theorem processRequest_argc {c : SubClient} (h : 0 ≤ c.argc) : 0 ≤ (processRequest c).2.argc := by
  have hloop (n pos : Nat) (s : SubClient) (hs : s.argc = c.argc) (hn : s.multiBulkLen = n) :
      0 ≤ (multibulkLoop n pos s).2.argc := by
    obtain ⟨args, bl, buf, rej, -, -, heq⟩ := multibulkLoop_shape n pos s hn
    rw [heq]
    simp only [SubClient.pushArgs_argc]
    omega
  rw [processRequest_eq]
  split
  · rcases processMultibulkBuffer_cases { c with reqType := REQ_MULTIBULK } with
      ⟨-, p, -, heq⟩ | ⟨-, -, heq⟩ | ⟨-, ll, p, -, -, heq⟩ | ⟨-, ll, p, -, -, heq⟩ | ⟨-, heq⟩ <;> rw [heq]
    · exact h
    · exact h
    · exact h
    · exact hloop ll.toNat p _ rfl rfl
    · exact hloop c.multiBulkLen 0 _ rfl rfl
  · rcases processInlineBuffer_cases { c with reqType := REQ_INLINE } with ⟨-, heq⟩ | ⟨-, heq⟩ | ⟨argv, n, -, heq⟩ <;>
      rw [heq]
    · exact h
    · exact h
    · simp

theorem parseLoop_argc : ∀ (fuel : Nat) {c c1 : SubClient}, 0 ≤ c.argc → parseLoop fuel c = some c1 → 0 ≤ c1.argc
  | 0, c, c1, h, hloop => by
    rw [parseLoop] at hloop
    split at hloop
    · cases hloop
      exact h
    · cases hloop
  | fuel + 1, c, c1, h, hloop => by
    have hreq := processRequest_argc h
    rw [parseLoop] at hloop
    split at hloop
    · cases hloop
      exact h
    · generalize processRequest c = r at hreq hloop
      obtain ⟨st, c2⟩ := r
      cases st with
      | ok => exact parseLoop_argc fuel hreq hloop
      | err =>
        cases hloop
        exact hreq

/-! ## Two runs of reads -/

/-- Two new clients differ in the fields that `sub_cli_create` does not assign. -/
theorem subCliCreate_shifted (junk : Junk) (fd : Nat) (id : Sds) (buf : Sds) :
    Shifted junk.argc { zeroedClient fd id with readBuf := buf } { subCliCreate junk fd id with readBuf := buf } := by
  refine ⟨junk.reqType, junk.argv, [], ?_⟩
  simp [zeroedClient, subCliCreate]

/-- The calls of the first read, from a client whose memory happened to be zeroed. -/
def firstCalls (fd : Nat) (id : Sds) (first : List UInt8) : List SubClient :=
  callStates first.length { zeroedClient fd id with readBuf := first }

/-- After a first read that accepts a line before it stores a bulk nothing depends on the fields. -/
theorem observe_line {first : List UInt8} (fd : Nat) (id : Sds) (rest : List (List UInt8))
    (hline : LineFirst (firstCalls fd id first)) (junk : Junk) :
    observe (subCliCreate junk fd id) (first :: rest) = observe (zeroedClient fd id) (first :: rest) := by
  have hloop := parseLoop_line first.length (subCliCreate_shifted junk fd id first) rfl hline
  have hread : observeRead (subCliCreate junk fd id) first = observeRead (zeroedClient fd id) first :=
    congrArg (Option.map _) hloop
  rw [observe, observe, hread]

/-- With one more argument counted another command is executed. -/
theorem observed_shifted {c c' : SubClient} (h : Shifted 1 c c') (h0 : 0 ≤ c.argc) : (finishRead c').2 ≠ (finishRead c).2 := by
  have hargc := h.argc
  intro heq
  unfold finishRead at heq
  rw [if_neg (by omega)] at heq
  split at heq
  · cases heq
  · have hlen := congrArg List.length (Option.some.inj heq)
    simp only [SubClient.args, List.length_map, List.length_range] at hlen
    omega

section
variable {fd : Nat} {id : Sds} {first : List UInt8}

/-- The first read returns, and its observation comes first. -/
theorem observe_first (fd : Nat) (id : Sds) (hfirst : first.length ≤ SUB_READ_BUF_LEN) (junk : Junk) (rest : List (List UInt8)) :
    ∃ c1 os, parseLoop first.length { subCliCreate junk fd id with readBuf := first } = some c1 ∧
      observe (subCliCreate junk fd id) (first :: rest) =
        ⟨(finishRead c1).2, c1.args, (finishRead c1).1.readBuf, (finishRead c1).1.strays⟩ :: os := by
  have hdriven : Driven { subCliCreate junk fd id with readBuf := first } := by
    unfold SUB_READ_BUF_LEN at hfirst
    refine ⟨by simp only; omega, ⟨le_rfl, by simp [subCliCreate]⟩, fun hstall => ?_⟩
    have := hstall.length
    simp only at this
    omega
  obtain ⟨c1, hc1⟩ := Option.isSome_iff_exists.1 (hdriven.parseLoop (le_refl first.length))
  have hread : observeRead (subCliCreate junk fd id) first = some ((finishRead c1).1,
      ⟨(finishRead c1).2, c1.args, (finishRead c1).1.readBuf, (finishRead c1).1.strays⟩) := congrArg (Option.map _) hc1
  refine ⟨c1, observe (finishRead c1).1 rest, hc1, ?_⟩
  rw [observe, hread]

/-- Where no line is accepted in the first read, an argument that is left counted is executed. -/
theorem observe_counted (hfirst : first.length ≤ SUB_READ_BUF_LEN) (rest : List (List UInt8))
    (hline : ¬ ∃ s ∈ firstCalls fd id first, AcceptsLine s) :
    observe (subCliCreate ⟨0, 1, .alloc 0⟩ fd id) (first :: rest) ≠
      observe (subCliCreate ⟨0, 0, .alloc 0⟩ fd id) (first :: rest) := by
  obtain ⟨c1, os, hc1, hobs⟩ := observe_first fd id hfirst ⟨0, 0, .alloc 0⟩ rest
  obtain ⟨c1', os', hc1', hobs'⟩ := observe_first fd id hfirst ⟨0, 1, .alloc 0⟩ rest
  obtain ⟨c2, hc2, hshift⟩ := parseLoop_shifted first.length (subCliCreate_shifted ⟨0, 1, .alloc 0⟩ fd id first) hline hc1
  rw [hc1'] at hc2
  cases hc2
  rw [hobs, hobs']
  intro heq
  exact observed_shifted hshift (parseLoop_argc _ le_rfl hc1) (congrArg Observed.command (List.cons.inj heq).1)

/-- Where a bulk is stored before a line is accepted, it is stored where `argc` happens to point. -/
theorem observe_strayed (hfirst : first.length ≤ SUB_READ_BUF_LEN) (rest : List (List UInt8))
    (hnot : ¬ LineFirst (firstCalls fd id first)) (hline : ∃ s ∈ firstCalls fd id first, AcceptsLine s) :
    observe (subCliCreate ⟨0, -1, .alloc 0⟩ fd id) (first :: rest) ≠
      observe (subCliCreate ⟨0, -2, .alloc 0⟩ fd id) (first :: rest) := by
  -- the first index that a store has missed the slots at is `argc` itself
  have hstray (n : Int) (hn : n < 0) : ∃ o os, observe (subCliCreate ⟨0, n, .alloc 0⟩ fd id) (first :: rest) = o :: os ∧
      o.strays.getLast? = some n := by
    obtain ⟨c1, os, hc1, hobs⟩ := observe_first fd id hfirst ⟨0, n, .alloc 0⟩ rest
    refine ⟨_, os, hobs, ?_⟩
    obtain ⟨l, hl⟩ := parseLoop_stray first.length (subCliCreate_shifted ⟨0, n, .alloc 0⟩ fd id first) hn hnot hline hc1
    have hl : l ++ [n] = c1.strays := hl
    simp only [finishRead_strays, ← hl, List.getLast?_concat]
  obtain ⟨o, os, hobs, hlast⟩ := hstray (-1) (by decide)
  obtain ⟨o', os', hobs', hlast'⟩ := hstray (-2) (by decide)
  rw [hobs, hobs']
  intro heq
  rw [(List.cons.inj heq).1, hlast'] at hlast
  cases hlast

end

/-- Whatever `malloc` left in the fields that `sub_cli_create` does not assign, a sequence of reads shows
the same, exactly when in the first of them a line is accepted before a bulk is stored. -/
theorem junk_unobserved_iff (fd : Nat) (id : Sds) {reads : List (List UInt8)}
    (hreads : ∀ chunk ∈ reads, chunk ≠ [] ∧ chunk.length ≤ SUB_READ_BUF_LEN) :
    (∀ junk junk' : Junk, observe (subCliCreate junk fd id) reads = observe (subCliCreate junk' fd id) reads) ↔
      ∀ first ∈ reads.head?, LineFirst (firstCalls fd id first) := by
  cases reads with
  | nil => simp [observe]
  | cons first rest =>
    simp only [List.head?_cons, Option.mem_def, Option.some.injEq, forall_eq']
    constructor
    · intro hsame
      by_contra hnot
      have hfirst := (hreads first List.mem_cons_self).2
      by_cases hline : ∃ s ∈ firstCalls fd id first, AcceptsLine s
      · exact observe_strayed hfirst rest hnot hline (hsame ..)
      · exact observe_counted hfirst rest hline (hsame ..)
    · intro hline junk junk'
      rw [observe_line fd id rest hline junk, observe_line fd id rest hline junk']

theorem junk_unobserved_ping :
    (∀ junk junk' : Junk, observe (subCliCreate junk 5 []) [ascii "ping\r\n"] =
      observe (subCliCreate junk' 5 []) [ascii "ping\r\n"]) ↔
      ∀ first ∈ [ascii "ping\r\n"].head?, LineFirst (firstCalls 5 [] first) :=
  junk_unobserved_iff 5 [] (by decide)

/-- A multibulk request as the first one: with one argument left counted it is another command. -/
theorem junk_executed :
    let reads := [ascii "*1\r\n$4\r\nPING\r\n"]
    let zeroed := observe (subCliCreate ⟨0, 0, .alloc 0⟩ 5 []) reads
    let counted := observe (subCliCreate ⟨0, 1, .alloc 0⟩ 5 []) reads
    zeroed.map Observed.command = [some [some (ascii "PING")]] ∧
      counted.map Observed.command = [some [none, some (ascii "PING")]] ∧ zeroed ≠ counted := by
  intro reads zeroed counted
  have h0 : zeroed.map Observed.command = [some [some (ascii "PING")]] := by decide +kernel
  have h1 : counted.map Observed.command = [some [none, some (ascii "PING")]] := by decide +kernel
  refine ⟨h0, h1, fun heq => ?_⟩
  rw [heq, h1] at h0
  cases h0

end PubsubBroker

/-
The functions of `common/sds.c` that make texts of numbers and lists of tokens of texts: the numerals that
`sdsll2str` writes are read back by `string2ll`, and what `sdssplitlen` splits `sdsjoin` joins.
-/
import PubsubBroker.Common.String2ll
import PubsubBroker.Lib.Buffer

namespace PubsubBroker

open CLang Buffer Numeral

/-! ## Numerals -/

def SDS_LLSTR_SIZE : Nat := 21

/-- `do { *p++ = '0'+(v%10); v /= 10; } while(v)` -/
def putDigits : Nat → List (Option UInt8) → Nat → Nat → Except MemFault (List (Option UInt8) × Nat)
  | 0, buf, p, _ => .ok (buf, p)
  | fuel + 1, buf, p, v => do
    let buf ← set buf p (48 + (v % 10).toUInt8)
    if v / 10 = 0 then .ok (buf, p + 1) else putDigits fuel buf (p + 1) (v / 10)

/-- The end of `sdsll2str`: the terminator, and the text the right way round. -/
def finishNumeral (buf : List (Option UInt8)) (l : Nat) : Except MemFault (List (Option UInt8) × Nat) := do
  let buf ← set buf l 0
  let buf ← reverseCells l 0 (l - 1) buf
  return (buf, l)

/-- `sdsll2str(s, value)`: what is at `s` afterwards, and the length. The negative of the least value is taken to wrap. -/
def sdsll2str (buf : List (Option UInt8)) (value : Int) : Except MemFault (List (Option UInt8) × Nat) := do
  let v := toSize (if value < 0 then toLL (-value) else value)
  let (buf, p) ← putDigits (v + 1) buf 0 v
  if value < 0 then do
    let buf ← set buf p 45
    finishNumeral buf (p + 1)
  else finishNumeral buf p

/-- `sdsull2str(s, v)` -/
def sdsull2str (buf : List (Option UInt8)) (v : Nat) : Except MemFault (List (Option UInt8) × Nat) := do
  let (buf, p) ← putDigits (v + 1) buf 0 v
  finishNumeral buf p

/-- `sdsfromlonglong(value)`, with what was in `buf` before. -/
def sdsfromlonglong (value : Int) : Except MemFault Sds := do
  let (buf, len) ← sdsll2str (List.replicate SDS_LLSTR_SIZE none) value
  getAll buf 0 len

/-- The digits are written from the last one on. -/
theorem putDigits_append : ∀ (fuel v : Nat) (l mid r : List (Option UInt8)), v < fuel → mid.length = (decimal v).length →
    putDigits fuel (l ++ (mid ++ r)) l.length v = .ok (l ++ ((decimal v).reverse.map some ++ r), l.length + (decimal v).length)
  | 0, _, _, _, _, h, _ => absurd h (Nat.not_lt_zero _)
  | fuel + 1, v, l, mid, r, h, hlen => by
    have hne : mid ≠ [] := by
      rintro rfl
      by_cases h10 : v < 10
      · rw [decimal_of_lt h10] at hlen
        cases hlen
      · rw [decimal_of_le (by omega), List.length_append, List.length_singleton, List.length_nil] at hlen
        omega
    obtain ⟨c, mid, rfl⟩ := List.exists_cons_of_ne_nil hne
    rw [putDigits, List.cons_append, set_append, done_bind]
    by_cases h10 : v < 10
    · rw [decimal_of_lt h10, List.length_cons, List.length_singleton] at hlen
      obtain rfl : mid = [] := List.length_eq_zero_iff.1 (by omega)
      rw [if_pos (by omega), decimal_of_lt h10, Nat.mod_eq_of_lt h10]
      rfl
    · rw [decimal_of_le (by omega), List.length_append, List.length_cons, List.length_singleton] at hlen
      have hrest := putDigits_append fuel (v / 10) (l ++ [some (48 + (v % 10).toUInt8)]) mid r (by omega) (by omega)
      rw [List.append_assoc, List.length_append, List.length_singleton] at hrest
      rw [if_neg (by omega)]
      refine hrest.trans ?_
      rw [decimal_of_le (by omega : 10 ≤ v), List.reverse_append, List.length_append, List.length_singleton, List.append_assoc]
      simp only [List.reverse_singleton, List.map_cons, List.cons_append, List.nil_append]
      rw [Nat.add_assoc, Nat.add_comm 1]

/-- The text is terminated and reversed. -/
theorem finishNumeral_spec (s : List UInt8) (c : Option UInt8) (r : List (Option UInt8)) :
    finishNumeral (s.reverse.map some ++ c :: r) s.length = .ok (s.map some ++ some 0 :: r, s.length) := by
  have hset := set_append (s.reverse.map some) c r 0
  have hrev := reverseCells_append s.reverse [] (some 0 :: r) s.length (by rw [List.length_reverse])
  rw [List.length_map, List.length_reverse] at hset
  rw [List.nil_append, List.nil_append, List.length_nil, Nat.zero_add, List.length_reverse, List.reverse_reverse] at hrev
  rw [finishNumeral, hset, done_bind, hrev]
  rfl

theorem sdsull2str_spec {v : Nat} {mid : List (Option UInt8)} (hlen : mid.length = (decimal v).length) (c : Option UInt8)
    (r : List (Option UInt8)) :
    sdsull2str (mid ++ c :: r) v = .ok ((decimal v).map some ++ some 0 :: r, (decimal v).length) := by
  have hput := putDigits_append (v + 1) v [] mid (c :: r) (Nat.lt_succ_self v) hlen
  rw [List.nil_append, List.nil_append, List.length_nil, Nat.zero_add] at hput
  rw [sdsull2str, hput, done_bind]
  exact finishNumeral_spec (decimal v) c r

theorem sdsll2str_spec {value : Int} (h : -2 ^ 63 ≤ value) (h' : value ≤ 2 ^ 63 - 1) {mid : List (Option UInt8)}
    (hlen : mid.length = (decimalInt value).length) (c : Option UInt8) (r : List (Option UInt8)) :
    sdsll2str (mid ++ c :: r) value = .ok ((decimalInt value).map some ++ some 0 :: r, (decimalInt value).length) := by
  have hv : toSize (if value < 0 then toLL (-value) else value) = value.natAbs := by
    unfold toLL toSize
    split <;> omega
  unfold sdsll2str
  simp only [hv]
  unfold decimalInt at hlen ⊢
  split
  · rename_i hneg
    rw [if_pos hneg, List.length_cons] at hlen
    obtain ⟨mid', m, rfl⟩ : ∃ mid' m, mid = mid' ++ [m] :=
      ⟨_, _, (List.dropLast_append_getLast (List.ne_nil_of_length_eq_add_one hlen)).symm⟩
    have hput := putDigits_append (value.natAbs + 1) value.natAbs [] mid' (m :: c :: r) (Nat.lt_succ_self _) (by simpa using hlen)
    have hset := set_append ((decimal value.natAbs).reverse.map some) m (c :: r) 45
    have hfin := finishNumeral_spec (45 :: decimal value.natAbs) c r
    rw [List.length_map, List.length_reverse] at hset
    rw [List.reverse_cons, List.map_append, List.append_assoc, List.length_cons] at hfin
    rw [List.nil_append, List.nil_append, List.length_nil, Nat.zero_add] at hput
    rw [List.append_assoc, List.singleton_append, hput, done_bind]
    simp only
    rw [hset, done_bind]
    exact hfin
  · rename_i hneg
    rw [if_neg hneg] at hlen
    have hput := putDigits_append (value.natAbs + 1) value.natAbs [] mid (c :: r) (Nat.lt_succ_self _) hlen
    rw [List.nil_append, List.nil_append, List.length_nil, Nat.zero_add] at hput
    rw [hput, done_bind]
    exact finishNumeral_spec _ c r

theorem length_decimalInt {value : Int} (h : -2 ^ 63 ≤ value) (h' : value ≤ 2 ^ 63 - 1) :
    (decimalInt value).length < SDS_LLSTR_SIZE := by
  have hlen : (decimalInt value).length ≤ 19 + 1 := length_decimalInt_le (by decide) (by omega)
  unfold SDS_LLSTR_SIZE
  omega

/-- Every `long long` is written, in a buffer of `SDS_LLSTR_SIZE` bytes at least, as a C string that `string2ll`
reads back, and every `unsigned long long` as its numeral. -/
theorem sdsll2str_reads_back (buf : List (Option UInt8)) (hbuf : SDS_LLSTR_SIZE ≤ buf.length) :
    (∀ value : Int, -2 ^ 63 ≤ value → value ≤ 2 ^ 63 - 1 → ∃ s rest, sdsll2str buf value = .ok (s.map some ++ some 0 :: rest, s.length) ∧
      s.length + 1 + rest.length = buf.length ∧ string2ll s = some value ∧ sdsfromlonglong value = .ok s) ∧
    ∀ v : Nat, v < 2 ^ 64 → ∃ rest, sdsull2str buf v = .ok ((decimal v).map some ++ some 0 :: rest, (decimal v).length) ∧
      (decimal v).length + 1 + rest.length = buf.length := by
  have hsplit {n : Nat} (buf : List (Option UInt8)) (hbuf : SDS_LLSTR_SIZE ≤ buf.length) (hn : n < SDS_LLSTR_SIZE) :
      ∃ mid c r, buf = mid ++ c :: r ∧ mid.length = n ∧ n + 1 + r.length = buf.length := by
    obtain ⟨mid, c, r, hbuf', hmid, hr⟩ := exists_split (m := buf) (i := 0) (n := n) (by omega)
    exact ⟨mid, c, r, by rwa [List.take_zero, List.nil_append] at hbuf', hmid, by omega⟩
  constructor
  · intro value h h'
    have hlen := length_decimalInt h h'
    obtain ⟨mid, c, r, hbuf', hmid, hr⟩ := hsplit buf hbuf hlen
    refine ⟨decimalInt value, r, ?_, hr, string2ll_decimalInt h h', ?_⟩
    · rw [hbuf']
      exact sdsll2str_spec h h' hmid c r
    · obtain ⟨mid, c, r, hbuf', hmid, -⟩ := hsplit (List.replicate SDS_LLSTR_SIZE none) (by simp) hlen
      have hget := getAll_append [] (decimalInt value) (some 0 :: r)
      rw [sdsfromlonglong, hbuf', sdsll2str_spec h h' hmid c r, done_bind]
      exact hget
  · intro v hv
    have hlen : (decimal v).length ≤ 20 := length_decimal_le (by decide) (by omega)
    obtain ⟨mid, c, r, hbuf', hmid, hr⟩ := hsplit buf hbuf (n := (decimal v).length) (by unfold SDS_LLSTR_SIZE; omega)
    refine ⟨r, ?_, hr⟩
    rw [hbuf']
    exact sdsull2str_spec hmid c r

theorem sdsll2str_reads_back_limit : ∃ s rest, sdsll2str (List.replicate 21 none) (-2 ^ 63) = .ok (s.map some ++ some 0 :: rest, s.length) ∧
    s.length + 1 + rest.length = 21 ∧ string2ll s = some (-2 ^ 63) ∧ sdsfromlonglong (-2 ^ 63) = .ok s :=
  (sdsll2str_reads_back (List.replicate 21 none) (by decide)).1 (-2 ^ 63) (by decide) (by decide)

/-! ## Tokens -/

/-- The loop of `sdssplitlen` from `j` on, where `slots` is the size of the array of tokens: the tokens so far, and
where the last one starts. A pass moves `j` on, so the length of `s` is fuel enough. The other counters are `int`s
too, but are not greater than that length, which is one. -/
def splitlenLoop (s sep : List UInt8) : Nat → Nat → Nat → Int → List Sds → Except MemFault (List Sds × Nat × Int)
  | 0, _, start, slots, tokens => .ok (tokens, start, slots)
  | fuel + 1, j, start, slots, tokens =>
    if (j : Int) < s.length - (sep.length - 1) then
      let slots := if slots < tokens.length + 2 then toInt (slots * 2) else slots
      if (s.drop j).take sep.length = sep then
        if tokens.length < slots then
          splitlenLoop s sep fuel (j + sep.length) (j + sep.length) slots (tokens ++ [(s.drop start).take (j - start)])
        else .error (.access tokens.length)
      else splitlenLoop s sep fuel (j + 1) start slots tokens
    else .ok (tokens, start, slots)

/-- `sdssplitlen(s, len, sep, seplen, &count)`: the tokens, or `none` for `NULL`. -/
def sdssplitlen (s sep : List UInt8) : Except MemFault (Option (List Sds)) :=
  if sep.length < 1 then .ok none
  else if s.length = 0 then .ok (some [])
  else do
    let (tokens, start, slots) ← splitlenLoop s sep s.length 0 0 5 []
    if tokens.length < slots then .ok (some (tokens ++ [s.drop start])) else .error (.access tokens.length)

/-- The loop of `sdsjoin`. -/
def joinLoop (sep : Sds) (join : Sds) : List Sds → Sds
  | [] => join
  | [arg] => join ++ cstr arg
  | arg :: args => joinLoop sep (join ++ cstr arg ++ cstr sep) args

/-- `sdsjoin(argv, argc, sep)` -/
def sdsjoin (argv : List Sds) (sep : Sds) : Sds := joinLoop sep [] argv

/-- The tokens of `s`: each goes up to the first separator behind the one before. -/
inductive Splits (sep : List UInt8) : List UInt8 → List Sds → Prop
  | last {s : List UInt8} (h : ¬ sep <:+: s) : Splits sep s [s]
  | cons {t rest : List UInt8} {tokens : List Sds} (h : ∀ j < t.length, ¬ sep <+: (t ++ sep ++ rest).drop j)
      (hrest : Splits sep rest tokens) : Splits sep (t ++ sep ++ rest) (t :: tokens)

variable {sep s : List UInt8}

theorem Splits.ne_nil {tokens : List Sds} (h : Splits sep s tokens) : tokens ≠ [] := by
  cases h <;> exact List.cons_ne_nil _ _

/-- There is one way to split a text. -/
theorem Splits.unique {tokens tokens' : List Sds} (h : Splits sep s tokens) (h' : Splits sep s tokens') :
    tokens = tokens' := by
  have hfirst {t rest t' rest' : List UInt8} (heq : t ++ sep ++ rest = t' ++ sep ++ rest')
      (hno : ∀ j < t'.length, ¬ sep <+: (t' ++ sep ++ rest').drop j) : t'.length ≤ t.length := by
    by_contra hlt
    refine hno t.length (by omega) ?_
    rw [← heq, List.append_assoc, List.drop_left]
    exact List.prefix_append _ _
  induction h generalizing tokens' with
  | last h =>
    cases h' with
    | last => rfl
    | cons => exact absurd ⟨_, _, rfl⟩ h
  | @cons t rest ts h hrest ih =>
    generalize hs : t ++ sep ++ rest = s at h'
    cases h' with
    | last h' => exact absurd ⟨t, rest, hs⟩ h'
    | @cons t' rest' ts' h' hrest' =>
      have hlen : t.length = t'.length := Nat.le_antisymm (hfirst hs.symm h) (hfirst hs h')
      rw [List.append_assoc, List.append_assoc] at hs
      obtain ⟨rfl, hs⟩ := List.append_inj hs hlen
      have hrest'' := List.append_cancel_left (List.append_cancel_left hs)
      rw [← hrest''] at hrest'
      rw [ih hrest']

/-- What the loop of `sdssplitlen` leaves, when no separator starts between `start` and `j`: there is room for
one more token. Each of them has passed a byte, so the size of the array does not overflow. -/
theorem splitlenLoop_spec (hsep : sep ≠ []) (hs : s.length < 2 ^ 30) : ∀ (fuel j start : Nat) (slots : Int)
    (tokens : List Sds), s.length ≤ j + fuel → start ≤ j → (∀ i, start ≤ i → i < j → ¬ sep <+: s.drop i) →
    tokens.length ≤ start → tokens.length < slots →
    ∃ ts start' slots', splitlenLoop s sep fuel j start slots tokens = .ok (tokens ++ ts, start', slots') ∧
      Splits sep (s.drop start) (ts ++ [s.drop start']) ∧ (tokens ++ ts).length < slots' := by
  have hpos : 0 < sep.length := List.length_pos_iff.2 hsep
  -- At the end of the loop no separator fits in what is left.
  have hend {j start : Nat} (hj : s.length ≤ j + (sep.length - 1)) (hno : ∀ i, start ≤ i → i < j → ¬ sep <+: s.drop i) :
      Splits sep (s.drop start) ([] ++ [s.drop start]) := by
    apply Splits.last
    rintro ⟨l, r, heq⟩
    have hlen := congrArg List.length heq
    simp only [List.length_append, List.length_drop] at hlen
    refine hno (start + l.length) (by omega) (by omega) ?_
    rw [← List.drop_drop, ← heq, List.append_assoc, List.drop_left]
    exact List.prefix_append _ _
  intro fuel
  induction fuel with
  | zero =>
    intro j start slots tokens hfuel hstart hno _ hslots
    refine ⟨[], start, slots, ?_, hend (by omega) hno, ?_⟩
    · rw [List.append_nil]
      rfl
    · rwa [List.append_nil]
  | succ fuel ih =>
    intro j start slots tokens hfuel hstart hno hcount hslots
    rw [splitlenLoop]
    by_cases hj : (j : Int) < s.length - (sep.length - 1)
    swap
    · refine ⟨[], start, slots, ?_, hend (by omega) hno, ?_⟩
      · rw [if_neg hj, List.append_nil]
      · rwa [List.append_nil]
    rw [if_pos hj]
    simp only
    -- room for this token and the final one: a full array is doubled
    have hroom : (tokens.length : Int) + 1 < if slots < tokens.length + 2 then toInt (slots * 2) else slots := by
      split
      · rw [toInt_of_lt (by omega) (by omega)]
        omega
      · omega
    generalize (if slots < tokens.length + 2 then toInt (slots * 2) else slots) = slots at hroom
    by_cases hat : (s.drop j).take sep.length = sep
    · rw [if_pos hat, if_pos (by omega)]
      -- the token, the separator, and the rest that the induction is about
      have hcut : s.drop start = (s.drop start).take (j - start) ++ sep ++ s.drop (j + sep.length) := by
        conv_lhs => rw [← List.take_append_drop (j - start) (s.drop start), List.drop_drop, Nat.add_sub_cancel' hstart,
          ← List.take_append_drop sep.length (s.drop j), hat, List.drop_drop]
        rw [List.append_assoc]
      obtain ⟨ts, start', slots', hrun, hts, hlen⟩ := ih (j + sep.length) (j + sep.length) slots
        (tokens ++ [(s.drop start).take (j - start)]) (by omega) (Nat.le_refl _) (fun i h h' => by omega)
        (by rw [List.length_append, List.length_singleton]; omega) (by rw [List.length_append, List.length_singleton]; omega)
      rw [List.append_assoc] at hrun hlen
      refine ⟨_, start', slots', hrun, ?_, hlen⟩
      have hcons := Splits.cons (t := (s.drop start).take (j - start)) (fun i hi => ?_) hts
      · rwa [← hcut] at hcons
      · rw [← hcut, List.drop_drop]
        rw [List.length_take, List.length_drop] at hi
        exact hno _ (by omega) (by omega)
    · rw [if_neg hat]
      refine ih (j + 1) start slots tokens (by omega) (by omega) (fun i h h' hpre => ?_) hcount (by omega)
      rcases Nat.lt_or_ge i j with hi | hi
      · exact hno i h hi hpre
      · obtain rfl : i = j := by omega
        exact hat (List.prefix_iff_eq_take.1 hpre).symm

/-- The tokens of a text are found, with no access beyond the array of tokens. -/
theorem sdssplitlen_spec (hsep : sep ≠ []) (hs : s ≠ []) (hlen : s.length < 2 ^ 30) :
    ∃ tokens, sdssplitlen s sep = .ok (some tokens) ∧ Splits sep s tokens := by
  obtain ⟨ts, start, slots, hrun, hts, hroom⟩ := splitlenLoop_spec hsep hlen s.length 0 0 5 [] (by omega)
    (Nat.le_refl _) (fun i _ h => absurd h (Nat.not_lt_zero _)) (Nat.le_refl _) (by decide)
  refine ⟨_, ?_, hts⟩
  have := List.length_pos_iff.2 hsep
  rw [sdssplitlen, if_neg (by omega), if_neg (mt List.length_eq_zero_iff.1 hs), hrun, done_bind]
  simp only
  rw [if_pos hroom]
  rfl

theorem joinLoop_cons (join arg : Sds) {args : List Sds} (h : args ≠ []) :
    joinLoop sep join (arg :: args) = joinLoop sep (join ++ cstr arg ++ cstr sep) args := by
  cases args with
  | nil => exact absurd rfl h
  | cons => rfl

/-- What is split of a text with no NUL is joined again. -/
theorem Splits.join {tokens : List Sds} (h : Splits sep s tokens) (h0 : 0 ∉ s) (join : Sds) :
    joinLoop sep join tokens = join ++ s := by
  induction h generalizing join with
  | @last s h => rw [joinLoop, cstr_eq_self.2 h0]
  | @cons t rest ts h hrest ih =>
    simp only [List.mem_append, not_or] at h0
    rw [joinLoop_cons _ _ hrest.ne_nil, cstr_eq_self.2 h0.1.1, cstr_eq_self.2 h0.1.2, ih h0.2, List.append_assoc,
      List.append_assoc, List.append_assoc]

/-- Tokens without the byte `c` that are joined by it are split again. -/
theorem Splits.joined {c : UInt8} (hc : c ≠ 0) : ∀ (token : Sds) (tokens : List Sds) (join : Sds),
    (∀ t ∈ token :: tokens, c ∉ t ∧ 0 ∉ t) →
    ∃ s, joinLoop [c] join (token :: tokens) = join ++ s ∧ Splits [c] s (token :: tokens)
  | token, [], join, h => by
    obtain ⟨hct, h0⟩ := h token List.mem_cons_self
    refine ⟨token, by rw [joinLoop, cstr_eq_self.2 h0], Splits.last ?_⟩
    rintro ⟨l, r, rfl⟩
    exact hct (by simp)
  | token, token' :: tokens, join, h => by
    obtain ⟨hct, h0⟩ := h token List.mem_cons_self
    obtain ⟨s, hjoin, hsplit⟩ := Splits.joined hc token' tokens (join ++ cstr token ++ cstr [c])
      (fun t ht => h t (List.mem_cons_of_mem _ ht))
    refine ⟨token ++ [c] ++ s, ?_, Splits.cons (fun j hj hpre => hct ?_) hsplit⟩
    · rw [joinLoop_cons _ _ (List.cons_ne_nil _ _), hjoin, cstr_eq_self.2 h0, cstr_eq_self.2 (by simpa using hc.symm)]
      simp only [List.append_assoc]
    · obtain ⟨r, hr⟩ := hpre
      rw [List.append_assoc, List.drop_append_of_le_length (Nat.le_of_lt hj)] at hr
      have hhead : (token.drop j ++ ([c] ++ s))[0]? = some c := by rw [← hr]; rfl
      rw [List.getElem?_append_left (by rw [List.length_drop]; omega), List.getElem?_drop] at hhead
      exact List.mem_of_getElem? hhead

/-- `sdssplitlen` cuts a text at the separators as they come from the left, with no access beyond its array, and
what it gives is joined to the text again; what `sdsjoin` makes of tokens that the separator does not occur in is
split into them again, unless it is empty, as it is of one empty token. The texts are so short that the size of the
array stays an `int`. -/
theorem sdssplitlen_sdsjoin :
    (∀ s sep : List UInt8, s ≠ [] → sep ≠ [] → s.length < 2 ^ 30 → sep.length < 2 ^ 31 →
      ∃ tokens, sdssplitlen s sep = .ok (some tokens) ∧ Splits sep s tokens ∧ (0 ∉ s → sdsjoin tokens sep = s)) ∧
    ∀ (c : UInt8) (tokens : List Sds), c ≠ 0 → sdsjoin tokens [c] ≠ [] → (sdsjoin tokens [c]).length < 2 ^ 30 →
      (∀ t ∈ tokens, c ∉ t ∧ 0 ∉ t) → sdssplitlen (sdsjoin tokens [c]) [c] = .ok (some tokens) := by
  constructor
  · intro s sep hs hsep hlen _
    obtain ⟨tokens, hrun, hsplit⟩ := sdssplitlen_spec hsep hs hlen
    exact ⟨tokens, hrun, hsplit, fun h0 => hsplit.join h0 []⟩
  · intro c tokens hc hjoin hlen h
    cases tokens with
    | nil => exact absurd rfl hjoin
    | cons token tokens =>
      obtain ⟨s, heq, hsplit⟩ := Splits.joined hc token tokens [] h
      rw [List.nil_append] at heq
      obtain ⟨tokens', hrun, hsplit'⟩ := sdssplitlen_spec (List.cons_ne_nil c []) hjoin hlen
      rw [sdsjoin, heq] at hsplit'
      rw [hrun, hsplit.unique hsplit']

theorem sdssplitlen_sdsjoin_lines :
    (∃ tokens, sdssplitlen (ascii "PING\r\n\r\nQUIT\r\n") (ascii "\r\n") = .ok (some tokens) ∧
      Splits (ascii "\r\n") (ascii "PING\r\n\r\nQUIT\r\n") tokens ∧
      sdsjoin tokens (ascii "\r\n") = ascii "PING\r\n\r\nQUIT\r\n") ∧
    sdssplitlen (sdsjoin [ascii "a", [], ascii "b"] [32]) [32] = .ok (some [ascii "a", [], ascii "b"]) := by
  obtain ⟨tokens, hrun, hsplit, hjoin⟩ := sdssplitlen_sdsjoin.1 (ascii "PING\r\n\r\nQUIT\r\n") (ascii "\r\n") (by decide) (by decide)
    (by decide) (by decide)
  constructor
  · exact ⟨tokens, hrun, hsplit, hjoin (by decide)⟩
  · exact sdssplitlen_sdsjoin.2 32 [ascii "a", [], ascii "b"] (by decide) (by decide) (by decide) (by decide)

end PubsubBroker

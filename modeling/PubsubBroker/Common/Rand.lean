/-
`rand_int64` of `util.c`, on whatever `rand()` returns. The 64-bit operations are checked as they are
made, and a call that has used up the results of `rand()` that there are waits for more of them.
-/
import PubsubBroker.Lib.Keeps

namespace PubsubBroker

/-! ## The results of `rand()` -/

/-- `RAND_MAX`: an `int` that is at least 32767. -/
structure RandMax where
  rmax : Int
  ge : 32767 ≤ rmax
  lt : rmax < 2 ^ 31

/-- A result of `rand()`. -/
abbrev RandMax.Draw (m : RandMax) := Set.Icc (0 : Int) m.rmax

/-- What a 64-bit operation may run into; `depth` stands for a recursion without end. -/
inductive ArithFault
  | overflow
  | divZero
  | depth

/-- How a call may end without a value: it still waits for a `rand()` result, or it faults. -/
inductive RandStop
  | waiting
  | fault (f : ArithFault)

/-- The `rand()` results to come, and the recursive calls so far: the argument of the caller and that of
the call. -/
structure RandState (m : RandMax) where
  draws : List m.Draw
  calls : List (Int × Int)

abbrev RandM (m : RandMax) := EStateM RandStop (RandState m)

variable {m : RandMax}

/-- A function of the `rand()` results to come, `none` while it waits for more. -/
def takeDraws {α : Type} (f : List m.Draw → Option (α × List m.Draw)) : RandM m α := do
  let s ← get
  match f s.draws with
  | none => throw .waiting
  | some (a, draws) =>
    set { s with draws := draws }
    return a

def nextDraw : List m.Draw → Option (Int × List m.Draw)
  | [] => none
  | t :: draws => some (t, draws)

/-- `rand()` -/
def rand : RandM m Int := takeDraws nextDraw

/-- `t = rand(); while (t > r) t = rand();` -/
def nextUpTo (r : Int) : List m.Draw → Option (Int × List m.Draw)
  | [] => none
  | t :: draws => if (t : Int) > r then nextUpTo r draws else some (t, draws)

/-! ## 64-bit arithmetic -/

/-- The result of an operation on `INT64`. -/
def int64 (x : Int) : RandM m Int := if -2 ^ 63 ≤ x ∧ x < 2 ^ 63 then pure x else throw (.fault .overflow)

/-- `x / y` -/
def div64 (x y : Int) : RandM m Int := if y = 0 then throw (.fault .divZero) else int64 (x.tdiv y)

/-- `x % y`, which is defined where `x / y` is. -/
def mod64 (x y : Int) : RandM m Int := do
  let _ ← div64 x y
  return x.tmod y

/-! ## `happened` -/

/-- The operations on `double` that `happened` is made of. -/
structure DoubleOps where
  Double : Type
  ofInt : Int → Double
  div : Double → Double → Double
  mul : Double → Double → Double
  le : Double → Double → Bool
  lt : Double → Double → Bool

/-- `0 / n` is not above 0. -/
def DoubleOps.ZeroDiv (F : DoubleOps) : Prop := ∀ n, 1 ≤ n → F.le (F.div (F.ofInt 0) (F.ofInt n)) (F.ofInt 0) = true

/-- `happened(probability)`. Every call of itself has used up a result of `rand()`. -/
def happenedProb (F : DoubleOps) (probability : F.Double) : List m.Draw → Option (Bool × List m.Draw)
  | [] => if F.le probability (F.ofInt 0) then some (false, []) else none
  | t :: draws =>
    if F.le probability (F.ofInt 0) then some (false, t :: draws)
    else if F.lt probability (F.div (F.ofInt 1) (F.ofInt (m.rmax + 1))) then
      if (t : Int) = 0 then happenedProb F (F.mul probability (F.ofInt (m.rmax + 1))) draws else some (false, draws)
    else some (F.le (F.ofInt t) (F.mul probability (F.ofInt (m.rmax + 1))), draws)

/-- The outcome of `happened((double) r / n)`, on the `rand()` results to come. -/
abbrev Happened (m : RandMax) := Int → Int → List m.Draw → Option (Bool × List m.Draw)

/-- `happened` as `util.c` has it. -/
def happened (F : DoubleOps) : Happened m := fun r n => happenedProb F (F.div (F.ofInt r) (F.ofInt n))

/-- What does not happen with probability 0. -/
def Happened.NeverAtZero (h : Happened m) : Prop :=
  ∀ n draws b draws', 1 ≤ n → h 0 n draws = some (b, draws') → b = false

/-! ## `rand_int64` -/

def logCall (n arg : Int) : RandM m Unit := modify fun s => { s with calls := s.calls ++ [(n, arg)] }

variable (h : Happened m) (randFirst : Bool)

/-- `rand_int64(n)`, as deep as the first argument allows. Which summand of the last line is evaluated
first is left to the compiler, and here to `randFirst`. -/
def randInt64At : Nat → Int → RandM m Int
  | 0, _ => throw (.fault .depth)
  | depth + 1, n => do
    if n ≤ m.rmax then
      let r ← int64 (m.rmax - (← mod64 (← int64 (m.rmax + 1)) n))
      let t ← takeDraws (nextUpTo r)
      mod64 t n
    else
      let r ← mod64 n (← int64 (m.rmax + 1))
      if ← takeDraws (h r n) then
        let reminder ← int64 (n - r)
        logCall n r
        int64 (reminder + (← randInt64At depth r))
      else
        let product : RandM m Int := do
          let arg ← div64 n (← int64 (m.rmax + 1))
          logCall n arg
          int64 ((← randInt64At depth arg) * (← int64 (m.rmax + 1)))
        if randFirst then
          let t ← rand
          int64 (t + (← product))
        else
          let p ← product
          int64 ((← rand) + p)

def randInt64 (n : Int) : RandM m Int := randInt64At h randFirst n.toNat n

/-! ## The arithmetic -/

theorem int64_eq {x : Int} (hx : -2 ^ 63 ≤ x) (hx' : x < 2 ^ 63) : (int64 x : RandM m Int) = pure x :=
  if_pos ⟨hx, hx'⟩

theorem div64_eq {x y : Int} (hx : 0 ≤ x) (hx' : x < 2 ^ 63) (hy : 1 ≤ y) : (div64 x y : RandM m Int) = pure (x / y) := by
  have hnonneg : 0 ≤ x / y := Int.ediv_nonneg hx (by omega)
  have hle : x / y ≤ x := Int.ediv_le_self y hx
  rw [div64, if_neg (by omega), Int.tdiv_eq_ediv_of_nonneg hx, int64_eq (by omega) (by omega)]

theorem mod64_eq {x y : Int} (hx : 0 ≤ x) (hx' : x < 2 ^ 63) (hy : 1 ≤ y) : (mod64 x y : RandM m Int) = pure (x % y) := by
  rw [mod64, div64_eq hx hx' hy, pure_bind, Int.tmod_eq_emod_of_nonneg hx]

section
variable {n : Int}

/-- Up to `RAND_MAX` there is no recursion: the tail is cut off, and what is accepted is reduced. -/
theorem randInt64At_of_le (depth : Nat) (hn : 1 ≤ n) (hle : n ≤ m.rmax) : randInt64At h randFirst (depth + 1) n =
    takeDraws (nextUpTo (m.rmax - (m.rmax + 1) % n)) >>= fun t => mod64 t n := by
  have hge := m.ge
  have hlt := m.lt
  have htail : 0 ≤ (m.rmax + 1) % n := Int.emod_nonneg _ (by omega)
  have htail' : (m.rmax + 1) % n < n := Int.emod_lt_of_pos _ (by omega)
  rw [randInt64At, if_pos hle, int64_eq (by omega) (by omega), pure_bind, mod64_eq (by omega) (by omega) hn, pure_bind,
    int64_eq (by omega) (by omega), pure_bind]

/-- Above `RAND_MAX` the modulus is `RAND_MAX + 1`, and nothing overflows before the recursive call. -/
theorem randInt64At_of_gt (depth : Nat) (hgt : m.rmax < n) (hn : n < 2 ^ 63) : randInt64At h randFirst (depth + 1) n = (do
    if ← takeDraws (h (n % (m.rmax + 1)) n) then
      logCall n (n % (m.rmax + 1))
      let v ← randInt64At h randFirst depth (n % (m.rmax + 1))
      int64 (n - n % (m.rmax + 1) + v)
    else if randFirst then
      let t ← rand
      logCall n (n / (m.rmax + 1))
      let v ← randInt64At h randFirst depth (n / (m.rmax + 1))
      let p ← int64 (v * (m.rmax + 1))
      int64 (t + p)
    else
      logCall n (n / (m.rmax + 1))
      let v ← randInt64At h randFirst depth (n / (m.rmax + 1))
      let p ← int64 (v * (m.rmax + 1))
      let t ← rand
      int64 (t + p)) := by
  have hge := m.ge
  have hlt := m.lt
  have hrem : 0 ≤ n % (m.rmax + 1) := Int.emod_nonneg _ (by omega)
  have hrem' : n % (m.rmax + 1) < m.rmax + 1 := Int.emod_lt_of_pos _ (by omega)
  rw [randInt64At, if_neg (by omega), int64_eq (by omega) (by omega), pure_bind, mod64_eq (by omega) (by omega) (by omega),
    pure_bind, int64_eq (x := n - n % (m.rmax + 1)) (by omega) (by omega)]
  simp only [pure_bind, div64_eq (show 0 ≤ n by omega) hn (show 1 ≤ m.rmax + 1 by omega), bind_assoc]

end

/-! ## Runs -/

/-- Every recursive call has a positive argument, and a smaller one than its caller has. -/
def CallsShrink (s : RandState m) : Prop := ∀ c ∈ s.calls, 1 ≤ c.2 ∧ c.2 < c.1

/-- A computation that returns a value with `P` or waits for `rand()`, without a fault, and whose recursive
calls have shrinking arguments. -/
def Shrinks {α : Type} (x : RandM m α) (P : α → Prop) : Prop := Keeps CallsShrink (· = .waiting) x P

theorem run_takeDraws {α : Type} (f : List m.Draw → Option (α × List m.Draw)) (draws : List m.Draw)
    (calls : List (Int × Int)) : (takeDraws f).run ⟨draws, calls⟩ = match f draws with
      | none => .error .waiting ⟨draws, calls⟩
      | some (a, draws') => .ok a ⟨draws', calls⟩ := by
  unfold takeDraws
  rw [EStateM.run_bind, EStateM.run_get]
  cases hnext : f draws with
  | none =>
    simp only [hnext]
    rfl
  | some r =>
    simp only [hnext]
    rfl

theorem takeDraws_shrinks {α : Type} {f : List m.Draw → Option (α × List m.Draw)} {P : α → Prop}
    (hf : ∀ draws a draws', f draws = some (a, draws') → P a) : Shrinks (takeDraws f) P := by
  rintro ⟨draws, calls⟩ hs
  rw [run_takeDraws]
  cases hnext : f draws with
  | none => exact ⟨hs, rfl⟩
  | some r => exact ⟨hs, hf draws r.1 r.2 hnext⟩

theorem rand_shrinks : Shrinks (rand : RandM m Int) fun t => 0 ≤ t ∧ t ≤ m.rmax := by
  apply takeDraws_shrinks
  rintro (_ | ⟨t, draws⟩) a draws' ⟨⟩
  exact t.2

theorem nextUpTo_some {r a : Int} : ∀ {draws draws' : List m.Draw}, nextUpTo r draws = some (a, draws') → 0 ≤ a ∧ a ≤ m.rmax
  | t :: draws, draws', hnext => by
    rw [nextUpTo] at hnext
    split at hnext
    · exact nextUpTo_some hnext
    · cases hnext
      exact t.2

theorem nextUpTo_shrinks (r : Int) : Shrinks (takeDraws (nextUpTo r) : RandM m Int) fun t => 0 ≤ t ∧ t ≤ m.rmax := by
  apply takeDraws_shrinks
  intro draws a draws' hnext
  exact nextUpTo_some hnext

theorem happened_shrinks {h : Happened m} (h0 : h.NeverAtZero) (r : Int) {n : Int} (hn : 1 ≤ n) :
    Shrinks (takeDraws (h r n)) fun b => b = true → r ≠ 0 := by
  apply takeDraws_shrinks
  rintro draws b draws' hsome rfl rfl
  cases h0 n draws true draws' hn hsome

theorem logCall_shrinks {n arg : Int} (harg : 1 ≤ arg) (hlt : arg < n) :
    Shrinks (logCall n arg : RandM m Unit) fun _ => True := by
  apply Keeps.modify
  rintro s hs c hc
  rcases List.mem_append.1 hc with hc | hc
  · exact hs c hc
  · cases List.mem_singleton.1 hc
    exact ⟨harg, hlt⟩

section
variable {n : Int}

/-- The quotient's branch calls with a positive argument that is smaller. -/
theorem quotient_bounds (hgt : m.rmax < n) : 1 ≤ n / (m.rmax + 1) ∧ n / (m.rmax + 1) < n := by
  have hge := m.ge
  constructor
  · rw [Int.le_ediv_iff_mul_le (by omega)]
    omega
  · exact Int.ediv_lt_self_of_pos_of_ne_one (by omega) (by omega)

/-- What the quotient's branch multiplies leaves room for one more result of `rand()`. -/
theorem product_bounds {v : Int} (hv : 0 ≤ v) (hv' : v < n / (m.rmax + 1)) :
    0 ≤ v * (m.rmax + 1) ∧ v * (m.rmax + 1) + (m.rmax + 1) ≤ n := by
  have hge := m.ge
  have hmul : (v + 1) * (m.rmax + 1) ≤ n := (Int.le_ediv_iff_mul_le (by omega)).1 (by omega)
  rw [Int.add_mul, Int.one_mul] at hmul
  exact ⟨Int.mul_nonneg hv (by omega), hmul⟩

variable {h : Happened m} {depth : Nat}

/-- The branch without a recursive call. -/
theorem randInt64At_shrinks_of_le (hn : 1 ≤ n) (hle : n ≤ m.rmax) :
    Shrinks (randInt64At h randFirst (depth + 1) n) fun v => 0 ≤ v ∧ v < n := by
  have hlt := m.lt
  rw [randInt64At_of_le h randFirst depth hn hle]
  apply (nextUpTo_shrinks _).bind
  rintro t ⟨ht, ht'⟩
  rw [mod64_eq ht (by omega) hn]
  exact .pure ⟨Int.emod_nonneg t (by omega), Int.emod_lt_of_pos t (by omega)⟩

/-- The branches with a recursive call, given what calls with smaller arguments do. -/
theorem randInt64At_shrinks_of_gt (h0 : h.NeverAtZero) (hgt : m.rmax < n) (hn : n < 2 ^ 63) (ih : ∀ arg, 1 ≤ arg → arg < n →
    Shrinks (randInt64At h randFirst depth arg) fun v => 0 ≤ v ∧ v < arg) :
    Shrinks (randInt64At h randFirst (depth + 1) n) fun v => 0 ≤ v ∧ v < n := by
  have hge := m.ge
  have hrem : 0 ≤ n % (m.rmax + 1) := Int.emod_nonneg n (by omega)
  have hrem' : n % (m.rmax + 1) < m.rmax + 1 := Int.emod_lt_of_pos n (by omega)
  obtain ⟨hquot, hquot'⟩ := quotient_bounds hgt
  rw [randInt64At_of_gt h randFirst depth hgt hn]
  apply (happened_shrinks h0 (n % (m.rmax + 1)) (show 1 ≤ n by omega)).bind
  rintro (_ | _) hb
  · -- C leaves open whether `rand()` or the recursive call comes first
    cases randFirst with
    | true =>
      apply rand_shrinks.bind
      rintro t ⟨ht, ht'⟩
      apply (logCall_shrinks hquot hquot').bind
      rintro - -
      apply (ih _ hquot hquot').bind
      rintro v ⟨hv, hv'⟩
      -- so neither the product nor the sum overflows
      obtain ⟨hmul, hmul'⟩ := product_bounds hv hv'
      rw [int64_eq (by omega) (by omega), pure_bind, int64_eq (by omega) (by omega)]
      exact .pure ⟨by omega, by omega⟩
    | false =>
      apply (logCall_shrinks hquot hquot').bind
      rintro - -
      apply (ih _ hquot hquot').bind
      rintro v ⟨hv, hv'⟩
      obtain ⟨hmul, hmul'⟩ := product_bounds hv hv'
      rw [int64_eq (by omega) (by omega), pure_bind]
      apply rand_shrinks.bind
      rintro t ⟨ht, ht'⟩
      rw [int64_eq (by omega) (by omega)]
      exact .pure ⟨by omega, by omega⟩
  · -- a remainder that happened is not 0
    have hpos := hb rfl
    apply (logCall_shrinks (by omega) (by omega)).bind
    rintro - -
    apply (ih _ (by omega) (by omega)).bind
    rintro v ⟨hv, hv'⟩
    rw [int64_eq (by omega) (by omega)]
    exact .pure ⟨by omega, by omega⟩

end

/-- The induction over the argument: both recursive calls have smaller ones. -/
theorem randInt64At_shrinks {h : Happened m} (h0 : h.NeverAtZero) : ∀ (depth : Nat) (n : Int), 1 ≤ n → n < 2 ^ 63 →
    n.toNat ≤ depth → Shrinks (randInt64At h randFirst depth n) fun v => 0 ≤ v ∧ v < n
  | 0, n, hn, _, hdepth => absurd hdepth (by omega)
  | depth + 1, n, hn, hn', hdepth => by
    by_cases hle : n ≤ m.rmax
    · exact randInt64At_shrinks_of_le randFirst hn hle
    · apply randInt64At_shrinks_of_gt randFirst h0 (by omega) hn'
      intro arg harg hlt
      exact randInt64At_shrinks h0 depth arg harg (by omega) (by omega)

/-! ## The result -/

/-- How a call of `rand_int64(n)` is left: with a value below `n`, or waiting for `rand()`, and so never with
a fault; and with every recursive call on a positive argument smaller than the caller's. -/
def EndsInRange (n : Int) : EStateM.Result RandStop (RandState m) Int → Prop
  | .ok v s => 0 ≤ v ∧ v < n ∧ CallsShrink s
  | .error e s => e = .waiting ∧ CallsShrink s

/-- The value that a call has returned. -/
def returned : EStateM.Result RandStop (RandState m) Int → Option Int
  | .ok v _ => some v
  | .error _ _ => none

theorem randInt64_endsInRange {h : Happened m} (h0 : h.NeverAtZero) {n : Int} (hn : 1 ≤ n) (hn' : n < 2 ^ 63)
    (draws : List m.Draw) : EndsInRange n ((randInt64 h randFirst n).run ⟨draws, []⟩) := by
  have hrun := randInt64At_shrinks randFirst h0 n.toNat n hn hn' le_rfl ⟨draws, []⟩ (by simp [CallsShrink])
  unfold randInt64
  cases hend : (randInt64At h randFirst n.toNat n).run ⟨draws, []⟩ with
  | ok v s =>
    rw [hend] at hrun
    exact ⟨hrun.2.1, hrun.2.2, hrun.1⟩
  | error e s =>
    rw [hend] at hrun
    exact ⟨hrun.2, hrun.1⟩

section
variable {n : Int}

/-- Up to `RAND_MAX` a call returns the residue of the first `rand()` result that is not in the tail. -/
theorem returned_randInt64 (hn : 1 ≤ n) (hle : n ≤ m.rmax) (draws : List m.Draw) :
    returned ((randInt64 h randFirst n).run ⟨draws, []⟩) =
      (nextUpTo (m.rmax - (m.rmax + 1) % n) draws).map fun r => r.1 % n := by
  have hlt := m.lt
  obtain ⟨depth, hdepth⟩ : ∃ depth, n.toNat = depth + 1 := ⟨n.toNat - 1, by omega⟩
  rw [randInt64, hdepth, randInt64At_of_le h randFirst depth hn hle, EStateM.run_bind, run_takeDraws]
  cases hnext : nextUpTo (m.rmax - (m.rmax + 1) % n) draws with
  | none => rfl
  | some r =>
    obtain ⟨ht, ht'⟩ := nextUpTo_some hnext
    simp only [mod64_eq ht (show r.1 < 2 ^ 63 by omega) hn]
    rfl

/-- A single `rand()` result is in the tail, or its residue is returned. -/
theorem returned_singleton (hn : 1 ≤ n) (hle : n ≤ m.rmax) (t : m.Draw) :
    returned ((randInt64 h randFirst n).run ⟨[t], []⟩) =
      if (t : Int) > m.rmax - (m.rmax + 1) % n then none else some ((t : Int) % n) := by
  rw [returned_randInt64 h randFirst hn hle]
  simp only [nextUpTo]
  split <;> rfl

/-- What a call returns is what the first `rand()` result returns that it accepts. -/
theorem returned_findSome (hn : 1 ≤ n) (hle : n ≤ m.rmax) (draws : List m.Draw) :
    returned ((randInt64 h randFirst n).run ⟨draws, []⟩) =
      draws.findSome? fun t => returned ((randInt64 h randFirst n).run ⟨[t], []⟩) := by
  simp only [returned_singleton h randFirst hn hle]
  rw [returned_randInt64 h randFirst hn hle]
  induction draws with
  | nil => rfl
  | cons t draws ih =>
    rw [nextUpTo, List.findSome?_cons]
    split
    · exact ih
    · rfl

/-- Below the tail every residue comes up as often as `n` goes into `RAND_MAX + 1`. -/
theorem card_residue (hn : 1 ≤ n) {k : Int} (hk : 0 ≤ k) (hk' : k < n) :
    (Finset.univ.filter fun t : m.Draw => (t : Int) ≤ m.rmax - (m.rmax + 1) % n ∧ (t : Int) % n = k).card =
      ((m.rmax + 1) / n).toNat := by
  have hge := m.ge
  have htail : (m.rmax + 1) / n * n + (m.rmax + 1) % n = m.rmax + 1 := Int.ediv_mul_add_emod _ _
  have hrem : 0 ≤ (m.rmax + 1) % n := Int.emod_nonneg _ (by omega)
  have hquot : 0 ≤ (m.rmax + 1) / n := Int.ediv_nonneg (by omega) (by omega)
  have hpos : ∀ t : m.Draw, 0 ≤ (t : Int) / n := fun t => Int.ediv_nonneg t.2.1 (by omega)
  -- the place of the residue in each of the blocks of `n` numbers below the tail
  have hplace : ∀ i : Nat, i < ((m.rmax + 1) / n).toNat → 0 ≤ (i : Int) * n + k ∧ (i : Int) * n + k ≤ m.rmax - (m.rmax + 1) % n := by
    intro i hi
    have hstart : 0 ≤ (i : Int) * n := Int.mul_nonneg (Int.natCast_nonneg i) (by omega)
    have hnext : ((i : Int) + 1) * n ≤ (m.rmax + 1) / n * n := Int.mul_le_mul_of_nonneg_right (by omega) (by omega)
    rw [Int.add_mul, Int.one_mul] at hnext
    constructor
    · omega
    · omega
  have hmem : ∀ i ∈ Finset.range ((m.rmax + 1) / n).toNat, (i : Int) * n + k ∈ Set.Icc (0 : Int) m.rmax := by
    intro i hi
    obtain ⟨hlow, hhigh⟩ := hplace i (Finset.mem_range.1 hi)
    exact ⟨hlow, by omega⟩
  rw [← Finset.card_range ((m.rmax + 1) / n).toNat]
  refine Finset.card_bij' (fun t _ => ((t : Int) / n).toNat) (fun i hi => ⟨i * n + k, hmem i hi⟩) ?_ ?_ ?_ ?_
  · rintro t ht
    rw [Finset.mem_filter] at ht
    have hlt : (t : Int) / n < (m.rmax + 1) / n := Int.ediv_lt_of_lt_mul (by omega) (by omega)
    have hstart := hpos t
    rw [Finset.mem_range]
    omega
  · rintro i hi
    rw [Finset.mem_filter]
    refine ⟨Finset.mem_univ _, (hplace i (Finset.mem_range.1 hi)).2, ?_⟩
    calc ((i : Int) * n + k) % n = k % n := Int.mul_add_emod_self_right _ _ _
      _ = k := Int.emod_eq_of_lt hk hk'
  · rintro t ht
    rw [Finset.mem_filter] at ht
    apply Subtype.ext
    calc (((t : Int) / n).toNat : Int) * n + k = (t : Int) / n * n + (t : Int) % n := by rw [Int.toNat_of_nonneg (hpos t), ht.2.2]
      _ = t := Int.ediv_mul_add_emod _ _
  · rintro i hi
    have hdiv : ((i : Int) * n + k) / n = i := by
      rw [Int.add_comm, Int.add_mul_ediv_right k i (by omega), Int.ediv_eq_zero_of_lt hk hk', Int.zero_add]
    calc (((i : Int) * n + k) / n).toNat = ((i : Int)).toNat := by rw [hdiv]
      _ = i := Int.toNat_natCast i

end

/-- A call of `rand_int64(n)` is left as `EndsInRange` says; and up to `RAND_MAX` it returns what the first `rand()`
result returns that it accepts, and every number below `n` is returned for as many of these results. -/
theorem rand_int64_in_range {h : Happened m} (h0 : h.NeverAtZero) {n : Int} (hn : 1 ≤ n) (hn' : n < 2 ^ 63) :
    (∀ draws, EndsInRange n ((randInt64 h randFirst n).run ⟨draws, []⟩)) ∧
    (n ≤ m.rmax →
      (∀ draws, returned ((randInt64 h randFirst n).run ⟨draws, []⟩) =
        draws.findSome? fun t => returned ((randInt64 h randFirst n).run ⟨[t], []⟩)) ∧
      ∀ k, 0 ≤ k → k < n →
        (Finset.univ.filter fun t : m.Draw => returned ((randInt64 h randFirst n).run ⟨[t], []⟩) = some k).card =
          ((m.rmax + 1) / n).toNat) := by
  refine ⟨randInt64_endsInRange randFirst h0 hn hn', ?_⟩
  intro hle
  refine ⟨returned_findSome h randFirst hn hle, ?_⟩
  intro k hk hk'
  -- the draws that return `k` are those of its residue below the tail
  rw [← card_residue hn hk hk']
  congr 1
  apply Finset.filter_congr
  rintro t -
  rw [returned_singleton h randFirst hn hle]
  split
  · next htail =>
    constructor
    · rintro ⟨⟩
    · rintro ⟨hlow, -⟩
      omega
  · next hlow =>
    rw [Option.some.injEq]
    constructor
    · intro hres
      exact ⟨by omega, hres⟩
    · rintro ⟨-, hres⟩
      exact hres

/-! ## `happened` is as assumed -/

theorem happened_neverAtZero {F : DoubleOps} (hF : F.ZeroDiv) : (happened F : Happened m).NeverAtZero := by
  rintro n draws b draws' hn hsome
  have hzero := hF n hn
  unfold happened at hsome
  cases draws with
  | nil =>
    rw [happenedProb, if_pos hzero] at hsome
    cases hsome
    rfl
  | cons t draws =>
    rw [happenedProb, if_pos hzero] at hsome
    cases hsome
    rfl

/-- Rational numbers for `double`. -/
def ratOps : DoubleOps where
  Double := ℚ
  ofInt x := x
  div x y := x / y
  mul x y := x * y
  le x y := decide (x ≤ y)
  lt x y := decide (x < y)

theorem ratOps_zeroDiv : ratOps.ZeroDiv := by
  rintro n -
  simp [ratOps]

/-- `RAND_MAX` of the C libraries with 31-bit results. -/
def randMax31 : RandMax := ⟨2 ^ 31 - 1, by omega, by omega⟩

/-- The call of `server_config_init`. -/
theorem rand_int64_in_range_server :
    (∀ draws, EndsInRange (1 <<< 24) ((randInt64 (happened ratOps) true (1 <<< 24)).run (⟨draws, []⟩ : RandState randMax31))) ∧
    ((1 <<< 24 : Int) ≤ randMax31.rmax →
      (∀ draws, returned ((randInt64 (happened ratOps) true (1 <<< 24)).run (⟨draws, []⟩ : RandState randMax31)) =
        draws.findSome? fun t => returned ((randInt64 (happened ratOps) true (1 <<< 24)).run ⟨[t], []⟩)) ∧
      ∀ k : Int, 0 ≤ k → k < 1 <<< 24 →
        (Finset.univ.filter fun t : randMax31.Draw =>
          returned ((randInt64 (happened ratOps) true (1 <<< 24)).run ⟨[t], []⟩) = some k).card =
          ((randMax31.rmax + 1) / 1 <<< 24).toNat) :=
  rand_int64_in_range true (happened_neverAtZero ratOps_zeroDiv) (by decide) (by decide)

end PubsubBroker

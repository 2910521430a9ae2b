/-
Runs of a deterministic machine `step : σ → ι → σ` fed a list of inputs, and the two rules by which
a property of every state of a run is proved: an invariant that every step keeps, and an invariant
that every step taken under a side condition keeps (`AllSteps`). A part of the state that moves by
steps of its own runs over the inputs the machine emits for it (`run_emitted`).
-/
import Mathlib.Tactic

namespace Machine

variable {σ ι : Type} (step : σ → ι → σ)

/-- The state after a list of inputs. -/
def run (s : σ) (is : List ι) : σ := is.foldl step s

/-- Every step of the run from `s` over `is` meets the condition `Ok` on its state and its input. -/
def AllSteps (Ok : σ → ι → Prop) : σ → List ι → Prop
  | _, [] => True
  | s, i :: is => Ok s i ∧ AllSteps Ok (step s i) is

@[simp] theorem run_nil (s : σ) : run step s [] = s := rfl

@[simp] theorem run_cons (s : σ) (i : ι) (is : List ι) : run step s (i :: is) = run step (step s i) is := rfl

theorem run_append (s : σ) (is js : List ι) : run step s (is ++ js) = run step (run step s is) js :=
  List.foldl_append

variable {step}

theorem AllSteps.append {Ok : σ → ι → Prop} {s : σ} {is js : List ι} :
    AllSteps step Ok s (is ++ js) ↔ AllSteps step Ok s is ∧ AllSteps step Ok (run step s is) js := by
  induction is generalizing s with
  | nil => simp [AllSteps]
  | cons i is ih => simp only [List.cons_append, AllSteps, run_cons, ih, and_assoc]

theorem AllSteps.mono {Ok Ok' : σ → ι → Prop} (h : ∀ s i, Ok s i → Ok' s i) {s : σ} {is : List ι}
    (ha : AllSteps step Ok s is) : AllSteps step Ok' s is := by
  induction is generalizing s with
  | nil => trivial
  | cons i is ih => exact ⟨h s i ha.1, ih ha.2⟩

instance AllSteps.decidable {Ok : σ → ι → Prop} [∀ s i, Decidable (Ok s i)] :
    ∀ (s : σ) (is : List ι), Decidable (AllSteps step Ok s is)
  | _, [] => inferInstanceAs (Decidable True)
  | s, i :: is =>
    @instDecidableAnd _ _ _ (AllSteps.decidable (step s i) is)

/-- A condition on the inputs alone. -/
theorem AllSteps.of_forall {Ok : ι → Prop} {is : List ι} (h : ∀ i ∈ is, Ok i) {s : σ} :
    AllSteps step (fun _ => Ok) s is := by
  induction is generalizing s with
  | nil => trivial
  | cons i is ih =>
    rw [List.forall_mem_cons] at h
    exact ⟨h.1, ih h.2⟩

/-- The steps of a run are those that its prefixes end with. -/
theorem AllSteps.intro {Ok : σ → ι → Prop} {s : σ} {is : List ι}
    (h : ∀ js i, js ++ [i] <+: is → Ok (run step s js) i) : AllSteps step Ok s is := by
  induction is generalizing s with
  | nil => trivial
  | cons i is ih =>
    refine ⟨h [] i (List.prefix_append [i] is), ih fun js j hjs => ?_⟩
    exact h (i :: js) j ((List.prefix_cons_inj i).2 hjs)

/-- The invariant rule: what every step under `Ok` keeps holds after a run of such steps. -/
theorem AllSteps.invariant {Ok : σ → ι → Prop} {I : σ → Prop}
    (hstep : ∀ s i, I s → Ok s i → I (step s i)) {s : σ} {is : List ι} (hs : I s)
    (ha : AllSteps step Ok s is) : I (run step s is) := by
  induction is generalizing s with
  | nil => exact hs
  | cons i is ih => exact ih (hstep s i hs ha.1) ha.2

/-- What no step changes is not changed by a run. -/
theorem run_proj {γ : Type*} {g : σ → γ} (h : ∀ s i, g (step s i) = g s) (s : σ) (is : List ι) :
    g (run step s is) = g s := by
  induction is generalizing s with
  | nil => rfl
  | cons i is ih => rw [run_cons, ih, h]

/-- The unconditional invariant rule. -/
theorem run_invariant {I : σ → Prop} (hstep : ∀ s i, I s → I (step s i)) {s : σ} (hs : I s)
    (is : List ι) : I (run step s is) := by
  induction is generalizing s with
  | nil => exact hs
  | cons i is ih => exact ih (hstep s i hs)

/-- When, of the steps in question, those that meet a condition keep an invariant, and the others show in what is
observed, then nothing shows all along a run of such steps exactly when every step meets the condition. -/
theorem observed_iff_allSteps_of {Dom Ok : σ → ι → Prop} {I P : σ → Prop} (hobs : ∀ s, I s → P s)
    (hshow : ∀ s i, I s → Dom s i → P (step s i) → Ok s i) (hkeep : ∀ s i, I s → Dom s i → Ok s i → I (step s i))
    {s : σ} (hs : I s) {is : List ι} (hdom : AllSteps step Dom s is) :
    (∀ js, js <+: is → P (run step s js)) ↔ AllSteps step Ok s is := by
  induction is generalizing s with
  | nil =>
    refine iff_of_true (fun js hjs => ?_) trivial
    rw [List.prefix_nil.1 hjs]
    exact hobs s hs
  | cons i is ih =>
    constructor
    · intro hall
      have hok : Ok s i := hshow s i hs hdom.1 (hall [i] (List.prefix_append [i] is))
      refine ⟨hok, (ih (hkeep s i hs hdom.1 hok) hdom.2).1 fun js hjs => ?_⟩
      exact hall (i :: js) ((List.prefix_cons_inj i).2 hjs)
    · rintro ⟨hok, hrest⟩ js hjs
      cases js with
      | nil => exact hobs s hs
      | cons j js =>
        obtain ⟨rfl, hjs'⟩ := List.cons_prefix_cons.1 hjs
        exact (ih (hkeep s j hs hdom.1 hok) hdom.2).2 hrest js hjs'

/-- The same where the invariant itself is observed. -/
theorem invariant_iff_allSteps_of {Dom Ok : σ → ι → Prop} {I : σ → Prop}
    (h : ∀ s i, I s → Dom s i → (I (step s i) ↔ Ok s i)) {s : σ} (hs : I s) {is : List ι} (hdom : AllSteps step Dom s is) :
    (∀ js, js <+: is → I (run step s js)) ↔ AllSteps step Ok s is :=
  observed_iff_allSteps_of (fun _ => id) (fun s i hI hD => (h s i hI hD).1) (fun s i hI hD => (h s i hI hD).2) hs hdom

/-- The same for steps without restriction. -/
theorem invariant_iff_allSteps {Ok : σ → ι → Prop} {I : σ → Prop} (h : ∀ s i, I s → (I (step s i) ↔ Ok s i)) {s : σ}
    (hs : I s) (is : List ι) : (∀ js, js <+: is → I (run step s js)) ↔ AllSteps step Ok s is :=
  invariant_iff_allSteps_of (fun s i hI (_ : True) => h s i hI) hs (.of_forall fun _ _ => trivial)

/-! ## Steps that may fail -/

section
variable {τ κ : Type} (step? : σ → ι → Option σ)

/-- The state after a list of inputs, unless a step fails. -/
def tryRun : σ → List ι → Option σ
  | s, [] => some s
  | s, i :: is => (step? s i).bind fun s' => tryRun s' is

/-- The steps of a run until one fails, each with the state that it is taken in. -/
def trace : σ → List ι → List (σ × ι)
  | _, [] => []
  | s, i :: is => (s, i) :: (step? s i).elim [] fun s' => trace s' is

variable {step?}

/-- The history rule: what every step keeps of the state and of the steps so far holds after a run. -/
theorem tryRun_history {R : σ → List (σ × ι) → Prop} (h : ∀ s l i s', R s l → step? s i = some s' → R s' (l ++ [(s, i)]))
    {s s' : σ} {l : List (σ × ι)} {is : List ι} (hR : R s l) (hrun : tryRun step? s is = some s') :
    R s' (l ++ trace step? s is) := by
  induction is generalizing s l with
  | nil =>
    cases hrun
    rwa [trace, List.append_nil]
  | cons i is ih =>
    obtain ⟨s₁, hs, hrest⟩ := Option.bind_eq_some_iff.1 hrun
    rw [trace, hs, Option.elim_some, List.append_cons]
    exact ih (h s l i s₁ hR hs) hrest

/-- In a run without a failure the steps are those of the inputs. -/
theorem trace_inputs {s s' : σ} {is : List ι} (hrun : tryRun step? s is = some s') : (trace step? s is).map Prod.snd = is := by
  induction is generalizing s with
  | nil => rfl
  | cons i is ih =>
    obtain ⟨s₁, hs, hrest⟩ := Option.bind_eq_some_iff.1 hrun
    rw [trace, hs, Option.elim_some, List.map_cons, ih hrest]

/-- The simulation rule: when every step is matched by moves of another machine, a run is matched by the moves
of its steps. -/
theorem tryRun_simulates {R : σ → τ → Prop} {g : τ → κ → τ} {f : σ × ι → List κ}
    (h : ∀ s t i s', R s t → step? s i = some s' → R s' (run g t (f (s, i)))) {s s' : σ} {t : τ} {is : List ι}
    (hR : R s t) (hrun : tryRun step? s is = some s') : R s' (run g t ((trace step? s is).flatMap f)) := by
  refine tryRun_history (R := fun s l => R s (run g t (l.flatMap f))) (l := []) (fun s l i s' hs hi => ?_) hR hrun
  rw [List.flatMap_append, run_append, List.flatMap_singleton]
  exact h s _ i s' hs hi

end

/-! ## Parts of the state -/

section
variable {τ κ : Type} (step)

/-- What a run emits, when a step emits `out`. -/
def emitted (out : σ → ι → List κ) : σ → List ι → List κ
  | _, [] => []
  | s, i :: is => out s i ++ emitted out (step s i) is

variable {step}

theorem emitted_append (out : σ → ι → List κ) (s : σ) (is js : List ι) :
    emitted step out s (is ++ js) = emitted step out s is ++ emitted step out (run step s is) js := by
  induction is generalizing s with
  | nil => rfl
  | cons i is ih => rw [List.cons_append, emitted, emitted, ih, List.append_assoc, run_cons]

theorem emitted_flatMap (f : ι → List κ) (s : σ) (is : List ι) : emitted step (fun _ => f) s is = is.flatMap f := by
  induction is generalizing s with
  | nil => rfl
  | cons i is ih => rw [emitted, ih, List.flatMap_cons]

/-- A part of the state that every step moves by what it emits is moved by what the run emits. -/
theorem run_emitted {part : σ → τ} {move : τ → κ → τ} {out : σ → ι → List κ}
    (h : ∀ s i, part (step s i) = run move (part s) (out s i)) (s : σ) (is : List ι) :
    part (run step s is) = run move (part s) (emitted step out s is) := by
  induction is generalizing s with
  | nil => rfl
  | cons i is ih => rw [run_cons, ih, h, emitted, run_append]

end

end Machine

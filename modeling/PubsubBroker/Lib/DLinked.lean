/-
Cells in a memory that are linked in both directions. A store gives the links of the cell at an address:
the address of the cell after it and of the cell before it, the null pointer at the two ends. Writing one
link at the end of a segment changes what the segment is joined to and nothing else, and every operation
on a chain is put together from such writes.
-/
import Mathlib.Tactic

namespace DLinked

variable {P : Type}

/-- The links of the cells: the one after and the one before. -/
abbrev Links (P : Type) := P → Option (P × P)

/-- The cells `as` are linked one after the other, behind `b` and before `q`. -/
def Seg (σ : Links P) : P → List P → P → Prop
  | _, [], _ => True
  | b, a :: as, q => σ a = some (as.headD q, b) ∧ Seg σ a as q

/-- A segment between null pointers, which passes no cell twice. -/
structure Chain (σ : Links P) (null : P) (as : List P) : Prop where
  seg : Seg σ null as null
  nodup : as.Nodup
  null_notMem : null ∉ as

section
variable [DecidableEq P] (null : P)

/-- `p->next = q`, unless `p` is the null pointer. -/
def setNext (σ : Links P) (p q : P) : Links P :=
  if p = null then σ else Function.update σ p ((σ p).map fun l => (q, l.2))

/-- `p->prev = q`, unless `p` is the null pointer. -/
def setPrev (σ : Links P) (p q : P) : Links P :=
  if p = null then σ else Function.update σ p ((σ p).map fun l => (l.1, q))

end

variable {σ σ' : Links P} {null a b q x y : P} {as us vs : List P}

theorem headD_append (us vs : List P) (q : P) : (us ++ vs).headD q = us.headD (vs.headD q) := by
  cases us <;> rfl

theorem getLastD_append (us vs : List P) (b : P) : (us ++ vs).getLastD b = vs.getLastD (us.getLastD b) := by
  induction us generalizing b with
  | nil => rfl
  | cons u us ih => rw [List.cons_append, List.getLastD_cons, List.getLastD_cons, ih]

theorem getLastD_mem {b : P} : ∀ {us : List P}, us ≠ [] → us.getLastD b ∈ us
  | [], h => absurd rfl h
  | u :: us, _ => by rw [List.getLastD_cons]; exact List.getLastD_mem_cons

theorem headD_mem {q : P} : ∀ {us : List P}, us ≠ [] → us.headD q ∈ us
  | [], h => absurd rfl h
  | u :: us, _ => by simp

theorem getLastD_eq_null_iff (h0 : null ∉ us) : us.getLastD null = null ↔ us = [] := by
  constructor
  · intro h
    by_contra hnil
    exact h0 (h ▸ getLastD_mem hnil)
  · rintro rfl
    rfl

theorem headD_eq_null_iff (h0 : null ∉ vs) : vs.headD null = null ↔ vs = [] := by
  constructor
  · intro h
    by_contra hnil
    exact h0 (h ▸ headD_mem hnil)
  · rintro rfl
    rfl

/-- The last of some cells, or the null pointer where there are none, is not among the ones after them. -/
theorem getLastD_notMem (hnd : (us ++ vs).Nodup) (h0 : null ∉ us ++ vs) : us.getLastD null ∉ vs := by
  intro hmem
  by_cases hnil : us = []
  · subst hnil; exact h0 hmem
  · exact (List.nodup_append.1 hnd).2.2 _ (getLastD_mem hnil) _ hmem rfl

/-- The first of some cells, or the null pointer where there are none, is not among the ones before them. -/
theorem headD_notMem (hnd : (us ++ vs).Nodup) (h0 : null ∉ us ++ vs) : vs.headD null ∉ us := by
  intro hmem
  by_cases hnil : vs = []
  · subst hnil; exact h0 (List.mem_append_left _ hmem)
  · exact (List.nodup_append.1 hnd).2.2 _ hmem _ (headD_mem hnil) rfl

/-! ## Segments -/

@[simp] theorem seg_nil : Seg σ b [] q := trivial

theorem seg_cons : Seg σ b (a :: as) q ↔ σ a = some (as.headD q, b) ∧ Seg σ a as q := Iff.rfl

theorem seg_append : Seg σ b (us ++ vs) q ↔ Seg σ b us (vs.headD q) ∧ Seg σ (us.getLastD b) vs q := by
  induction us generalizing b with
  | nil => simp
  | cons u us ih =>
    rw [List.cons_append, seg_cons, seg_cons, ih, headD_append, List.getLastD_cons, and_assoc]

theorem Seg.frame (h : Seg σ b as q) (hσ : ∀ a ∈ as, σ' a = σ a) : Seg σ' b as q := by
  induction as generalizing b with
  | nil => trivial
  | cons a as ih =>
    rw [List.forall_mem_cons] at hσ
    exact ⟨hσ.1.trans h.1, ih h.2 hσ.2⟩

/-- The links of a cell in the middle. -/
theorem Seg.get (h : Seg σ b (us ++ a :: vs) q) : σ a = some (vs.headD q, us.getLastD b) :=
  (seg_append.1 h).2.1

theorem Seg.isSome (h : Seg σ b as q) (ha : a ∈ as) : ∃ l, σ a = some l := by
  obtain ⟨us, vs, rfl⟩ := List.append_of_mem ha
  exact ⟨_, h.get⟩

theorem Seg.last_isSome (h : Seg σ b us q) (h0 : us.getLastD null ≠ null) : ∃ l, σ (us.getLastD null) = some l :=
  h.isSome (getLastD_mem (by rintro rfl; exact h0 rfl))

theorem Seg.head_isSome (h : Seg σ b vs q) (h0 : vs.headD null ≠ null) : ∃ l, σ (vs.headD null) = some l :=
  h.isSome (headD_mem (by rintro rfl; exact h0 rfl))

namespace Chain

theorem nil : Chain σ null [] := ⟨trivial, List.nodup_nil, List.not_mem_nil⟩

theorem frame (h : Chain σ null as) (hσ : ∀ a ∈ as, σ' a = σ a) : Chain σ' null as :=
  ⟨h.seg.frame hσ, h.nodup, h.null_notMem⟩

end Chain

/-! ## Writes -/

variable [DecidableEq P]

theorem setNext_of_ne (h : a ≠ x) : setNext null σ x y a = σ a := by
  unfold setNext
  split
  · rfl
  · exact Function.update_of_ne h ..

theorem setPrev_of_ne (h : a ≠ x) : setPrev null σ x y a = σ a := by
  unfold setPrev
  split
  · rfl
  · exact Function.update_of_ne h ..

theorem setNext_self (hx : x ≠ null) {l : P × P} (h : σ x = some l) : setNext null σ x y x = some (y, l.2) := by
  rw [setNext, if_neg hx, Function.update_self, h]; rfl

theorem setPrev_self (hx : x ≠ null) {l : P × P} (h : σ x = some l) : setPrev null σ x y x = some (l.1, y) := by
  rw [setPrev, if_neg hx, Function.update_self, h]; rfl

theorem Seg.setNext_frame (h : Seg σ b as q) (hx : x ∉ as) : Seg (setNext null σ x y) b as q :=
  h.frame fun _ ha => setNext_of_ne (by rintro rfl; exact hx ha)

theorem Seg.setPrev_frame (h : Seg σ b as q) (hx : x ∉ as) : Seg (setPrev null σ x y) b as q :=
  h.frame fun _ ha => setPrev_of_ne (by rintro rfl; exact hx ha)

theorem Seg.update_frame (h : Seg σ b as q) (hx : x ∉ as) {l : Option (P × P)} :
    Seg (Function.update σ x l) b as q :=
  h.frame fun _ ha => Function.update_of_ne (by rintro rfl; exact hx ha) ..

/-- No cell is lost by a write. -/
theorem setNext_isSome (h : ∃ l, σ a = some l) (x y : P) : ∃ l, setNext null σ x y a = some l := by
  obtain ⟨l, hl⟩ := h
  by_cases hx : x = null
  · exact ⟨l, by rw [setNext, if_pos hx, hl]⟩
  · by_cases ha : a = x
    · subst ha
      exact ⟨_, setNext_self hx hl⟩
    · exact ⟨l, (setNext_of_ne ha).trans hl⟩

theorem setPrev_isSome (h : ∃ l, σ a = some l) (x y : P) : ∃ l, setPrev null σ x y a = some l := by
  obtain ⟨l, hl⟩ := h
  by_cases hx : x = null
  · exact ⟨l, by rw [setPrev, if_pos hx, hl]⟩
  · by_cases ha : a = x
    · subst ha
      exact ⟨_, setPrev_self hx hl⟩
    · exact ⟨l, (setPrev_of_ne ha).trans hl⟩

/-- Both links of a cell are written. -/
theorem setPrev_setNext_self (ha : a ≠ null) (h : ∃ l, σ a = some l) :
    setPrev null (setNext null σ a x) a y = Function.update σ a (some (x, y)) := by
  obtain ⟨l, hl⟩ := h
  rw [setPrev, if_neg ha, setNext_self ha hl, setNext, if_neg ha, Function.update_idem]
  rfl

@[simp] theorem setNext_null : setNext null σ null y = σ := if_pos rfl

@[simp] theorem setPrev_null : setPrev null σ null y = σ := if_pos rfl

/-- Writing the link after the last of some cells leaves every other cell as it is. -/
theorem setNext_getLastD (ha : a ∉ us) : setNext null σ (us.getLastD null) y a = σ a := by
  by_cases hnil : us = []
  · subst hnil
    exact congrFun setNext_null a
  · exact setNext_of_ne (by rintro rfl; exact ha (getLastD_mem hnil))

/-- Writing the link before the first of some cells leaves every other cell as it is. -/
theorem setPrev_headD (ha : a ∉ vs) : setPrev null σ (vs.headD null) y a = σ a := by
  by_cases hnil : vs = []
  · subst hnil
    exact congrFun setPrev_null a
  · exact setPrev_of_ne (by rintro rfl; exact ha (headD_mem hnil))

/-- Writing the link after the last cell joins the segment to `y`. -/
theorem Seg.setNext_last (h : Seg σ b us q) (hnd : us.Nodup) (h0 : null ∉ us) :
    Seg (setNext null σ (us.getLastD null) y) b us y := by
  induction us generalizing b with
  | nil => trivial
  | cons u us ih =>
    rw [List.nodup_cons] at hnd
    rw [List.mem_cons, not_or] at h0
    rw [List.getLastD_cons]
    cases us with
    | nil => exact ⟨setNext_self (Ne.symm h0.1) h.1, trivial⟩
    | cons v vs =>
      have hlast : (v :: vs).getLastD u = (v :: vs).getLastD null := by
        rw [List.getLastD_cons, List.getLastD_cons]
      rw [hlast]
      refine ⟨?_, ih h.2 hnd.2 h0.2⟩
      have hne : u ≠ (v :: vs).getLastD null := by
        intro e
        exact hnd.1 (e ▸ getLastD_mem (List.cons_ne_nil v vs))
      rw [setNext_of_ne hne]
      exact h.1

/-- Writing the link before the first cell puts the segment behind `y`. -/
theorem Seg.setPrev_head (h : Seg σ b vs q) (hnd : vs.Nodup) (h0 : null ∉ vs) :
    Seg (setPrev null σ (vs.headD null) y) y vs q := by
  cases vs with
  | nil => trivial
  | cons v vs =>
    rw [List.nodup_cons] at hnd
    rw [List.mem_cons, not_or] at h0
    exact ⟨setPrev_self (Ne.symm h0.1) h.1, h.2.setPrev_frame hnd.1⟩

/-! ## Chains -/

namespace Chain

/-- Joining two segments with the two links between them makes a chain. -/
theorem join (hus : Seg σ null us x) (hvs : Seg σ y vs null) (hnd : (us ++ vs).Nodup) (h0 : null ∉ us ++ vs) :
    Chain (setPrev null (setNext null σ (us.getLastD null) (vs.headD null)) (vs.headD null) (us.getLastD null)) null
      (us ++ vs) := by
  have hc : ∀ {τ : Links P}, Seg τ null (us ++ vs) null → Chain τ null (us ++ vs) := fun hs => ⟨hs, hnd, h0⟩
  have hd := List.nodup_append.1 hnd
  apply hc
  rw [seg_append]
  constructor
  · have h1 := hus.setNext_last (y := vs.headD null) hd.1 fun h => h0 (List.mem_append_left _ h)
    exact h1.setPrev_frame (headD_notMem hnd h0)
  · have h1 : Seg (setNext null σ (us.getLastD null) (vs.headD null)) y vs null :=
      hvs.setNext_frame (getLastD_notMem hnd h0)
    exact h1.setPrev_head hd.2.1 fun h => h0 (List.mem_append_right _ h)

/-- A cell is taken out: the cells around it are linked to each other. -/
theorem unlink (h : Chain σ null (us ++ a :: vs)) :
    Chain (setPrev null (setNext null σ (us.getLastD null) (vs.headD null)) (vs.headD null) (us.getLastD null)) null
      (us ++ vs) := by
  have hs := seg_append.1 h.seg
  have hsub : List.Sublist (us ++ vs) (us ++ a :: vs) := (List.sublist_cons_self a vs).append_left us
  exact join hs.1 hs.2.2 (h.nodup.sublist hsub) fun hmem => h.null_notMem (hsub.subset hmem)

/-- A new cell is put first. -/
theorem linkFirst (h : Chain σ null as) (ha : a ∉ as) (h0 : a ≠ null) :
    Chain (setPrev null (Function.update σ a (some (as.headD null, null))) (as.headD null) a) null (a :: as) := by
  refine ⟨⟨?_, ?_⟩, List.nodup_cons.2 ⟨ha, h.nodup⟩, ?_⟩
  · rw [setPrev_of_ne, Function.update_self]
    rintro e
    cases as with
    | nil => exact h0 e
    | cons b as => exact ha (e ▸ List.mem_cons_self)
  · exact (h.seg.update_frame ha).setPrev_head h.nodup h.null_notMem
  · rw [List.mem_cons, not_or]
    exact ⟨Ne.symm h0, h.null_notMem⟩

/-- A new cell is put last. -/
theorem linkLast (h : Chain σ null as) (ha : a ∉ as) (h0 : a ≠ null) :
    Chain (setNext null (Function.update σ a (some (null, as.getLastD null))) (as.getLastD null) a) null
      (as ++ [a]) := by
  refine ⟨seg_append.2 ⟨?_, ?_, trivial⟩, ?_, ?_⟩
  · exact (h.seg.update_frame ha).setNext_last h.nodup h.null_notMem
  · rw [setNext_of_ne, Function.update_self]
    · rfl
    · rintro e
      by_cases hnil : as = []
      · subst hnil; exact h0 e
      · exact ha (e ▸ getLastD_mem hnil)
  · rw [List.nodup_append]
    refine ⟨h.nodup, List.nodup_singleton a, ?_⟩
    intro c hc d hd e
    rw [List.mem_singleton] at hd
    exact ha (hd ▸ e ▸ hc)
  · rw [List.mem_append, List.mem_singleton, not_or]
    exact ⟨h.null_notMem, Ne.symm h0⟩

/-- Two cells in a row change places. -/
theorem swap (h : Chain σ null (us ++ x :: y :: vs)) :
    Chain (Function.update (Function.update
      (setPrev null (setNext null σ (us.getLastD null) y) (vs.headD null) x)
      x (some (vs.headD null, y))) y (some (x, us.getLastD null))) null (us ++ y :: x :: vs) := by
  have hnd : (us ++ y :: x :: vs).Nodup := ((List.Perm.swap y x vs).append_left us).nodup_iff.1 h.nodup
  have h0 : null ∉ us ++ y :: x :: vs := by
    intro hmem
    exact h.null_notMem (((List.Perm.swap x y vs).append_left us).mem_iff.1 hmem)
  obtain ⟨hus, -, -, hvs⟩ := seg_append.1 h.seg
  have hd := List.nodup_append.1 hnd
  simp only [List.nodup_cons, List.mem_cons, not_or] at hd
  obtain ⟨hndus, ⟨⟨hyx, hyvs⟩, hxvs, hndvs⟩, hdisj⟩ := hd
  have hxus : x ∉ us := fun hmem => hdisj x hmem x (.inr (.inl rfl)) rfl
  have hyus : y ∉ us := fun hmem => hdisj y hmem y (.inl rfl) rfl
  -- the cells before and after the two make no cell twice either
  have hsub : List.Sublist (us ++ vs) (us ++ y :: x :: vs) :=
    ((List.sublist_cons_self x vs).trans (List.sublist_cons_self y _)).append_left us
  have hnd' := hnd.sublist hsub
  have h0' : null ∉ us ++ vs := fun hmem => h0 (hsub.subset hmem)
  have h0us : null ∉ us := fun hmem => h0' (List.mem_append_left _ hmem)
  have h0vs : null ∉ vs := fun hmem => h0' (List.mem_append_right _ hmem)
  refine ⟨seg_append.2 ⟨?_, ?_, ?_, ?_⟩, hnd, h0⟩
  · have h1 : Seg (setPrev null (setNext null σ (us.getLastD null) y) (vs.headD null) x) null us y :=
      (hus.setNext_last hndus h0us).setPrev_frame (headD_notMem hnd' h0')
    exact (h1.update_frame hxus).update_frame hyus
  · rw [Function.update_self]; rfl
  · rw [Function.update_of_ne (Ne.symm hyx), Function.update_self]
  · have h1 : Seg (setPrev null (setNext null σ (us.getLastD null) y) (vs.headD null) x) x vs null :=
      (hvs.setNext_frame (getLastD_notMem hnd' h0')).setPrev_head hndvs h0vs
    exact (h1.update_frame hxvs).update_frame hyvs

end Chain

end DLinked

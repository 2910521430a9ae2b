/-
Finite maps from byte-string keys that remember the order of insertion: an insertion fails when the
key is present and otherwise puts the entry last, so walking the entries goes from the oldest to
the newest. Keys never repeat, which the map carries as a field.
-/
import Mathlib.Tactic

/-- A finite map from byte strings, in order of insertion. -/
structure Table (V : Type) where
  entries : List (List UInt8 × V)
  nodup : (entries.map Prod.fst).Nodup

namespace Table

variable {V : Type}

/-- The map without entries. -/
def empty : Table V := ⟨[], List.nodup_nil⟩

/-- The keys, oldest first. -/
def keys (t : Table V) : List (List UInt8) := t.entries.map Prod.fst

/-- The value stored under `k`. -/
def get (t : Table V) (k : List UInt8) : Option V := (t.entries.find? (·.1 = k)).map Prod.snd

/-- Insertion, refused when the key is present. -/
def insert (t : Table V) (k : List UInt8) (v : V) : Option (Table V) :=
  if h : k ∈ t.keys then none
  else some ⟨t.entries ++ [(k, v)], by
    rw [List.map_append, List.nodup_append]
    refine ⟨t.nodup, by simp, fun a ha b hb => ?_⟩
    simp only [List.map_cons, List.map_nil, List.mem_singleton] at hb
    rintro rfl
    exact h (hb ▸ ha)⟩

/-- The map without the entry under `k`. -/
def erase (t : Table V) (k : List UInt8) : Table V :=
  ⟨t.entries.filter (·.1 ≠ k), (List.Sublist.map _ List.filter_sublist).nodup t.nodup⟩

/-- The map with `v` in the place of what is stored under `k`. -/
def replace (t : Table V) (k : List UInt8) (v : V) : Table V :=
  ⟨t.entries.map fun e => if e.1 = k then (k, v) else e, by
    have hkeys : (t.entries.map fun e => if e.1 = k then (k, v) else e).map Prod.fst = t.entries.map Prod.fst := by
      rw [List.map_map]
      refine List.map_congr_left fun e _ => ?_
      simp only [Function.comp_apply]
      split
      · rename_i he; exact he.symm
      · rfl
    exact hkeys ▸ t.nodup⟩

@[ext] theorem ext {t t' : Table V} (h : t.entries = t'.entries) : t = t' := by
  cases t; cases t'; cases h; rfl

theorem get_eq_some {t : Table V} {k : List UInt8} {v : V} : t.get k = some v ↔ (k, v) ∈ t.entries := by
  unfold get
  rw [Option.map_eq_some_iff]
  constructor
  · rintro ⟨⟨k', v'⟩, hf, rfl⟩
    have hk : k' = k := by simpa using List.find?_some hf
    exact hk ▸ List.mem_of_find?_eq_some hf
  · intro hm
    rcases hf : t.entries.find? (·.1 = k) with _ | ⟨k', v'⟩
    · rw [List.find?_eq_none] at hf
      simpa using hf _ hm
    · have hk : k' = k := by simpa using List.find?_some hf
      have := List.inj_on_of_nodup_map t.nodup (List.mem_of_find?_eq_some hf) hm hk
      exact ⟨(k', v'), hf, by rw [this]⟩

theorem get_eq_none {t : Table V} {k : List UInt8} : t.get k = none ↔ k ∉ t.keys := by
  unfold get keys
  rw [Option.map_eq_none_iff, List.find?_eq_none]
  simp only [decide_eq_true_eq, List.mem_map, not_exists, not_and]

theorem mem_keys {t : Table V} {k : List UInt8} : k ∈ t.keys ↔ ∃ v, t.get k = some v := by
  rw [← Option.isSome_iff_exists, Option.isSome_iff_ne_none, ne_eq, get_eq_none, not_not]

theorem insert_eq_none {t : Table V} {k : List UInt8} {v : V} : t.insert k v = none ↔ k ∈ t.keys := by
  unfold insert; split <;> simp_all

/-- What a successful insertion does. -/
theorem insert_some {t t' : Table V} {k : List UInt8} {v : V} (h : t.insert k v = some t') :
    k ∉ t.keys ∧ t'.entries = t.entries ++ [(k, v)] := by
  unfold insert at h
  split at h
  · cases h
  · rename_i hk; cases h; exact ⟨hk, rfl⟩

theorem keys_insert {t t' : Table V} {k : List UInt8} {v : V} (h : t.insert k v = some t') (x : List UInt8) :
    x ∈ t'.keys ↔ x = k ∨ x ∈ t.keys := by
  unfold keys
  rw [(insert_some h).2, List.map_append, List.mem_append, or_comm]
  simp

theorem get_insert {t t' : Table V} {k : List UInt8} {v : V} (h : t.insert k v = some t') (x : List UInt8) :
    t'.get x = if x = k then some v else t.get x := by
  obtain ⟨hk, he⟩ := insert_some h
  split
  · rename_i hx; subst hx
    rw [get_eq_some, he]; simp
  · rename_i hx
    unfold get
    rw [he, List.find?_append]
    simp [show k ≠ x from fun e => hx e.symm]

/-- The keys before and behind an entry are others. -/
theorem ne_of_split {t : Table V} {l₁ l₂ : List (List UInt8 × V)} {k : List UInt8} {v : V}
    (h : t.entries = l₁ ++ (k, v) :: l₂) : (∀ e ∈ l₁, e.1 ≠ k) ∧ ∀ e ∈ l₂, e.1 ≠ k := by
  have hnd := t.nodup
  rw [h, List.map_append, List.map_cons, List.nodup_middle, List.nodup_cons, List.mem_append, not_or] at hnd
  refine ⟨fun e he hek => hnd.1.1 ?_, fun e he hek => hnd.1.2 ?_⟩
  · exact List.mem_map.2 ⟨e, he, hek⟩
  · exact List.mem_map.2 ⟨e, he, hek⟩

theorem entries_erase {t : Table V} {l₁ l₂ : List (List UInt8 × V)} {k : List UInt8} {v : V}
    (h : t.entries = l₁ ++ (k, v) :: l₂) : (t.erase k).entries = l₁ ++ l₂ := by
  obtain ⟨h₁, h₂⟩ := ne_of_split h
  show t.entries.filter (·.1 ≠ k) = l₁ ++ l₂
  rw [h, List.filter_append, List.filter_cons_of_neg (by simp), List.filter_eq_self.2 (by simpa using h₁),
    List.filter_eq_self.2 (by simpa using h₂)]

theorem entries_replace {t : Table V} {l₁ l₂ : List (List UInt8 × V)} {k : List UInt8} {v : V}
    (h : t.entries = l₁ ++ (k, v) :: l₂) (w : V) : (t.replace k w).entries = l₁ ++ (k, w) :: l₂ := by
  obtain ⟨h₁, h₂⟩ := ne_of_split h
  have hstay (l : List (List UInt8 × V)) (hl : ∀ e ∈ l, e.1 ≠ k) : (l.map fun e => if e.1 = k then (k, w) else e) = l := by
    conv_rhs => rw [← List.map_id l]
    exact List.map_congr_left fun e he => if_neg (hl e he)
  show (t.entries.map fun e => if e.1 = k then (k, w) else e) = l₁ ++ (k, w) :: l₂
  rw [h, List.map_append, List.map_cons, hstay l₁ h₁, hstay l₂ h₂, if_pos rfl]

theorem erase_of_notMem {t : Table V} {k : List UInt8} (h : k ∉ t.keys) : t.erase k = t := by
  apply ext
  refine List.filter_eq_self.2 fun e he => decide_eq_true ?_
  rintro rfl
  exact h (List.mem_map_of_mem he)

theorem replace_of_notMem {t : Table V} {k : List UInt8} (h : k ∉ t.keys) (v : V) : t.replace k v = t := by
  apply ext
  show (t.entries.map fun e => if e.1 = k then (k, v) else e) = t.entries
  conv_rhs => rw [← List.map_id t.entries]
  refine List.map_congr_left fun e he => if_neg ?_
  rintro rfl
  exact h (List.mem_map_of_mem he)

/-! ## Related tables -/

variable {W : Type} {R : V → W → Prop}

/-- The same keys in the same order, with related values. -/
def Rel (R : V → W → Prop) (t : Table V) (t' : Table W) : Prop :=
  List.Forall₂ (fun e e' => e.1 = e'.1 ∧ R e.2 e'.2) t.entries t'.entries

theorem Rel.empty : Rel R (empty : Table V) (empty : Table W) := .nil

theorem Rel.keys {t : Table V} {t' : Table W} (h : Rel R t t') : t.keys = t'.keys := by
  have hkeys : ∀ {l : List (List UInt8 × V)} {l' : List (List UInt8 × W)},
      List.Forall₂ (fun e e' => e.1 = e'.1 ∧ R e.2 e'.2) l l' → l.map Prod.fst = l'.map Prod.fst := by
    intro l l' hl
    induction hl with
    | nil => rfl
    | cons he _ ih => rw [List.map_cons, List.map_cons, he.1, ih]
  exact hkeys h

/-- What is found under a key is related. -/
theorem Rel.get {t : Table V} {t' : Table W} (h : Rel R t t') (k : List UInt8) :
    t.get k = none ∧ t'.get k = none ∨ ∃ v v', t.get k = some v ∧ t'.get k = some v' ∧ R v v' := by
  have hget : ∀ {l : List (List UInt8 × V)} {l' : List (List UInt8 × W)},
      List.Forall₂ (fun e e' => e.1 = e'.1 ∧ R e.2 e'.2) l l' →
      (l.find? (·.1 = k)).map Prod.snd = none ∧ (l'.find? (·.1 = k)).map Prod.snd = none ∨
      ∃ v v', (l.find? (·.1 = k)).map Prod.snd = some v ∧ (l'.find? (·.1 = k)).map Prod.snd = some v' ∧ R v v' := by
    intro l l' hl
    induction hl with
    | nil => exact .inl ⟨rfl, rfl⟩
    | @cons e e' l l' he _ ih =>
      by_cases hk : e.1 = k
      · have hk' : e'.1 = k := he.1.symm.trans hk
        rw [List.find?_cons_of_pos (by simpa using hk), List.find?_cons_of_pos (by simpa using hk')]
        exact .inr ⟨e.2, e'.2, rfl, rfl, he.2⟩
      · have hk' : ¬ e'.1 = k := fun h => hk (he.1.trans h)
        rw [List.find?_cons_of_neg (by simpa using hk), List.find?_cons_of_neg (by simpa using hk')]
        exact ih
  exact hget h

/-- Related values are inserted, or refused, on both sides. -/
theorem Rel.insert {t : Table V} {t' : Table W} (h : Rel R t t') {v : V} {w : W} (hv : R v w) (k : List UInt8) :
    t.insert k v = none ∧ t'.insert k w = none ∨
    ∃ u u', t.insert k v = some u ∧ t'.insert k w = some u' ∧ Rel R u u' := by
  by_cases hk : k ∈ t.keys
  · exact .inl ⟨insert_eq_none.2 hk, insert_eq_none.2 (h.keys ▸ hk)⟩
  · have hk' : k ∉ t'.keys := h.keys ▸ hk
    rcases hu : t.insert k v with _ | u
    · exact absurd (insert_eq_none.1 hu) hk
    rcases hu' : t'.insert k w with _ | u'
    · exact absurd (insert_eq_none.1 hu') hk'
    refine .inr ⟨u, u', rfl, rfl, ?_⟩
    unfold Rel
    rw [(insert_some hu).2, (insert_some hu').2]
    exact List.rel_append h (.cons ⟨rfl, hv⟩ .nil)

/-- A relation may be weakened on the values that are stored. -/
theorem Rel.mono {S : V → W → Prop} {t : Table V} {t' : Table W} (h : Rel R t t') (hRS : ∀ v v', R v v' → S v v') :
    Rel S t t' := List.Forall₂.imp (fun _ _ he => ⟨he.1, hRS _ _ he.2⟩) h

end Table

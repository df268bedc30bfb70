import RowLang.Row.Basic
import Mathlib.Data.Finset.Basic
import Mathlib.Data.Finset.Lattice.Lemmas
import Mathlib.Data.List.Nodup

/-!
# Proofs/Row/Lookup — rows as mappings from labels

What each operation on rows does to the value of a label and to the set of the labels (`domain`).
A row has its labels `Distinct` when none comes twice; the operations keep that.
-/

namespace RowLang.Row

variable {α β : Type}

/-- No label comes twice. -/
def Distinct (r : Row α) : Prop := r.labels.Nodup

/-- The labels of a row, as a set. -/
def domain (r : Row α) : Finset Label := r.labels.toFinset

/-- The domain of a row is the set of its labels. -/
theorem mem_domain {r : Row α} {l : Label} : l ∈ r.domain ↔ l ∈ r.labels := List.mem_toFinset

/-- A field has a label of the row. -/
theorem mem_labels_of_mem {r : Row α} {p : Label × α} (h : p ∈ r) : p.1 ∈ r.labels :=
  List.mem_map_of_mem h

@[simp] theorem labels_nil : Row.labels ([] : Row α) = [] := rfl

@[simp] theorem labels_cons (p : Label × α) (r : Row α) :
    Row.labels (p :: r) = p.1 :: Row.labels r := rfl

@[simp] theorem domain_nil : Row.domain ([] : Row α) = ∅ := rfl

@[simp] theorem domain_cons (p : Label × α) (r : Row α) :
    Row.domain (p :: r) = insert p.1 (Row.domain r) := List.toFinset_cons

/-- The first field counts for its label. -/
theorem lookup_cons_eq {κ : Type} [BEq κ] [LawfulBEq κ] [DecidableEq κ] (l k : κ) (x : α)
    (r : List (κ × α)) :
    List.lookup l ((k, x) :: r) = if l = k then some x else r.lookup l := by
  by_cases h : l = k
  · simp [h]
  · have hb : (l == k) = false := beq_false_of_ne h
    simp [List.lookup_cons, hb, h]

theorem lookup_single {κ : Type} [BEq κ] [LawfulBEq κ] [DecidableEq κ] (l k : κ) (x : α) :
    List.lookup l [(k, x)] = if l = k then some x else none := by
  rw [lookup_cons_eq, List.lookup_nil]

/-- A label has a value just if it is one of the labels. -/
theorem lookup_isSome_iff {r : Row α} {l : Label} : (r.lookup l).isSome ↔ l ∈ r.labels := by
  induction r with
  | nil => simp [labels]
  | cons p r ih =>
    obtain ⟨k, x⟩ := p
    rw [lookup_cons_eq, labels_cons, List.mem_cons]
    by_cases h : l = k <;> simp [h, ih]

/-- A label has no value just if the row does not have it. -/
theorem lookup_eq_none_iff {r : Row α} {l : Label} : r.lookup l = none ↔ l ∉ r.labels := by
  rw [← lookup_isSome_iff]
  cases r.lookup l <;> simp

/-- The value of a label stands in the row. -/
theorem mem_of_lookup {r : Row α} {l : Label} {x : α} (h : r.lookup l = some x) : (l, x) ∈ r := by
  induction r with
  | nil => simp at h
  | cons p r ih =>
    obtain ⟨k, y⟩ := p
    rw [lookup_cons_eq] at h
    split at h
    case isTrue hk =>
      rw [hk, Option.some.inj h]
      exact List.mem_cons_self
    case isFalse => exact List.mem_cons_of_mem _ (ih h)

/-- **In a row of distinct labels each entry is the value of its label.** -/
theorem Distinct.lookup_of_mem {r : Row α} (hr : r.Distinct) {l : Label} {x : α} (h : (l, x) ∈ r) :
    r.lookup l = some x := by
  induction r with
  | nil => simp at h
  | cons q r ih =>
    obtain ⟨k, y⟩ := q
    rw [Distinct, labels_cons, List.nodup_cons] at hr
    rw [lookup_cons_eq]
    rcases List.mem_cons.mp h with he | hmem
    · simp [(Prod.mk.inj he).1, (Prod.mk.inj he).2]
    · have hne : l ≠ k := fun he => hr.1 (he ▸ mem_labels_of_mem (p := (l, x)) hmem)
      rw [if_neg hne]
      exact ih hr.2 hmem

theorem has_eq (r : Row α) (l : Label) : r.has l = (r.lookup l).isSome := by
  rw [Bool.eq_iff_iff, lookup_isSome_iff, has, List.any_eq_true, labels, List.mem_map]
  simp

/-- A row has the labels that it has. -/
theorem has_iff {r : Row α} {l : Label} : r.has l = true ↔ l ∈ r.labels := by
  rw [has_eq, lookup_isSome_iff]

/-! ## Values changed -/

/-- **Changing all values changes the value of each label.** -/
theorem lookup_mapValues (f : α → β) (r : Row α) (l : Label) :
    (r.mapValues f).lookup l = (r.lookup l).map f := by
  induction r with
  | nil => rfl
  | cons p r ih =>
    obtain ⟨k, x⟩ := p
    rw [mapValues, List.map_cons, ← mapValues, lookup_cons_eq, lookup_cons_eq, ih]
    split <;> rfl

theorem mapValues_eq_self {f : α → α} {r : Row α} (h : ∀ p ∈ r, f p.2 = p.2) : r.mapValues f = r :=
  (List.map_congr_left (g := id) fun p hp => by rw [h p hp]; rfl).trans (List.map_id r)

theorem mem_mapValues {f : α → β} {r : Row α} {q : Label × β} :
    q ∈ r.mapValues f ↔ ∃ p ∈ r, q = (p.1, f p.2) := by
  simp [mapValues, eq_comm]

@[simp] theorem domain_mapValues (f : α → β) (r : Row α) :
    Row.domain (r.mapValues f) = r.domain := by rw [domain, labels_mapValues, domain]

/-- It leaves the labels as they are. -/
theorem Distinct.mapValues {r : Row α} (hr : r.Distinct) (f : α → β) :
    Distinct (r.mapValues f) := by rwa [Distinct, labels_mapValues]

/-! ## Adding values -/

/-- **Setting a label changes its value and no other one.** -/
theorem lookup_set (r : Row α) (k l : Label) (x : α) :
    (r.set k x).lookup l = if l = k then some x else r.lookup l := by
  induction r with
  | nil => rw [set, lookup_cons_eq, List.lookup_nil]
  | cons p r ih =>
    obtain ⟨j, y⟩ := p
    by_cases hj : j = k
    · subst hj
      rw [set, if_pos rfl, lookup_cons_eq, lookup_cons_eq]
      split <;> rfl
    · rw [set, if_neg hj, lookup_cons_eq, lookup_cons_eq, ih]
      by_cases hl : l = j
      · simp [hl, hj]
      · simp [hl]

/-- A label that is there keeps its place, a new one comes last. -/
theorem labels_set (r : Row α) (k : Label) (x : α) :
    (r.set k x).labels = if k ∈ r.labels then r.labels else r.labels ++ [k] := by
  induction r with
  | nil => rfl
  | cons p r ih =>
    obtain ⟨j, y⟩ := p
    by_cases hj : j = k
    · subst hj
      simp [set]
    · rw [set, if_neg hj, labels_cons, ih, labels_cons]
      by_cases hk : k ∈ Row.labels r
      · simp [hk]
      · simp [hk, Ne.symm hj]

/-- No label comes twice by being set. -/
theorem Distinct.set {r : Row α} (hr : r.Distinct) (k : Label) (x : α) :
    Distinct (r.set k x) := by
  rw [Distinct, labels_set]
  split
  case isTrue => exact hr
  case isFalse hk =>
    exact hr.append (List.nodup_singleton k)
      (List.disjoint_singleton.mpr hk)

@[simp] theorem domain_set (r : Row α) (k : Label) (x : α) :
    Row.domain (r.set k x) = insert k r.domain := by
  ext l
  rw [mem_domain, labels_set, Finset.mem_insert, mem_domain]
  split
  case isTrue hk =>
    refine ⟨Or.inr, ?_⟩
    rintro (rfl | h)
    exacts [hk, h]
  case isFalse => simp [or_comm]

/-- What is in the row then is what was set or was there before. -/
theorem mem_set {r : Row α} {k : Label} {x : α} {p : Label × α} (h : p ∈ r.set k x) :
    p = (k, x) ∨ p ∈ r := by
  induction r with
  | nil => exact Or.inl (List.mem_singleton.mp h)
  | cons q r ih =>
    obtain ⟨j, y⟩ := q
    rw [set] at h
    split at h
    case isTrue hj =>
      rcases List.mem_cons.mp h with rfl | h
      · exact Or.inl (by rw [hj])
      · exact Or.inr (List.mem_cons_of_mem _ h)
    case isFalse =>
      rcases List.mem_cons.mp h with rfl | h
      · exact Or.inr List.mem_cons_self
      · exact (ih h).imp_right (List.mem_cons_of_mem _)

/-! ## Rows of pairs -/

/-- A row with one value after the other set. -/
def setAll (r : Row α) (ps : List (Label × α)) : Row α := ps.foldl (fun r p => r.set p.1 p.2) r

theorem setAll_cons (r : Row α) (p : Label × α) (ps : List (Label × α)) :
    r.setAll (p :: ps) = (r.set p.1 p.2).setAll ps := rfl

theorem Distinct.setAll {r : Row α} (hr : r.Distinct) (ps : List (Label × α)) :
    Distinct (r.setAll ps) := by
  induction ps generalizing r with
  | nil => exact hr
  | cons p ps ih => exact ih (hr.set _ _)

/-- All labels that are set are added. -/
theorem domain_setAll (r : Row α) (ps : Row α) :
    Row.domain (r.setAll ps) = r.domain ∪ ps.domain := by
  induction ps generalizing r with
  | nil => simp [Row.setAll]
  | cons p ps ih =>
    rw [setAll_cons, ih, domain_set, domain_cons, Finset.insert_union, Finset.union_insert]

theorem mem_setAll {r : Row α} {ps : List (Label × α)} {p : Label × α} (h : p ∈ r.setAll ps) :
    p ∈ ps ∨ p ∈ r := by
  induction ps generalizing r with
  | nil => exact Or.inr h
  | cons q ps ih =>
    rcases ih h with h | h
    · exact Or.inl (List.mem_cons_of_mem _ h)
    · refine (mem_set h).imp_left fun he => ?_
      rw [he]
      exact List.mem_cons_self

/-- **What is set counts, and else what was there before.** -/
theorem lookup_setAll {ps : Row α} (hps : ps.Distinct) (r : Row α) (l : Label) :
    (r.setAll ps).lookup l = (ps.lookup l).or (r.lookup l) := by
  induction ps generalizing r with
  | nil => rfl
  | cons p ps ih =>
    obtain ⟨k, x⟩ := p
    rw [Distinct, labels_cons, List.nodup_cons] at hps
    rw [setAll_cons, ih hps.2, lookup_set, lookup_cons_eq]
    by_cases hl : l = k
    · subst hl
      rw [lookup_eq_none_iff.mpr hps.1]
      simp
    · simp [hl]

/-- The value that is set last counts. -/
theorem set_set (r : Row α) (k : Label) (x y : α) : (r.set k y).set k x = r.set k x := by
  induction r with
  | nil => simp [set]
  | cons p r ih =>
    obtain ⟨j, z⟩ := p
    by_cases hj : j = k
    · simp [set, hj]
    · simp [set, hj, ih]

/-- Setting a label that is there does not meet with setting another one. -/
theorem set_comm {r : Row α} {k j : Label} {x y : α} (hk : k ∈ r.labels) (hne : k ≠ j) :
    (r.set j y).set k x = (r.set k x).set j y := by
  induction r with
  | nil => simp at hk
  | cons p r ih =>
    obtain ⟨i, z⟩ := p
    by_cases hi : i = k
    · subst hi
      simp [set, hne]
    · have hk : k ∈ Row.labels r := (List.mem_cons.mp hk).resolve_left (Ne.symm hi)
      by_cases hij : i = j
      · simp [set, hij, Ne.symm hne]
      · simp [set, hi, hij, ih hk]

theorem mem_labels_set_self (r : Row α) (k : Label) (x : α) : k ∈ (r.set k x).labels := by
  rw [← mem_domain, domain_set]
  exact Finset.mem_insert_self ..

theorem mem_labels_set {r : Row α} {k l : Label} {x : α}
    (h : l ∈ r.labels) : l ∈ (r.set k x).labels := by
  rw [labels_set]
  split
  · exact h
  · exact List.mem_append_left _ h

/-- A label that is there can be set again at any time. -/
theorem set_setAll {r ps : Row α} {k : Label} {x : α} (hk : k ∈ r.labels) (hps : k ∉ ps.labels) :
    (r.setAll ps).set k x = (r.set k x).setAll ps := by
  induction ps generalizing r with
  | nil => rfl
  | cons p ps ih =>
    rw [labels_cons, List.mem_cons, not_or] at hps
    rw [setAll_cons, setAll_cons, ih (mem_labels_set hk) hps.2, set_comm hk hps.1]

/-- To set all values of a row and one more is to set all values of the row with it. -/
theorem setAll_set {ps : Row α} (hps : ps.Distinct) (r : Row α) (k : Label) (x : α) :
    r.setAll (ps.set k x) = (r.setAll ps).set k x := by
  induction ps generalizing r with
  | nil => rfl
  | cons p ps ih =>
    obtain ⟨j, y⟩ := p
    rw [Distinct, labels_cons, List.nodup_cons] at hps
    by_cases hj : j = k
    · subst hj
      rw [set, if_pos rfl, setAll_cons, setAll_cons, set_setAll (mem_labels_set_self r j y) hps.1,
        set_set]
    · rw [set, if_neg hj, setAll_cons, setAll_cons, ih hps.2]

/-- **Merging rows is associative**: the values of the last row win in either case. -/
theorem setAll_setAll {ps : Row α} (hps : ps.Distinct) (r qs : Row α) :
    (r.setAll ps).setAll qs = r.setAll (ps.setAll qs) := by
  induction qs generalizing ps with
  | nil => rfl
  | cons q qs ih => rw [setAll_cons, setAll_cons, ← ih (hps.set _ _), setAll_set hps]

theorem set_mapValues (f : α → β) (r : Row α) (l : Label) (x : α) :
    Row.set (mapValues f r) l (f x) = mapValues f (r.set l x) := by
  induction r with
  | nil => rfl
  | cons p r ih =>
    show (if p.1 = l then _ else _) = mapValues f (if p.1 = l then _ else _)
    split
    · rfl
    · exact congrArg ((p.1, f p.2) :: ·) ih

/-- Values may be changed before they are set or after. -/
theorem setAll_mapValues (f : α → β) (ps : Row α) :
    ∀ r : Row α, Row.setAll (mapValues f r) (mapValues f ps) = mapValues f (r.setAll ps) := by
  induction ps with
  | nil => intro r; rfl
  | cons p ps ih =>
    intro r
    rw [setAll_cons, ← ih, ← set_mapValues]
    rfl

/-- A row of pairs has no label twice, whatever the pairs. -/
theorem distinct_ofPairs (ps : List (Label × α)) : Distinct (ofPairs ps) :=
  Distinct.setAll (r := []) List.nodup_nil ps

theorem mem_ofPairs {ps : List (Label × α)} {p : Label × α} (h : p ∈ ofPairs ps) : p ∈ ps :=
  (mem_setAll h).resolve_right (List.not_mem_nil)

/-! ## Merging and comparing -/

/-- The union in which the second row wins sets all its values. -/
theorem union_eq_setAll (r other : Row α) : r.union (fun _ x => x) other = r.setAll other := by
  unfold union setAll
  congr 1
  funext acc p
  split <;> rfl

/-- **A row without the labels of another one** has the values of the others. -/
theorem lookup_difference (r other : Row α) (l : Label) :
    (r.difference id other).lookup l = if l ∈ other.labels then none else r.lookup l := by
  induction r with
  | nil => simp [difference, mapValues]
  | cons p r ih =>
    obtain ⟨k, x⟩ := p
    have hcons : difference id ((k, x) :: r) other
        = if k ∈ other.labels then difference id r other
          else (k, x) :: difference id r other := by
      by_cases hk : k ∈ other.labels
      · simp [difference, hk, has_iff.mpr hk]
      · have : other.has k = false := by rwa [Bool.eq_false_iff, Ne, has_iff]
        simp [difference, hk, this, mapValues]
    rw [hcons, lookup_cons_eq]
    by_cases hk : k ∈ other.labels
    · rw [if_pos hk, ih]
      by_cases hl : l = k
      · rw [hl, if_pos hk, if_pos hk]
      · rw [if_neg hl]
    · rw [if_neg hk, lookup_cons_eq, ih]
      by_cases hl : l = k
      · simp [hl, hk]
      · simp [hl]

theorem mem_difference {r other : Row α} {p : Label × α} :
    p ∈ r.difference id other ↔ p ∈ r ∧ p.1 ∉ other.labels := by
  simp [difference, mapValues, ← has_iff]

/-- The labels that are left are those which the other row lacks. -/
theorem mem_labels_difference {r other : Row α} {l : Label} :
    l ∈ (r.difference id other).labels ↔ l ∈ r.labels ∧ l ∉ other.labels := by
  rw [← lookup_isSome_iff, lookup_difference, ← lookup_isSome_iff (r := r)]
  by_cases h : l ∈ other.labels <;> simp [h]

@[simp] theorem domain_difference (r other : Row α) :
    Row.domain (r.difference id other) = r.domain \ other.domain := by
  ext l
  simp [mem_domain, mem_labels_difference]

theorem Distinct.difference {r : Row α} (hr : r.Distinct) (other : Row α) :
    Distinct (r.difference id other) := by
  refine List.Nodup.sublist ?_ hr
  simp only [Row.difference, labels_mapValues]
  exact List.filter_sublist.map _

/-- Nothing is left just if the other row has all labels. -/
theorem difference_eq_nil_iff {r other : Row α} :
    r.difference id other = [] ↔ r.domain ⊆ other.domain := by
  simp [Row.difference, mapValues, has_iff, Finset.subset_iff, mem_domain, labels]

end RowLang.Row

import RowLang.Proofs.Row.Lookup
import RowLang.Proofs.Text.Word
import RowLang.Row.Order

/-!
# Proofs/Row/Sorted — rows in the order of their labels

Sorting permutes a row and looks only at labels, so it keeps every value; and the labels of a row of
positions, once sorted, are the positions in their order (`labels_sorted_of_isPositional`).
-/

namespace RowLang

/-! ## Ranks -/

namespace Label

/-- Labels can always be compared. -/
theorem Rank.le_total : ∀ a b : Rank, a.le b = true ∨ b.le a = true
  | .position m, .position n => by simpa [Rank.le] using Nat.le_total m n
  | .position _, .name _ => Or.inl rfl
  | .name _, .position _ => Or.inr rfl
  | .name a, .name b => by
    simp only [Rank.le, Bool.not_eq_true', decide_eq_false_iff_not]
    exact (String.le_total a b).imp String.not_lt.mpr String.not_lt.mpr

theorem Rank.le_trans : ∀ {a b c : Rank}, a.le b = true → b.le c = true → a.le c = true
  | .position m, .position n, .position o, h, h' => by
    simp only [Rank.le, decide_eq_true_iff] at h h' ⊢
    exact Nat.le_trans h h'
  | .position _, .position _, .name _, _, _ => rfl
  | .position _, .name _, .name _, _, _ => rfl
  | .name a, .name b, .name c, h, h' => by
    simp only [Rank.le, Bool.not_eq_true', decide_eq_false_iff_not, String.not_lt] at h h' ⊢
    exact String.le_trans h h'

end Label

namespace Row

variable {α β : Type}

/-! ## Sorting -/

theorem insertSorted_mapValues (f : α → β) (p : Label × α) (r : Row α) :
    insertSorted (p.1, f p.2) (r.mapValues f) = mapValues f (insertSorted p r) := by
  induction r with
  | nil => rfl
  | cons q r ih =>
    have hcons : ∀ (q : Label × α) r, mapValues f (q :: r) = (q.1, f q.2) :: mapValues f r :=
      fun _ _ => rfl
    rw [hcons, insertSorted, insertSorted, ih]
    split <;> rfl

/-- **Sorting looks at labels only.** -/
theorem sorted_mapValues (f : α → β) (r : Row α) :
    sorted (r.mapValues f) = mapValues f (sorted r) := by
  induction r with
  | nil => rfl
  | cons p r ih =>
    rw [sorted, ← insertSorted_mapValues, ← ih]
    rfl

/-- Insertion permutes. -/
theorem insertSorted_perm (p : Label × α) (r : Row α) : (insertSorted p r).Perm (p :: r) := by
  induction r with
  | nil => exact .refl _
  | cons q r ih =>
    rw [insertSorted]
    split
    · exact .refl _
    · exact (ih.cons q).trans (.swap p q r)

/-- **Sorting loses nothing and adds nothing.** -/
theorem sorted_perm (r : Row α) : (sorted r).Perm r := by
  induction r with
  | nil => exact .refl _
  | cons p r ih => exact (insertSorted_perm p _).trans (ih.cons p)

theorem labels_sorted_perm (r : Row α) : (Row.labels (sorted r)).Perm r.labels :=
  (sorted_perm r).map _

theorem mem_sorted {r : Row α} {p : Label × α} : p ∈ sorted r ↔ p ∈ r := (sorted_perm r).mem_iff

theorem sorted_eq_nil {r : Row α} : sorted r = [] ↔ r = [] := by
  rw [← List.length_eq_zero_iff, (sorted_perm r).length_eq, List.length_eq_zero_iff]

/-- Sorting leaves no label twice that came once. -/
theorem Distinct.sorted {r : Row α} (h : r.Distinct) : Distinct (sorted r) :=
  (labels_sorted_perm r).nodup_iff.mpr h

/-- Two rows with the same entries have the same values, if no label comes twice. -/
theorem Distinct.lookup_perm {r r' : Row α} (h : r.Distinct) (hp : r.Perm r') (l : Label) :
    r.lookup l = r'.lookup l := by
  have h' : r'.Distinct := (hp.map Prod.fst).nodup_iff.mp h
  cases hl : r.lookup l with
  | some x => exact (h'.lookup_of_mem (hp.mem_iff.mp (mem_of_lookup hl))).symm
  | none =>
    rw [lookup_eq_none_iff] at hl
    refine (lookup_eq_none_iff.mpr fun hmem => hl ?_).symm
    exact (hp.map Prod.fst).mem_iff.mpr hmem

/-- **Sorting keeps the value of each label.** -/
theorem lookup_sorted {r : Row α} (h : r.Distinct) (l : Label) :
    (sorted r).lookup l = r.lookup l := h.sorted.lookup_perm (sorted_perm r) l

/-- A row whose ranks never go down. -/
def Ascending (r : Row α) : Prop :=
  r.Pairwise fun p q => (Label.rank p.1).le (Label.rank q.1) = true

/-- Insertion keeps the order. -/
theorem Ascending.insertSorted {r : Row α} (h : r.Ascending) (p : Label × α) :
    Ascending (insertSorted p r) := by
  induction r with
  | nil => exact List.pairwise_singleton _ _
  | cons q r ih =>
    obtain ⟨hq, hr⟩ := List.pairwise_cons.mp h
    rw [Row.insertSorted]
    split
    case isTrue hle =>
      refine List.pairwise_cons.mpr ⟨fun x hx => ?_, h⟩
      rcases List.mem_cons.mp hx with rfl | hx
      · exact hle
      · exact Label.Rank.le_trans hle (hq x hx)
    case isFalse hle =>
      refine List.pairwise_cons.mpr ⟨fun x hx => ?_, ih hr⟩
      rcases List.mem_cons.mp ((insertSorted_perm p r).mem_iff.mp hx) with rfl | hx
      · exact (Label.Rank.le_total _ _).resolve_left hle
      · exact hq x hx

/-- **A sorted row is in order.** -/
theorem ascending_sorted (r : Row α) : Ascending (sorted r) := by
  induction r with
  | nil => exact List.Pairwise.nil
  | cons p r ih => exact ih.insertSorted p

theorem insertSorted_eq_cons {p : Label × α} {r : Row α} (h : Ascending (p :: r)) :
    Row.insertSorted p r = p :: r := by
  cases r with
  | nil => rfl
  | cons q r => rw [Row.insertSorted, if_pos ((List.pairwise_cons.mp h).1 q List.mem_cons_self)]

/-- A row in order is not changed by sorting. -/
theorem sorted_of_ascending {r : Row α} (h : r.Ascending) : Row.sorted r = r := by
  induction r with
  | nil => rfl
  | cons p r ih => rw [Row.sorted, ih (List.pairwise_cons.mp h).2, insertSorted_eq_cons h]

/-- Sorting once is enough. -/
theorem sorted_sorted (r : Row α) : Row.sorted (Row.sorted r) = Row.sorted r :=
  sorted_of_ascending (ascending_sorted r)

/-! ## Positions -/

/-- No two positions have one label. -/
theorem position_injective : Function.Injective position := fun m n h => by
  have h' := congrArg (fun s : String => Decimal.natOfAscii s.toList) h
  simpa [position, Decimal.natText] using h'

theorem rank_position (n : Nat) : Label.rank (position n) = .position n := by
  have hdigit := Decimal.isDigit_natChars (n := n)
  have hall : (Decimal.natChars n).all Text.isDecimal = true :=
    List.all_eq_true.mpr fun c hc => Text.isDecimal_of_isAsciiDigit (hdigit c hc)
  have hne : (Decimal.natChars n).isEmpty = false := by
    simp [Decimal.natChars, Nat.toDigits_ne_nil]
  simp only [Label.rank, position, Decimal.natText, String.toList_ofList, hall, hne,
    Decimal.natOfDigits_eq_natOfAscii hdigit, Decimal.natOfAscii_natChars]
  rfl

/-- The ranks of positions go up with them. -/
theorem pairwise_positions (n : Nat) : ((List.range n).map position).Pairwise
    fun k l => (Label.rank k).le (Label.rank l) = true := by
  refine List.pairwise_map.mpr (List.pairwise_lt_range.imp fun {m n} hmn => ?_)
  rw [rank_position, rank_position, Label.Rank.le, decide_eq_true_iff]
  exact Nat.le_of_lt hmn

/-- The labels of a tuple are its positions, in some order. -/
theorem isPositional_iff {r : Row α} :
    r.isPositional = true ↔ r.labels.Perm ((List.range r.length).map position) := by
  have hnodup : ((List.range r.length).map position).Nodup :=
    List.nodup_range.map position_injective
  constructor
  · intro h
    rw [isPositional, Bool.and_eq_true, List.all_eq_true, List.all_eq_true] at h
    have hsub : (List.range r.length).map position ⊆ r.labels := fun l hl =>
      List.contains_iff_mem.mp (h.2 l hl)
    exact ((List.subperm_of_subset hnodup hsub).perm_of_length_le (by simp [labels])).symm
  · intro h
    rw [isPositional, Bool.and_eq_true, List.all_eq_true, List.all_eq_true]
    exact ⟨fun l hl => List.contains_iff_mem.mpr (h.mem_iff.mp hl),
      fun l hl => List.contains_iff_mem.mpr (h.mem_iff.mpr hl)⟩

/-- **The labels of a row of positions, once sorted, are the positions in their order.** -/
theorem labels_sorted_of_isPositional {r : Row α} (h : r.isPositional = true) :
    Row.labels (sorted r) = (List.range r.length).map position := by
  have hperm := (labels_sorted_perm r).trans (isPositional_iff.mp h)
  have hsorted : (Row.labels (sorted r)).Pairwise
      fun k l => (Label.rank k).le (Label.rank l) = true :=
    List.pairwise_map.mpr (ascending_sorted r)
  refine hperm.eq_of_pairwise (fun a b ha hb hab hba => ?_) hsorted (pairwise_positions _)
  obtain ⟨m, _, rfl⟩ := List.mem_map.mp (hperm.mem_iff.mp ha)
  obtain ⟨n, _, rfl⟩ := List.mem_map.mp hb
  rw [rank_position, rank_position, Label.Rank.le, decide_eq_true_iff] at hab hba
  rw [Nat.le_antisymm hab hba]

theorem positionalFrom_values (r : Row α) :
    ∀ i, r.labels = (List.range' i r.length).map position →
      positionalFrom i (r.map (·.2)) = r := by
  induction r with
  | nil => intro i _; rfl
  | cons p r ih =>
    intro i h
    rw [labels_cons, List.length_cons, List.range'_succ, List.map_cons, List.cons.injEq] at h
    rw [List.map_cons, positionalFrom, ih (i + 1) h.2, ← h.1]

/-- **A row of positions is the row of the tuple of its values.** -/
theorem positional_sortedValues {r : Row α} (h : r.isPositional = true) :
    positional (Row.sortedValues r) = sorted r := by
  refine positionalFrom_values (sorted r) 0 ?_
  rw [labels_sorted_of_isPositional h, (sorted_perm r).length_eq, List.range_eq_range']

theorem values_positionalFrom (xs : List α) (i : Nat) : (positionalFrom i xs).map (·.2) = xs := by
  induction xs generalizing i with
  | nil => rfl
  | cons x xs ih => rw [positionalFrom, List.map_cons, ih]

/-- Positions are counted from the first one on. -/
theorem labels_positionalFrom (xs : List α) :
    ∀ i, Row.labels (positionalFrom i xs) = (List.range' i xs.length).map position := by
  induction xs with
  | nil => intro i; rfl
  | cons x xs ih =>
    intro i
    rw [positionalFrom, labels_cons, ih (i + 1), List.length_cons, List.range'_succ, List.map_cons]

/-- **The labels of a tuple are its positions.** -/
theorem labels_positional (xs : List α) :
    Row.labels (positional xs) = (List.range xs.length).map position := by
  rw [positional, labels_positionalFrom, List.range_eq_range']

theorem mem_of_mem_positionalFrom {xs : List α} {p : Label × α} :
    ∀ {i}, p ∈ positionalFrom i xs → p.2 ∈ xs := by
  induction xs with
  | nil => intro i h; exact absurd h List.not_mem_nil
  | cons x xs ih =>
    intro i h
    rcases List.mem_cons.mp h with rfl | h
    · exact List.mem_cons_self
    · exact List.mem_cons_of_mem _ (ih h)

theorem mem_of_mem_positional {xs : List α} {p : Label × α} (h : p ∈ positional xs) : p.2 ∈ xs :=
  mem_of_mem_positionalFrom h

theorem positionalFrom_map (f : α → β) (xs : List α) :
    ∀ i, positionalFrom i (xs.map f) = mapValues f (positionalFrom i xs) := by
  induction xs with
  | nil => intro i; rfl
  | cons x xs ih => intro i; rw [List.map_cons, positionalFrom, ih (i + 1)]; rfl

/-- Changing the items changes the values. -/
theorem positional_map (f : α → β) (xs : List α) :
    positional (xs.map f) = mapValues f (positional xs) := positionalFrom_map f xs 0

end Row

end RowLang

/-!
## Rows that go together, field by field

Two rows match when they have the same labels in the same order, with values in a relation.  What a
walk finds for the fields of a row matches the row.
-/

namespace RowLang.Row

variable {α β : Type} {R : α → β → Prop}

/-- Rows with the same labels, whose values are in a relation. -/
def Matched (R : α → β → Prop) (r : Row α) (r' : Row β) : Prop :=
  List.Forall₂ (fun p q => q.1 = p.1 ∧ R p.2 q.2) r r'

theorem matched_nil : Matched R [] [] := List.Forall₂.nil

theorem matched_cons {r : Row α} {r' : Row β} {l : Label} {x : α} {y : β} (h : R x y)
    (hr : Matched R r r') : Matched R ((l, x) :: r) ((l, y) :: r') :=
  List.Forall₂.cons ⟨rfl, h⟩ hr

/-- Rows that go together have the same labels. -/
theorem Matched.labels_eq {r : Row α} {r' : Row β} (h : Matched R r r') : labels r' = labels r := by
  induction h with
  | nil => rfl
  | cons h _ ih => rw [labels_cons, labels_cons, h.1, ih]

/-- **Values of one label are in the relation**, if no label comes twice. -/
theorem Matched.of_lookup {r : Row α} {r' : Row β} (h : Matched R r r') (hr : Distinct r)
    {p : Label × α} {y : β} (hp : p ∈ r) (hy : r'.lookup p.1 = some y) : R p.2 y := by
  induction h with
  | nil => simp at hp
  | @cons q q' r r' hq h ih =>
    rw [Distinct, labels_cons, List.nodup_cons] at hr
    rw [lookup_cons_eq] at hy
    rcases List.mem_cons.mp hp with rfl | hp
    · rw [if_pos hq.1.symm] at hy
      exact Option.some.inj hy ▸ hq.2
    · rw [if_neg] at hy
      · exact ih hr.2 hp hy
      · rw [hq.1]
        exact fun he => hr.1 (he ▸ List.mem_map_of_mem hp)

theorem matched_positionalFrom {xs : List α} {ys : List β} (h : List.Forall₂ R xs ys) :
    ∀ i, Matched R (positionalFrom i xs) (positionalFrom i ys) := by
  induction h with
  | nil => exact fun _ => matched_nil
  | cons h _ ih => exact fun i => matched_cons h (ih (i + 1))

/-- Tuples of related items match. -/
theorem matched_positional {xs : List α} {ys : List β} (h : List.Forall₂ R xs ys) :
    Matched R (positional xs) (positional ys) := matched_positionalFrom h 0

end RowLang.Row

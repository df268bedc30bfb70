import RowLang.Proofs.Ty.Good
import RowLang.Proofs.Ty.Inside

/-!
# Proofs/Ty/Comparable — closed types, and all that occurs in them

A type without free variables whose rows all end in their markers (`Ended`) is good in a census in
which nothing is the rest of a row (`closing`).  All that occurs in such a type is good again and
ends (`Occurs.good`), and unfolding takes off one of the binders in front (`stacked_unfold`).
-/

namespace RowLang.Ty

/-! ## Rows that end -/

mutual

/-- Every row ends in its marker, no marker stands elsewhere, nothing is polymorphic, and every
recursive type has structure in front of its variable. -/
def Ended : Ty → Prop
  | unit => False
  | empty => False
  | arrow a b => Ended a ∧ Ended b
  | list t => Ended t
  | row k fields tail => FieldsEnded fields ∧ tail = k.end
  | bind .mu n body => Ended body ∧ n ∉ body.heads
  | bind .forAll _ _ => False
  | _ => True

/-- The rows in the fields end. -/
def FieldsEnded : List (Label × Ty) → Prop
  | [] => True
  | (_, t) :: fields => Ended t ∧ FieldsEnded fields

end

mutual

/-- The labels in a type. -/
def labels : Ty → Finset Label
  | arrow a b => labels a ∪ labels b
  | list t => labels t
  | row _ fields _ => Row.domain fields ∪ labelsOfFields fields
  | bind _ _ body => labels body
  | _ => ∅

/-- The labels in the types of the fields. -/
def labelsOfFields : List (Label × Ty) → Finset Label
  | [] => ∅
  | (_, t) :: fields => labels t ∪ labelsOfFields fields

end

theorem fieldsEnded_iff {fields : Row Ty} : FieldsEnded fields ↔ ∀ p ∈ fields, p.2.Ended := by
  induction fields with
  | nil => simp [FieldsEnded]
  | cons p fields ih => simp [FieldsEnded, ih]

theorem ended_row {k : RowKind} {fields : Row Ty} {tail : Ty} :
    (row k fields tail).Ended ↔ (∀ p ∈ fields, p.2.Ended) ∧ tail = k.end := by
  rw [Ended, fieldsEnded_iff]

theorem labels_subset_labelsOfFields {fields : Row Ty} {p : Label × Ty} (h : p ∈ fields) :
    p.2.labels ⊆ labelsOfFields fields := by
  induction fields with
  | nil => simp at h
  | cons q fields ih =>
    rw [labelsOfFields]
    rcases List.mem_cons.mp h with rfl | h
    · exact Finset.subset_union_left
    · exact (ih h).trans Finset.subset_union_right

theorem Ended.ne_end {t : Ty} (h : t.Ended) (k : RowKind) : t ≠ k.end := by
  rintro rfl
  cases k <;> exact h

/-- What ends is flat. -/
theorem Ended.flatten_eq {t : Ty} (h : t.Ended) : t.flatten = t := by
  induction t using Ty.inductOn with
  | number | char | unit | empty | var => rw [Ty.flatten]
  | arrow a b iha ihb => rw [Ty.flatten, iha h.1, ihb h.2]
  | list t ih => rw [Ty.flatten, ih h]
  | bind b n body ih =>
    cases b with
    | forAll => exact h.elim
    | mu => rw [Ty.flatten, ih h.1]
  | row k fields tail ihf _ =>
    obtain ⟨hf, rfl⟩ := ended_row.mp h
    rw [Ty.flatten, flattenFields_eq_map, Row.mapValues_eq_self fun p hp => ihf p hp (hf p hp)]
    cases k <;> rfl

/-- Closed types that end may be put in anywhere. -/
theorem Ended.substitute {t : Ty} (h : t.Ended) :
    ∀ {σ : Subst}, (∀ v u, σ.lookup v = some u → u.Ended ∧ u.free = []) →
      (t.substitute σ).Ended := by
  induction t using Ty.inductOn with
  | number | char => intro σ _; rw [Ty.substitute]; trivial
  | unit | empty => exact h.elim
  | var n =>
    intro σ hσ
    rw [Ty.substitute]
    cases hn : List.lookup n σ with
    | none => trivial
    | some u => exact (hσ n u hn).1
  | arrow a b iha ihb => intro σ hσ; rw [Ty.substitute]; exact ⟨iha h.1 hσ, ihb h.2 hσ⟩
  | list t ih => intro σ hσ; rw [Ty.substitute]; exact ih h hσ
  | bind b n body ih =>
    intro σ hσ
    cases b with
    | forAll => exact h.elim
    | mu =>
      have hσ' : ∀ v u, (σ.filter (·.1 ≠ n)).lookup v = some u → u.Ended ∧ u.free = [] := by
        intro v u hu
        rw [lookup_filter_ne] at hu
        split at hu
        · simp at hu
        · exact hσ v u hu
      rw [Ty.substitute]
      refine ⟨ih h.1 hσ', fun hn => ?_⟩
      rcases mem_heads_substitute hn with ⟨hn, -⟩ | ⟨v, u, -, hu, hn⟩
      · exact h.2 hn
      · have := mem_free_of_mem_heads hn
        rw [(hσ' v u hu).2] at this
        simp at this
  | row k fields tail ihf _ =>
    intro σ hσ
    obtain ⟨hf, rfl⟩ := ended_row.mp h
    rw [Ty.substitute, substituteFields_eq_map]
    refine ended_row.mpr ⟨fun q hq => ?_, by cases k <;> rfl⟩
    obtain ⟨p, hp, rfl⟩ := Row.mem_mapValues.mp hq
    exact ihf p hp (hf p hp) hσ

/-! ## A census without rests -/

/-- Every variable stands with a binder and for something whole. -/
def closing (labels : Finset Label) : Census where
  labels := labels
  role _ := .whole
  free _ := False
  bound _ := True
  disjoint _ h := h.elim
  numbered := False
  whole _ _ := rfl

/-- What ends has its place where nothing is the rest of a row. -/
theorem Ended.fits {t : Ty} {L : Finset Label} (h : t.Ended) (htidy : t.Tidy) (hL : t.labels ⊆ L) :
    Fits (closing L) .whole t := by
  induction t using Ty.inductOn with
  | number | char => rfl
  | unit | empty => exact h.elim
  | var n => exact ⟨rfl, Or.inr trivial⟩
  | arrow a b iha ihb =>
    rw [labels] at hL
    exact ⟨rfl, iha h.1 htidy.1 (Finset.union_subset_left hL),
      ihb h.2 htidy.2 (Finset.union_subset_right hL)⟩
  | list t ih => exact ⟨rfl, ih h htidy hL⟩
  | bind b n body ih =>
    cases b with
    | forAll => exact h.elim
    | mu => exact ⟨rfl, trivial, ih h.1 htidy hL, h.2, fun _ _ hv => hv.elim, h.1.ne_end⟩
  | row k fields tail ihf _ =>
    obtain ⟨hf, rfl⟩ := ended_row.mp h
    obtain ⟨hfields, hft, -⟩ := tidy_row.mp htidy
    rw [labels] at hL
    exact fits_row.mpr ⟨trivial, hfields, Finset.union_subset_left hL,
      fun p hp => ihf p hp (hf p hp) (hft p hp)
      ((labels_subset_labelsOfFields hp).trans (Finset.union_subset_right hL)), fits_end _ k _⟩

/-- Closed types that end are good. -/
theorem Ended.good {t : Ty} {L : Finset Label} (h : t.Ended) (htidy : t.Tidy) (hL : t.labels ⊆ L)
    (hclosed : t.free = []) : t.Good (closing L) .whole :=
  ⟨h.fits htidy hL, by rw [hclosed]; simp⟩

theorem Good.free_eq_nil {t : Ty} {L : Finset Label} {r : Role} (h : t.Good (closing L) r) :
    t.free = [] := List.eq_nil_iff_forall_not_mem.mpr h.closed

/-! ## All that occurs in a type -/

/-- The binders directly on each other in front of a type. -/
def stacked : Ty → Nat
  | bind _ _ body => stacked body + 1
  | _ => 0

theorem Part.good {t u : Ty} {L : Finset Label} (h : Part t u) (ht : t.Good (closing L) .whole) :
    u.Good (closing L) .whole := by
  cases h with
  | arg a b => exact (good_arrow.mp ht).2.1
  | res a b => exact (good_arrow.mp ht).2.2
  | elt t => exact (good_list.mp ht).2
  | field hp => exact (good_row.mp ht).2.2.2.1 _ hp
  | unfolded n body => exact ht.unfold

theorem Part.ended {t u : Ty} (h : Part t u) (ht : t.Ended) (hclosed : t.free = []) : u.Ended := by
  cases h with
  | arg a b => exact ht.1
  | res a b => exact ht.2
  | elt t => exact ht
  | field hp => exact (ended_row.mp ht).1 _ hp
  | unfolded n body =>
    refine ht.1.substitute fun v u hu => ?_
    rw [Row.lookup_single] at hu
    split at hu
    · exact Option.some.inj hu ▸ ⟨ht, hclosed⟩
    · simp at hu

/-- What occurs in a closed type that ends is a closed type that ends. -/
theorem Occurs.good {t u : Ty} {L : Finset Label} (h : Occurs t u) (ht : t.Good (closing L) .whole)
    (hend : t.Ended) : u.Good (closing L) .whole ∧ u.Ended := by
  induction h with
  | refl => exact ⟨ht, hend⟩
  | tail _ hpart ih => exact ⟨hpart.good ih.1, hpart.ended ih.2 ih.1.free_eq_nil⟩

theorem stacked_substitute {t : Ty} (h : t.Ended) :
    ∀ {σ : Subst}, (∀ v ∈ t.heads, σ.lookup v = none) → (t.substitute σ).stacked = t.stacked := by
  induction t using Ty.inductOn with
  | number | char | unit | empty | arrow | list | row =>
    intro σ _; simp only [Ty.substitute, stacked]
  | var n => intro σ hσ; rw [Ty.substitute, hσ n (by simp), Option.getD_none]
  | bind b n body ih =>
    intro σ hσ
    cases b with
    | forAll => exact h.elim
    | mu =>
      rw [Ty.substitute, stacked, stacked, ih h.1 fun v hv => ?_]
      rw [lookup_filter_ne]
      split
      · rfl
      · exact hσ v (mem_heads_mu.mpr ⟨hv, ‹_›⟩)

/-- **Unfolding takes one binder off**, since the variable of a binder stands behind structure. -/
theorem stacked_unfold {n : Nat} {body : Ty} (h : (bind .mu n body).Ended) :
    (unfold n body).stacked + 1 = (bind .mu n body).stacked := by
  rw [unfold, stacked_substitute h.1 fun v hv => ?_, stacked]
  rw [Row.lookup_single, if_neg]
  exact fun he => h.2 (he ▸ hv)

/-- Binders never stand on each other too often if they do not in a set that is closed under parts.
-/
theorem stacked_lt_of_closed {t : Ty} {P : Ty → Prop} {n : Nat} (ht : P t)
    (hpart : ∀ u v, P u → Part u v → P v) (hlt : ∀ u, P u → u.stacked < n) {u : Ty}
    (h : Occurs t u) : u.stacked < n := by
  refine hlt u ?_
  induction h with
  | refl => exact ht
  | tail _ hp ih => exact hpart _ _ ih hp

/-- The most binders that may ever stand directly on each other. -/
def maxStacked : Nat := 50

/-- **A type whose equality with others can be decided**: closed, of words and markers where they
belong, with rows that end when they are flat, without polymorphism, with structure in front of each
recursion, and never with too many binders on each other. -/
structure Comparable (t : Ty) : Prop where
  closed : t.free = []
  tidy : t.Tidy
  anchored : t.Anchored
  ended : t.flatten.Ended
  ranked : t.unranked? = none
  stacking : ∀ u, Occurs t.flatten u → u.stacked < maxStacked

end RowLang.Ty

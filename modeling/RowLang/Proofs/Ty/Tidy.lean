import RowLang.Proofs.Ty.EachRow
import RowLang.Text.Class

/-!
# Proofs/Ty/Tidy — rows that are mappings, with labels that can be read

The grammar makes labels of letters or of digits, and no row of it has a label twice.  Types whose
rows are like this are `Tidy`; substitution and flattening keep them so.
-/

namespace RowLang

/-- A label that is a word of letters and digits. -/
def Label.Plain (l : Label) : Prop :=
  l.toList ≠ [] ∧ ∀ c ∈ l.toList, Text.isLetter c = true ∨ Text.isAsciiDigit c = true

instance (l : Label) : Decidable (Label.Plain l) :=
  decidable_of_iff
    ((!l.toList.isEmpty && l.toList.all fun c => Text.isLetter c || Text.isAsciiDigit c) = true)
    (by simp [Label.Plain])

namespace Row

variable {α β : Type}

/-- No label comes twice, and each can be read. -/
structure Tidy (r : Row α) : Prop where
  distinct : r.Distinct
  plain : ∀ l ∈ r.labels, Label.Plain l

theorem Tidy.of_labels_eq {r : Row α} {r' : Row β} (h : r.Tidy) (he : r'.labels = r.labels) :
    r'.Tidy :=
  ⟨by rw [Distinct, he]; exact h.distinct, he ▸ h.plain⟩

theorem Tidy.mapValues {r : Row α} (h : r.Tidy) (f : α → β) : Row.Tidy (r.mapValues f) :=
  h.of_labels_eq (labels_mapValues f r)

theorem tidy_mapValues_iff {r : Row α} {f : α → β} : Row.Tidy (r.mapValues f) ↔ r.Tidy :=
  ⟨fun h => h.of_labels_eq (labels_mapValues f r).symm, fun h => h.mapValues f⟩

theorem tidy_nil : Row.Tidy ([] : Row α) := ⟨List.nodup_nil, by simp⟩

theorem tidy_single {l : Label} (h : Label.Plain l) (x : α) : Row.Tidy [(l, x)] :=
  ⟨List.nodup_singleton _, by simpa using h⟩

theorem Tidy.setAll {r ps : Row α} (h : r.Tidy) (h' : ps.Tidy) : Row.Tidy (r.setAll ps) := by
  refine ⟨h.distinct.setAll ps, fun l hl => ?_⟩
  rw [← mem_domain, domain_setAll, Finset.mem_union, mem_domain, mem_domain] at hl
  exact hl.elim (h.plain l) (h'.plain l)

theorem Tidy.difference {r : Row α} (h : r.Tidy) (other : Row α) :
    Row.Tidy (r.difference id other) :=
  ⟨h.distinct.difference other, fun l hl => h.plain l (mem_labels_difference.mp hl).1⟩

end Row

namespace Ty

mutual

/-- The rows of a type are tidy. -/
def Tidy : Ty → Prop
  | arrow a b => Tidy a ∧ Tidy b
  | list t => Tidy t
  | row _ fields tail => Row.Tidy fields ∧ TidyFields fields ∧ Tidy tail
  | bind _ _ body => Tidy body
  | _ => True

/-- The rows of the fields are tidy. -/
def TidyFields : List (Label × Ty) → Prop
  | [] => True
  | (_, t) :: fields => Tidy t ∧ TidyFields fields

end

theorem tidyFields_iff {fields : Row Ty} : TidyFields fields ↔ ∀ p ∈ fields, p.2.Tidy := by
  induction fields with
  | nil => simp [TidyFields]
  | cons p fields ih => simp [TidyFields, ih]

theorem tidy_row {k : RowKind} {fields : Row Ty} {tail : Ty} :
    (row k fields tail).Tidy ↔ Row.Tidy fields ∧ (∀ p ∈ fields, p.2.Tidy) ∧ tail.Tidy := by
  rw [Tidy, tidyFields_iff]

theorem tidy_end (k : RowKind) : k.end.Tidy := by cases k <;> trivial

/-- Tidiness is a property of the labels of each row. -/
theorem tidy_iff_eachRow {t : Ty} :
    t.Tidy ↔ t.EachRow fun _ labels _ => labels.Nodup ∧ ∀ l ∈ labels, Label.Plain l := by
  induction t using Ty.inductOn with
  | number | char | unit | empty | var => simp [Tidy, EachRow]
  | arrow a b iha ihb => rw [Tidy, EachRow, iha, ihb]
  | list t ih => rw [Tidy, EachRow, ih]
  | bind b n body ih => rw [Tidy, EachRow, ih]
  | row k fields tail ihf iht =>
    rw [tidy_row, eachRow_row, iht]
    exact and_congr ⟨fun h => ⟨h.distinct, h.plain⟩, fun h => ⟨h.1, h.2⟩⟩
      (and_congr_left' (forall₂_congr ihf))

theorem Tidy.distinct {t : Ty} (h : t.Tidy) : t.Distinct :=
  (tidy_iff_eachRow.mp h).mono fun _ _ _ hrow => hrow.1

/-- Flattening keeps rows tidy. -/
theorem Tidy.flatten {t : Ty} (h : t.Tidy) : t.flatten.Tidy := by
  refine tidy_iff_eachRow.mpr (eachRow_flatten (fun r ps hr hps => ?_) (tidy_iff_eachRow.mp h))
  have hr : Row.Tidy r := ⟨hr.1, hr.2⟩
  have hps : Row.Tidy ps := ⟨hps.1, hps.2⟩
  have htidy := hr.setAll hps
  exact ⟨htidy.distinct, htidy.plain⟩

/-- Substitution of tidy types keeps rows tidy. -/
theorem Tidy.substitute {t : Ty} (h : t.Tidy) :
    ∀ {σ : Subst}, (∀ v u, σ.lookup v = some u → u.Tidy) → (t.substitute σ).Tidy := fun hσ =>
  tidy_iff_eachRow.mpr (eachRow_substitute (tidy_iff_eachRow.mp h)
    fun v u hu => tidy_iff_eachRow.mp (hσ v u hu))

end Ty

end RowLang

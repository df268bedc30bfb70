import RowLang.Proofs.Ty.Variables

/-!
# Proofs/Ty/EachRow — what holds of every row in a type

A property of rows holds of a type when each row in it has the property (`EachRow`).  Two of them
only look at the labels: no label comes twice (`Distinct`), and there is one at all (`Full`).  Such
a property survives substitution, and flattening too if it holds of two rows merged.
-/

namespace RowLang.Ty

mutual

/-- Each row in a type has a property of its kind, its labels and its tail. -/
def EachRow (P : RowKind → List Label → Ty → Prop) : Ty → Prop
  | arrow a b => EachRow P a ∧ EachRow P b
  | list t => EachRow P t
  | row k fields tail => P k (Row.labels fields) tail ∧ EachRowOfFields P fields ∧ EachRow P tail
  | bind _ _ body => EachRow P body
  | _ => True

/-- Each row in some field has it. -/
def EachRowOfFields (P : RowKind → List Label → Ty → Prop) : List (Label × Ty) → Prop
  | [] => True
  | (_, t) :: fields => EachRow P t ∧ EachRowOfFields P fields

end

mutual

/-- Whether each row has a property that can be decided. -/
def decideEachRow (P : RowKind → List Label → Ty → Prop)
    [∀ k labels tail, Decidable (P k labels tail)] :
    (t : Ty) → Decidable (t.EachRow P)
  | number | char | unit | empty | var _ => isTrue trivial
  | arrow a b => @instDecidableAnd _ _ (decideEachRow P a) (decideEachRow P b)
  | list t => decideEachRow P t
  | row k fields tail => @instDecidableAnd (P k (Row.labels fields) tail) _ _
      (@instDecidableAnd _ _ (decideEachRowOfFields P fields) (decideEachRow P tail))
  | bind _ _ body => decideEachRow P body

/-- Whether each row in some field has it. -/
def decideEachRowOfFields (P : RowKind → List Label → Ty → Prop)
    [∀ k labels tail, Decidable (P k labels tail)] :
    (fields : List (Label × Ty)) → Decidable (EachRowOfFields P fields)
  | [] => isTrue trivial
  | (_, t) :: fields => @instDecidableAnd _ _ (decideEachRow P t) (decideEachRowOfFields P fields)

end

instance (P : RowKind → List Label → Ty → Prop) [∀ k labels tail, Decidable (P k labels tail)] :
    DecidablePred (EachRow P) := decideEachRow P

/-- No row has a label twice. -/
def Distinct : Ty → Prop := EachRow fun _ labels _ => labels.Nodup

/-- Each row has a field. -/
def Full : Ty → Prop := EachRow fun _ labels _ => labels ≠ []

instance : DecidablePred Distinct :=
  inferInstanceAs (DecidablePred (EachRow fun _ labels _ => labels.Nodup))

instance : DecidablePred Full :=
  inferInstanceAs (DecidablePred (EachRow fun _ labels _ => labels ≠ []))

variable {P : RowKind → List Label → Ty → Prop} {Q : List Label → Prop} {k : RowKind}
  {fields : Row Ty} {tail : Ty}

theorem eachRowOfFields_iff : EachRowOfFields P fields ↔ ∀ p ∈ fields, p.2.EachRow P := by
  induction fields with
  | nil => simp [EachRowOfFields]
  | cons p fields ih => simp [EachRowOfFields, ih]

theorem eachRow_row : (row k fields tail).EachRow P ↔
    P k fields.labels tail ∧ (∀ p ∈ fields, p.2.EachRow P) ∧ tail.EachRow P := by
  rw [EachRow, eachRowOfFields_iff]

theorem EachRow.mono {P' : RowKind → List Label → Ty → Prop} {t : Ty} (h : t.EachRow P)
    (hPP' : ∀ k labels tail, P k labels tail → P' k labels tail) : t.EachRow P' := by
  induction t using inductOn with
  | number | char | unit | empty | var => trivial
  | arrow a b iha ihb => exact ⟨iha h.1, ihb h.2⟩
  | list t ih => exact ih h
  | bind b n body ih => exact ih h
  | row k fields tail ihf iht =>
    obtain ⟨hrow, hf, ht⟩ := eachRow_row.mp h
    exact eachRow_row.mpr ⟨hPP' _ _ _ hrow, fun p hp => ihf p hp (hf p hp), iht ht⟩

theorem distinct_row : (row k fields tail).Distinct ↔
    Row.Distinct fields ∧ (∀ p ∈ fields, p.2.Distinct) ∧ tail.Distinct := eachRow_row

theorem full_row : (row k fields tail).Full ↔
    fields ≠ [] ∧ (∀ p ∈ fields, p.2.Full) ∧ tail.Full := by
  rw [Full, eachRow_row, Row.labels, Ne, List.map_eq_nil_iff]

/-- **Substitution keeps what the labels of rows have in common.** -/
theorem eachRow_substitute {t : Ty} (h : t.EachRow fun _ labels _ => Q labels) :
    ∀ {σ : Subst}, (∀ v u, σ.lookup v = some u → u.EachRow fun _ labels _ => Q labels) →
      (t.substitute σ).EachRow fun _ labels _ => Q labels := by
  induction t using Ty.inductOn with
  | number | char | unit | empty => intro σ _; simp [substitute, EachRow]
  | var n =>
    intro σ hσ
    rw [substitute]
    cases hn : List.lookup n σ with
    | none => trivial
    | some u => exact hσ n u hn
  | arrow a b iha ihb => intro σ hσ; rw [substitute]; exact ⟨iha h.1 hσ, ihb h.2 hσ⟩
  | list t ih => intro σ hσ; rw [substitute]; exact ih h hσ
  | bind b n body ih =>
    intro σ hσ
    rw [substitute]
    refine ih h fun v u hu => ?_
    rw [lookup_filter_ne] at hu
    split at hu
    case isTrue => cases hu
    case isFalse => exact hσ v u hu
  | row k fields tail ihf iht =>
    intro σ hσ
    obtain ⟨hlabels, hf, ht⟩ := eachRow_row.mp h
    rw [substitute, substituteFields_eq_map]
    refine eachRow_row.mpr ⟨by rwa [Row.labels_mapValues], fun q hq => ?_, iht ht hσ⟩
    obtain ⟨p, hp, rfl⟩ := Row.mem_mapValues.mp hq
    exact ihf p hp (hf p hp) hσ

section

variable (hmerge : ∀ r ps : Row Ty, Q r.labels → Q ps.labels → Q (r.setAll ps).labels)
include hmerge

theorem eachRow_prependRow (hlabels : Q fields.labels)
    (hf : ∀ p ∈ fields, p.2.EachRow fun _ labels _ => Q labels)
    (ht : tail.EachRow fun _ labels _ => Q labels) :
    (prependRow k fields tail).EachRow fun _ labels _ => Q labels := by
  have hrow := (eachRow_row (P := fun _ labels _ => Q labels) (k := k)).mpr ⟨hlabels, hf, ht⟩
  cases tail with
  | row k' inner rest =>
    rw [prependRow]
    split
    case isFalse => exact hrow
    case isTrue =>
      obtain ⟨hlabels', hinner, hrest⟩ := eachRow_row.mp ht
      rw [Row.union_eq_setAll]
      exact eachRow_row.mpr ⟨hmerge _ _ hlabels hlabels',
        fun p hp => (Row.mem_setAll hp).elim (hinner p) (hf p), hrest⟩
  | _ => exact hrow

theorem eachRow_flatten {t : Ty} (h : t.EachRow fun _ labels _ => Q labels) :
    t.flatten.EachRow fun _ labels _ => Q labels := by
  induction t using Ty.inductOn with
  | number | char | unit | empty | var => rwa [flatten]
  | arrow a b iha ihb => rw [flatten]; exact ⟨iha h.1, ihb h.2⟩
  | list t ih => rw [flatten]; exact ih h
  | bind b n body ih => rw [flatten]; exact ih h
  | row k fields tail ihf iht =>
    obtain ⟨hlabels, hf, ht⟩ := eachRow_row.mp h
    rw [flatten, flattenFields_eq_map]
    refine eachRow_prependRow hmerge (by rwa [Row.labels_mapValues]) (fun q hq => ?_) (iht ht)
    obtain ⟨p, hp, rfl⟩ := Row.mem_mapValues.mp hq
    exact ihf p hp (hf p hp)

end

theorem Distinct.substitute {t : Ty} (h : t.Distinct) {σ : Subst}
    (hσ : ∀ v u, σ.lookup v = some u → u.Distinct) : (t.substitute σ).Distinct :=
  eachRow_substitute h hσ

theorem Distinct.flatten {t : Ty} (h : t.Distinct) : t.flatten.Distinct :=
  eachRow_flatten (fun _ ps hr _ => Row.Distinct.setAll hr ps) h

theorem Full.substitute {t : Ty} (h : t.Full) {σ : Subst}
    (hσ : ∀ v u, σ.lookup v = some u → u.Full) : (t.substitute σ).Full := eachRow_substitute h hσ

theorem Full.flatten {t : Ty} (h : t.Full) : t.flatten.Full := by
  refine eachRow_flatten (fun r ps hr _ hnil => hr ?_) h
  have hsub : Row.domain r ⊆ Row.domain (r.setAll ps) :=
    Row.domain_setAll r ps ▸ Finset.subset_union_left
  rw [Row.domain, Row.domain, hnil, List.toFinset_nil, Finset.subset_empty,
    List.toFinset_eq_empty_iff]
    at hsub
  exact hsub

end RowLang.Ty

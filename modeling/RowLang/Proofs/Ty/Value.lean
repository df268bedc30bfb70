import RowLang.Proofs.Ty.Means
import Mathlib.Data.Finset.Card

/-!
# Proofs/Ty/Value — the one figure of a type without binders

A type without binders has one canonical figure when its variables have figures (`value`).  Equal
types have the same one (`value_eq_of_same`), flattening does not change it (`value_flatten`), and a
substitution says what figures the variables have (`value_substitute`).  A type can stand for its
figure if no row in it gets a label again from behind (`Apart.means_value`).
-/

namespace RowLang

open Figure

namespace Ty

mutual

/-- The figure of a type whose variables have figures.  Binders are of no interest here. -/
noncomputable def value (ρ : Nat → Figure) : Ty → Figure
  | number => .number
  | char => .char
  | unit => .unit
  | empty => .empty
  | var n => ρ n
  | arrow a b => .arrow (value ρ a) (value ρ b)
  | list t => .list (value ρ t)
  | row k fields tail => front k (valueOfField ρ fields) (value ρ tail)
  | bind _ _ _ => .unit

/-- The figure of the field of a label. -/
noncomputable def valueOfField (ρ : Nat → Figure) : List (Label × Ty) → Label → Option Figure
  | [], _ => none
  | (l, t) :: fields, x => if x = l then some (value ρ t) else valueOfField ρ fields x

end

variable {ρ : Nat → Figure} {k : RowKind} {fields : Row Ty} {tail : Ty}

theorem valueOfField_eq (ρ : Nat → Figure) (fields : Row Ty) (l : Label) :
    valueOfField ρ fields l = (fields.lookup l).map (value ρ) := by
  induction fields with
  | nil => rfl
  | cons p fields ih =>
    obtain ⟨l', t⟩ := p
    rw [valueOfField, Row.lookup_cons_eq, ih]
    split <;> rfl

theorem canonical_var (n : Nat) : (Figure.var n).Canonical := canonical_of_root (by simp)

theorem canonical_value (hρ : ∀ n, (ρ n).Canonical) (t : Ty) : (t.value ρ).Canonical := by
  induction t using Ty.inductOn with
  | var n => exact hρ n
  | row k fields tail _ iht => rw [value]; exact canonical_front iht
  | _ => exact canonical_of_root (by simp [value])

/-! ## Equal types -/

theorem exists_of_sameFields {others : Row Ty} : ∀ {fields : Row Ty},
    sameFields fields others = true → ∀ p ∈ fields, ∃ t, others.lookup p.1 = some t ∧
      p.2.same t = true
  | [], _, p, hp => absurd hp List.not_mem_nil
  | (l, s) :: fields, h, p, hp => by
    rw [sameFields, Bool.and_eq_true] at h
    rcases List.mem_cons.mp hp with rfl | hp
    · cases hl : List.lookup l others with
      | none => simp [hl] at h
      | some t => exact ⟨t, rfl, by simpa [hl] using h.1⟩
    · exact exists_of_sameFields h.2 p hp

/-- Rows of as many labels, all of which are in the other, have the same labels. -/
theorem domain_eq_of_subset {fields others : Row Ty} (hf : Row.Distinct fields)
    (ho : Row.Distinct others) (hlength : fields.length = others.length)
    (hsub : Row.domain fields ⊆ Row.domain others) : Row.domain fields = Row.domain others := by
  refine Finset.eq_of_subset_of_card_le hsub (le_of_eq ?_)
  rw [Row.domain, Row.domain, List.toFinset_card_of_nodup hf, List.toFinset_card_of_nodup ho,
    Row.labels, Row.labels, List.length_map, List.length_map, hlength]

/-- **Equal types have the same figure.** -/
theorem value_eq_of_same {s : Ty} : ∀ {t : Ty} {ρ : Nat → Figure}, s.same t = true → s.Distinct →
    t.Distinct → s.value ρ = t.value ρ := by
  induction s using Ty.inductOn with
  | number | char | unit | empty => intro t ρ h _ _; cases t <;> first | rfl | cases h
  | var n =>
    intro t ρ h _ _
    cases t with
    | var m => rw [of_decide_eq_true h]
    | _ => cases h
  | arrow a b iha ihb =>
    intro t ρ h hs ht
    cases t with
    | arrow c d =>
      rw [same, Bool.and_eq_true] at h
      rw [value, value, iha h.1 hs.1 ht.1, ihb h.2 hs.2 ht.2]
    | _ => cases h
  | list s ih =>
    intro t ρ h hs ht
    cases t with
    | list t => rw [value, value, ih h hs ht]
    | _ => cases h
  | bind b n body _ =>
    intro t ρ h _ _
    cases t with
    | bind => rfl
    | _ => cases h
  | row k fields tail ihf iht =>
    intro t ρ h hs ht
    cases t with
    | row k' others tail' =>
      rw [same, Bool.and_eq_true, Bool.and_eq_true, Bool.and_eq_true, decide_eq_true_eq,
        decide_eq_true_eq] at h
      obtain ⟨⟨⟨rfl, hlength⟩, hfields⟩, htail⟩ := h
      obtain ⟨hd, hf, hs⟩ := distinct_row.mp hs
      obtain ⟨hd', ho, ht⟩ := distinct_row.mp ht
      have hfields := exists_of_sameFields hfields
      have hdomain := domain_eq_of_subset hd hd' hlength fun l hl => by
        obtain ⟨p, hp, rfl⟩ := List.mem_map.mp (Row.mem_domain.mp hl)
        obtain ⟨t, ht, -⟩ := hfields p hp
        exact Row.mem_domain.mpr (Row.lookup_isSome_iff.mp (by rw [ht, Option.isSome_some]))
      rw [value, value, iht htail hs ht]
      congr 1
      funext l
      rw [valueOfField_eq, valueOfField_eq]
      cases hl : List.lookup l fields with
      | some s =>
        have hmem := Row.mem_of_lookup hl
        obtain ⟨t, ht, hsame⟩ := hfields _ hmem
        rw [ht]
        exact congrArg some (ihf _ hmem hsame (hf _ hmem) (ho _ (Row.mem_of_lookup ht)))
      | none =>
        have hl := Row.lookup_eq_none_iff.mp hl
        rw [← Row.mem_domain, hdomain, Row.mem_domain] at hl
        rw [Row.lookup_eq_none_iff.mpr hl]
    | _ => cases h

/-! ## Flattening and substitution -/

theorem value_prependRow (hρ : ∀ n, (ρ n).Canonical) (ht : tail.Distinct) :
    (prependRow k fields tail).value ρ = (row k fields tail).value ρ := by
  cases tail with
  | row k' inner rest =>
    rw [prependRow]
    split
    case isFalse => rfl
    case isTrue hk =>
      subst hk
      rw [Row.union_eq_setAll, value, value, value, front_front k _ _ (canonical_value hρ rest)]
      congr 1
      funext l
      rw [valueOfField_eq, valueOfField_eq, valueOfField_eq,
        Row.lookup_setAll (distinct_row.mp ht).1]
      cases List.lookup l inner <;> rfl
  | _ => rfl

/-- **Flattening changes no figure.** -/
theorem value_flatten {t : Ty} (h : t.Distinct) :
    ∀ {ρ : Nat → Figure}, (∀ n, (ρ n).Canonical) → t.flatten.value ρ = t.value ρ := by
  induction t using Ty.inductOn with
  | number | char | unit | empty | var | bind => intro ρ _; rfl
  | arrow a b iha ihb => intro ρ hρ; rw [Ty.flatten, value, value, iha h.1 hρ, ihb h.2 hρ]
  | list t ih => intro ρ hρ; rw [Ty.flatten, value, value, ih h hρ]
  | row k fields tail ihf iht =>
    intro ρ hρ
    obtain ⟨-, hf, ht⟩ := distinct_row.mp h
    rw [Ty.flatten, value_prependRow hρ ht.flatten, value, value, iht ht hρ]
    congr 1
    funext l
    rw [valueOfField_eq, valueOfField_eq, flattenFields_eq_map, Row.lookup_mapValues]
    cases hl : List.lookup l fields with
    | none => rfl
    | some t =>
      have hmem := Row.mem_of_lookup hl
      exact congrArg some (ihf _ hmem (hf _ hmem) hρ)

/-- The figures of variables that are replaced first. -/
noncomputable def valueAfter (σ : Subst) (n : Nat) : Figure :=
  ((var n).substitute σ).value Figure.var

theorem canonical_valueAfter (σ : Subst) (n : Nat) : (valueAfter σ n).Canonical :=
  canonical_value canonical_var _

/-- **A substitution says what figures the variables have.** -/
theorem value_substitute {t : Ty} {σ : Subst} (h : t.binders = []) :
    (t.substitute σ).value Figure.var = t.value (valueAfter σ) := by
  induction t using Ty.inductOn with
  | number | char | unit | empty | var => rfl
  | arrow a b iha ihb =>
    obtain ⟨ha, hb⟩ := List.append_eq_nil_iff.mp h
    rw [substitute, value, value, iha ha, ihb hb]
  | list t ih => rw [substitute, value, value, ih h]
  | bind => cases h
  | row k fields tail ihf iht =>
    obtain ⟨ht, hf⟩ := List.append_eq_nil_iff.mp h
    rw [substitute, value, value, iht ht]
    congr 1
    funext l
    rw [valueOfField_eq, valueOfField_eq, substituteFields_eq_map, Row.lookup_mapValues]
    cases hl : List.lookup l fields with
    | none => rfl
    | some t =>
      have hmem := Row.mem_of_lookup hl
      refine congrArg some (ihf _ hmem (List.eq_nil_iff_forall_not_mem.mpr fun v hv => ?_))
      exact List.not_mem_nil (hf ▸ mem_bindersOfFields.mpr ⟨_, hmem, hv⟩)

/-! ## Labels from behind -/

/-- The labels that a type has when it stands behind a row of a kind.  A row of the other kind
without fields is looked through. -/
def labelsBehind (k : RowKind) : Ty → List Label
  | row k' fields tail =>
    if k' = k then Row.labels fields ++ labelsBehind k tail
    else if fields.isEmpty then labelsBehind k tail
    else []
  | _ => []

theorem isSome_valueOfField_iff {l : Label} :
    (valueOfField ρ fields l).isSome ↔ l ∈ fields.labels := by
  rw [valueOfField_eq, Option.isSome_map, Row.lookup_isSome_iff]

/-- What is not behind a type is no field of its figure. -/
theorem fieldsOf_value {t : Ty} {l : Label} (h : l ∉ t.labelsBehind k) :
    fieldsOf k (t.value Figure.var) l = none := by
  induction t using Ty.inductOn with
  | row k' fields tail _ iht =>
    rw [labelsBehind] at h
    rw [value]
    split at h
    case isTrue hk =>
      subst hk
      rw [List.mem_append, not_or] at h
      rw [fieldsOf_front, iht h.2, Option.none_or, ← Option.not_isSome_iff_eq_none,
        isSome_valueOfField_iff]
      exact h.1
    case isFalse hk =>
      cases fields with
      | nil =>
        rw [front_of_none (f := valueOfField Figure.var []) fun _ => rfl]
        exact iht h
      | cons p fields =>
        obtain ⟨f, r, hrow⟩ := exists_front_eq_row (k := k') (s := tail.value Figure.var)
          (f := valueOfField Figure.var (p :: fields)) (l := p.1)
          (isSome_valueOfField_iff.mpr List.mem_cons_self)
        rw [hrow, fieldsOf_row, if_neg hk]
  | _ => rfl

/-- **No row in a flat type gets a label again from what is put in behind it.** -/
def Apart (σ : Subst) : Ty → Prop :=
  EachRow fun k labels tail => ∀ l ∈ labels, l ∉ (tail.substitute σ).labelsBehind k

instance (σ : Subst) : DecidablePred (Apart σ) :=
  inferInstanceAs (DecidablePred (EachRow fun k labels tail =>
    ∀ l ∈ labels, l ∉ (tail.substitute σ).labelsBehind k))

/-- **A type without binders can stand for its figure.** -/
theorem Apart.means_value {t : Ty} {σ : Subst} (h : t.Apart σ) (hd : t.Distinct)
    (hbinders : t.binders = []) : t.Means (valueAfter σ) (t.value (valueAfter σ)) := by
  induction t using Ty.inductOn with
  | number | char | unit | empty | var => rfl
  | arrow a b iha ihb =>
    obtain ⟨ha, hb⟩ := List.append_eq_nil_iff.mp hbinders
    exact ⟨_, _, rfl, iha h.1 hd.1 ha, ihb h.2 hd.2 hb⟩
  | list t ih => exact ⟨_, rfl, ih h hd hbinders⟩
  | bind => cases hbinders
  | row k fields tail ihf iht =>
    obtain ⟨hlabels, hf, ht⟩ := eachRow_row.mp h
    obtain ⟨hdistinct, hdf, hdt⟩ := distinct_row.mp hd
    obtain ⟨hbt, hbf⟩ := List.append_eq_nil_iff.mp hbinders
    refine means_row.mpr ⟨_, _, rfl, ⟨fun p hp => ?_, fun l hl => ?_⟩, iht ht hdt hbt,
      fun l hl => ?_⟩
    · refine ⟨p.2.value (valueAfter σ), ?_, ihf p hp (hf p hp) (hdf p hp)
        (List.eq_nil_iff_forall_not_mem.mpr fun v hv => ?_)⟩
      · rw [valueOfField_eq, hdistinct.lookup_of_mem hp]
        rfl
      · exact List.not_mem_nil (hbf ▸ mem_bindersOfFields.mpr ⟨_, hp, hv⟩)
    · rwa [← Option.not_isSome_iff_eq_none, isSome_valueOfField_iff]
    · rw [← value_substitute hbt]
      exact fieldsOf_value (hlabels l (isSome_valueOfField_iff.mp hl))

end Ty

end RowLang

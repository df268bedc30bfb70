import Mathlib.Logic.Function.Basic
import RowLang.Proofs.Ty.Reading

/-!
# Proofs/Ty/Rename — variables under other numbers

`rename` gives every variable of a type, free or bound, another number.  Where no two variables in
sight get one number, all that is done with types commutes with it: flattening, substitution and the
looking for free variables.  So does the comparison of texts: the text of a renamed type is the text
under other names (`chars_rename`), and what two types of one text show, they show under all names
(`render_shown`).
-/

namespace RowLang

namespace Row

variable {α : Type}

theorem isPositional_perm {β : Type} {r : Row α} {r' : Row β} (h : (Row.labels r).Perm r'.labels) :
    r.isPositional = r'.isPositional := by
  have hlen : r.length = r'.length := by simpa [labels] using h.length_eq
  rw [Bool.eq_iff_iff, isPositional_iff, isPositional_iff, hlen]
  exact ⟨h.symm.trans, h.trans⟩

theorem difference_mapValues {β : Type} (f : α → β) (r other : Row α) :
    difference id (mapValues f r) (mapValues f other) = mapValues f (difference id r other) := by
  have hhas : ∀ l, has (mapValues f other) l = has other l := fun l => by
    rw [has, has, mapValues, List.any_map]
    rfl
  simp only [difference, mapValues, List.filter_map, List.map_map, Function.comp_def, id]
  exact congrArg _ (List.filter_congr fun p _ => by rw [← mapValues, hhas])

end Row

namespace Ty

/-! ## Texts under other names -/

theorem isEnd_shown_tail (k : RowKind) (tail : Ty) :
    isEnd k (if isEnd k tail then k.end else tail.shown) = isEnd k tail := by
  cases k <;> cases tail <;> rfl

/-- **What a type shows has the same text**, whatever the names of the variables are. -/
theorem render_shown (name : Nat → List Char) (t : Ty) :
    ∀ nested, t.shown.render name nested = t.render name nested := by
  induction t using Ty.inductOn with
  | number | char | unit | empty | var => intro nested; rfl
  | arrow a b iha ihb =>
    intro nested
    show (arrow a.shown b.shown).render name nested = _
    rw [render, render, iha, ihb]
  | list t ih =>
    intro nested
    show (list t.shown).render name nested = _
    rw [render, render, ih]
  | bind b n body ih =>
    intro nested
    show (bind b n body.shown).render name nested = _
    rw [render, render, ih]
  | row k fields tail ihf iht =>
    intro nested
    have hfields : renderFields name (Row.mapValues shown (Row.sorted fields))
        = Row.sorted (renderFields name fields) := by
      rw [renderFields_eq_map, renderFields_eq_map, Row.sorted_mapValues, Row.mapValues,
        Row.mapValues, List.map_map]
      exact List.map_congr_left fun p hp => by
        rw [Function.comp_apply, ihf p (Row.mem_sorted.mp hp)]
    have hpositional : Row.isPositional (Row.mapValues shown (Row.sorted fields))
        = Row.isPositional fields :=
      Row.isPositional_perm (by rw [Row.labels_mapValues]; exact Row.labels_sorted_perm fields)
    rw [shown_row, render, render, hfields, hpositional, isEnd_shown_tail, Row.length_mapValues,
      (Row.sorted_perm fields).length_eq, Row.sortedValues, Row.sortedValues, Row.sorted_sorted]
    cases hend : isEnd k tail with
    | true => rfl
    | false => simp only [iht, Bool.false_eq_true, if_false]

mutual

/-- The type with its variables under other numbers. -/
@[grind] def rename (ρ : Nat → Nat) : Ty → Ty
  | number => number
  | char => char
  | unit => unit
  | empty => empty
  | var n => var (ρ n)
  | arrow a b => arrow (rename ρ a) (rename ρ b)
  | list t => list (rename ρ t)
  | row k fields tail => row k (renameFields ρ fields) (rename ρ tail)
  | bind b n body => bind b (ρ n) (rename ρ body)

/-- The fields with their variables under other numbers. -/
def renameFields (ρ : Nat → Nat) : List (Label × Ty) → List (Label × Ty)
  | [] => []
  | (l, t) :: fields => (l, rename ρ t) :: renameFields ρ fields

end

variable {ρ : Nat → Nat}

theorem renameFields_eq_map (ρ : Nat → Nat) (fields : Row Ty) :
    renameFields ρ fields = Row.mapValues (rename ρ) fields := by
  induction fields with
  | nil => rfl
  | cons p fields ih => simp [renameFields, ih, Row.mapValues]

theorem rename_row (k : RowKind) (fields : Row Ty) (tail : Ty) : (row k fields tail).rename ρ
    = row k (Row.mapValues (rename ρ) fields) (tail.rename ρ) := by
  rw [rename, renameFields_eq_map]

@[simp] theorem isEnd_rename (k : RowKind) (t : Ty) : isEnd k (t.rename ρ) = isEnd k t := by
  cases k <;> cases t <;> rfl

/-- **The text of a renamed type** is the text with the names of the other numbers. -/
theorem render_rename (name : Nat → List Char) (t : Ty) :
    ∀ nested, (t.rename ρ).render name nested = t.render (name ∘ ρ) nested := by
  induction t using Ty.inductOn with
  | number | char | unit | empty | var => intro nested; rfl
  | arrow a b iha ihb => intro nested; rw [rename, render, render, iha, ihb]
  | list t ih => intro nested; rw [rename, render, render, ih]
  | bind b n body ih => intro nested; rw [rename, render, render, ih]; rfl
  | row k fields tail ihf iht =>
    intro nested
    have hfields : renderFields name (Row.mapValues (rename ρ) fields)
        = renderFields (name ∘ ρ) fields := by
      rw [renderFields_eq_map, renderFields_eq_map, Row.mapValues, Row.mapValues, List.map_map]
      exact List.map_congr_left fun p hp => by rw [Function.comp_apply, ihf p hp]
    have hpositional : Row.isPositional (Row.mapValues (rename ρ) fields)
        = Row.isPositional fields := Row.isPositional_perm (by rw [Row.labels_mapValues])
    rw [rename_row, render, render, hfields, hpositional, isEnd_rename, Row.length_mapValues, iht]

theorem text_rename (t : Ty) : (t.rename ρ).text = String.ofList (t.render (ownName ∘ ρ) false) :=
  congrArg String.ofList (render_rename ownName t false)

/-- **Types of one text have one text after a renaming.** -/
theorem text_rename_eq {s t : Ty} (hs : s.Tidy) (ht : t.Tidy) (h : s.text = t.text) :
    (s.rename ρ).text = (t.rename ρ).text := by
  rw [text_rename, text_rename, ← render_shown, ← render_shown _ t, shown_eq_of_text_eq hs ht h]

/-! ## Types over some numbers -/

mutual

/-- The number of every variable of a type, free or bound, has a property. -/
def Over (P : Nat → Prop) : Ty → Prop
  | var n => P n
  | arrow a b => Over P a ∧ Over P b
  | list t => Over P t
  | row _ fields tail => OverFields P fields ∧ Over P tail
  | bind _ n body => P n ∧ Over P body
  | _ => True

/-- The number of every variable of the fields has it. -/
def OverFields (P : Nat → Prop) : List (Label × Ty) → Prop
  | [] => True
  | (_, t) :: fields => Over P t ∧ OverFields P fields

end

variable {P Q : Nat → Prop}

theorem overFields_iff {fields : Row Ty} : OverFields P fields ↔ ∀ p ∈ fields, p.2.Over P := by
  induction fields with
  | nil => simp [OverFields]
  | cons p fields ih => simp [OverFields, ih]

theorem over_row {k : RowKind} {fields : Row Ty} {tail : Ty} :
    (row k fields tail).Over P ↔ (∀ p ∈ fields, p.2.Over P) ∧ tail.Over P := by
  rw [Over, overFields_iff]

theorem Over.mono {t : Ty} (h : t.Over P) (hPQ : ∀ n, P n → Q n) : t.Over Q := by
  induction t using Ty.inductOn with
  | number | char | unit | empty => trivial
  | var n => exact hPQ n h
  | arrow a b iha ihb => exact ⟨iha h.1, ihb h.2⟩
  | list t ih => exact ih h
  | row k fields tail ihf iht =>
    obtain ⟨hf, ht⟩ := over_row.mp h
    exact over_row.mpr ⟨fun p hp => ihf p hp (hf p hp), iht ht⟩
  | bind b n body ih => exact ⟨hPQ n h.1, ih h.2⟩

theorem Over.of_mem_free {t : Ty} (h : t.Over P) {v : Nat} (hv : v ∈ t.free) : P v := by
  induction t using Ty.inductOn with
  | number | char | unit | empty => simp [free] at hv
  | var n => rw [free_var, List.mem_singleton] at hv; exact hv ▸ h
  | arrow a b iha ihb => exact (mem_free_arrow.mp hv).elim (iha h.1) (ihb h.2)
  | list t ih => exact ih h (by simpa using hv)
  | row k fields tail ihf iht =>
    obtain ⟨hf, ht⟩ := over_row.mp h
    rcases mem_free_row.mp hv with hv | ⟨p, hp, hv⟩
    exacts [iht ht hv, ihf p hp (hf p hp) hv]
  | bind b n body ih => exact ih h.2 (mem_free_bind.mp hv).1

theorem Over.of_mem_binders {t : Ty} (h : t.Over P) {q : Nat} (hq : q ∈ t.binders) : P q := by
  induction t using Ty.inductOn with
  | number | char | unit | empty | var => simp [binders] at hq
  | arrow a b iha ihb => exact (mem_binders_arrow.mp hq).elim (iha h.1) (ihb h.2)
  | list t ih => exact ih h hq
  | row k fields tail ihf iht =>
    obtain ⟨hf, ht⟩ := over_row.mp h
    rcases mem_binders_row.mp hq with hq | ⟨p, hp, hq⟩
    exacts [iht ht hq, ihf p hp (hf p hp) hq]
  | bind b n body ih => exact (mem_binders_bind.mp hq).elim (fun he => he ▸ h.1) (ih h.2)

theorem Over.prependRow {k : RowKind} {fields : Row Ty} {tail : Ty}
    (h : (row k fields tail).Over P) : (prependRow k fields tail).Over P := by
  cases tail with
  | row k' inner rest =>
    rw [Ty.prependRow]
    split
    case isFalse => exact h
    case isTrue =>
      obtain ⟨hf, ht⟩ := over_row.mp h
      obtain ⟨hi, hr⟩ := over_row.mp ht
      rw [Row.union_eq_setAll]
      exact over_row.mpr ⟨fun p hp => (Row.mem_setAll hp).elim (hi p) (hf p), hr⟩
  | _ => exact h

theorem Over.flatten {t : Ty} (h : t.Over P) : t.flatten.Over P := by
  induction t using Ty.inductOn with
  | number | char | unit | empty | var => exact h
  | arrow a b iha ihb => exact ⟨iha h.1, ihb h.2⟩
  | list t ih => exact ih h
  | bind b n body ih => exact ⟨h.1, ih h.2⟩
  | row k fields tail ihf iht =>
    obtain ⟨hf, ht⟩ := over_row.mp h
    rw [Ty.flatten, flattenFields_eq_map]
    refine Over.prependRow (over_row.mpr ⟨fun q hq => ?_, iht ht⟩)
    obtain ⟨p, hp, rfl⟩ := Row.mem_mapValues.mp hq
    exact ihf p hp (hf p hp)

theorem Over.substitute {t : Ty} (h : t.Over P) :
    ∀ {σ : Subst}, (∀ v u, σ.lookup v = some u → u.Over P) → (t.substitute σ).Over P := by
  induction t using Ty.inductOn with
  | number | char | unit | empty => intro σ _; trivial
  | var n =>
    intro σ hσ
    rw [Ty.substitute]
    cases hn : List.lookup n σ with
    | none => exact h
    | some u => exact hσ n u hn
  | arrow a b iha ihb => intro σ hσ; exact ⟨iha h.1 hσ, ihb h.2 hσ⟩
  | list t ih => intro σ hσ; exact ih h hσ
  | row k fields tail ihf iht =>
    intro σ hσ
    obtain ⟨hf, ht⟩ := over_row.mp h
    rw [Ty.substitute, substituteFields_eq_map]
    refine over_row.mpr ⟨fun q hq => ?_, iht ht hσ⟩
    obtain ⟨p, hp, rfl⟩ := Row.mem_mapValues.mp hq
    exact ihf p hp (hf p hp) hσ
  | bind b n body ih =>
    intro σ hσ
    refine ⟨h.1, ih h.2 fun v u hu => ?_⟩
    rw [lookup_filter_ne] at hu
    split at hu
    · cases hu
    · exact hσ v u hu

/-! ## Renaming -/

theorem rename_congr {ρ' : Nat → Nat} {t : Ty} (h : t.Over fun n => ρ n = ρ' n) :
    t.rename ρ = t.rename ρ' := by
  induction t using Ty.inductOn with
  | number | char | unit | empty => rfl
  | var n => exact congrArg var h
  | arrow a b iha ihb => rw [rename, rename, iha h.1, ihb h.2]
  | list t ih => rw [rename, rename, ih h]
  | bind b n body ih => rw [rename, rename, h.1, ih h.2]
  | row k fields tail ihf iht =>
    obtain ⟨hf, ht⟩ := over_row.mp h
    rw [rename_row, rename_row, iht ht]
    exact congrArg (row k · _) (List.map_congr_left fun p hp => by rw [ihf p hp (hf p hp)])

theorem rename_rename {ρ' : Nat → Nat} (t : Ty) : (t.rename ρ).rename ρ' = t.rename (ρ' ∘ ρ) := by
  induction t using Ty.inductOn with
  | number | char | unit | empty | var => rfl
  | arrow a b iha ihb => simp only [rename, iha, ihb]
  | list t ih => simp only [rename, ih]
  | bind b n body ih => simp only [rename, ih, Function.comp_apply]
  | row k fields tail ihf iht =>
    rw [rename_row, rename_row, rename_row, iht, Row.mapValues, Row.mapValues, List.map_map]
    exact congrArg (row k · _) (List.map_congr_left fun p hp => by
      rw [Function.comp_apply, ihf p hp])

theorem rename_id (t : Ty) : t.rename id = t := by
  induction t using Ty.inductOn with
  | number | char | unit | empty | var => rfl
  | arrow a b iha ihb => rw [rename, iha, ihb]
  | list t ih => rw [rename, ih]
  | bind b n body ih => rw [rename, ih]; rfl
  | row k fields tail ihf iht =>
    rw [rename_row, iht, Row.mapValues_eq_self ihf]

theorem rename_eq_self {t : Ty} (h : t.Over fun n => ρ n = n) : t.rename ρ = t := by
  have hid : t.rename ρ = t.rename id := rename_congr h
  rw [hid, rename_id]

theorem Tidy.rename {t : Ty} (h : t.Tidy) : (t.rename ρ).Tidy := by
  induction t using Ty.inductOn with
  | number | char | unit | empty | var => trivial
  | arrow a b iha ihb => exact ⟨iha h.1, ihb h.2⟩
  | list t ih => exact ih h
  | bind b n body ih => exact ih h
  | row k fields tail ihf iht =>
    obtain ⟨hd, hf, ht⟩ := tidy_row.mp h
    rw [rename_row]
    refine tidy_row.mpr ⟨hd.mapValues _, fun q hq => ?_, iht ht⟩
    obtain ⟨p, hp, rfl⟩ := Row.mem_mapValues.mp hq
    exact ihf p hp (hf p hp)

theorem rename_prependRow (k : RowKind) (fields : Row Ty) (tail : Ty) :
    prependRow k (Row.mapValues (Ty.rename ρ) fields) (tail.rename ρ)
      = (prependRow k fields tail).rename ρ := by
  cases tail with
  | row k' inner rest =>
    rw [rename_row, prependRow, prependRow]
    split
    · rw [Row.union_eq_setAll, Row.union_eq_setAll, Row.setAll_mapValues, rename_row]
    · rw [rename_row, rename_row]
  | _ => exact (rename_row ..).symm

/-- **Flattening commutes with a renaming.** -/
theorem flatten_rename (t : Ty) : (t.rename ρ).flatten = t.flatten.rename ρ := by
  induction t using Ty.inductOn with
  | number | char | unit | empty | var => rfl
  | arrow a b iha ihb => simp only [Ty.rename, flatten, iha, ihb]
  | list t ih => simp only [Ty.rename, flatten, ih]
  | bind b n body ih => simp only [Ty.rename, flatten, ih]
  | row k fields tail ihf iht =>
    rw [rename_row, flatten, flatten, flattenFields_eq_map, flattenFields_eq_map,
      ← rename_prependRow, iht, Row.mapValues, Row.mapValues, Row.mapValues, Row.mapValues,
      List.map_map, List.map_map]
    exact congrArg (prependRow k · _) (List.map_congr_left fun p hp => by
      rw [Function.comp_apply, Function.comp_apply, ihf p hp])

/-- What keeps a type from having a text has nothing to do with its variables. -/
theorem unranked?_rename (t : Ty) : (t.rename ρ).unranked? = t.unranked? := by
  induction t using Ty.inductOn with
  | number | char | unit | empty | var => rfl
  | arrow a b iha ihb => rw [Ty.rename, unranked?, unranked?, iha, ihb]
  | list t ih => exact ih
  | bind b n body ih => exact ih
  | row k fields tail ihf iht =>
    have hfields : unrankedOfFields (Row.mapValues (Ty.rename ρ) fields)
        = unrankedOfFields fields := by
      clear iht
      induction fields with
      | nil => rfl
      | cons p fields ih =>
        show (p.1, (p.2.rename ρ).unranked?) :: unrankedOfFields (Row.mapValues _ fields)
          = (p.1, p.2.unranked?) :: _
        rw [ihf p List.mem_cons_self, ih fun q hq => ihf q (List.mem_cons_of_mem _ hq)]
    have hlabels : Row.unranked? (Row.mapValues (Ty.rename ρ) fields) = Row.unranked? fields := by
      rw [Row.unranked?, Row.labels_mapValues, Row.unranked?]
    rw [rename_row, unranked?, unranked?, hfields, iht, hlabels]

/-! ## No two variables under one number -/

/-- A substitution with its variables under other numbers. -/
def renameSubst (ρ : Nat → Nat) (σ : Subst) : Subst := σ.map fun p => (ρ p.1, p.2.rename ρ)

/-- No two numbers of some become one. -/
def KeepsApart (P : Nat → Prop) (ρ : Nat → Nat) : Prop := ∀ m n, P m → P n → ρ m = ρ n → m = n

theorem lookup_renameSubst (hρ : KeepsApart P ρ) {σ : Subst} (hσ : ∀ p ∈ σ, P p.1) {n : Nat}
    (hn : P n) :
    (renameSubst ρ σ).lookup (ρ n) = (σ.lookup n).map (Ty.rename ρ) := by
  induction σ with
  | nil => rfl
  | cons p σ ih =>
    have ih := ih fun q hq => hσ q (List.mem_cons_of_mem _ hq)
    show List.lookup (ρ n) ((ρ p.1, p.2.rename ρ) :: renameSubst ρ σ) = _
    rw [Row.lookup_cons_eq, Row.lookup_cons_eq, ih]
    by_cases he : n = p.1
    · rw [if_pos he, if_pos (congrArg ρ he)]
      rfl
    · rw [if_neg he, if_neg fun h => he (hρ _ _ hn (hσ p List.mem_cons_self) h)]

theorem filter_renameSubst (hρ : KeepsApart P ρ) {σ : Subst} (hσ : ∀ p ∈ σ, P p.1) {n : Nat}
    (hn : P n) :
    (renameSubst ρ σ).filter (·.1 ≠ ρ n) = renameSubst ρ (σ.filter (·.1 ≠ n)) := by
  rw [renameSubst, renameSubst, List.filter_map]
  refine congrArg _ (List.filter_congr fun p hp => ?_)
  rw [Function.comp_apply, Bool.eq_iff_iff, decide_eq_true_iff, decide_eq_true_iff]
  exact ⟨fun h he => h (congrArg ρ he), fun h he => h (hρ _ _ (hσ p hp) hn he)⟩

/-- **Substitution commutes with a renaming** that keeps the variables in sight apart. -/
theorem substitute_rename (hρ : KeepsApart P ρ) {t : Ty} (ht : t.Over P) : ∀ {σ : Subst},
    (∀ p ∈ σ, P p.1) → (t.rename ρ).substitute (renameSubst ρ σ) = (t.substitute σ).rename ρ := by
  induction t using Ty.inductOn with
  | number | char | unit | empty => intro σ _; rfl
  | var n =>
    intro σ hσ
    rw [Ty.rename, substitute, substitute, lookup_renameSubst hρ hσ ht]
    cases List.lookup n σ <;> rfl
  | arrow a b iha ihb => intro σ hσ; simp only [Ty.rename, substitute, iha ht.1 hσ, ihb ht.2 hσ]
  | list t ih => intro σ hσ; simp only [Ty.rename, substitute, ih ht hσ]
  | bind b n body ih =>
    intro σ hσ
    rw [Ty.rename, substitute, filter_renameSubst hρ hσ ht.1,
      ih ht.2 fun p hp => hσ p (List.mem_of_mem_filter hp), substitute, Ty.rename]
  | row k fields tail ihf iht =>
    intro σ hσ
    obtain ⟨hf, htail⟩ := over_row.mp ht
    rw [rename_row, substitute, substitute, substituteFields_eq_map, substituteFields_eq_map,
      rename_row, iht htail hσ, Row.mapValues, Row.mapValues, Row.mapValues, Row.mapValues,
      List.map_map, List.map_map]
    exact congrArg (row k · _) (List.map_congr_left fun p hp => by
      rw [Function.comp_apply, Function.comp_apply, ihf p hp (hf p hp) hσ])

theorem mem_free_rename (hρ : KeepsApart P ρ) {t : Ty} (ht : t.Over P) {v : Nat} (hv : P v) :
    ρ v ∈ (t.rename ρ).free ↔ v ∈ t.free := by
  induction t using Ty.inductOn with
  | number | char | unit | empty => simp [Ty.rename, free]
  | var n =>
    simp only [Ty.rename, free_var, List.mem_singleton]
    exact ⟨hρ _ _ hv ht, congrArg ρ⟩
  | arrow a b iha ihb => simp only [Ty.rename, mem_free_arrow, iha ht.1, ihb ht.2]
  | list t ih => simpa only [Ty.rename, free_list] using ih ht
  | bind b n body ih =>
    rw [Ty.rename, mem_free_bind, mem_free_bind, ih ht.2]
    exact and_congr_right fun _ =>
      ⟨fun h he => h (congrArg ρ he), fun h he => h (hρ _ _ hv ht.1 he)⟩
  | row k fields tail ihf iht =>
    obtain ⟨hf, htail⟩ := over_row.mp ht
    rw [rename_row, mem_free_row, mem_free_row, iht htail]
    refine or_congr_right ⟨?_, ?_⟩
    · rintro ⟨q, hq, hmem⟩
      obtain ⟨p, hp, rfl⟩ := Row.mem_mapValues.mp hq
      exact ⟨p, hp, (ihf p hp (hf p hp)).mp hmem⟩
    · rintro ⟨p, hp, hmem⟩
      exact ⟨_, Row.mem_mapValues.mpr ⟨p, hp, rfl⟩, (ihf p hp (hf p hp)).mpr hmem⟩

/-- **Types have one text just when they have one after a renaming** that keeps their variables
apart. -/
theorem text_rename_iff (hρ : KeepsApart P ρ) {s t : Ty} (hs : s.Tidy) (ht : t.Tidy)
    (hsP : s.Over P)
    (htP : t.Over P) : (s.rename ρ).text = (t.rename ρ).text ↔ s.text = t.text := by
  refine ⟨fun h => ?_, text_rename_eq hs ht⟩
  classical
  -- A way back from the new numbers to the old ones.
  let back : Nat → Nat := fun m => if h : ∃ n, P n ∧ ρ n = m then h.choose else m
  have hback : ∀ n, P n → back (ρ n) = n := by
    intro n hn
    have hex : ∃ m, P m ∧ ρ m = ρ n := ⟨n, hn, rfl⟩
    show (if h : ∃ m, P m ∧ ρ m = ρ n then h.choose else ρ n) = n
    rw [dif_pos hex]
    exact hρ _ _ hex.choose_spec.1 hn hex.choose_spec.2
  have hself : ∀ {u : Ty}, u.Over P → (u.rename ρ).rename back = u := fun hu => by
    rw [rename_rename]
    exact rename_eq_self (hu.mono hback)
  have := text_rename_eq (ρ := back) hs.rename ht.rename h
  rwa [hself hsP, hself htP] at this

end Ty

/-!
## Names in the order of appearance

Two types whose variables are named in the order in which they appear have the same texts under
other numbers, as long as no two variables get one number (`Ty.prettyPair_rename`).
-/

/-- The first occurrences are those under other numbers. -/
theorem eraseDups_map {ρ : Nat → Nat} (hρ : ρ.Injective) (vs : List Nat) :
    (vs.map ρ).eraseDups = vs.eraseDups.map ρ := by
  match vs with
  | [] => rfl
  | v :: vs =>
    have hfilter : (vs.map ρ).filter (fun w => !w == ρ v) = (vs.filter fun w => !w == v).map ρ := by
      rw [List.filter_map]
      refine congrArg _ (List.filter_congr fun w _ => ?_)
      rw [Function.comp_apply, Bool.not_inj_iff, Bool.eq_iff_iff, beq_iff_eq, beq_iff_eq, hρ.eq_iff]
    rw [List.map_cons, List.eraseDups_cons, List.eraseDups_cons, hfilter, eraseDups_map hρ,
      List.map_cons]
termination_by vs.length
decreasing_by exact Nat.lt_succ_of_le (List.length_filter_le _ _)

theorem idxOf_map {ρ : Nat → Nat} (hρ : ρ.Injective) (n : Nat) (vs : List Nat) :
    (vs.map ρ).idxOf (ρ n) = vs.idxOf n := by
  induction vs with
  | nil => rfl
  | cons v vs ih =>
    rw [List.map_cons, List.idxOf_cons, List.idxOf_cons, ih,
      show (ρ v == ρ n) = (v == n) by rw [Bool.eq_iff_iff, beq_iff_eq, beq_iff_eq, hρ.eq_iff]]

namespace Ty

variable {ρ : Nat → Nat}

theorem appearancesOfFields_eq_map (fields : Row Ty) :
    appearancesOfFields fields = Row.mapValues appearances fields := by
  induction fields with
  | nil => rfl
  | cons p fields ih => simp [appearancesOfFields, ih, Row.mapValues]

/-- Variables appear in the same order under other numbers. -/
theorem appearances_rename (t : Ty) : (t.rename ρ).appearances = t.appearances.map ρ := by
  induction t using Ty.inductOn with
  | number | char | unit | empty | var => rfl
  | arrow a b iha ihb => rw [rename, appearances, appearances, iha, ihb, List.map_append]
  | list t ih => rw [rename, appearances, appearances, ih]
  | bind b n body ih => rw [rename, appearances, appearances, ih, List.map_cons]
  | row k fields tail ihf iht =>
    have hfields : appearancesOfFields (Row.mapValues (rename ρ) fields)
        = Row.mapValues (List.map ρ) (appearancesOfFields fields) := by
      rw [appearancesOfFields_eq_map, appearancesOfFields_eq_map, Row.mapValues, Row.mapValues,
        Row.mapValues, Row.mapValues, List.map_map, List.map_map]
      exact List.map_congr_left fun p hp => by rw [Function.comp_apply, ihf p hp]; rfl
    rw [rename_row, appearances, appearances, hfields, iht, List.map_append, Row.sortedValues,
      Row.sortedValues, Row.sorted_mapValues, Row.mapValues, List.map_map, List.map_flatten,
      List.map_map]
    rfl

/-- **Names in the order of appearance have nothing to do with the numbers.** -/
theorem nameAmong_map (hρ : ρ.Injective) (vs : List Nat) :
    nameAmong (vs.map ρ) ∘ ρ = nameAmong vs := by
  funext n
  rw [Function.comp_apply, nameAmong, nameAmong, idxOf_map hρ]

theorem prettyPair_rename (hρ : ρ.Injective) (s t : Ty) :
    prettyPair (s.rename ρ) (t.rename ρ) = prettyPair s t := by
  rw [prettyPair, prettyPair, appearances_rename, appearances_rename, ← List.map_append,
    eraseDups_map hρ, render_rename, render_rename, nameAmong_map hρ]

end Ty

end RowLang

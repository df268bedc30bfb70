import RowLang.Proofs.Tree.Figure
import RowLang.Proofs.Ty.Meaning

/-!
# Proofs/Ty/Means — figures that a type can stand for

`t.Means ρ x` says that `t` can stand for the canonical figure `x` when its variables stand for the
figures `ρ`.  The fields of a row stand in front of what its tail stands for, which lacks their
labels; a recursive type can stand for every figure that its equation has, and a polymorphic one for
what its body can stand for, whatever the bound variable stands for.  A type still means what it
meant after flattening (`Means.flatten`), after a substitution of types for what the variables stand
for (`Means.substitute`), and when a recursive type is unfolded (`Means.unfold`) or made
(`Means.mu`).
-/

namespace RowLang

open Figure

namespace Ty

mutual

/-- A type can stand for a figure. -/
@[grind] def Means (ρ : Nat → Figure) : Ty → Figure → Prop
  | number, x => x = .number
  | char, x => x = .char
  | unit, x => x = .unit
  | empty, x => x = .empty
  | var n, x => x = ρ n
  | arrow a b, x => ∃ y z, x = .arrow y z ∧ Means ρ a y ∧ Means ρ b z
  | list t, x => ∃ y, x = .list y ∧ Means ρ t y
  | row k fields tail, x => ∃ f y, x = front k f y ∧
      (MeansFields ρ fields f ∧ ∀ l, l ∉ Row.labels fields → f l = none) ∧
        Means ρ tail y ∧ Lacks k y f
  | bind b n body, x => ∃ y : Figure, y.Canonical ∧ (b = .mu → y = x) ∧
      Means (Function.update ρ n y) body x

/-- Each field can stand for what is under its label. -/
@[grind] def MeansFields (ρ : Nat → Figure) : List (Label × Ty) → (Label → Option Figure) → Prop
  | [], _ => True
  | (l, t) :: fields, f => (∃ z, f l = some z ∧ Means ρ t z) ∧ MeansFields ρ fields f

end

/-- Fields can stand for figures under just their labels. -/
structure FieldsMean (ρ : Nat → Figure) (fields : Row Ty) (f : Label → Option Figure) : Prop where
  some : ∀ p ∈ fields, ∃ z, f p.1 = some z ∧ p.2.Means ρ z
  none : ∀ l, l ∉ fields.labels → f l = none

variable {ρ ρ' : Nat → Figure} {x y z : Figure} {k : RowKind} {fields : Row Ty} {tail : Ty}
  {f g : Label → Option Figure}

theorem meansFields_iff :
    MeansFields ρ fields f ↔ ∀ p ∈ fields, ∃ z, f p.1 = some z ∧ p.2.Means ρ z := by
  induction fields with
  | nil => simp [MeansFields]
  | cons p fields ih => simp [MeansFields, ih]

@[simp] theorem means_var {n : Nat} : (var n).Means ρ x ↔ x = ρ n := Iff.rfl

@[simp] theorem means_arrow {a b : Ty} :
    (arrow a b).Means ρ x ↔ ∃ y z, x = .arrow y z ∧ a.Means ρ y ∧ b.Means ρ z := Iff.rfl

@[simp] theorem means_list {t : Ty} : (list t).Means ρ x ↔ ∃ y, x = .list y ∧ t.Means ρ y := Iff.rfl

theorem means_row : (row k fields tail).Means ρ x ↔
    ∃ f y, x = front k f y ∧ FieldsMean ρ fields f ∧ tail.Means ρ y ∧ Lacks k y f := by
  rw [Means]
  refine exists_congr fun f => exists_congr fun y => and_congr_right fun _ => and_congr_left' ?_
  rw [meansFields_iff]
  exact ⟨fun h => ⟨h.1, h.2⟩, fun h => ⟨h.some, h.none⟩⟩

theorem means_bind {b : Binder} {n : Nat} {body : Ty} : (bind b n body).Means ρ x ↔
    ∃ y : Figure, y.Canonical ∧ (b = .mu → y = x) ∧ body.Means (Function.update ρ n y) x := by
  rw [Means]

theorem means_mu {n : Nat} {body : Ty} :
    (bind .mu n body).Means ρ x ↔ x.Canonical ∧ body.Means (Function.update ρ n x) x := by
  rw [means_bind]
  constructor
  · rintro ⟨y, hy, hmu, h⟩
    obtain rfl := hmu rfl
    exact ⟨hy, h⟩
  · exact fun ⟨hx, h⟩ => ⟨x, hx, fun _ => rfl, h⟩

theorem canonical_update (hρ : ∀ n, (ρ n).Canonical) (hy : y.Canonical) (n v : Nat) :
    (Function.update ρ n y v).Canonical := by
  by_cases hv : v = n
  · rwa [hv, Function.update_self]
  · rw [Function.update_of_ne hv]
    exact hρ v

theorem FieldsMean.isSome_iff (h : FieldsMean ρ fields f) {l : Label} :
    (f l).isSome ↔ l ∈ fields.labels := by
  constructor
  · intro hsome
    by_contra hl
    rw [h.none l hl] at hsome
    cases hsome
  · intro hl
    obtain ⟨p, hp, rfl⟩ := List.mem_map.mp hl
    obtain ⟨z, hz, -⟩ := h.some p hp
    rw [hz, Option.isSome_some]

/-- Fields that are replaced by others that mean the same. -/
theorem FieldsMean.mapValues (h : FieldsMean ρ fields f) {u : Ty → Ty}
    (hu : ∀ p ∈ fields, ∀ z, p.2.Means ρ z → (u p.2).Means ρ' z) :
    FieldsMean ρ' (fields.mapValues u) f := by
  refine ⟨fun q hq => ?_, fun l hl => h.none l (by rwa [Row.labels_mapValues] at hl)⟩
  obtain ⟨p, hp, rfl⟩ := Row.mem_mapValues.mp hq
  obtain ⟨z, hz, hmeans⟩ := h.some p hp
  exact ⟨z, hz, hu p hp z hmeans⟩

/-- What a type stands for is canonical if that is so for its variables. -/
theorem Means.canonical {t : Ty} (hρ : ∀ n, (ρ n).Canonical) (h : t.Means ρ x) : x.Canonical := by
  induction t using Ty.inductOn generalizing x ρ with
  | number | char | unit | empty => cases h; exact canonical_of_root (by simp)
  | var n => cases h; exact hρ n
  | arrow a b => obtain ⟨y, z, rfl, -⟩ := h; exact canonical_of_root (by simp)
  | list t => obtain ⟨y, rfl, -⟩ := h; exact canonical_of_root (by simp)
  | row k fields tail _ iht =>
    obtain ⟨f, y, rfl, -, ht, -⟩ := means_row.mp h
    exact canonical_front (iht hρ ht)
  | bind b n body ih =>
    obtain ⟨y, hy, -, h⟩ := means_bind.mp h
    exact ih (canonical_update hρ hy n) h

/-- **Only the free variables of a type matter to what it stands for.** -/
theorem Means.congr {t : Ty} (h : t.Means ρ x) (hρ : ∀ v ∈ t.free, ρ v = ρ' v) : t.Means ρ' x := by
  induction t using Ty.inductOn generalizing x ρ ρ' with
  | number | char | unit | empty => exact h
  | var n => rw [means_var, ← hρ n (by simp)]; exact h
  | arrow a b iha ihb =>
    obtain ⟨y, z, rfl, ha, hb⟩ := h
    exact ⟨y, z, rfl, iha ha fun v hv => hρ v (mem_free_arrow.mpr (Or.inl hv)),
      ihb hb fun v hv => hρ v (mem_free_arrow.mpr (Or.inr hv))⟩
  | list t ih =>
    obtain ⟨y, rfl, ht⟩ := h
    exact ⟨y, rfl, ih ht fun v hv => hρ v (by simpa using hv)⟩
  | row k fields tail ihf iht =>
    obtain ⟨f, y, rfl, hf, ht, hlacks⟩ := means_row.mp h
    have hf' := hf.mapValues (u := id) fun p hp z hz =>
      ihf p hp hz fun v hv => hρ v (mem_free_row.mpr (Or.inr ⟨p, hp, hv⟩))
    rw [Row.mapValues_eq_self fun _ _ => rfl] at hf'
    exact means_row.mpr ⟨f, y, rfl, hf',
      iht ht fun v hv => hρ v (mem_free_row.mpr (Or.inl hv)), hlacks⟩
  | bind b n body ih =>
    obtain ⟨y, hy, hmu, h⟩ := means_bind.mp h
    refine means_bind.mpr ⟨y, hy, hmu, ih h fun v hv => ?_⟩
    by_cases hn : v = n
    · simp [hn]
    · simpa [hn] using hρ v (mem_free_bind.mpr ⟨hv, hn⟩)

theorem Means.update {t : Ty} {n : Nat} (h : t.Means ρ x) (hn : n ∉ t.free) (y : Figure) :
    t.Means (Function.update ρ n y) x :=
  h.congr fun v hv => (Function.update_of_ne (fun he : v = n => hn (he ▸ hv)) y ρ).symm

theorem FieldsMean.congr (h : FieldsMean ρ fields f)
    (hρ : ∀ p ∈ fields, ∀ v ∈ p.2.free, ρ v = ρ' v) : FieldsMean ρ' fields f := by
  have hf := h.mapValues (u := id) fun p hp _ hz => hz.congr (hρ p hp)
  rwa [Row.mapValues_eq_self fun _ _ => rfl] at hf

/-- The fields that another row lacks. -/
theorem FieldsMean.difference {others : Row Ty}
    (hf : FieldsMean ρ fields f) (hg : FieldsMean ρ others g) :
    FieldsMean ρ (Row.difference id fields others) (beside f g) := by
  refine ⟨fun p hp => ?_, fun l hl => ?_⟩
  · obtain ⟨hp, hl⟩ := Row.mem_difference.mp hp
    rw [beside, hg.none p.1 hl]
    exact hf.some p hp
  · rw [beside]
    split
    case isTrue => rfl
    case isFalse hnone =>
      rw [hg.isSome_iff] at hnone
      exact hf.none l fun hmem => hl (Row.mem_labels_difference.mpr ⟨hmem, hnone⟩)

/-! ## Flattening -/

theorem means_prependRow (hf : FieldsMean ρ fields f) (ht : tail.Means ρ y) (hlacks : Lacks k y f)
    (hρ : ∀ n, (ρ n).Canonical) : (prependRow k fields tail).Means ρ (front k f y) := by
  have hrow : (row k fields tail).Means ρ (front k f y) := means_row.mpr ⟨f, y, rfl, hf, ht, hlacks⟩
  cases tail with
  | row k' inner rest =>
    rw [prependRow]
    split
    case isFalse => exact hrow
    case isTrue hk =>
      subst hk
      obtain ⟨g, z, rfl, hg, hr, hlacks'⟩ := means_row.mp ht
      have hbehind : ∀ {l}, (f l).isSome → g l = none ∧ fieldsOf k z l = none := fun {l} hl => by
        have hnone := hlacks l hl
        rw [fieldsOf_front, Option.or_eq_none_iff] at hnone
        exact hnone.symm
      rw [Row.union_eq_setAll, front_front k f g (hr.canonical hρ)]
      refine means_row.mpr ⟨_, z, rfl, ⟨fun p hp => ?_, fun l hl => ?_⟩, hr, fun l hl => ?_⟩
      · rcases Row.mem_setAll hp with hp | hp
        · obtain ⟨u, hu, hmeans⟩ := hg.some p hp
          exact ⟨u, by rw [hu, Option.some_or], hmeans⟩
        · obtain ⟨u, hu, hmeans⟩ := hf.some p hp
          have hnone := (hbehind (l := p.1) (by rw [hu, Option.isSome_some])).1
          exact ⟨u, by rw [hnone, hu, Option.none_or], hmeans⟩
      · rw [← Row.mem_domain, Row.domain_setAll, Finset.mem_union, Row.mem_domain, Row.mem_domain,
          not_or] at hl
        rw [hf.none l hl.1, hg.none l hl.2, Option.or_none]
      · rw [Option.isSome_or, Bool.or_eq_true] at hl
        exact hl.elim (hlacks' l) fun hl => (hbehind hl).2
  | _ => exact hrow

/-- **A type that is flattened means what it meant.** -/
theorem Means.flatten {t : Ty} (h : t.Means ρ x) (hρ : ∀ n, (ρ n).Canonical) :
    t.flatten.Means ρ x := by
  induction t using Ty.inductOn generalizing x ρ with
  | number | char | unit | empty | var => exact h
  | arrow a b iha ihb =>
    obtain ⟨y, z, rfl, ha, hb⟩ := h
    exact ⟨y, z, rfl, iha ha hρ, ihb hb hρ⟩
  | list t ih =>
    obtain ⟨y, rfl, ht⟩ := h
    exact ⟨y, rfl, ih ht hρ⟩
  | row k fields tail ihf iht =>
    obtain ⟨f, y, rfl, hf, ht, hlacks⟩ := means_row.mp h
    rw [Ty.flatten, flattenFields_eq_map]
    exact means_prependRow (hf.mapValues fun p hp z hz => ihf p hp hz hρ) (iht ht hρ) hlacks hρ
  | bind b n body ih =>
    obtain ⟨y, hy, hmu, h⟩ := means_bind.mp h
    exact means_bind.mpr ⟨y, hy, hmu, ih h (canonical_update hρ hy n)⟩

/-! ## Substitution -/

/-- What is put in for variables means what they stand for. -/
structure Replaces (σ : Subst) (ρ ρ' : Nat → Figure) (t : Ty) : Prop where
  kept : ∀ v ∈ t.free, σ.lookup v = none → ρ v = ρ' v
  means : ∀ v ∈ t.free, ∀ u, σ.lookup v = some u → u.Means ρ' (ρ v)

theorem Replaces.mono {σ : Subst} {s t : Ty} (h : Replaces σ ρ ρ' t)
    (hsub : ∀ v ∈ s.free, v ∈ t.free) :
    Replaces σ ρ ρ' s :=
  ⟨fun v hv => h.kept v (hsub v hv), fun v hv => h.means v (hsub v hv)⟩

/-- **A type still means what it meant when its variables are replaced** by types that mean what
they stand for. -/
theorem Means.substitute {t : Ty} (h : t.Means ρ x) : ∀ {σ : Subst}, Replaces σ ρ ρ' t →
    t.CatchesNone σ → (t.substitute σ).Means ρ' x := by
  induction t using Ty.inductOn generalizing x ρ ρ' with
  | number | char | unit | empty => intro σ _ _; exact h
  | var n =>
    intro σ hσ _
    rw [Ty.substitute, h]
    cases hn : List.lookup n σ with
    | none => exact hσ.kept n (by simp) hn
    | some u => exact hσ.means n (by simp) u hn
  | arrow a b iha ihb =>
    intro σ hσ hcatch
    obtain ⟨y, z, rfl, ha, hb⟩ := h
    exact ⟨y, z, rfl,
      iha ha (hσ.mono fun v hv => mem_free_arrow.mpr (Or.inl hv))
        fun q hq => hcatch q (mem_binders_arrow.mpr (Or.inl hq)),
      ihb hb (hσ.mono fun v hv => mem_free_arrow.mpr (Or.inr hv))
        fun q hq => hcatch q (mem_binders_arrow.mpr (Or.inr hq))⟩
  | list t ih =>
    intro σ hσ hcatch
    obtain ⟨y, rfl, ht⟩ := h
    exact ⟨y, rfl, ih ht (hσ.mono fun v hv => by simpa using hv) hcatch⟩
  | row k fields tail ihf iht =>
    intro σ hσ hcatch
    obtain ⟨f, y, rfl, hf, ht, hlacks⟩ := means_row.mp h
    rw [Ty.substitute, substituteFields_eq_map]
    refine means_row.mpr ⟨f, y, rfl, hf.mapValues fun p hp z hz => ?_, ?_, hlacks⟩
    · exact ihf p hp hz (hσ.mono fun v hv => mem_free_row.mpr (Or.inr ⟨p, hp, hv⟩))
        fun q hq => hcatch q (mem_binders_row.mpr (Or.inr ⟨p, hp, hq⟩))
    · exact iht ht (hσ.mono fun v hv => mem_free_row.mpr (Or.inl hv))
        fun q hq => hcatch q (mem_binders_row.mpr (Or.inl hq))
  | bind b n body ih =>
    intro σ hσ hcatch
    obtain ⟨y, hy, hmu, h⟩ := means_bind.mp h
    refine means_bind.mpr ⟨y, hy, hmu, ih h ⟨fun v hv hnone => ?_, fun v hv u hu => ?_⟩ ?_⟩
    · by_cases hn : v = n
      · rw [hn, Function.update_self, Function.update_self]
      · rw [lookup_filter_ne, if_neg hn] at hnone
        rw [Function.update_of_ne hn, Function.update_of_ne hn]
        exact hσ.kept v (mem_free_bind.mpr ⟨hv, hn⟩) hnone
    · rw [lookup_filter_ne] at hu
      split at hu
      case isTrue => cases hu
      case isFalse hn =>
        rw [Function.update_of_ne hn]
        exact (hσ.means v (mem_free_bind.mpr ⟨hv, hn⟩) u hu).update
          (hcatch n (mem_binders_bind.mpr (Or.inl rfl)) v u hu) y
    · exact catchesNone_filter fun q hq => hcatch q (mem_binders_bind.mpr (Or.inr hq))

/-- One variable replaced. -/
theorem replaces_single {n : Nat} {s t : Ty} (hs : s.Means ρ' (ρ n))
    (hkept : ∀ v ∈ t.free, v ≠ n → ρ v = ρ' v) : Replaces [(n, s)] ρ ρ' t := by
  refine ⟨fun v hv hnone => ?_, fun v _ u hu => ?_⟩
  · rw [Row.lookup_single] at hnone
    split at hnone
    case isTrue => cases hnone
    case isFalse hn => exact hkept v hv hn
  · rw [Row.lookup_single] at hu
    split at hu
    case isTrue hv => cases hu; rw [hv]; exact hs
    case isFalse => cases hu

/-- **What a type means after a variable is put in for another one**, it meant when the other stands
for the same. -/
theorem Means.of_substitute_var {n m : Nat} {t : Ty} : ∀ {ρ : Nat → Figure} {x : Figure},
    (t.substitute [(n, var m)]).Means ρ x → m ∉ t.binders →
      t.Means (Function.update ρ n (ρ m)) x := by
  induction t using Ty.inductOn with
  | number | char | unit | empty => exact fun h _ => h
  | var v =>
    intro ρ x h _
    rw [Ty.substitute, Row.lookup_single] at h
    by_cases hv : v = n
    · rw [if_pos hv] at h
      rw [means_var, hv, Function.update_self]
      exact h
    · rw [if_neg hv] at h
      rw [means_var, Function.update_of_ne hv]
      exact h
  | arrow a b iha ihb =>
    intro ρ x h hm
    obtain ⟨y, z, rfl, ha, hb⟩ := h
    exact ⟨y, z, rfl, iha ha fun hq => hm (mem_binders_arrow.mpr (Or.inl hq)),
      ihb hb fun hq => hm (mem_binders_arrow.mpr (Or.inr hq))⟩
  | list t ih =>
    intro ρ x h hm
    obtain ⟨y, rfl, ht⟩ := h
    exact ⟨y, rfl, ih ht hm⟩
  | row k fields tail ihf iht =>
    intro ρ x h hm
    rw [Ty.substitute, substituteFields_eq_map] at h
    obtain ⟨f, y, rfl, hf, ht, hlacks⟩ := means_row.mp h
    refine means_row.mpr ⟨f, y, rfl, ⟨fun p hp => ?_, fun l hl => ?_⟩,
      iht ht fun hq => hm (mem_binders_row.mpr (Or.inl hq)), hlacks⟩
    · obtain ⟨z, hz, hmeans⟩ := hf.some _ (Row.mem_mapValues.mpr ⟨p, hp, rfl⟩)
      exact ⟨z, hz, ihf p hp hmeans fun hq => hm (mem_binders_row.mpr (Or.inr ⟨p, hp, hq⟩))⟩
    · exact hf.none l (by rwa [Row.labels_mapValues])
  | bind b q body ih =>
    intro ρ x h hm
    rw [Ty.substitute] at h
    obtain ⟨y, hy, hmu, h⟩ := means_bind.mp h
    rw [mem_binders_bind, not_or] at hm
    refine means_bind.mpr ⟨y, hy, hmu, ?_⟩
    by_cases hq : n = q
    · -- The binder hides the variable.
      subst hq
      have hnil : List.filter (fun p : Nat × Ty => p.1 ≠ n) [(n, var m)] = [] := by simp
      rw [hnil, substitute_nil] at h
      rwa [Function.update_idem]
    · have hkept : List.filter (fun p : Nat × Ty => p.1 ≠ q) [(n, var m)] = [(n, var m)] := by
        simp [hq]
      rw [hkept] at h
      have hbody := ih h hm.2
      rwa [Function.update_of_ne hm.1, Function.update_comm (Ne.symm hq)] at hbody

/-! ## Recursive types -/

/-- **A recursive type that is unfolded means what it meant.** -/
theorem Means.unfold {n : Nat} {body : Ty} (h : (bind .mu n body).Means ρ x)
    (hcatch : ∀ q ∈ body.binders, q ∉ (bind .mu n body).free) : (unfold n body).Means ρ x := by
  refine (means_mu.mp h).2.substitute (replaces_single ?_ fun v _ hv => ?_)
    (catchesNone_single hcatch)
  · rw [Function.update_self]
    exact h
  · exact Function.update_of_ne hv _ _

/-- **A type that its own variable stands for closes into a recursive type** that means the same. -/
theorem Means.mu {n p : Nat} {t : Ty} (h : t.Means ρ (ρ n)) (hρ : ∀ n, (ρ n).Canonical)
    (hp : p ∉ t.free) (hbinders : p ∉ t.binders) :
    (bind .mu p (t.substitute [(n, var p)])).Means ρ (ρ n) := by
  refine means_mu.mpr
    ⟨hρ n, h.substitute (replaces_single ?_ fun v hv _ => ?_) (catchesNone_single fun q hq => ?_)⟩
  · rw [means_var, Function.update_self]
  · exact (Function.update_of_ne (fun he : v = p => hp (he ▸ hv)) _ ρ).symm
  · rw [free_var, List.mem_singleton]
    rintro rfl
    exact hbinders hq

end Ty

end RowLang

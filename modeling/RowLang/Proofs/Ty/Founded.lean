import RowLang.Proofs.Ty.Chain
import RowLang.Proofs.Ty.Inside

/-!
# Proofs/Ty/Founded — recursion behind structure

In a founded type (`Founded`) nothing is polymorphic and every variable of a recursive type stands
behind an arrow, a list or a field of its binder.  Rows and binders that stand on each other in
front of it make up its `spine`, and unfolding shortens that by one (`spine_unfold`), whatever else
it does to the type.  All that is inside a flat and founded type is flat and founded again
(`Encloses.founded`, `Encloses.flat`).
-/

namespace RowLang.Ty

mutual

/-- Nothing is polymorphic, and every recursive type has structure in front of its variable. -/
def Founded : Ty → Prop
  | arrow a b => Founded a ∧ Founded b
  | list t => Founded t
  | row _ fields tail => FieldsFounded fields ∧ Founded tail
  | bind .mu n body => Founded body ∧ n ∉ body.heads
  | bind .forAll _ _ => False
  | _ => True

/-- The types of the fields are founded. -/
def FieldsFounded : List (Label × Ty) → Prop
  | [] => True
  | (_, t) :: fields => Founded t ∧ FieldsFounded fields

end

/-- The rows and binders on each other in front of a type. -/
def spine : Ty → Nat
  | row _ _ tail => spine tail + 1
  | bind _ _ body => spine body + 1
  | _ => 0

variable {V : Set Nat} {t u : Ty} {k : RowKind} {fields : Row Ty} {tail : Ty}

theorem fieldsFounded_iff : FieldsFounded fields ↔ ∀ p ∈ fields, p.2.Founded := by
  induction fields with
  | nil => simp [FieldsFounded]
  | cons p fields ih => simp [FieldsFounded, ih]

theorem founded_row : (row k fields tail).Founded ↔ (∀ p ∈ fields, p.2.Founded) ∧ tail.Founded := by
  rw [Founded, fieldsFounded_iff]

theorem Founded.ne_forAll (h : t.Founded) (n : Nat) (body : Ty) : t ≠ bind .forAll n body := by
  rintro rfl
  exact h

/-! ## Flattening -/

theorem Founded.prependRow (hf : ∀ p ∈ fields, p.2.Founded) (ht : tail.Founded) :
    (prependRow k fields tail).Founded := by
  cases tail with
  | row k' inner rest =>
    rw [Ty.prependRow]
    split
    case isFalse => exact founded_row.mpr ⟨hf, ht⟩
    case isTrue =>
      obtain ⟨hinner, hrest⟩ := founded_row.mp ht
      rw [Row.union_eq_setAll]
      exact founded_row.mpr ⟨fun p hp => (Row.mem_setAll hp).elim (hinner p) (hf p), hrest⟩
  | _ => exact founded_row.mpr ⟨hf, ht⟩

theorem Founded.flatten (h : t.Founded) : t.flatten.Founded := by
  induction t using Ty.inductOn with
  | number | char | unit | empty | var => rwa [Ty.flatten]
  | arrow a b iha ihb => rw [Ty.flatten]; exact ⟨iha h.1, ihb h.2⟩
  | list t ih => rw [Ty.flatten]; exact ih h
  | bind b n body ih =>
    cases b with
    | forAll => exact h.elim
    | mu => rw [Ty.flatten, Founded, heads_flatten]; exact ⟨ih h.1, h.2⟩
  | row k fields tail ihf iht =>
    obtain ⟨hf, ht⟩ := founded_row.mp h
    rw [Ty.flatten, flattenFields_eq_map]
    refine Founded.prependRow (fun q hq => ?_) (iht ht)
    obtain ⟨p, hp, rfl⟩ := Row.mem_mapValues.mp hq
    exact ihf p hp (hf p hp)

/-! ## Unfolding -/

/-- What is put in where variables are bound stays founded if it has no bound variable free. -/
theorem Founded.substitute (h : t.Founded) : ∀ {σ : Subst}, PutsIn V σ → (∀ v ∈ t.binders, v ∈ V) →
    (∀ v u, σ.lookup v = some u → u.Founded) → (t.substitute σ).Founded := by
  induction t using Ty.inductOn with
  | number | char | unit | empty => intro σ _ _ _; rw [Ty.substitute]; trivial
  | var n =>
    intro σ _ _ hσ
    rw [Ty.substitute]
    cases hn : List.lookup n σ with
    | none => trivial
    | some u => exact hσ n u hn
  | arrow a b iha ihb =>
    intro σ hV hbound hσ
    rw [Ty.substitute]
    exact ⟨iha h.1 hV (fun v hv => hbound v (mem_binders_arrow.mpr (Or.inl hv))) hσ,
      ihb h.2 hV (fun v hv => hbound v (mem_binders_arrow.mpr (Or.inr hv))) hσ⟩
  | list t ih => intro σ hV hbound hσ; rw [Ty.substitute]; exact ih h hV hbound hσ
  | row k fields tail ihf iht =>
    intro σ hV hbound hσ
    obtain ⟨hf, ht⟩ := founded_row.mp h
    rw [Ty.substitute, substituteFields_eq_map]
    refine founded_row.mpr ⟨fun q hq => ?_,
      iht ht hV (fun v hv => hbound v (mem_binders_row.mpr (Or.inl hv))) hσ⟩
    obtain ⟨p, hp, rfl⟩ := Row.mem_mapValues.mp hq
    exact ihf p hp (hf p hp) hV (fun v hv => hbound v (mem_binders_row.mpr (Or.inr ⟨p, hp, hv⟩))) hσ
  | bind b n body ih =>
    intro σ hV hbound hσ
    cases b with
    | forAll => exact h.elim
    | mu =>
      have hkept : ∀ v u, (σ.filter (·.1 ≠ n)).lookup v = some u → σ.lookup v = some u := by
        intro v u hu
        rw [lookup_filter_ne] at hu
        split at hu
        · cases hu
        · exact hu
      rw [Ty.substitute]
      refine ⟨ih h.1 (fun v u hu => hV v u (hkept v u hu))
        (fun v hv => hbound v (mem_binders_bind.mpr (Or.inr hv)))
          (fun v u hu => hσ v u (hkept v u hu)),
        fun hn => ?_⟩
      rcases mem_heads_substitute hn with ⟨hn, -⟩ | ⟨v, u, -, hu, hn⟩
      · exact h.2 hn
      · exact (hV v u (hkept v u hu)).2 n (mem_free_of_mem_heads hn)
          (hbound n (mem_binders_bind.mpr (Or.inl rfl)))

/-- What takes no row for a variable leaves a flat type flat. -/
theorem Flat.substitute (h : t.Flat) : ∀ {σ : Subst},
    (∀ v u, σ.lookup v = some u → u.Flat ∧ ∀ k fields tail, u ≠ row k fields tail) →
      (t.substitute σ).Flat := by
  induction t using Ty.inductOn with
  | number | char | unit | empty => intro σ _; rw [Ty.substitute]; trivial
  | var n =>
    intro σ hσ
    rw [Ty.substitute]
    cases hn : List.lookup n σ with
    | none => trivial
    | some u => exact (hσ n u hn).1
  | arrow a b iha ihb => intro σ hσ; rw [Ty.substitute]; exact ⟨iha h.1 hσ, ihb h.2 hσ⟩
  | list t ih => intro σ hσ; rw [Ty.substitute]; exact ih h hσ
  | row k fields tail ihf iht =>
    intro σ hσ
    obtain ⟨htail, hf, ht⟩ := flat_row.mp h
    rw [Ty.substitute, substituteFields_eq_map]
    refine flat_row.mpr ⟨fun inner rest he => ?_, fun q hq => ?_, iht ht hσ⟩
    · cases tail with
      | row k' inner' rest' =>
        rw [Ty.substitute] at he
        cases he
        exact htail _ _ rfl
      | var n =>
        rw [Ty.substitute] at he
        cases hn : List.lookup n σ with
        | none => rw [hn] at he; cases he
        | some u => rw [hn] at he; exact (hσ n u hn).2 k inner rest he
      | _ => rw [Ty.substitute] at he; cases he
    · obtain ⟨p, hp, rfl⟩ := Row.mem_mapValues.mp hq
      exact ihf p hp (hf p hp) hσ
  | bind b n body ih =>
    intro σ hσ
    rw [Ty.substitute]
    refine ih h fun v u hu => ?_
    rw [lookup_filter_ne] at hu
    split at hu
    · cases hu
    · exact hσ v u hu

/-- What stands in front of a type is not touched by a substitution for other variables. -/
theorem spine_substitute (h : t.Founded) : ∀ {σ : Subst}, (∀ v ∈ t.heads, σ.lookup v = none) →
    (t.substitute σ).spine = t.spine := by
  induction t using Ty.inductOn with
  | number | char | unit | empty | arrow | list => intro σ _; simp only [Ty.substitute, spine]
  | var n => intro σ hσ; rw [Ty.substitute, hσ n (by simp), Option.getD_none]
  | row k fields tail _ iht =>
    intro σ hσ
    rw [Ty.substitute, spine, spine, iht (founded_row.mp h).2 hσ]
  | bind b n body ih =>
    intro σ hσ
    cases b with
    | forAll => exact h.elim
    | mu =>
      rw [Ty.substitute, spine, spine, ih h.1 fun v hv => ?_]
      rw [lookup_filter_ne]
      split
      · rfl
      · exact hσ v (mem_heads_mu.mpr ⟨hv, ‹_›⟩)

/-- **Unfolding shortens what stands in front**, since the variable of a binder stands behind
structure. -/
theorem spine_unfold {n : Nat} {body : Ty} (h : (bind .mu n body).Founded) :
    (unfold n body).spine + 1 = (bind .mu n body).spine := by
  rw [unfold, spine_substitute h.1 fun v hv => ?_, spine]
  rw [Row.lookup_single, if_neg]
  exact fun he => h.2 (he ▸ hv)

theorem Founded.unfold {n : Nat} {body : Ty} (h : (bind .mu n body).Founded)
    (hreserved : Reserved V (bind .mu n body)) : (unfold n body).Founded := by
  refine h.1.substitute (V := V) (fun v u hu => ?_)
    (fun v hv => hreserved.bound v (mem_binders_bind.mpr (Or.inr hv))) fun v u hu => ?_
  · obtain ⟨rfl, rfl⟩ := lookup_single_eq_some hu
    exact ⟨hreserved.bound v (mem_binders_bind.mpr (Or.inl rfl)), hreserved.free⟩
  · obtain ⟨rfl, rfl⟩ := lookup_single_eq_some hu
    exact h

theorem Flat.unfold {n : Nat} {body : Ty} (h : (bind .mu n body).Flat) : (unfold n body).Flat := by
  have hbody : body.Flat := h
  refine hbody.substitute fun v u hu => ?_
  obtain ⟨rfl, rfl⟩ := lookup_single_eq_some hu
  exact ⟨h, fun _ _ _ => nofun⟩

/-! ## What is inside -/

theorem Encloses.founded (h : Encloses t u) (hreserved : Reserved V t)
    (ht : t.Founded) : u.Founded := by
  cases h with
  | tail k fields tail => exact (founded_row.mp ht).2
  | part h =>
    cases h with
    | arg a b => exact ht.1
    | res a b => exact ht.2
    | elt t => exact ht
    | field hp => exact (founded_row.mp ht).1 _ hp
    | unfolded n body => exact ht.unfold hreserved

theorem Encloses.flat (h : Encloses t u) (ht : t.Flat) : u.Flat := by
  cases h with
  | tail k fields tail => exact (flat_row.mp ht).2.2
  | part h =>
    cases h with
    | arg a b => exact ht.1
    | res a b => exact ht.2
    | elt t => exact ht
    | field hp => exact (flat_row.mp ht).2.1 _ hp
    | unfolded n body => exact ht.unfold

/-! ## Types to compare -/

/-- **A type whose comparison ends**: nothing in it is polymorphic, every variable of a recursive
type stands behind an arrow, a list or a field of its binder, and no variable is both free and
bound. -/
structure Guarded (t : Ty) : Prop where
  founded : t.Founded
  apart : ∀ v ∈ t.free, v ∉ t.binders

/-- All that is inside such a type when it is flat. -/
theorem Guarded.inside (h : t.Guarded) : Reserved {v | v ∈ t.binders} t.flatten ∧
    ∀ u, Relation.ReflTransGen Encloses t.flatten u → u.Flat ∧ u.Founded := by
  have hreserved : Reserved {v | v ∈ t.binders} t.flatten :=
    ⟨fun v hv => h.apart v (mem_free_flatten hv), fun v hv => mem_binders_flatten hv⟩
  refine ⟨hreserved, fun u hu => ?_⟩
  suffices hin : Reserved {v | v ∈ t.binders} u ∧ u.Flat ∧ u.Founded from hin.2
  induction hu with
  | refl => exact ⟨hreserved, flat_flatten t, h.founded.flatten⟩
  | tail _ hin ih => exact ⟨hin.reserved ih.1, hin.flat ih.2.1, hin.founded ih.1 ih.2.2⟩

end RowLang.Ty

import RowLang.Proofs.Row.Lookup
import RowLang.Ty.Basic

/-!
# Proofs/Ty/Variables — where the variables of a type stand

Induction on types with one hypothesis for all fields of a row (`Ty.inductOn`), the variables that a
type binds (`binders`), those that stand in front of all structure (`heads`), and what substitution
does to the free ones (`mem_free_substitute`).
-/

namespace RowLang

namespace Ty

/-- **Induction on types**: the fields of a row are all smaller than it. -/
@[elab_as_elim]
theorem inductOn {motive : Ty → Prop} (number : motive .number) (char : motive .char)
    (unit : motive .unit) (empty : motive .empty) (var : ∀ n, motive (.var n))
    (arrow : ∀ a b, motive a → motive b → motive (.arrow a b))
    (list : ∀ t, motive t → motive (.list t))
    (row : ∀ k fields tail, (∀ p ∈ fields, motive p.2) → motive tail → motive (.row k fields tail))
    (bind : ∀ b n body, motive body → motive (.bind b n body)) (t : Ty) : motive t :=
  @Ty.rec motive (fun fields => ∀ p ∈ fields, motive p.2) (fun p => motive p.2)
    number char unit empty var arrow list row bind
    (fun _ h => absurd h List.not_mem_nil)
    (fun _ _ hp hfields q hq => (List.mem_cons.mp hq).elim (fun h => h ▸ hp) (hfields q))
    (fun _ _ h => h) t

/-! ## Free variables -/

theorem mem_freeOfFields {fields : Row Ty} {v : Nat} :
    v ∈ freeOfFields fields ↔ ∃ p ∈ fields, v ∈ p.2.free := by
  induction fields with
  | nil => simp [freeOfFields]
  | cons p fields ih => simp [freeOfFields, ih]

@[simp] theorem free_var (n : Nat) : (var n).free = [n] := by simp [free]

@[simp] theorem mem_free_arrow {a b : Ty} {v : Nat} :
    v ∈ (arrow a b).free ↔ v ∈ a.free ∨ v ∈ b.free := by simp [free]

@[simp] theorem free_list (t : Ty) : (list t).free = t.free := by simp [free]

/-- A variable of a row stands in its tail or in a field. -/
@[simp] theorem mem_free_row {k : RowKind} {fields : Row Ty} {tail : Ty} {v : Nat} :
    v ∈ (row k fields tail).free ↔ v ∈ tail.free ∨ ∃ p ∈ fields, v ∈ p.2.free := by
  rw [free, List.mem_append, mem_freeOfFields]

/-- A binder hides its own variable. -/
@[simp] theorem mem_free_bind {b : Binder} {n : Nat} {body : Ty} {v : Nat} :
    v ∈ (bind b n body).free ↔ v ∈ body.free ∧ v ≠ n := by simp [free]

/-! ## Bound variables -/

mutual

/-- The variables that occur with a binder. -/
@[grind] def binders : Ty → List Nat
  | arrow a b => binders a ++ binders b
  | list t => binders t
  | row _ fields tail => binders tail ++ bindersOfFields fields
  | bind _ n body => n :: binders body
  | _ => []

/-- The variables that occur with a binder in some field. -/
@[grind] def bindersOfFields : List (Label × Ty) → List Nat
  | [] => []
  | (_, t) :: fields => binders t ++ bindersOfFields fields

end

theorem mem_bindersOfFields {fields : Row Ty} {v : Nat} :
    v ∈ bindersOfFields fields ↔ ∃ p ∈ fields, v ∈ p.2.binders := by
  induction fields with
  | nil => simp [bindersOfFields]
  | cons p fields ih => simp [bindersOfFields, ih]

@[simp] theorem mem_binders_arrow {a b : Ty} {v : Nat} :
    v ∈ (arrow a b).binders ↔ v ∈ a.binders ∨ v ∈ b.binders := by simp [binders]

@[simp] theorem mem_binders_row {k : RowKind} {fields : Row Ty} {tail : Ty} {v : Nat} :
    v ∈ (row k fields tail).binders ↔ v ∈ tail.binders ∨ ∃ p ∈ fields, v ∈ p.2.binders := by
  rw [binders, List.mem_append, mem_bindersOfFields]

/-- It binds that one and those which are bound inside. -/
@[simp] theorem mem_binders_bind {b : Binder} {n : Nat} {body : Ty} {v : Nat} :
    v ∈ (bind b n body).binders ↔ v = n ∨ v ∈ body.binders := by simp [binders]

/-- A variable occurs in a type, free or with a binder. -/
def Mentions (t : Ty) (v : Nat) : Prop := v ∈ t.free ∨ v ∈ t.binders

instance (t : Ty) : DecidablePred t.Mentions := fun v =>
  inferInstanceAs (Decidable (v ∈ t.free ∨ v ∈ t.binders))

/-! ## Variables in front of all structure -/

/-- The free variables that no arrow, no list and no field stands before: a type shows as much of
its tree as these show of theirs. -/
@[grind] def heads : Ty → List Nat
  | var n => [n]
  | row _ _ tail => heads tail
  | bind .mu n body => (heads body).filter (· ≠ n)
  | _ => []

@[simp] theorem heads_var (n : Nat) : (var n).heads = [n] := rfl

@[simp] theorem heads_row (k : RowKind) (fields : Row Ty) (tail : Ty) :
    (row k fields tail).heads = tail.heads := rfl

/-- What stands in front of all structure in a recursive type is not its own variable. -/
@[simp] theorem mem_heads_mu {n v : Nat} {body : Ty} :
    v ∈ (bind .mu n body).heads ↔ v ∈ body.heads ∧ v ≠ n := by simp [heads]

theorem mem_free_of_mem_heads {t : Ty} {v : Nat} (h : v ∈ t.heads) : v ∈ t.free := by
  induction t using inductOn with
  | number | char | unit | empty | arrow | list => simp [heads] at h
  | var n => simpa using h
  | row k fields tail _ iht => exact mem_free_row.mpr (Or.inl (iht h))
  | bind b n body ih =>
    cases b with
    | forAll => simp [heads] at h
    | mu =>
      rw [mem_heads_mu] at h
      exact mem_free_bind.mpr ⟨ih h.1, h.2⟩

/-! ## Substitution -/

/-- Below a binder its variable is not replaced. -/
theorem lookup_filter_ne (σ : Subst) (n v : Nat) :
    (σ.filter (·.1 ≠ n)).lookup v = if v = n then none else σ.lookup v := by
  induction σ with
  | nil => simp
  | cons p σ ih =>
    obtain ⟨m, t⟩ := p
    by_cases hm : m = n
    · subst hm
      rw [List.filter_cons_of_neg (by simp), ih]
      by_cases hv : v = m
      · simp [hv]
      · have hb : (v == m) = false := beq_false_of_ne hv
        simp [hv, List.lookup_cons, hb]
    · rw [List.filter_cons_of_pos (by simpa using hm), List.lookup_cons, List.lookup_cons, ih]
      by_cases hv : v = m
      · simp [hv, hm]
      · have hb : (v == m) = false := beq_false_of_ne hv
        simp [hb]

/-- Only the free variables of a type are replaced. -/
theorem substitute_of_unbound {t : Ty} : ∀ {σ : Subst}, (∀ v ∈ t.free, σ.lookup v = none) →
    t.substitute σ = t := by
  induction t using inductOn with
  | number | char | unit | empty => intro σ _; rw [substitute]
  | var n => intro σ h; rw [substitute, h n (by simp), Option.getD_none]
  | arrow a b iha ihb =>
    intro σ h
    rw [substitute, iha fun v hv => h v (mem_free_arrow.mpr (Or.inl hv)),
      ihb fun v hv => h v (mem_free_arrow.mpr (Or.inr hv))]
  | list t ih => intro σ h; rw [substitute, ih (by simpa using h)]
  | row k fields tail ihf iht =>
    intro σ h
    rw [substitute, substituteFields_eq_map, iht fun v hv => h v (mem_free_row.mpr (Or.inl hv)),
      Row.mapValues_eq_self fun p hp =>
        ihf p hp fun v hv => h v (mem_free_row.mpr (Or.inr ⟨p, hp, hv⟩))]
  | bind b n body ih =>
    intro σ h
    rw [substitute, ih fun v hv => ?_]
    rw [lookup_filter_ne]
    split
    · rfl
    · exact h v (mem_free_bind.mpr ⟨hv, ‹_›⟩)

/-- Replacing nothing changes nothing. -/
theorem substitute_nil (t : Ty) : t.substitute [] = t := substitute_of_unbound fun _ _ => rfl

/-- Two substitutions after each other are one, if the second leaves alone what the first puts in.
-/
theorem substitute_substitute {t : Ty} : ∀ {σ τ ρ : Subst},
    (∀ v, (∃ u, σ.lookup v = some u ∧ (∀ w ∈ u.free, τ.lookup w = none) ∧ ρ.lookup v = some u) ∨
      (σ.lookup v = none ∧ ρ.lookup v = τ.lookup v)) →
    (t.substitute σ).substitute τ = t.substitute ρ := by
  induction t using inductOn with
  | number | char | unit | empty => intro σ τ ρ _; simp only [substitute]
  | var n =>
    intro σ τ ρ h
    rw [substitute, substitute]
    rcases h n with ⟨u, hσ, hu, hρ⟩ | ⟨hσ, hρ⟩
    · rw [hσ, hρ, Option.getD_some]
      exact substitute_of_unbound hu
    · rw [hσ, hρ, Option.getD_none, substitute]
  | arrow a b iha ihb => intro σ τ ρ h; simp only [substitute, iha h, ihb h]
  | list t ih => intro σ τ ρ h; simp only [substitute, ih h]
  | row k fields tail ihf iht =>
    intro σ τ ρ h
    simp only [substitute, substituteFields_eq_map, iht h, Row.mapValues, List.map_map]
    congr 1
    exact List.map_congr_left fun p hp => by rw [Function.comp_apply, ihf p hp h]
  | bind b q body ih =>
    intro σ τ ρ h
    rw [substitute, substitute, substitute, ih fun v => ?_]
    rw [lookup_filter_ne, lookup_filter_ne, lookup_filter_ne]
    by_cases hv : v = q
    · simp [hv]
    · simp only [if_neg hv]
      rcases h v with ⟨u, hσ, hu, hρ⟩ | h
      · refine Or.inl ⟨u, hσ, fun w hw => ?_, hρ⟩
        rw [lookup_filter_ne, hu w hw, ite_self]
      · exact Or.inr h

theorem mem_substituteFields {σ : Subst} {fields : Row Ty} {q : Label × Ty} :
    q ∈ substituteFields σ fields ↔ ∃ p ∈ fields, q = (p.1, p.2.substitute σ) := by
  rw [substituteFields_eq_map, Row.mem_mapValues]

/-- **What is free after a substitution** was free before and is not replaced, or is free in what
replaces a free variable. -/
theorem mem_free_substitute {t : Ty} {v : Nat} :
    ∀ {σ : Subst}, v ∈ (t.substitute σ).free →
      (v ∈ t.free ∧ σ.lookup v = none) ∨ ∃ u s, u ∈ t.free ∧ σ.lookup u = some s ∧ v ∈ s.free := by
  induction t using inductOn with
  | number | char | unit | empty => intro σ h; simp [substitute, free] at h
  | var n =>
    intro σ h
    rw [substitute] at h
    cases hn : σ.lookup n with
    | none =>
      rw [hn, Option.getD_none, free_var, List.mem_singleton] at h
      exact Or.inl ⟨by simp [h], h ▸ hn⟩
    | some s =>
      rw [hn, Option.getD_some] at h
      exact Or.inr ⟨n, s, by simp, hn, h⟩
  | arrow a b iha ihb =>
    intro σ h
    rw [substitute, mem_free_arrow] at h
    rcases h with h | h
    · exact (iha h).imp (fun ⟨hv, hn⟩ => ⟨mem_free_arrow.mpr (Or.inl hv), hn⟩)
        fun ⟨u, s, hu, hs⟩ => ⟨u, s, mem_free_arrow.mpr (Or.inl hu), hs⟩
    · exact (ihb h).imp (fun ⟨hv, hn⟩ => ⟨mem_free_arrow.mpr (Or.inr hv), hn⟩)
        fun ⟨u, s, hu, hs⟩ => ⟨u, s, mem_free_arrow.mpr (Or.inr hu), hs⟩
  | list t ih =>
    intro σ h
    rw [substitute, free_list] at h
    simpa using ih h
  | row k fields tail ihf iht =>
    intro σ h
    rw [substitute, mem_free_row] at h
    rcases h with h | ⟨q, hq, h⟩
    · exact (iht h).imp (fun ⟨hv, hn⟩ => ⟨mem_free_row.mpr (Or.inl hv), hn⟩)
        fun ⟨u, s, hu, hs⟩ => ⟨u, s, mem_free_row.mpr (Or.inl hu), hs⟩
    · obtain ⟨p, hp, rfl⟩ := mem_substituteFields.mp hq
      exact (ihf p hp h).imp (fun ⟨hv, hn⟩ => ⟨mem_free_row.mpr (Or.inr ⟨p, hp, hv⟩), hn⟩)
        fun ⟨u, s, hu, hs⟩ => ⟨u, s, mem_free_row.mpr (Or.inr ⟨p, hp, hu⟩), hs⟩
  | bind b n body ih =>
    intro σ h
    rw [substitute, mem_free_bind] at h
    rcases ih h.1 with ⟨hv, hn⟩ | ⟨u, s, hu, hs, hv⟩
    · rw [lookup_filter_ne, if_neg h.2] at hn
      exact Or.inl ⟨mem_free_bind.mpr ⟨hv, h.2⟩, hn⟩
    · rw [lookup_filter_ne] at hs
      split at hs
      case isTrue => simp at hs
      case isFalse hun => exact Or.inr ⟨u, s, mem_free_bind.mpr ⟨hu, hun⟩, hs, hv⟩

/-- What is bound after a substitution was bound, or it is bound in what was put in. -/
theorem mem_binders_substitute {t : Ty} {q : Nat} : ∀ {σ : Subst}, q ∈ (t.substitute σ).binders →
    q ∈ t.binders ∨ ∃ v s, σ.lookup v = some s ∧ q ∈ s.binders := by
  induction t using inductOn with
  | number | char | unit | empty => intro σ h; simp [substitute, binders] at h
  | var n =>
    intro σ h
    rw [substitute] at h
    cases hn : σ.lookup n with
    | none => simp [hn, binders] at h
    | some s => exact Or.inr ⟨n, s, hn, by simpa [hn] using h⟩
  | arrow a b iha ihb =>
    intro σ h
    rw [substitute, mem_binders_arrow] at h
    rcases h with h | h
    · exact (iha h).imp_left fun h => mem_binders_arrow.mpr (Or.inl h)
    · exact (ihb h).imp_left fun h => mem_binders_arrow.mpr (Or.inr h)
  | list t ih => intro σ h; exact ih h
  | row k fields tail ihf iht =>
    intro σ h
    rw [substitute, mem_binders_row] at h
    rcases h with h | ⟨r, hr, h⟩
    · exact (iht h).imp_left fun h => mem_binders_row.mpr (Or.inl h)
    · obtain ⟨p, hp, rfl⟩ := mem_substituteFields.mp hr
      exact (ihf p hp h).imp_left fun h => mem_binders_row.mpr (Or.inr ⟨p, hp, h⟩)
  | bind b n body ih =>
    intro σ h
    rw [substitute, mem_binders_bind] at h
    rcases h with rfl | h
    · exact Or.inl (mem_binders_bind.mpr (Or.inl rfl))
    · refine (ih h).imp (fun h => mem_binders_bind.mpr (Or.inr h)) ?_
      rintro ⟨v, s, hs, hq⟩
      rw [lookup_filter_ne] at hs
      split at hs
      case isTrue => cases hs
      case isFalse => exact ⟨v, s, hs, hq⟩

/-- What stands in front after a substitution. -/
theorem mem_heads_substitute {t : Ty} {v : Nat} :
    ∀ {σ : Subst}, v ∈ (t.substitute σ).heads →
      (v ∈ t.heads ∧ σ.lookup v = none) ∨ ∃ u s, u ∈ t.heads ∧ σ.lookup u = some s ∧
      v ∈ s.heads := by
  induction t using inductOn with
  | number | char | unit | empty | arrow | list => intro σ h; simp [substitute, heads] at h
  | var n =>
    intro σ h
    rw [substitute] at h
    cases hn : σ.lookup n with
    | none =>
      rw [hn, Option.getD_none, heads_var, List.mem_singleton] at h
      exact Or.inl ⟨by simp [h], h ▸ hn⟩
    | some s =>
      rw [hn, Option.getD_some] at h
      exact Or.inr ⟨n, s, by simp, hn, h⟩
  | row k fields tail _ iht => intro σ h; exact iht h
  | bind b n body ih =>
    intro σ h
    cases b with
    | forAll => simp [substitute, heads] at h
    | mu =>
      rw [substitute, mem_heads_mu] at h
      rcases ih h.1 with ⟨hv, hn⟩ | ⟨u, s, hu, hs, hv⟩
      · rw [lookup_filter_ne, if_neg h.2] at hn
        exact Or.inl ⟨mem_heads_mu.mpr ⟨hv, h.2⟩, hn⟩
      · rw [lookup_filter_ne] at hs
        split at hs
        case isTrue => simp at hs
        case isFalse hun => exact Or.inr ⟨u, s, mem_heads_mu.mpr ⟨hu, hun⟩, hs, hv⟩

/-! ## Flattening -/

@[simp] theorem heads_prependRow (k : RowKind) (fields : Row Ty) (tail : Ty) :
    (prependRow k fields tail).heads = tail.heads := by
  cases tail with
  | row k' inner rest => rw [prependRow]; split <;> rfl
  | _ => rfl

/-- Flattening moves nothing in front of structure. -/
@[simp] theorem heads_flatten (t : Ty) : t.flatten.heads = t.heads := by
  induction t using inductOn with
  | number | char | unit | empty | var | arrow | list => simp [flatten, heads]
  | row k fields tail _ iht => rw [flatten, heads_prependRow, iht, heads_row]
  | bind b n body ih => cases b <;> simp [flatten, heads, ih]

/-- Merging rows adds no variables. -/
theorem mem_free_prependRow {k : RowKind} {fields : Row Ty} {tail : Ty} {v : Nat}
    (h : v ∈ (prependRow k fields tail).free) : v ∈ (row k fields tail).free := by
  cases tail with
  | row k' inner rest =>
    rw [prependRow] at h
    split at h
    case isFalse => exact h
    case isTrue =>
      rw [Row.union_eq_setAll, mem_free_row] at h
      rw [mem_free_row, mem_free_row]
      rcases h with h | ⟨p, hp, h⟩
      · exact Or.inl (Or.inl h)
      · exact (Row.mem_setAll hp).elim (fun hp => Or.inl (Or.inr ⟨p, hp, h⟩))
          fun hp => Or.inr ⟨p, hp, h⟩
  | _ => exact h

/-- Flattening brings no variable in. -/
theorem mem_free_flatten {t : Ty} {v : Nat} (h : v ∈ t.flatten.free) : v ∈ t.free := by
  induction t using inductOn with
  | number | char | unit | empty | var => rwa [flatten] at h
  | arrow a b iha ihb =>
    rw [flatten, mem_free_arrow] at h
    exact mem_free_arrow.mpr (h.imp iha ihb)
  | list t ih => rw [flatten, free_list] at h; rw [free_list]; exact ih h
  | bind b n body ih =>
    rw [flatten, mem_free_bind] at h
    exact mem_free_bind.mpr ⟨ih h.1, h.2⟩
  | row k fields tail ihf iht =>
    rw [flatten] at h
    have h := mem_free_prependRow h
    rw [mem_free_row, flattenFields_eq_map] at h
    rw [mem_free_row]
    rcases h with h | ⟨q, hq, h⟩
    · exact Or.inl (iht h)
    · obtain ⟨p, hp, rfl⟩ := Row.mem_mapValues.mp hq
      exact Or.inr ⟨p, hp, ihf p hp h⟩

theorem mem_binders_prependRow {k : RowKind} {fields : Row Ty} {tail : Ty} {q : Nat}
    (h : q ∈ (prependRow k fields tail).binders) : q ∈ (row k fields tail).binders := by
  cases tail with
  | row k' inner rest =>
    rw [prependRow] at h
    split at h
    case isFalse => exact h
    case isTrue =>
      rw [Row.union_eq_setAll, mem_binders_row] at h
      rw [mem_binders_row, mem_binders_row]
      rcases h with h | ⟨p, hp, h⟩
      · exact Or.inl (Or.inl h)
      · exact (Row.mem_setAll hp).elim (fun hp => Or.inl (Or.inr ⟨p, hp, h⟩))
          fun hp => Or.inr ⟨p, hp, h⟩
  | _ => exact h

/-- Flattening brings no binder in. -/
theorem mem_binders_flatten {t : Ty} {q : Nat} (h : q ∈ t.flatten.binders) : q ∈ t.binders := by
  induction t using inductOn with
  | number | char | unit | empty | var => rwa [flatten] at h
  | arrow a b iha ihb =>
    rw [flatten, mem_binders_arrow] at h
    exact mem_binders_arrow.mpr (h.imp iha ihb)
  | list t ih => exact ih h
  | bind b n body ih =>
    rw [flatten, mem_binders_bind] at h
    exact mem_binders_bind.mpr (h.imp_right ih)
  | row k fields tail ihf iht =>
    rw [flatten] at h
    have h := mem_binders_prependRow h
    rw [mem_binders_row, flattenFields_eq_map] at h
    rw [mem_binders_row]
    rcases h with h | ⟨r, hr, h⟩
    · exact Or.inl (iht h)
    · obtain ⟨p, hp, rfl⟩ := Row.mem_mapValues.mp hr
      exact Or.inr ⟨p, hp, ihf p hp h⟩

end Ty

end RowLang

import RowLang.Proofs.Ty.Meaning

/-!
# Proofs/Ty/Capture — what a substitution captures, and what stays free

A binder hides its own variable from a substitution, but it does not get out of the way of the types
that are put in below it: a variable `v` of such a type is captured when the place stands below a
binder of `v`.  The free occurrences in a type are told apart by that: those `exposed` to `v` and
those in the `shade` of a binder of `v`.  `mem_free_substitute_iff` says what is free after any
substitution, and `free_substitute_iff_forall_captured` when nothing is missing.
-/

namespace RowLang.Ty

/-! ## Exposed and shaded occurrences -/

mutual

/-- The variables with a free occurrence that no binder of `v` stands over. -/
def exposed (v : Nat) : Ty → List Nat
  | var n => [n]
  | arrow a b => exposed v a ++ exposed v b
  | list t => exposed v t
  | row _ fields tail => exposed v tail ++ exposedOfFields v fields
  | bind _ q body => if q = v then [] else (exposed v body).filter (· ≠ q)
  | _ => []

/-- The variables with such an occurrence in some field. -/
def exposedOfFields (v : Nat) : List (Label × Ty) → List Nat
  | [] => []
  | (_, t) :: fields => exposed v t ++ exposedOfFields v fields

end

mutual

/-- The variables with a free occurrence below a binder of `v`. -/
def shade (v : Nat) : Ty → List Nat
  | arrow a b => shade v a ++ shade v b
  | list t => shade v t
  | row _ fields tail => shade v tail ++ shadeOfFields v fields
  | bind _ q body => (if q = v then free body else shade v body).filter (· ≠ q)
  | _ => []

/-- The variables with such an occurrence in some field. -/
def shadeOfFields (v : Nat) : List (Label × Ty) → List Nat
  | [] => []
  | (_, t) :: fields => shade v t ++ shadeOfFields v fields

end

theorem mem_exposedOfFields {v n : Nat} {fields : Row Ty} :
    n ∈ exposedOfFields v fields ↔ ∃ p ∈ fields, n ∈ p.2.exposed v := by
  induction fields with
  | nil => simp [exposedOfFields]
  | cons p fields ih => simp [exposedOfFields, ih]

theorem mem_shadeOfFields {v n : Nat} {fields : Row Ty} :
    n ∈ shadeOfFields v fields ↔ ∃ p ∈ fields, n ∈ p.2.shade v := by
  induction fields with
  | nil => simp [shadeOfFields]
  | cons p fields ih => simp [shadeOfFields, ih]

@[simp] theorem mem_exposed_row {v n : Nat} {k : RowKind} {fields : Row Ty} {tail : Ty} :
    n ∈ (row k fields tail).exposed v ↔ n ∈ tail.exposed v ∨ ∃ p ∈ fields, n ∈ p.2.exposed v := by
  rw [exposed, List.mem_append, mem_exposedOfFields]

@[simp] theorem mem_shade_row {v n : Nat} {k : RowKind} {fields : Row Ty} {tail : Ty} :
    n ∈ (row k fields tail).shade v ↔ n ∈ tail.shade v ∨ ∃ p ∈ fields, n ∈ p.2.shade v := by
  rw [shade, List.mem_append, mem_shadeOfFields]

@[simp] theorem mem_exposed_bind {v n q : Nat} {b : Binder} {body : Ty} :
    n ∈ (bind b q body).exposed v ↔ q ≠ v ∧ n ∈ body.exposed v ∧ n ≠ q := by
  rw [exposed]
  split
  case isTrue hq => simp [hq]
  case isFalse hq => simp [hq]

@[simp] theorem mem_shade_bind {v n q : Nat} {b : Binder} {body : Ty} :
    n ∈ (bind b q body).shade v ↔ (q = v ∧ n ∈ body.free ∨ q ≠ v ∧ n ∈ body.shade v) ∧ n ≠ q := by
  rw [shade, List.mem_filter]
  split
  case isTrue hq => simp [hq]
  case isFalse hq => simp [hq]

/-- **Every free occurrence is exposed to a variable or in the shade of its binders.** -/
theorem mem_free_iff_exposed_or_shade (v : Nat) {t : Ty} {n : Nat} :
    n ∈ t.free ↔ n ∈ t.exposed v ∨ n ∈ t.shade v := by
  induction t using inductOn with
  | number | char | unit | empty | var => simp [free, exposed, shade]
  | arrow a b iha ihb =>
    rw [mem_free_arrow, iha, ihb, exposed, shade, List.mem_append, List.mem_append]
    tauto
  | list t ih => rw [free_list, ih, exposed, shade]
  | row k fields tail ihf iht =>
    have hfields : (∃ p ∈ fields, n ∈ p.2.free) ↔
        (∃ p ∈ fields, n ∈ p.2.exposed v) ∨ ∃ p ∈ fields, n ∈ p.2.shade v := by
      constructor
      · rintro ⟨p, hp, hn⟩
        exact ((ihf p hp).mp hn).imp (fun h => ⟨p, hp, h⟩) fun h => ⟨p, hp, h⟩
      · rintro (⟨p, hp, hn⟩ | ⟨p, hp, hn⟩)
        · exact ⟨p, hp, (ihf p hp).mpr (Or.inl hn)⟩
        · exact ⟨p, hp, (ihf p hp).mpr (Or.inr hn)⟩
    rw [mem_free_row, iht, hfields, mem_exposed_row, mem_shade_row, or_or_or_comm]
  | bind b q body ih =>
    rw [mem_free_bind, mem_exposed_bind, mem_shade_bind]
    by_cases hq : q = v
    · simp [hq]
    · rw [ih]
      tauto

/-! ## What is free after a substitution -/

/-- The variable is not replaced. -/
def Stays (σ : Subst) (t : Ty) (v : Nat) : Prop := v ∈ t.free ∧ σ.lookup v = none

/-- A type with the variable is put in where no binder of the variable stands above. -/
def PutIn (σ : Subst) (t : Ty) (v : Nat) : Prop :=
  ∃ n ∈ t.exposed v, ∃ s, σ.lookup n = some s ∧ v ∈ s.free

/-- A type with the variable is put in below a binder of the variable. -/
def Captured (σ : Subst) (t : Ty) (v : Nat) : Prop :=
  ∃ n ∈ t.shade v, ∃ s, σ.lookup n = some s ∧ v ∈ s.free

/-- The variable would be free if binders got out of the way. -/
def FreeAfter (σ : Subst) (t : Ty) (v : Nat) : Prop :=
  Stays σ t v ∨ ∃ n ∈ t.free, ∃ s, σ.lookup n = some s ∧ v ∈ s.free

variable {σ : Subst} {v : Nat}

theorem stays_row {k : RowKind} {fields : Row Ty} {tail : Ty} :
    Stays σ (row k fields tail) v ↔ Stays σ tail v ∨ ∃ p ∈ fields, Stays σ p.2 v := by
  simp only [Stays, mem_free_row, or_and_right, ← and_assoc, exists_and_right]

theorem putIn_arrow {a b : Ty} : PutIn σ (arrow a b) v ↔ PutIn σ a v ∨ PutIn σ b v := by
  simp only [PutIn, exposed, List.mem_append, or_and_right, exists_or]

theorem putIn_list {t : Ty} : PutIn σ (list t) v ↔ PutIn σ t v := by simp only [PutIn, exposed]

theorem putIn_row {k : RowKind} {fields : Row Ty} {tail : Ty} :
    PutIn σ (row k fields tail) v ↔ PutIn σ tail v ∨ ∃ p ∈ fields, PutIn σ p.2 v := by
  simp only [PutIn, mem_exposed_row, or_and_right, exists_or]
  refine or_congr_right ⟨?_, ?_⟩
  · rintro ⟨n, ⟨p, hp, hn⟩, hs⟩
    exact ⟨p, hp, n, hn, hs⟩
  · rintro ⟨p, hp, n, hn, hs⟩
    exact ⟨n, ⟨p, hp, hn⟩, hs⟩

theorem putIn_bind {b : Binder} {q : Nat} {body : Ty} :
    PutIn σ (bind b q body) v ↔ q ≠ v ∧ PutIn (σ.filter (·.1 ≠ q)) body v := by
  constructor
  · rintro ⟨n, hn, s, hs, hv⟩
    obtain ⟨hq, hn, hnq⟩ := mem_exposed_bind.mp hn
    exact ⟨hq, n, hn, s, by rw [lookup_filter_ne, if_neg hnq, hs], hv⟩
  · rintro ⟨hq, n, hn, s, hs, hv⟩
    rw [lookup_filter_ne] at hs
    split at hs
    case isTrue => cases hs
    case isFalse hnq => exact ⟨n, mem_exposed_bind.mpr ⟨hq, hn, hnq⟩, s, hs, hv⟩

/-- **The free variables after any substitution**: those that are not replaced, and those of the
types that are put in where no binder of theirs stands above the place. -/
theorem mem_free_substitute_iff {t : Ty} :
    ∀ {σ : Subst}, v ∈ (t.substitute σ).free ↔ Stays σ t v ∨ PutIn σ t v := by
  induction t using inductOn with
  | number | char | unit | empty => simp [substitute, free, Stays, PutIn, exposed]
  | var n =>
    intro σ
    rw [substitute, Stays, PutIn, exposed, free_var]
    cases hn : σ.lookup n with
    | none =>
      simp only [Option.getD_none, free_var, List.mem_singleton, exists_eq_left, hn]
      constructor
      · rintro rfl
        exact Or.inl ⟨rfl, hn⟩
      · rintro (⟨rfl, -⟩ | ⟨s, hs, -⟩)
        · rfl
        · cases hs
    | some s =>
      simp only [Option.getD_some, List.mem_singleton, exists_eq_left, hn, Option.some.injEq,
        exists_eq_left']
      constructor
      · exact Or.inr
      · rintro (⟨rfl, hv⟩ | hs)
        · rw [hn] at hv
          cases hv
        · exact hs
  | arrow a b iha ihb =>
    intro σ
    rw [substitute, mem_free_arrow, iha, ihb, putIn_arrow, Stays, Stays, Stays, mem_free_arrow]
    tauto
  | list t ih =>
    intro σ
    rw [substitute, free_list, ih, putIn_list, Stays, Stays, free_list]
  | row k fields tail ihf iht =>
    intro σ
    have hfields : (∃ q ∈ substituteFields σ fields, v ∈ q.2.free) ↔
        (∃ p ∈ fields, Stays σ p.2 v) ∨ ∃ p ∈ fields, PutIn σ p.2 v := by
      constructor
      · rintro ⟨q, hq, hv⟩
        obtain ⟨p, hp, rfl⟩ := mem_substituteFields.mp hq
        exact ((ihf p hp).mp hv).imp (fun h => ⟨p, hp, h⟩) fun h => ⟨p, hp, h⟩
      · rintro (⟨p, hp, hv⟩ | ⟨p, hp, hv⟩)
        · exact ⟨_, mem_substituteFields.mpr ⟨p, hp, rfl⟩, (ihf p hp).mpr (Or.inl hv)⟩
        · exact ⟨_, mem_substituteFields.mpr ⟨p, hp, rfl⟩, (ihf p hp).mpr (Or.inr hv)⟩
    rw [substitute, mem_free_row, iht, hfields, putIn_row, stays_row, or_or_or_comm]
  | bind b q body ih =>
    intro σ
    rw [substitute, mem_free_bind, ih, putIn_bind, Stays, Stays, mem_free_bind, lookup_filter_ne]
    by_cases hv : v = q
    · simp [hv]
    · simp [hv, Ne.symm hv]

/-- What ought to be free is replaced by nothing, put in, or captured. -/
theorem freeAfter_iff {t : Ty} : FreeAfter σ t v ↔ Stays σ t v ∨ PutIn σ t v ∨ Captured σ t v := by
  rw [FreeAfter, PutIn, Captured]
  simp only [mem_free_iff_exposed_or_shade v (t := t), or_and_right, exists_or]

/-- **Substitution keeps variables free exactly up to capture**: all those are free that ought to
be, and no others, if and only if what a binder captures is free elsewhere. -/
theorem forall_free_substitute_iff_freeAfter (σ : Subst) (t : Ty) :
    (∀ v, v ∈ (t.substitute σ).free ↔ FreeAfter σ t v) ↔
      ∀ v, Captured σ t v → v ∈ (t.substitute σ).free := by
  refine forall_congr' fun v => ?_
  rw [freeAfter_iff, mem_free_substitute_iff]
  tauto

/-- A recursive type captures its own variable from what is put in, and then it is not free. -/
theorem captured_by_mu : ∃ σ t v, FreeAfter σ t v ∧ Captured σ t v ∧ v ∉ (t.substitute σ).free :=
  ⟨[(1, var 0)], bind .mu 0 (list (var 1)), 0, Or.inr ⟨1, by decide, var 0, rfl, by decide⟩,
    ⟨1, by decide, var 0, rfl, by decide⟩, by decide⟩

/-! ## Where nothing is captured -/

/-- There is shade only below binders. -/
theorem mem_binders_of_mem_shade {t : Ty} {n : Nat} : n ∈ t.shade v → v ∈ t.binders := by
  induction t using inductOn with
  | number | char | unit | empty | var => simp [shade]
  | arrow a b iha ihb =>
    rw [shade, List.mem_append, mem_binders_arrow]
    exact Or.imp iha ihb
  | list t ih => exact ih
  | row k fields tail ihf iht =>
    rw [mem_shade_row, mem_binders_row]
    rintro (hn | ⟨p, hp, hn⟩)
    · exact Or.inl (iht hn)
    · exact Or.inr ⟨p, hp, ihf p hp hn⟩
  | bind b q body ih =>
    rw [mem_shade_bind, mem_binders_bind]
    rintro ⟨⟨rfl, -⟩ | ⟨-, hn⟩, -⟩
    · exact Or.inl rfl
    · exact Or.inr (ih hn)

theorem CatchesNone.not_captured {t : Ty} (h : t.CatchesNone σ) : ¬ Captured σ t v := by
  rintro ⟨n, hn, s, hs, hv⟩
  exact h v (mem_binders_of_mem_shade hn) n s hs hv

/-- Where no binder of the type has a variable of what is put in, all variables stay free. -/
theorem CatchesNone.mem_free_substitute {t : Ty} (h : t.CatchesNone σ) :
    v ∈ (t.substitute σ).free ↔ FreeAfter σ t v := by
  rw [freeAfter_iff, mem_free_substitute_iff, or_iff_left (b := Captured σ t v) h.not_captured]

end RowLang.Ty

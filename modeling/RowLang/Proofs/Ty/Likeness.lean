import RowLang.Proofs.Ty.Role

/-!
# Proofs/Ty/Likeness — types of one text

Where markers stand only behind the fields of the rows that they close (`Anchored`), types of one
text differ at most in the order of their fields (`Alike`), so they have the same tree and fit the
same roles.  A type that fits a role is anchored unless it is a marker itself.  So two types of one
text in places of one kind are alike (`Fits.alike`), and if one is the rest of a row and the other
is not, they may also be a marker and the empty row that it closes (`Fits.alike_or_end`): that is
the only case in which a text says too little.
-/

namespace RowLang.Ty

variable {K : Census} {r r' : Role}

/-- The same type up to the order of fields. -/
def Alike (s t : Ty) : Prop := s.ordered = t.ordered

theorem Alike.symm {s t : Ty} (h : Alike s t) : Alike t s := Eq.symm h

theorem Alike.tree_eq {s t : Ty} (h : Alike s t) (hs : s.Tidy) (ht : t.Tidy) (ρ : Nat → Tree) :
    s.tree ρ = t.tree ρ := by
  rw [← tree_ordered hs, ← tree_ordered ht, h]

theorem Alike.fits {s t : Ty} (h : Alike s t) (hs : Fits K r s) : Fits K r t := by
  rwa [← fits_ordered, ← h, fits_ordered]

/-! ## Markers in their places -/

mutual

/-- Markers stand only behind the fields of the rows that they close. -/
def Anchored : Ty → Prop
  | unit => False
  | empty => False
  | arrow a b => Anchored a ∧ Anchored b
  | list t => Anchored t
  | row k fields tail => FieldsAnchored fields ∧ (tail = k.end ∨ Anchored tail)
  | bind _ _ body => Anchored body
  | _ => True

/-- Markers stand only behind the fields of rows in the fields. -/
def FieldsAnchored : List (Label × Ty) → Prop
  | [] => True
  | (_, t) :: fields => Anchored t ∧ FieldsAnchored fields

end

theorem fieldsAnchored_iff {fields : Row Ty} :
    FieldsAnchored fields ↔ ∀ p ∈ fields, p.2.Anchored := by
  induction fields with
  | nil => simp [FieldsAnchored]
  | cons p fields ih => simp [FieldsAnchored, ih]

theorem anchored_row {k : RowKind} {fields : Row Ty} {tail : Ty} : (row k fields tail).Anchored ↔
    (∀ p ∈ fields, p.2.Anchored) ∧ (tail = k.end ∨ tail.Anchored) := by
  rw [Anchored, fieldsAnchored_iff]

theorem Anchored.ordered {t : Ty} (h : t.Anchored) : t.ordered.Anchored := by
  induction t using Ty.inductOn with
  | number | char | var => trivial
  | unit | empty => exact h
  | arrow a b iha ihb => exact ⟨iha h.1, ihb h.2⟩
  | list t ih => exact ih h
  | bind b n body ih => exact ih h
  | row k fields tail ihf iht =>
    obtain ⟨hf, ht⟩ := anchored_row.mp h
    rw [ordered_row]
    refine anchored_row.mpr ⟨fun q hq => ?_, ht.imp (fun he => ?_) iht⟩
    · obtain ⟨p, hp, rfl⟩ := Row.mem_mapValues.mp hq
      exact ihf p (Row.mem_sorted.mp hp) (hf p (Row.mem_sorted.mp hp))
    · rw [he]
      cases k <;> rfl

/-- Nothing is filled in where every marker is behind its fields. -/
theorem Anchored.filled_eq {t : Ty} (h : t.Anchored) : t.filled = t := by
  induction t using Ty.inductOn with
  | number | char | var => rw [filled] <;> simp
  | unit | empty => exact h.elim
  | arrow a b iha ihb => rw [filled, iha h.1, ihb h.2]
  | list t ih => rw [filled, ih h]
  | bind b n body ih => rw [filled, ih h]
  | row k fields tail ihf iht =>
    obtain ⟨hf, ht⟩ := anchored_row.mp h
    rw [filled_row, Row.mapValues_eq_self fun p hp => ihf p hp (hf p hp)]
    split
    case isTrue hend => rw [isEnd_iff.mp hend]
    case isFalse hend => rw [iht (ht.resolve_left fun he => hend (isEnd_iff.mpr he))]

theorem Anchored.shown_eq {t : Ty} (h : t.Anchored) : t.shown = t.ordered := h.ordered.filled_eq

theorem shown_end (k : RowKind) : k.end.shown = row k [] k.end := by cases k <;> rfl

/-- **Types of one text are alike** where every marker is behind its fields. -/
theorem Anchored.alike {s t : Ty} (hs : s.Anchored) (ht : t.Anchored) (hst : s.Tidy) (htt : t.Tidy)
    (h : s.text = t.text) : Alike s t := by
  have hshown := shown_eq_of_text_eq hst htt h
  rwa [hs.shown_eq, ht.shown_eq] at hshown

/-! ## Types in their places -/

/-- A type in its place is anchored, unless it is a marker. -/
theorem Fits.anchored_or_end {t : Ty} : ∀ {r}, Fits K r t →
    t.Anchored ∨ ∃ k, r.kind? = some k ∧ t = k.end := by
  induction t using Ty.inductOn with
  | number | char | var => intro r _; exact Or.inl trivial
  | unit => rintro r ⟨room, rfl⟩; exact Or.inr ⟨.record, rfl, rfl⟩
  | empty => rintro r ⟨room, rfl⟩; exact Or.inr ⟨.variant, rfl, rfl⟩
  | arrow a b iha ihb =>
    intro r h
    exact Or.inl ⟨(iha h.2.1).resolve_right (by simp [Role.kind?]),
      (ihb h.2.2).resolve_right (by simp [Role.kind?])⟩
  | list t ih =>
    intro r h
    exact Or.inl ((ih h.2).resolve_right (by simp [Role.kind?]))
  | bind b p body ih =>
    intro r h
    cases b with
    | forAll => exact h.elim
    | mu => exact Or.inl ((ih h.2.2.1).resolve_right fun ⟨k, _, he⟩ => h.2.2.2.2.2 k he)
  | row k fields tail ihf iht =>
    intro r h
    obtain ⟨_, _, _, hf, ht⟩ := fits_row.mp h
    refine Or.inl (anchored_row.mpr ⟨fun p hp => ?_, ?_⟩)
    · exact (ihf p hp (hf p hp)).resolve_right (by simp [Role.kind?])
    · refine (iht ht).symm.imp (fun ⟨k', he, hend⟩ => ?_) id
      cases he
      exact hend

/-- What is a row in order is a row. -/
theorem eq_row_of_ordered_eq {k : RowKind} {t : Ty} {fields : Row Ty} {tail : Ty}
    (h : t.ordered = row k fields tail) : ∃ fields' tail', t = row k fields' tail' ∧
      Row.mapValues ordered (Row.sorted fields') = fields ∧ tail'.ordered = tail := by
  cases t with
  | row k' fields' tail' =>
    rw [ordered_row, row.injEq] at h
    obtain ⟨rfl, hf, ht⟩ := h
    exact ⟨fields', tail', rfl, hf, ht⟩
  | _ => simp [ordered] at h

theorem eq_empty_row_of_ordered {k : RowKind} {t : Ty} (h : t.ordered = row k [] k.end) :
    t = row k [] k.end := by
  obtain ⟨fields, tail, rfl, hf, ht⟩ := eq_row_of_ordered_eq h
  rw [Row.mapValues, List.map_eq_nil_iff, Row.sorted_eq_nil] at hf
  have hend : isEnd k tail = true := by rw [← isEnd_ordered, ht]; exact isEnd_iff.mpr rfl
  rw [hf, isEnd_iff.mp hend]

/-- An anchored type that reads like a marker is the empty row that it closes. -/
theorem Anchored.eq_empty_row {t : Ty} {k : RowKind} (ht : t.Anchored) (htt : t.Tidy)
    (h : t.text = k.end.text) : t = row k [] k.end := by
  have hshown := shown_eq_of_text_eq htt (by cases k <;> trivial) h
  rw [ht.shown_eq, shown_end] at hshown
  exact eq_empty_row_of_ordered hshown

/-- The rest of a row is not empty. -/
theorem Fits.ne_empty_row {k : RowKind} {t : Ty} (h : Fits K r t) (hr : r.kind? = some k) :
    t ≠ row k [] k.end := by
  rintro rfl
  cases r with
  | whole => simp [Role.kind?] at hr
  | tail k' room => exact (fits_row.mp h).1.2 rfl

theorem end_text_injective {k k' : RowKind} (h : k.end.text = k'.end.text) : k = k' := by
  have hshown := shown_eq_of_text_eq (by cases k <;> trivial) (by cases k' <;> trivial) h
  rw [shown_end, shown_end, row.injEq] at hshown
  exact hshown.1

/-- **Types of one text in places of one kind are alike.** -/
theorem alike_of_text_eq {s t : Ty} (hs : Fits K r s) (ht : Fits K r' t) (hk : r.kind? = r'.kind?)
    (h : s.text = t.text) : Alike s t := by
  rcases hs.anchored_or_end with hsa | ⟨k, hr, rfl⟩
  · rcases ht.anchored_or_end with hta | ⟨k, hr, rfl⟩
    · exact hsa.alike hta hs.tidy ht.tidy h
    · exact absurd (hsa.eq_empty_row hs.tidy h) (hs.ne_empty_row (hk.trans hr))
  · rcases ht.anchored_or_end with hta | ⟨k', hr', rfl⟩
    · exact absurd (hta.eq_empty_row ht.tidy h.symm) (ht.ne_empty_row (hk.symm.trans hr))
    · rw [end_text_injective h]
      rfl

theorem Alike.eq_row {t : Ty} {k : RowKind} {fields : Row Ty} {tail : Ty}
    (h : Alike (row k fields tail) t) (hne : fields ≠ []) :
    ∃ fields' tail', t = row k fields' tail' ∧ fields' ≠ [] := by
  obtain ⟨fields', tail', rfl, hf, -⟩ := eq_row_of_ordered_eq (h.symm.trans (ordered_row ..))
  refine ⟨fields', tail', rfl, fun hnil => hne ?_⟩
  rw [hnil] at hf
  exact Row.sorted_eq_nil.mp (List.map_eq_nil_iff.mp hf.symm)

/-- A type without a binder in front is like no type with one. -/
theorem Alike.ne_bind {s t : Ty} (h : Alike s t) (hs : ∀ b n body, s ≠ bind b n body) :
    ∀ b n body, t ≠ bind b n body := by
  rintro b n body rfl
  unfold Alike at h
  cases s with
  | bind => exact hs _ _ _ rfl
  | _ => simp [ordered] at h

/-- **The rest of a row and something that is none are alike** when they have one text, unless they
are a marker and the empty row that it closes. -/
theorem alike_or_end {k : RowKind} {room : Finset Label} {s t : Ty} (hs : Fits K (.tail k room) s)
    (ht : Fits K r t) (hk : r.kind? ≠ some k) (h : s.text = t.text) :
    (s = k.end ∧ t = row k [] k.end) ∨
      ((∃ fields tail, s = row k fields tail ∧ fields ≠ []) ∧ Alike s t) := by
  have hrole : ∀ {r'}, Role.tail k room = r' → r = r' → False := fun he he' =>
    hk (by rw [he', ← he]; rfl)
  rcases hs.anchored_or_end with hsa | ⟨k', hr, rfl⟩
  · rcases ht.anchored_or_end with hta | ⟨k', hr, rfl⟩
    · have halike := hsa.alike hta hs.tidy ht.tidy h
      refine Or.inr ⟨?_, halike⟩
      have ht' := halike.symm.fits ht
      -- A variable and a binder have one role, and these are two.
      cases s with
      | number | char | arrow | list => simp [Fits] at hs
      | unit | empty => exact hsa.elim
      | var n => exact (hrole hs.1.symm ht'.1.symm).elim
      | row k' fields tail =>
        obtain ⟨rfl, hne⟩ := (fits_row.mp hs).1
        exact ⟨fields, tail, rfl, hne⟩
      | bind b p body =>
        cases b with
        | forAll => exact hs.elim
        | mu => exact (hrole hs.1.symm ht'.1.symm).elim
    · have he := hsa.eq_empty_row hs.tidy h
      obtain ⟨rfl, -⟩ := (fits_row.mp (he ▸ hs)).1
      exact absurd hr hk
  · cases hr
    rcases ht.anchored_or_end with hta | ⟨k', hr', rfl⟩
    · exact Or.inl ⟨rfl, hta.eq_empty_row ht.tidy h.symm⟩
    · exact absurd (end_text_injective h ▸ hr') hk

end RowLang.Ty

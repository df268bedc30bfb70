import RowLang.Lazy.Basic
import RowLang.Proofs.Row.Lookup

/-!
# Proofs/Lazy/Cells — what reading a label comes to

Another cell for a label changes what reading that label comes to and nothing else
(`access_setCell_of_ne`, `access_setCell_self`); the initializers stay what they are
(`initializers_setCell`).
-/

namespace RowLang.LazyRow

variable {ι α : Type} {r : LazyRow ι α} {l k : Label} {c : Cell α}

theorem access_ne_missing (h : l ∈ Row.labels r) : r.access l ≠ .missing := by
  obtain ⟨s, hs⟩ := Option.isSome_iff_exists.mp (Row.lookup_isSome_iff.mpr h)
  rw [access, Row.get?, hs]
  rcases s with ⟨i, c⟩
  cases c <;> simp

/-- A value that is ready stands in its cell. -/
theorem mem_of_access_ready {x : α} (h : r.access l = .ready x) : ∃ i, (l, ⟨i, .ready x⟩) ∈ r := by
  rw [access, Row.get?] at h
  split at h
  case h_3 i y hs =>
    cases h
    exact ⟨i, Row.mem_of_lookup hs⟩
  all_goals cases h

/-- An initializer that is to be run stands beside an empty cell. -/
theorem mem_of_access_start {i : ι} (h : r.access l = .start i) : (l, ⟨i, .absent⟩) ∈ r := by
  rw [access, Row.get?] at h
  split at h
  case h_4 j hs =>
    cases h
    exact Row.mem_of_lookup hs
  all_goals cases h

/-- A fresh row has empty cells only. -/
theorem mem_ofRow {row : Row ι} {p : Label × Slot ι α} :
    p ∈ (ofRow row : LazyRow ι α) ↔ ∃ q ∈ row, p = (q.1, ⟨q.2, .absent⟩) := Row.mem_mapValues

/-- What another cell changes of a row. -/
theorem mem_setCell {c : Cell α} {p : Label × Slot ι α} (h : p ∈ r.setCell l c) :
    ∃ q ∈ r, p.1 = q.1 ∧ p.2.initializer = q.2.initializer ∧
      (p.2.cell = q.2.cell ∨ p.1 = l ∧ p.2.cell = c) := by
  obtain ⟨q, hq, rfl⟩ := List.mem_map.mp h
  refine ⟨q, hq, ?_⟩
  split
  case isTrue hl => exact ⟨rfl, rfl, Or.inr ⟨hl, rfl⟩⟩
  case isFalse => exact ⟨rfl, rfl, Or.inl rfl⟩

/-- Another cell leaves the initializer. -/
theorem lookup_setCell (r : LazyRow ι α) (l k : Label) (c : Cell α) :
    List.lookup k (r.setCell l c) =
      if k = l then (List.lookup k r).map fun s => { s with cell := c } else List.lookup k r := by
  induction r with
  | nil => simp [setCell]
  | cons p r ih =>
    obtain ⟨m, s⟩ := p
    have hcons : setCell ((m, s) :: r) l c =
        (m, if m = l then { s with cell := c } else s) :: setCell r l c := by
      rw [setCell, List.map_cons, ← setCell]
      split <;> rfl
    rw [hcons, Row.lookup_cons_eq, Row.lookup_cons_eq, ih]
    grind

theorem access_setCell_of_ne (r : LazyRow ι α)
    (h : k ≠ l) : (r.setCell l c).access k = r.access k := by
  rw [access, access, Row.get?, Row.get?, lookup_setCell, if_neg h]

/-- The value of a field that is computed. -/
theorem access_finish {r : LazyRow ι α} (h : l ∈ Row.labels r) (x : α) :
    (r.finish l x).access l = .ready x := by
  obtain ⟨s, hs⟩ := Option.isSome_iff_exists.mp (Row.lookup_isSome_iff.mpr h)
  rw [finish, access, Row.get?, lookup_setCell, if_pos rfl, hs]
  rfl

theorem mem_labels_of_access_start {r : LazyRow ι α} {i : ι} (h : r.access l = .start i) :
    l ∈ Row.labels r := Row.mem_labels_of_mem (mem_of_access_start h)

theorem lookup_of_access_start {i : ι} (h : r.access l = .start i) :
    List.lookup l r = some ⟨i, .absent⟩ := by
  rw [access, Row.get?] at h
  split at h
  case h_4 j hs =>
    cases h
    exact hs
  all_goals cases h

/-- A label is missing just if the row does not have it. -/
theorem access_ne_missing_iff : r.access l ≠ .missing ↔ l ∈ Row.labels r := by
  refine ⟨fun h => ?_, access_ne_missing⟩
  by_contra hl
  refine h ?_
  rw [access, Row.get?, Row.lookup_eq_none_iff.mpr hl]

/-- Nothing is ready in a fresh row. -/
theorem access_ofRow_ne_ready (row : Row ι) (l : Label) (v : α) :
    (ofRow row : LazyRow ι α).access l ≠ .ready v := fun h => by
  obtain ⟨i, hmem⟩ := mem_of_access_ready h
  obtain ⟨q, -, hq⟩ := mem_ofRow.mp hmem
  cases hq

/-- Nothing is at work in a fresh row. -/
theorem access_ofRow_ne_circular (row : Row ι) (l : Label) :
    (ofRow row : LazyRow ι α).access l ≠ .circular := fun h => by
  rw [access, Row.get?, ofRow, Row.lookup_mapValues] at h
  cases hl : row.lookup l with
  | none => simp [hl] at h
  | some i => simp [hl] at h

/-- What reading a label comes to, of which the cell has been set. -/
theorem access_setCell_self (h : l ∈ Row.labels r) (c : Cell α) :
    (c = .inProgress → (r.setCell l c).access l = .circular) ∧
    (∀ v, c = .ready v → (r.setCell l c).access l = .ready v) ∧
    (c = .absent → ∃ i, (r.setCell l c).access l = .start i) := by
  obtain ⟨s, hs⟩ := Option.isSome_iff_exists.mp (Row.lookup_isSome_iff.mpr h)
  have hslot : Row.get? (r.setCell l c) l = some { s with cell := c } := by
    rw [Row.get?, lookup_setCell, if_pos rfl, hs]
    rfl
  rw [access, hslot]
  refine ⟨?_, ?_, ?_⟩
  · rintro rfl
    rfl
  · rintro v rfl
    rfl
  · rintro rfl
    exact ⟨_, rfl⟩

/-- What has been computed is what is ready. -/
theorem computed?_eq_some_iff {x : α} : r.computed? l = some x ↔ r.access l = .ready x := by
  unfold computed? access
  split <;> split <;> simp_all

/-! ## Initializers -/

/-- The initializers of a row, whatever has been computed. -/
def initializers (r : LazyRow ι α) : Row ι := Row.mapValues (·.initializer) r

@[simp] theorem initializers_setCell (r : LazyRow ι α) (l : Label) (c : Cell α) :
    (r.setCell l c).initializers = r.initializers := by
  simp only [initializers, Row.mapValues, setCell, List.map_map]
  refine List.map_congr_left fun p _ => ?_
  simp only [Function.comp_apply]
  split <;> rfl

@[simp] theorem initializers_ofRow
    (row : Row ι) : (ofRow row : LazyRow ι α).initializers = row := by
  simp [initializers, ofRow, Row.mapValues, Function.comp_def]

theorem labels_initializers (r : LazyRow ι α) : Row.labels r.initializers = Row.labels r :=
  Row.labels_mapValues _ _

/-- The initializer of a label stands in its slot. -/
theorem lookup_initializers (r : LazyRow ι α) (l : Label) :
    r.initializers.lookup l = (List.lookup l r).map (·.initializer) := Row.lookup_mapValues _ _ _

/-- What is started is the initializer of the label. -/
theorem lookup_initializers_of_start {i : ι}
    (h : r.access l = .start i) : r.initializers.lookup l = some i := by
  rw [lookup_initializers, lookup_of_access_start h]
  rfl

/-- A label whose initializer runs is at work. -/
theorem access_start (h : l ∈ Row.labels r) : (r.start l).access l = .circular :=
  (access_setCell_self h .inProgress).1 rfl

/-- An abandoned label has its initializer before it. -/
theorem access_abandon {i : ι}
    (h : r.initializers.lookup l = some i) : (r.abandon l).access l = .start i := by
  rw [lookup_initializers, Option.map_eq_some_iff] at h
  obtain ⟨s, hs, rfl⟩ := h
  rw [abandon, access, Row.get?, lookup_setCell, if_pos rfl, hs]
  rfl

end RowLang.LazyRow

import RowLang.Proofs.Ty.Good

/-!
# Proofs/Ty/Chain — chains of rows that have no label twice

Flattening merges a row with the rows of its kind that follow one another in its tail, and where two
of them have one label the deeper field wins.  A type is `Unshadowed` when no label occurs in two
rows of one chain; then flattening puts the fields one behind the other and loses none
(`flatten_eq_joined`). A type that fits its place is unshadowed, since the room of a tail has none
of the labels in front. A flat type has no two rows in one chain, so that flattening it once more
changes nothing.
-/

namespace RowLang

theorem Row.setAll_eq_append {α : Type} {ps : Row α} (hps : ps.Distinct) :
    ∀ {r : Row α}, (∀ l ∈ r.labels, l ∉ ps.labels) → r.setAll ps = r ++ ps := by
  induction ps with
  | nil => intro r _; exact (List.append_nil r).symm
  | cons p ps ih =>
    intro r hdisj
    obtain ⟨hp, hps⟩ := List.nodup_cons.mp (show (p.1 :: Row.labels ps).Nodup from hps)
    have hset : r.set p.1 p.2 = r ++ [p] := by
      have hmem : p.1 ∉ r.labels := fun h => hdisj p.1 h List.mem_cons_self
      clear hdisj
      induction r with
      | nil => rfl
      | cons q r ihr =>
        rw [Row.labels_cons, List.mem_cons, not_or] at hmem
        rw [Row.set, if_neg (Ne.symm hmem.1), ihr hmem.2, List.cons_append]
    rw [Row.setAll_cons, hset, ih hps, List.append_assoc, List.singleton_append]
    intro l hl hin
    rw [Row.labels, List.map_append, List.mem_append] at hl
    rcases hl with hl | hl
    · exact hdisj l hl (List.mem_cons_of_mem _ hin)
    · rw [List.map_singleton, List.mem_singleton] at hl
      exact hp (hl ▸ hin)

namespace Ty

/-! ## Chains -/

/-- The labels of the rows of a kind that follow one another. -/
def chain (k : RowKind) : Ty → List Label
  | row k' fields tail => if k = k' then Row.labels fields ++ chain k tail else []
  | _ => []

mutual

/-- No label occurs in two rows of one chain, anywhere in a type. -/
def Unshadowed : Ty → Prop
  | arrow a b => Unshadowed a ∧ Unshadowed b
  | list t => Unshadowed t
  | row k fields tail => (∀ l ∈ Row.labels fields, l ∉ chain k tail) ∧ UnshadowedFields fields ∧
      Unshadowed tail
  | bind _ _ body => Unshadowed body
  | _ => True

/-- No label occurs in two rows of one chain, anywhere in the fields. -/
def UnshadowedFields : List (Label × Ty) → Prop
  | [] => True
  | (_, t) :: fields => Unshadowed t ∧ UnshadowedFields fields

end

theorem unshadowedFields_iff {fields : Row Ty} :
    UnshadowedFields fields ↔ ∀ p ∈ fields, p.2.Unshadowed := by
  induction fields with
  | nil => simp [UnshadowedFields]
  | cons p fields ih => simp [UnshadowedFields, ih]

theorem unshadowed_row {k : RowKind} {fields : Row Ty} {tail : Ty} :
    (row k fields tail).Unshadowed ↔ (∀ l ∈ Row.labels fields, l ∉ chain k tail) ∧
      (∀ p ∈ fields, p.2.Unshadowed) ∧ tail.Unshadowed := by
  rw [Unshadowed, unshadowedFields_iff]

/-! ## Flattening without a loss -/

/-- A row in front of a flat tail, with the fields of both. -/
def joinRow (k : RowKind) (fields : Row Ty) : Ty → Ty
  | row k' inner rest =>
    if k = k' then row k (fields ++ inner) rest else row k fields (row k' inner rest)
  | tail => row k fields tail

mutual

/-- The type with each chain of rows of one kind put into one row, one behind the other. -/
def joined : Ty → Ty
  | number => number
  | char => char
  | unit => unit
  | empty => empty
  | var n => var n
  | arrow a b => arrow (joined a) (joined b)
  | list t => list (joined t)
  | row k fields tail => joinRow k (joinedFields fields) (joined tail)
  | bind b n body => bind b n (joined body)

/-- The fields with their chains put into one row each. -/
def joinedFields : List (Label × Ty) → List (Label × Ty)
  | [] => []
  | (l, t) :: fields => (l, joined t) :: joinedFields fields

end

theorem joinedFields_eq_map
    (fields : Row Ty) : joinedFields fields = Row.mapValues joined fields := by
  induction fields with
  | nil => rfl
  | cons f fields ih => simp [joinedFields, ih, Row.mapValues]

theorem mem_chain_prependRow {k k' : RowKind} {fields : Row Ty} {tail : Ty} {l : Label}
    (h : l ∈ chain k (prependRow k' fields tail)) : l ∈ chain k (row k' fields tail) := by
  cases tail with
  | row k'' inner rest =>
    rw [prependRow] at h
    split at h
    case isFalse => exact h
    case isTrue hk =>
      subst hk
      simp only [chain] at h ⊢
      split at h
      case isFalse => simp at h
      case isTrue he =>
        rw [if_pos he, if_pos he]
        rw [List.mem_append, Row.union_eq_setAll, ← Row.mem_domain, Row.domain_setAll,
          Finset.mem_union, Row.mem_domain, Row.mem_domain] at h
        simpa only [List.mem_append, or_assoc] using h
  | _ => exact h

/-- A flat type has no label in front that the chain does not have. -/
theorem mem_chain_flatten {t : Ty} {k : RowKind} {l : Label} (h : l ∈ chain k t.flatten) :
    l ∈ chain k t := by
  induction t using Ty.inductOn with
  | row k' fields tail _ iht =>
    rw [flatten, flattenFields_eq_map] at h
    have h := mem_chain_prependRow h
    simp only [chain, Row.labels_mapValues] at h ⊢
    split at h
    case isFalse => simp at h
    case isTrue hk =>
      rw [if_pos hk]
      exact List.mem_append.mpr ((List.mem_append.mp h).imp_right iht)
  | _ => rwa [flatten] at h

theorem prependRow_eq_joinRow {k : RowKind} {fields : Row Ty} {tail : Ty} (ht : tail.Tidy)
    (h : ∀ l ∈ Row.labels fields, l ∉ chain k tail) :
    prependRow k fields tail = joinRow k fields tail := by
  cases tail with
  | row k' inner rest =>
    rw [prependRow, joinRow]
    split
    case isFalse => rfl
    case isTrue hk =>
      subst hk
      rw [Row.union_eq_setAll, Row.setAll_eq_append (tidy_row.mp ht).1.distinct]
      intro l hl hin
      refine h l hl ?_
      rw [chain, if_pos rfl]
      exact List.mem_append_left _ hin
  | _ => rfl

/-- **Flattening loses no field** of a type in which no label occurs in two rows of one chain. -/
theorem flatten_eq_joined {t : Ty} (ht : t.Tidy) (h : t.Unshadowed) : t.flatten = t.joined := by
  induction t using Ty.inductOn with
  | number | char | unit | empty | var => rw [flatten, joined]
  | arrow a b iha ihb => rw [flatten, joined, iha ht.1 h.1, ihb ht.2 h.2]
  | list t ih => rw [flatten, joined, ih ht h]
  | bind b n body ih => rw [flatten, joined, ih ht h]
  | row k fields tail ihf iht =>
    obtain ⟨-, htf, htt⟩ := tidy_row.mp ht
    obtain ⟨hdisj, hf, htail⟩ := unshadowed_row.mp h
    have hmap : Row.mapValues flatten fields = Row.mapValues joined fields :=
      List.map_congr_left fun p hp => by rw [ihf p hp (htf p hp) (hf p hp)]
    rw [flatten, joined, flattenFields_eq_map, joinedFields_eq_map, hmap, ← iht htt htail]
    refine prependRow_eq_joinRow htt.flatten fun l hl hin => ?_
    rw [Row.labels_mapValues] at hl
    exact hdisj l hl (mem_chain_flatten hin)

/-! ## Types in their place -/

variable {K : Census} {r : Role}

/-- The rests of a row have labels of their room only. -/
theorem Fits.chain_subset {t : Ty} {k : RowKind} {l : Label} (hl : l ∈ chain k t) :
    ∀ {r}, Fits K r t → l ∈ r.room K.labels := by
  induction t using Ty.inductOn with
  | row k' fields tail _ iht =>
    intro r h
    obtain ⟨-, -, hroom, -, ht⟩ := fits_row.mp h
    rw [chain] at hl
    split at hl
    case isFalse => simp at hl
    case isTrue =>
      rcases List.mem_append.mp hl with hl | hl
      · exact hroom (Row.mem_domain.mpr hl)
      · exact (Finset.mem_sdiff.mp (iht hl ht)).1
  | _ => simp [chain] at hl

/-- **No label occurs in two rows of one chain of a type that fits its place.** -/
theorem Fits.unshadowed {t : Ty} : ∀ {r}, Fits K r t → t.Unshadowed := by
  induction t using Ty.inductOn with
  | number | char | unit | empty | var => intro r _; trivial
  | arrow a b iha ihb => intro r h; exact ⟨iha h.2.1, ihb h.2.2⟩
  | list t ih => intro r h; exact ih h.2
  | row k fields tail ihf iht =>
    intro r h
    obtain ⟨-, -, -, hf, ht⟩ := fits_row.mp h
    refine unshadowed_row.mpr ⟨fun l hl hin => ?_, fun p hp => ihf p hp (hf p hp), iht ht⟩
    exact (Finset.mem_sdiff.mp (Fits.chain_subset hin ht)).2 (Row.mem_domain.mpr hl)
  | bind b n body ih =>
    intro r h
    cases b with
    | mu => exact ih h.2.2.1
    | forAll => exact h.elim

/-! ## Flat types -/

/-- No row has another one of its kind for a tail, anywhere in a type. -/
def Flat : Ty → Prop := EachRow fun k _ tail => ∀ inner rest, tail ≠ row k inner rest

theorem flat_row {k : RowKind} {fields : Row Ty} {tail : Ty} : (row k fields tail).Flat ↔
    (∀ inner rest, tail ≠ row k inner rest) ∧ (∀ p ∈ fields, p.2.Flat) ∧ tail.Flat := eachRow_row

theorem flat_prependRow {k : RowKind} {fields : Row Ty} {tail : Ty} (hf : ∀ p ∈ fields, p.2.Flat)
    (ht : tail.Flat) : (prependRow k fields tail).Flat := by
  cases tail with
  | row k' inner rest =>
    rw [prependRow]
    split
    case isFalse hk => exact flat_row.mpr ⟨fun _ _ he => hk (by cases he; rfl), hf, ht⟩
    case isTrue hk =>
      subst hk
      obtain ⟨hrest, hinner, ht⟩ := flat_row.mp ht
      rw [Row.union_eq_setAll]
      exact flat_row.mpr ⟨hrest, fun p hp => (Row.mem_setAll hp).elim (hinner p) (hf p), ht⟩
  | _ => exact flat_row.mpr ⟨fun _ _ he => (by cases he), hf, ht⟩

theorem flat_flatten (t : Ty) : t.flatten.Flat := by
  induction t using Ty.inductOn with
  | number | char | unit | empty | var => rw [flatten]; trivial
  | arrow a b iha ihb => rw [flatten]; exact ⟨iha, ihb⟩
  | list t ih => rw [flatten]; exact ih
  | bind b n body ih => rw [flatten]; exact ih
  | row k fields tail ihf iht =>
    rw [flatten, flattenFields_eq_map]
    refine flat_prependRow (fun q hq => ?_) iht
    obtain ⟨p, hp, rfl⟩ := Row.mem_mapValues.mp hq
    exact ihf p hp

theorem Flat.flatten_eq_self {t : Ty} (h : t.Flat) : t.flatten = t := by
  induction t using Ty.inductOn with
  | number | char | unit | empty | var => rw [flatten]
  | arrow a b iha ihb => rw [flatten, iha h.1, ihb h.2]
  | list t ih => rw [flatten, ih h]
  | bind b n body ih => rw [flatten, ih h]
  | row k fields tail ihf iht =>
    obtain ⟨htail, hf, ht⟩ := flat_row.mp h
    rw [flatten, flattenFields_eq_map, iht ht, Row.mapValues_eq_self fun p hp => ihf p hp (hf p hp)]
    unfold prependRow
    split
    case h_1 k' inner rest =>
      have hk : k ≠ k' := fun hk => htail inner rest (hk ▸ rfl)
      rw [if_neg hk]
    case h_2 => rfl

/-- **Flattening twice is flattening once.** -/
theorem flatten_flatten (t : Ty) : t.flatten.flatten = t.flatten := (flat_flatten t).flatten_eq_self

end Ty

end RowLang

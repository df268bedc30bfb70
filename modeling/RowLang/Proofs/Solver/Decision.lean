import RowLang.Proofs.Solver.Sound
import RowLang.Proofs.Solver.Verdict

/-!
# Proofs/Solver/Decision — the equality of recursive types, decided

On a new solver the comparison of two closed types comes to an end with nothing pending, or finds
that they clash, and then they are not the same.  When it finds no clash they are the same, unless
an equality has been lost: the empty record and any other closed record are equal to it.
-/

namespace RowLang.Solver

open Ty

variable {s t : Ty}

/-- The labels of two types. -/
def labelsOf (s t : Ty) : Finset Label := s.flatten.labels ∪ t.flatten.labels

/-- All that occurs in two types. -/
def typesOf (s t : Ty) : Set Ty := {u | Occurs s.flatten u} ∪ {u | Occurs t.flatten u}

theorem free_flatten (hs : Comparable s) : s.flatten.free = [] :=
  List.eq_nil_iff_forall_not_mem.mpr fun v hv => by
    have := mem_free_flatten hv
    rw [hs.closed] at this
    simp at this

theorem good_flatten (hs : Comparable s) {L : Finset Label} (hL : s.flatten.labels ⊆ L) :
    s.flatten.Good (closing L) .whole := hs.ended.good hs.tidy.flatten hL (free_flatten hs)

theorem good_of_mem_typesOf (hs : Comparable s) (ht : Comparable t) {u : Ty}
    (hu : u ∈ typesOf s t) : u.Good (closing (labelsOf s t)) .whole ∧ u.Ended :=
  hu.elim (fun h => Occurs.good h (good_flatten hs Finset.subset_union_left) hs.ended)
    fun h => Occurs.good h (good_flatten ht Finset.subset_union_right) ht.ended

/-- All that occurs in two closed types is something that a comparison can stay in. -/
theorem universe_of_comparable (hs : Comparable s) (ht : Comparable t) :
    Universe (labelsOf s t) (typesOf s t) where
  finite := (finite_occurs (free_flatten hs)).union (finite_occurs (free_flatten ht))
  ended _ hu := (good_of_mem_typesOf hs ht hu).2
  good _ hu := (good_of_mem_typesOf hs ht hu).1
  stacking u hu := hu.elim (hs.stacking u) (ht.stacking u)
  part _ hu _ hv := hu.imp (fun h => h.tail hv) fun h => h.tail hv

/-- **A comparison of closed types from the start.** -/
theorem verdict_of_comparable (hs : Comparable s) (ht : Comparable t) (budget : Nat) :
    Verdict (typesOf s t) (SameTree s t) budget {} ((equate (budget + 1) s t).run {}) := by
  have hU := universe_of_comparable hs ht
  have hflat : SameTree s t → SameTree s.flatten t.flatten := fun h => by
    rw [SameTree, tree_flatten hs.tidy, tree_flatten ht.tidy, h]
  rw [equate_succ, if_neg (by simp)]
  refine ((verdict_follow hU.verdict hU (Or.inl .refl) (Or.inr .refl) _).weaken hflat).of_noting
    (fun hsame k fields tail => key_ne_of_sameTree hs.anchored ht.anchored hs.tidy ht.tidy hsame)
    fun h => h.trans_le
      (Nat.add_le_add_right (unseen_le hU.finite fun _ hv => List.mem_cons_of_mem _ hv) 2)

/-! ## Soundness -/

/-- A good type with the text of a closed one is like it. -/
theorem alike_or_empty {K : Census} {r : Role} {a : Ty} (hs : Comparable s) (ha : a.Good K r)
    (h : s.text = a.text) :
    Alike s a ∨ ∃ k, r.kind? = some k ∧ a = k.end ∧ s = Ty.row k [] k.end := by
  rcases ha.fits.anchored_or_end with haa | ⟨k, hr, rfl⟩
  · exact Or.inl (hs.anchored.alike haa hs.tidy ha.tidy h)
  · exact Or.inr ⟨k, hr, rfl, hs.anchored.eq_empty_row hs.tidy h⟩

/-- Where no rest of a row is a variable, a rest of a row is its marker or has fields. -/
theorem eq_end_or_row {K : Census} {r : Role} {k : RowKind} {a : Ty} (hnum : ¬ K.numbered)
    (ha : a.Good K r) (hr : r.kind? = some k) :
    a = k.end ∨ ∃ fields tail, a = Ty.row k fields tail ∧ fields ≠ [] := by
  cases r with
  | whole => simp [Role.kind?] at hr
  | tail k' room =>
    obtain rfl : k' = k := by simpa [Role.kind?] using hr
    by_contra hne
    push Not at hne
    refine hnum (numbered_of_tail ha.fits hne.1 fun k'' fields tail he => ?_)
    subst he
    obtain ⟨rfl, hf⟩ := (fits_row.mp ha.fits).1
    exact hf (hne.2 fields tail rfl)

/-- The first equality of a comparison is backed like all the others. -/
theorem backed_first {K : Census} {st : Solver} (hnum : ¬ K.numbered) (hs : Comparable s)
    (ht : Comparable t) (hkept : Kept K st) (hlost : ¬ st.Lost)
    (hsettled : Settled K st s.flatten t.flatten) {r : Role} {a b : Ty} (ha : a.Good K r)
    (hb : b.Good K r) (hkey : equalityKey a b = equalityKey s t)
    (hmem : equalityKey s t ∈ st.visited) : a = b ∨ Backed K st (equalityKey a b) := by
  obtain ⟨hsa, htb⟩ := text_eq_of_equalityKey_eq hs.tidy ha.tidy hkey.symm
  rcases alike_or_empty hs ha hsa with hsa | ⟨k, hr, rfl, rfl⟩
  · rcases alike_or_empty ht hb htb with htb | ⟨k, hr, rfl, rfl⟩
    · exact Or.inr ⟨r, s, t, ⟨hsa.symm.fits ha.fits, by simp [hs.closed]⟩,
        ⟨htb.symm.fits hb.fits, by simp [ht.closed]⟩, hkey, hsettled⟩
    · rcases eq_end_or_row hnum ha hr with rfl | ⟨fields, tail, rfl, hne⟩
      · exact Or.inl rfl
      · obtain ⟨_, _, rfl, hne'⟩ := hsa.symm.eq_row hne
        exact absurd hsettled (not_settled_row_empty hne' hs.tidy hkept hlost)
  · rcases eq_end_or_row hnum hb hr with rfl | ⟨fields, tail, rfl, hne⟩
    · exact Or.inl rfl
    · exact absurd ⟨k, fields, tail, hne, hb.tidy, hkept.seen _ (hkey ▸ hmem)⟩ hlost

/-- **Closed types that a comparison finds to agree are the same**, if it has lost nothing. -/
theorem sameTree_of_run (hs : Comparable s) (ht : Comparable t) {budget : Nat} {st : Solver}
    (hrun : (equate budget s t).run {} = (.ok (), st)) (hpending : st.pending = [])
    (hlost : ¬ st.Lost) : SameTree s t := by
  have hgs : s.flatten.Good (closing (labelsOf s t)) .whole :=
    good_flatten hs Finset.subset_union_left
  have hgt : t.flatten.Good (closing (labelsOf s t)) .whole :=
    good_flatten ht Finset.subset_union_right
  obtain ⟨K, hle, hkept, hsettled, hback⟩ := (works_of_run hrun).settled hlost
    ⟨by simp, fun (h : False) => h.elim, by
      simp⟩ hgs hgt hs.ended.flatten_eq ht.ended.flatten_eq (by simp)
  have hnum : ¬ K.numbered := fun h => hle.numbered.mp h
  have hall : AllBacked K st := fun r a b ha hb hmem => by
    rcases hback _ hmem with hkey | hbacked
    · have hkey := List.mem_singleton.mp hkey
      exact backed_first hnum hs ht hkept hlost hsettled ha hb hkey (hkey ▸ hmem)
    · exact Or.inr hbacked
  have htree := hkept.tree_eq_of_settled hlost hall (ρ := selves) (by simp [hpending])
    (hgs.mono hle) (hgt.mono hle) hsettled
  rwa [tree_flatten hs.tidy, tree_flatten ht.tidy] at htree

/-! ## The decision -/

/-- **The equality of recursive types is decided, but for the equalities that are lost.** Followed
deep enough, the comparison of two closed types on a new solver either ends with nothing pending,
and then they are the same just if no equality of a marker with a row of fields has been taken for
granted; or it says that they do not match, and they are not the same. -/
theorem demand_decides_sameTree (hs : Comparable s) (ht : Comparable t) :
    ∃ enough, ∀ budget, ∃ st,
      ((demand budget s t).run {} = (.ok (), st) ∧ st.pending = [] ∧ (SameTree s t ↔ ¬ st.Lost)) ∨
      (∃ a b, (demand budget s t).run {} = (.error (.mismatch a b), st) ∧ ¬ SameTree s t) ∨
      ((demand budget s t).run {} = (.error .tooDeep, st) ∧ budget < enough) := by
  refine ⟨unseen (typesOf s t) {} + 3, fun budget => ?_⟩
  have hdemand : demand budget s t = equate budget s t := by
    rw [demand_eq, hs.ranked, ht.ranked]
    rfl
  rw [hdemand]
  cases budget with
  | zero => exact ⟨{}, Or.inr (Or.inr ⟨rfl, Nat.succ_pos _⟩)⟩
  | succ budget =>
    have hverdict := verdict_of_comparable hs ht budget
    have hsound := fun st => @sameTree_of_run s t hs ht (budget + 1) st
    generalize (equate (budget + 1) s t).run {} = r at hverdict hsound
    cases hverdict with
    | agreed hpending _ hlost =>
      refine ⟨_, Or.inl ⟨rfl, hpending, fun hsame hl => ?_, hsound _ rfl hpending⟩⟩
      obtain ⟨_, _, _, _, _, hmem⟩ := hlost hsame hl
      simp at hmem
    | clashed hne => exact ⟨_, Or.inr (Or.inl ⟨_, _, rfl, hne⟩)⟩
    | tooDeep hbudget => exact ⟨_, Or.inr (Or.inr ⟨rfl, by omega⟩)⟩

/-! ## Recursive types, and what is lost -/

/-- A record of one field. -/
private def field (t : Ty) : Ty := closedRecord [("t", t)]

private theorem tidy_field {t : Ty} (h : t.Tidy) : (field t).Tidy :=
  tidy_row.mpr ⟨Row.tidy_single (by decide) t, by simpa using h, trivial⟩

private theorem part_field {t u : Ty} (h : Part (field t) u) : u = t := by
  rw [field, closedRecord] at h
  cases h with
  | field hp => rw [List.mem_singleton.mp hp]

/-- An endless record. -/
private def rolled : Ty := .bind .mu 0 (field (.var 0))

/-- The same endless record, two fields at a time. -/
private def rolledTwice : Ty := .bind .mu 1 (field (field (.var 1)))

private theorem comparable_rolled : Comparable rolled where
  closed := rfl
  tidy := tidy_field (t := .var 0) trivial
  anchored := by simp [rolled, field, closedRecord, Anchored, FieldsAnchored, RowKind.end]
  ended := by
    show Ended rolled
    simp [rolled, field, closedRecord, Ended, FieldsEnded, RowKind.end, heads]
  ranked := rfl
  stacking u hu := by
    refine stacked_lt_of_closed (P := fun u => u = rolled ∨ u = field rolled) (Or.inl rfl) ?_ ?_ hu
    · rintro u v (rfl | rfl) hpart
      · cases hpart
        exact Or.inr rfl
      · exact Or.inl (part_field hpart)
    · rintro u (rfl | rfl) <;> decide

private theorem comparable_rolledTwice : Comparable rolledTwice where
  closed := rfl
  tidy := tidy_field (tidy_field (t := .var 1) trivial)
  anchored := by simp [rolledTwice, field, closedRecord, Anchored, FieldsAnchored, RowKind.end]
  ended := by
    show Ended rolledTwice
    simp [rolledTwice, field, closedRecord, Ended, FieldsEnded, RowKind.end, heads]
  ranked := rfl
  stacking u hu := by
    refine stacked_lt_of_closed (P := fun u => u = rolledTwice ∨ u = field rolledTwice ∨
      u = field (field rolledTwice)) (Or.inl rfl) ?_ ?_ hu
    · rintro u v (rfl | rfl | rfl) hpart
      · cases hpart
        exact Or.inr (Or.inr rfl)
      · exact Or.inl (part_field hpart)
      · exact Or.inr (Or.inl (part_field hpart))
    · rintro u (rfl | rfl | rfl) <;> decide

/-- Two recursive types that are the same are compared to the end. -/
theorem demand_decides_rolled : Comparable rolled ∧ Comparable rolledTwice ∧
    ∃ enough, ∀ budget, ∃ st,
      ((demand budget rolled rolledTwice).run {} = (.ok (), st) ∧ st.pending = [] ∧
        (SameTree rolled rolledTwice ↔ ¬ st.Lost)) ∨
      (∃ a b, (demand budget rolled rolledTwice).run {} = (.error (.mismatch a b), st) ∧
        ¬ SameTree rolled rolledTwice) ∨
      ((demand budget rolled rolledTwice).run {} = (.error .tooDeep, st) ∧ budget < enough) :=
  ⟨comparable_rolled, comparable_rolledTwice,
    demand_decides_sameTree comparable_rolled comparable_rolledTwice⟩

private theorem comparable_record {fields : Row Ty} (h : fields = [] ∨ fields = [("t", .number)]) :
    Comparable (closedRecord fields) where
  closed := by rcases h with rfl | rfl <;> rfl
  tidy := by
    rcases h with rfl | rfl
    · exact tidy_row.mpr ⟨Row.tidy_nil, by simp, trivial⟩
    · exact tidy_field trivial
  anchored := by
    rcases h with rfl | rfl <;> simp [closedRecord, Anchored, FieldsAnchored, RowKind.end]
  ended := by
    rcases h with rfl | rfl
    · show Ended (closedRecord [])
      simp [closedRecord, Ended, FieldsEnded, RowKind.end]
    · show Ended (field .number)
      simp [field, closedRecord, Ended, FieldsEnded, RowKind.end]
  ranked := by rcases h with rfl | rfl <;> rfl
  stacking u hu := by
    refine stacked_lt_of_closed (P := fun u => u.stacked = 0 ∧ (u = (closedRecord fields).flatten ∨
      u = .number)) ⟨by rcases h with rfl | rfl <;> rfl, Or.inl rfl⟩ ?_ (fun u hu => by
        rw [hu.1]; decide) hu
    rintro u v ⟨-, rfl | rfl⟩ hpart
    · rcases h with rfl | rfl
      · cases hpart with
        | field hp => exact absurd hp List.not_mem_nil
      · obtain rfl := part_field hpart
        exact ⟨rfl, Or.inr rfl⟩
    · cases hpart

/-- **The empty record passes for a record with a field**: the equality of what stands behind the
fields has the key of the whole equality, and is never looked at. -/
theorem empty_record_agrees_with_field :
    Comparable (closedRecord []) ∧ Comparable (field .number) ∧
      ¬ SameTree (closedRecord []) (field .number) ∧
      ∃ st, (demand depthLimit (closedRecord []) (field .number)).run {} = (.ok (), st) ∧
        st.pending = [] := by
  refine ⟨comparable_record (Or.inl rfl), comparable_record (Or.inr rfl),
    fun h => absurd (fields_eq_nil_of_sameTree h) (by simp),
    ({} : Solver).noting (equalityKey (closedRecord []) (field .number)), ?_, rfl⟩
  have hdemand : demand depthLimit (closedRecord []) (field .number)
      = equate depthLimit (closedRecord []) (field .number) := rfl
  have hout : outcome (closedRecord []).flatten (field .number).flatten
      = .split [.agree .unit (field .number)] := rfl
  rw [hdemand, depthLimit, equate_succ, if_neg (by simp), hout, follow_split]
  show (equate _ .unit (field .number) >>= fun _ => pure ()).run _ = _
  rw [Run.run_bind, equate_succ, if_pos]
  · rfl
  · exact List.contains_iff_mem.mpr (List.mem_singleton.mpr rfl)

end RowLang.Solver

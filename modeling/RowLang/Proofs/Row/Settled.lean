import Mathlib.Data.List.Sort
import RowLang.Proofs.Row.Sorted
import RowLang.Proofs.Text.Word

/-!
# Proofs/Row/Settled — labels whose order is settled

Sorting settles the order of a row as far as ranks differ.  Where they do (`Settled`), a row in
order is determined by its entries (`sorted_eq_of_perm`).  Two labels of one rank are two numerals
of one number, such as `0` and `00`; they stay in the order in which the row has them
(`sublist_sorted`), and the text of the row shows which one that is (`eq_of_labelled_eq`).
-/

namespace RowLang

namespace Label

theorem Rank.le_antisymm : ∀ {a b : Rank}, a.le b = true → b.le a = true → a = b
  | .position m, .position n, h, h' => by
    simp only [Rank.le, decide_eq_true_iff] at h h'
    rw [Nat.le_antisymm h h']
  | .position _, .name _, _, h' => by cases h'
  | .name _, .position _, h, _ => by cases h
  | .name a, .name b, h, h' => by
    simp only [Rank.le, Bool.not_eq_true', decide_eq_false_iff_not, String.not_lt] at h h'
    rw [String.le_antisymm h h']

theorem Rank.le_refl (a : Rank) : a.le a = true := (Rank.le_total a a).elim id id

/-- A label of decimal digits only. -/
def IsNumeral (l : Label) : Prop := ∀ c ∈ l.toList, Text.isDecimal c = true

/-- **Different labels of one rank are numerals.** -/
theorem isNumeral_of_rank_eq {k l : Label} (h : rank k = rank l) (hne : k ≠ l) :
    IsNumeral k ∧ IsNumeral l := by
  have hcases : ∀ l : Label, rank l = .name l ∨ IsNumeral l := fun l => by
    rw [rank]
    split
    case isTrue hl => exact Or.inr (List.all_eq_true.mp (Bool.and_eq_true_iff.mp hl).2)
    case isFalse => exact Or.inl rfl
  have hname : ∀ {k l : Label}, rank k = .name k → rank k = rank l → k = l := fun {k l} hk h => by
    rw [hk, rank] at h
    split at h
    · cases h
    · exact Rank.name.inj h
  exact ⟨(hcases k).resolve_left fun hk => hne (hname hk h),
    (hcases l).resolve_left fun hl => hne (hname hl h.symm).symm⟩

/-- Of numerals in front of a colon only one can be read. -/
theorem IsNumeral.eq_of_append_eq {k l : Label} (hk : IsNumeral k) (hl : IsNumeral l)
    {r r' : List Char} (h : k.toList ++ ':' :: r = l.toList ++ ':' :: r') : k = l := by
  have hcut : ∀ {l : Label} (r : List Char), IsNumeral l →
      (l.toList ++ ':' :: r).takeWhile Text.isDecimal = l.toList := fun r hl => by
    rw [List.takeWhile_append_of_pos hl, List.takeWhile_cons_of_neg (by decide), List.append_nil]
  rw [← String.toList_inj, ← hcut r hk, ← hcut r' hl, h]

/-- The ranks settle the order of the labels: no two of them have one rank. -/
def Settled (labels : List Label) : Prop :=
  ∀ k ∈ labels, ∀ l ∈ labels, rank k = rank l → k = l

instance : DecidablePred Settled := fun labels =>
  inferInstanceAs (Decidable (∀ k ∈ labels, ∀ l ∈ labels, rank k = rank l → k = l))

theorem Settled.perm {labels labels' : List Label} (h : Settled labels) (hp : labels.Perm labels') :
    Settled labels' :=
  fun k hk l hl => h k (hp.mem_iff.mpr hk) l (hp.mem_iff.mpr hl)

end Label

namespace Row

variable {α β : Type}

/-! ## Rows in order -/

/-- **Rows of the same entries in order are the same**, if ranks settle the order. -/
theorem Ascending.eq_of_perm {r r' : Row α} (h : r.Ascending) (h' : r'.Ascending) (hr : r.Distinct)
    (hsettled : Label.Settled r.labels) (hp : r.Perm r') : r = r' := by
  refine hp.eq_of_pairwise (fun p q hpr hqr hpq hqp => ?_) h h'
  have hqr := hp.mem_iff.mpr hqr
  have hlabel : p.1 = q.1 := hsettled _ (mem_labels_of_mem hpr) _ (mem_labels_of_mem hqr)
    (Label.Rank.le_antisymm hpq hqp)
  have hlookup : r.lookup p.1 = some q.2 := hlabel ▸ hr.lookup_of_mem hqr
  rw [hr.lookup_of_mem hpr] at hlookup
  exact Prod.ext hlabel (Option.some.inj hlookup)

/-- **A row in order is determined by its entries.** -/
theorem sorted_eq_of_perm {r r' : Row α} (hr : r.Distinct) (hsettled : Label.Settled r.labels)
    (hp : r.Perm r') : sorted r = sorted r' :=
  (ascending_sorted r).eq_of_perm (ascending_sorted r') hr.sorted
    (hsettled.perm (labels_sorted_perm r).symm)
    ((sorted_perm r).trans (hp.trans (sorted_perm r').symm))

/-- The order of positions is settled. -/
theorem settled_of_isPositional {r : Row α}
    (h : r.isPositional = true) : Label.Settled r.labels := by
  refine Label.Settled.perm (fun k hk l hl hrank => ?_) (isPositional_iff.mp h).symm
  obtain ⟨m, -, rfl⟩ := List.mem_map.mp hk
  obtain ⟨n, -, rfl⟩ := List.mem_map.mp hl
  rw [rank_position, rank_position] at hrank
  cases hrank
  rfl

/-! ## Labels of one rank -/

theorem sorted_eq_insertionSort (r : Row α) : sorted r =
    List.insertionSort (fun p q => (Label.rank p.1).le (Label.rank q.1) = true) r := by
  have hinsert : ∀ (p : Label × α) (r : Row α), insertSorted p r =
      List.orderedInsert (fun p q => (Label.rank p.1).le (Label.rank q.1) = true) p r := by
    intro p r
    induction r with
    | nil => rfl
    | cons q r ih => rw [insertSorted, List.orderedInsert, ih]
  induction r with
  | nil => rfl
  | cons p r ih => rw [sorted, ih, hinsert, List.insertionSort_cons]

/-- **Sorting keeps the order of two labels of one rank.** -/
theorem sublist_sorted {r : Row α} {p q : Label × α} (hrank : Label.rank p.1 = Label.rank q.1)
    (h : [p, q].Sublist r) : [p, q].Sublist (sorted r) := by
  rw [sorted_eq_insertionSort]
  have htrans : IsTrans (Label × α) fun p q => (Label.rank p.1).le (Label.rank q.1) = true :=
    ⟨fun _ _ _ => Label.Rank.le_trans⟩
  have htotal : Std.Total fun p q : Label × α => (Label.rank p.1).le (Label.rank q.1) = true :=
    ⟨fun _ _ => Label.Rank.le_total _ _⟩
  exact List.pair_sublist_insertionSort (hrank ▸ Label.Rank.le_refl _) h

/-- Of two entries of a row one comes first. -/
theorem not_sublist_swap {r : List α} {x y : α} (hr : r.Nodup) (h : [x, y].Sublist r) :
    ¬ [y, x].Sublist r := by
  have hmem : ∀ {x y : α} {r : List α}, [x, y].Sublist r → y ∈ r := fun h =>
    h.subset (List.mem_cons_of_mem _ List.mem_cons_self)
  induction r with
  | nil => cases h
  | cons z r ih =>
    obtain ⟨hz, hr⟩ := List.nodup_cons.mp hr
    intro h'
    rcases List.cons_sublist_cons'.mp h with hxy | ⟨hx, hxy⟩ <;>
      rcases List.cons_sublist_cons'.mp h' with hyx | ⟨hy, hyx⟩
    · exact ih hr hxy hyx
    · exact hz (hy ▸ hmem hxy)
    · exact hz (hx ▸ hmem hyx)
    · exact hz (hy ▸ List.singleton_sublist.mp hxy)

/-- Two entries of a row come one after the other. -/
theorem pair_sublist_or {r : List α} {x y : α} (hx : x ∈ r) (hy : y ∈ r) (hne : x ≠ y) :
    [x, y].Sublist r ∨ [y, x].Sublist r := by
  induction r with
  | nil => cases hx
  | cons z r ih =>
    rcases List.mem_cons.mp hx with hxz | hx <;> rcases List.mem_cons.mp hy with hyz | hy
    · exact absurd (hxz.trans hyz.symm) hne
    · exact Or.inl (hxz ▸ (List.singleton_sublist.mpr hy).cons_cons _)
    · exact Or.inr (hyz ▸ (List.singleton_sublist.mpr hx).cons_cons _)
    · exact (ih hx hy).imp (·.cons _) (·.cons _)

/-- **A row and its reverse are not in one order** unless ranks settle it. -/
theorem sorted_reverse_ne {r : Row α} (hr : r.Distinct) (h : ¬ Label.Settled r.labels) :
    sorted r.reverse ≠ sorted r := by
  intro he
  refine h fun k hk l hl hrank => ?_
  obtain ⟨p, hp, rfl⟩ := List.mem_map.mp hk
  obtain ⟨q, hq, rfl⟩ := List.mem_map.mp hl
  have hnodup : (sorted r).Nodup := List.Nodup.of_map Prod.fst hr.sorted
  have hswapped : ∀ {p q : Label × α}, Label.rank p.1 = Label.rank q.1 → ¬ [p, q].Sublist r := by
    intro p q hrank hsub
    have hlast := sublist_sorted (r := r.reverse) hrank.symm (by simpa using hsub.reverse)
    exact not_sublist_swap hnodup (sublist_sorted hrank hsub) (he ▸ hlast)
  by_contra hne
  rcases pair_sublist_or hp hq fun he => hne (congrArg Prod.fst he) with hsub | hsub
  · exact hswapped hrank hsub
  · exact hswapped hrank.symm hsub

theorem Ascending.rank_le {p q : Label × α} {r : Row α} (h : Ascending (p :: r)) (hq : q ∈ p :: r) :
    (Label.rank p.1).le (Label.rank q.1) = true := by
  rcases List.mem_cons.mp hq with rfl | hq
  · exact Label.Rank.le_refl _
  · exact (List.pairwise_cons.mp h).1 q hq

/-- The text of a row begins with its first label. -/
theorem exists_labelled_eq (p : Label × List Char) (r : Row (List Char)) (rest : List Char) :
    ∃ rest', commaSeparated ((p :: r).map labelled) ++ rest = p.1.toList ++ ':' :: rest' := by
  cases r <;> simp [commaSeparated_singleton, commaSeparated_cons_cons, labelled]

/-- **The text of a row shows in which order its labels are.** -/
theorem eq_of_labelled_eq {r : Row (List Char)} : ∀ {r' : Row (List Char)} {rest rest' : List Char},
    r.Distinct → r.Ascending → r'.Ascending → r.Perm r' →
    commaSeparated (r.map labelled) ++ rest = commaSeparated (r'.map labelled) ++ rest' →
    r = r' := by
  induction r with
  | nil => intro r' _ _ _ _ _ hp _; exact (List.nil_perm.mp hp).symm
  | cons p r ih =>
    intro r' rest rest' hr hasc hasc' hp h
    cases r' with
    | nil => exact absurd hp (by simp)
    | cons q r' =>
      have hq : q ∈ p :: r := hp.mem_iff.mpr List.mem_cons_self
      have hlabel : p.1 = q.1 := by
        by_contra hne
        have hrank := Label.Rank.le_antisymm (hasc.rank_le hq)
          (hasc'.rank_le (hp.mem_iff.mp List.mem_cons_self))
        obtain ⟨hk, hl⟩ := Label.isNumeral_of_rank_eq hrank hne
        obtain ⟨w, hw⟩ := exists_labelled_eq p r rest
        obtain ⟨w', hw'⟩ := exists_labelled_eq q r' rest'
        rw [hw, hw'] at h
        exact hne (hk.eq_of_append_eq hl h)
      obtain rfl : p = q := by
        have hlookup : List.lookup p.1 (p :: r) = some q.2 := hlabel ▸ hr.lookup_of_mem hq
        rw [hr.lookup_of_mem (x := p.2) List.mem_cons_self] at hlookup
        exact Prod.ext hlabel (Option.some.inj hlookup)
      have hp := hp.cons_inv
      cases r with
      | nil => rw [List.nil_perm.mp hp]
      | cons x r =>
        cases r' with
        | nil => exact absurd hp (by simp)
        | cons y r' =>
          simp only [List.map_cons, commaSeparated_cons_cons, List.append_assoc, List.cons_append,
            List.append_cancel_left_eq, List.cons.injEq, true_and] at h
          rw [ih (List.nodup_cons.mp hr).2 (List.pairwise_cons.mp hasc).2
            (List.pairwise_cons.mp hasc').2 hp h]

/-! ## One value of a row -/

/-- Where a value goes depends on its label only. -/
theorem exists_sorted_around (before after : Row α) (l : Label) :
    ∃ A B : Row α, ∀ x, sorted (before ++ (l, x) :: after) = A ++ (l, x) :: B := by
  have hinto : ∀ r : Row α, ∃ A B : Row α, ∀ x, insertSorted (l, x) r = A ++ (l, x) :: B := by
    intro r
    induction r with
    | nil => exact ⟨[], [], fun x => rfl⟩
    | cons q r ih =>
      obtain ⟨A, B, ih⟩ := ih
      by_cases hle : (Label.rank l).le (Label.rank q.1) = true
      · exact ⟨[], q :: r, fun x => by simp [insertSorted, hle]⟩
      · exact ⟨q :: A, B, fun x => by simp [insertSorted, hle, ih]⟩
  have hbeside : ∀ (p : Label × α) (A B : Row α), ∃ A' B' : Row α, ∀ x,
      insertSorted p (A ++ (l, x) :: B) = A' ++ (l, x) :: B' := by
    intro p A B
    induction A with
    | nil =>
      by_cases hle : (Label.rank p.1).le (Label.rank l) = true
      · exact ⟨[p], B, fun x => by simp [insertSorted, hle]⟩
      · exact ⟨[], insertSorted p B, fun x => by simp [insertSorted, hle]⟩
    | cons q A ih =>
      obtain ⟨A', B', ih⟩ := ih
      by_cases hle : (Label.rank p.1).le (Label.rank q.1) = true
      · exact ⟨p :: q :: A, B, fun x => by simp [insertSorted, hle]⟩
      · exact ⟨q :: A', B', fun x => by simp [insertSorted, hle, ih]⟩
  induction before with
  | nil => exact hinto (sorted after)
  | cons p before ih =>
    obtain ⟨A, B, ih⟩ := ih
    obtain ⟨A', B', h⟩ := hbeside p A B
    exact ⟨A', B', fun x => by rw [List.cons_append, sorted, ih, h]⟩

end Row

end RowLang

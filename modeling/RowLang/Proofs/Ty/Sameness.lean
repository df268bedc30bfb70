import RowLang.Proofs.Row.Settled
import RowLang.Proofs.Ty.Rename
import RowLang.Proofs.Ty.RoundTrip
import RowLang.Proofs.Ty.Value
import RowLang.Solver.Equate

/-!
# Proofs/Ty/Sameness — equal types and their texts

The solver knows equalities by their texts, so equal types should be printed alike.  They are as
long as the order of labels is settled in each row (`Settled`): then the order of fields is gone
from the text (`render_eq_of_same`).  A row with two labels of one rank shows which of them it has
first, so that its type is equal to one of another text (`exists_same_render_ne`).
-/

namespace RowLang.Ty

/-- In each row the order of the labels is settled. -/
def Settled : Ty → Prop := EachRow fun _ labels _ => Label.Settled labels

instance : DecidablePred Settled :=
  inferInstanceAs (DecidablePred (EachRow fun _ labels _ => Label.Settled labels))

variable {k : RowKind} {fields others : Row Ty} {tail : Ty} {Q : List Label → Prop}

theorem settled_row : (row k fields tail).Settled ↔
    Label.Settled (Row.labels fields) ∧ (∀ p ∈ fields, p.2.Settled) ∧ tail.Settled := eachRow_row

/-! ## Equal rows -/

/-- What is equal to a row is a row with the same labels and equal fields. -/
theorem exists_of_same_row {t : Ty} (h : (row k fields tail).same t = true) : ∃ others tail',
    t = row k others tail' ∧ fields.length = others.length ∧
      (∀ p ∈ fields, ∃ u, others.lookup p.1 = some u ∧ p.2.same u = true) ∧
      tail.same tail' = true := by
  cases t with
  | row k' others tail' =>
    rw [same, Bool.and_eq_true, Bool.and_eq_true, Bool.and_eq_true, decide_eq_true_eq,
      decide_eq_true_eq] at h
    obtain ⟨⟨⟨rfl, hlength⟩, hfields⟩, htail⟩ := h
    exact ⟨others, tail', rfl, hlength, exists_of_sameFields hfields, htail⟩
  | _ => cases h

theorem same_row_of_lookup {tail' : Ty} (hlength : fields.length = others.length)
    (hfields : ∀ p ∈ fields, ∃ u, others.lookup p.1 = some u ∧ p.2.same u = true)
    (htail : tail.same tail' = true) : (row k fields tail).same (row k others tail') = true := by
  rw [same, sameFields_of_forall hfields, htail]
  simp [hlength]

/-- **Equal rows have the same entries**, as far as equal fields are not told apart. -/
theorem perm_of_same {β : Type} {f : Ty → β} (hf : Row.Distinct fields)
    (hlength : fields.length = others.length)
    (h : ∀ p ∈ fields, ∃ u, others.lookup p.1 = some u ∧ f p.2 = f u) :
    (Row.mapValues f fields).Perm (Row.mapValues f others) := by
  have hnodup : (Row.mapValues f fields).Nodup := List.Nodup.of_map Prod.fst (hf.mapValues f)
  refine (List.subperm_of_subset hnodup fun q hq => ?_).perm_of_length_le ?_
  · obtain ⟨p, hp, rfl⟩ := Row.mem_mapValues.mp hq
    obtain ⟨u, hu, he⟩ := h p hp
    exact Row.mem_mapValues.mpr ⟨(p.1, u), Row.mem_of_lookup hu, by rw [he]⟩
  · rw [Row.length_mapValues, Row.length_mapValues, hlength]

theorem labels_perm_of_same (hf : Row.Distinct fields) (hlength : fields.length = others.length)
    (h : ∀ p ∈ fields, ∃ u, others.lookup p.1 = some u ∧ p.2.same u = true) :
    (Row.labels fields).Perm (Row.labels others) := by
  have hp := perm_of_same (f := fun _ => ()) hf hlength fun p hp => by
    obtain ⟨u, hu, -⟩ := h p hp
    exact ⟨u, hu, rfl⟩
  have hlabels := hp.map Prod.fst
  rwa [← Row.labels, ← Row.labels, Row.labels_mapValues, Row.labels_mapValues] at hlabels

/-- **A type is equal to itself.** -/
theorem same_self {t : Ty} (h : t.Distinct) : t.same t = true := by
  induction t using Ty.inductOn with
  | number | char | unit | empty => rfl
  | var n => exact decide_eq_true rfl
  | list t ih => exact ih h
  | arrow a b iha ihb => exact Bool.and_eq_true_iff.mpr ⟨iha h.1, ihb h.2⟩
  | bind b n body ih =>
    rw [same, ih h]
    simp
  | row k fields tail ihf iht =>
    obtain ⟨hd, hf, ht⟩ := distinct_row.mp h
    exact same_row_of_lookup rfl (fun p hp => ⟨p.2, hd.lookup_of_mem hp, ihf p hp (hf p hp)⟩)
      (iht ht)

/-- **What the labels of each row have in common is the same in equal types.** -/
theorem EachRow.of_same
    (hperm : ∀ {labels labels' : List Label}, labels.Perm labels' → Q labels → Q labels')
    {s : Ty} : ∀ {t : Ty}, s.EachRow (fun _ labels _ => Q labels) → s.Distinct → t.Distinct →
      s.same t = true → t.EachRow fun _ labels _ => Q labels := by
  induction s using Ty.inductOn with
  | number | char | unit | empty | var => intro t _ _ _ h; cases t <;> trivial
  | list s ih =>
    intro t hs hd hd' h
    cases t with
    | list t => exact ih (t := t) hs hd hd' h
    | _ => cases h
  | arrow a b iha ihb =>
    intro t hs hd hd' h
    cases t with
    | arrow c d =>
      rw [same, Bool.and_eq_true] at h
      exact ⟨iha hs.1 hd.1 hd'.1 h.1, ihb hs.2 hd.2 hd'.2 h.2⟩
    | _ => cases h
  | bind b n body ih =>
    intro t hs hd hd' h
    cases t with
    | bind b' n' body' =>
      rw [same, Bool.and_eq_true] at h
      exact ih (t := body') hs hd hd' h.2
    | _ => cases h
  | row k fields tail ihf iht =>
    intro t hs hd hd' h
    obtain ⟨others, tail', rfl, hlength, hfields, htail⟩ := exists_of_same_row h
    obtain ⟨hlabels, hs, hst⟩ := eachRow_row.mp hs
    obtain ⟨hdr, hd, hdt⟩ := distinct_row.mp hd
    obtain ⟨hdr', hd', hdt'⟩ := distinct_row.mp hd'
    have hperm' := labels_perm_of_same hdr hlength hfields
    refine eachRow_row.mpr ⟨hperm hperm' hlabels, fun q hq => ?_, iht hst hdt hdt' htail⟩
    obtain ⟨p, hp, hlabel⟩ := List.mem_map.mp (hperm'.mem_iff.mpr (Row.mem_labels_of_mem hq))
    obtain ⟨u, hu, hsame⟩ := hfields p hp
    rw [hlabel, hdr'.lookup_of_mem hq] at hu
    cases hu
    exact ihf p hp (hs p hp) (hd p hp) (hd' q hq) hsame

/-! ## Texts of equal types -/

theorem isEnd_eq_of_same {t : Ty} (h : tail.same t = true) : isEnd k tail = isEnd k t := by
  cases k <;> cases tail <;> cases t <;> first | rfl | cases h

/-- **Equal types are rendered alike** if the order of labels is settled. -/
theorem render_eq_of_same {name : Nat → List Char} {s : Ty} : ∀ {t : Ty} {nested : Bool},
    s.same t = true → s.Distinct → t.Distinct → s.Settled →
      s.render name nested = t.render name nested := by
  induction s using Ty.inductOn with
  | number | char | unit | empty => intro t nested h _ _ _; cases t <;> first | rfl | cases h
  | var n =>
    intro t nested h _ _ _
    cases t with
    | var m => rw [of_decide_eq_true h]
    | _ => cases h
  | list s ih =>
    intro t nested h hd hd' hs
    cases t with
    | list t => rw [render, render, ih h hd hd' hs]
    | _ => cases h
  | arrow a b iha ihb =>
    intro t nested h hd hd' hs
    cases t with
    | arrow c d =>
      rw [same, Bool.and_eq_true] at h
      rw [render, render, iha h.1 hd.1 hd'.1 hs.1, ihb h.2 hd.2 hd'.2 hs.2]
    | _ => cases h
  | bind b n body ih =>
    intro t nested h hd hd' hs
    cases t with
    | bind b' n' body' =>
      rw [same, Bool.and_eq_true, Bool.and_eq_true, decide_eq_true_eq, decide_eq_true_eq] at h
      obtain ⟨⟨rfl, rfl⟩, h⟩ := h
      rw [render, render, ih h hd hd' hs]
    | _ => cases h
  | row k fields tail ihf iht =>
    intro t nested h hd hd' hs
    obtain ⟨others, tail', rfl, hlength, hfields, htail⟩ := exists_of_same_row h
    obtain ⟨hsettled, hs, hst⟩ := settled_row.mp hs
    obtain ⟨hdr, hd, hdt⟩ := distinct_row.mp hd
    obtain ⟨hdr', hd', hdt'⟩ := distinct_row.mp hd'
    have hlabels := labels_perm_of_same hdr hlength hfields
    have hsorted : Row.sorted (renderFields name fields) = Row.sorted
      (renderFields name others) := by
      rw [renderFields_eq_map, renderFields_eq_map]
      refine Row.sorted_eq_of_perm (hdr.mapValues _) (by rwa [Row.labels_mapValues]) ?_
      refine perm_of_same hdr hlength fun p hp => ?_
      obtain ⟨u, hu, hsame⟩ := hfields p hp
      exact ⟨u, hu, ihf p hp hsame (hd p hp) (hd' _ (Row.mem_of_lookup hu)) (hs p hp)⟩
    rw [render, render, Row.sortedValues, Row.sortedValues, hsorted, hlength,
      Row.isPositional_perm hlabels, isEnd_eq_of_same htail, iht htail hdt hdt' hst]

/-- A type has a text just if each of its labels has a rank. -/
theorem unranked?_eq_none_iff {t : Ty} : t.unranked? = none ↔
    t.EachRow fun _ labels _ => ∀ l ∈ labels, Label.unranked? l = none := by
  induction t using Ty.inductOn with
  | number | char | unit | empty | var => simp [unranked?, EachRow]
  | list t ih => rw [unranked?, EachRow, ih]
  | bind b n body ih => rw [unranked?, EachRow, ih]
  | arrow a b iha ihb => rw [unranked?, Option.or_eq_none_iff, EachRow, iha, ihb]
  | row k fields tail ihf iht =>
    have hfields : ∀ fields : Row Ty, unrankedOfFields fields = Row.mapValues unranked? fields := by
      intro fields
      induction fields with
      | nil => rfl
      | cons p fields ih => rw [unrankedOfFields, ih]; rfl
    rw [unranked?, Option.or_eq_none_iff, Option.or_eq_none_iff, iht, eachRow_row, Row.unranked?,
      List.findSome?_eq_none_iff, hfields, Row.sortedValues, Row.sorted_mapValues,
      List.findSome?_eq_none_iff]
    refine and_congr_right' (and_congr_left' ⟨fun h p hp => ?_, fun h o ho => ?_⟩)
    · refine (ihf p hp).mp (h _ (List.mem_map.mpr ⟨(p.1, p.2.unranked?), ?_, rfl⟩))
      exact Row.mem_mapValues.mpr ⟨p, Row.mem_sorted.mpr hp, rfl⟩
    · obtain ⟨q, hq, rfl⟩ := List.mem_map.mp ho
      obtain ⟨p, hp, rfl⟩ := Row.mem_mapValues.mp hq
      exact (ihf p (Row.mem_sorted.mp hp)).mpr (h p (Row.mem_sorted.mp hp))

/-! ## Equal types of different texts -/

theorem render_tuple {name : Nat → List Char} {nested : Bool} (h : isTuple k fields tail = true) :
    (row k fields tail).render name nested =
      '(' :: (commaSeparated ((Row.sorted fields).map fun p => p.2.render name false) ++
        [')']) := by
  rw [isTuple] at h
  rw [render, renderFields_eq_map, if_pos h, parenthesize, Row.sortedValues, Row.sorted_mapValues,
    Row.mapValues, List.map_map]
  rfl

theorem render_brackets {name : Nat → List Char} {nested : Bool}
    (h : isTuple k fields tail = false) :
    (row k fields tail).render name nested =
      k.brackets.1 :: (commaSeparated ((Row.sorted fields).map fun p =>
          labelled (p.1, p.2.render name false)) ++
        ((if isEnd k tail then [] else " | ".toList ++ tail.render name false) ++
          [k.brackets.2])) := by
  rw [isTuple] at h
  rw [render, renderFields_eq_map, if_neg (by simp [h]), Row.sorted_mapValues, Row.mapValues,
    List.map_map]
  simp [Function.comp_def]

/-- Texts with commas between them show a text in the middle. -/
theorem commaSeparated_inj {before after : List (List Char)} {x y rest : List Char}
    (h : commaSeparated (before ++ x :: after) ++ rest = commaSeparated
      (before ++ y :: after) ++ rest) :
    x = y := by
  have h := List.append_cancel_right h
  cases before with
  | nil =>
    rw [List.nil_append, List.nil_append, commaSeparated_cons, commaSeparated_cons] at h
    exact List.append_cancel_right h
  | cons w before =>
    simpa [commaSeparated_cons] using h

/-- There is an equal type that is rendered differently. -/
def Doubled (name : Nat → List Char) (s : Ty) : Prop :=
  ∃ t, t.Distinct ∧ s.same t = true ∧ ∀ nested, t.render name nested ≠ s.render name nested

variable {name : Nat → List Char}

theorem doubled_arrow_left {a b : Ty} (h : Doubled name a) (hb : b.Distinct) :
    Doubled name (arrow a b) := by
  obtain ⟨t, ht, hsame, hne⟩ := h
  refine ⟨arrow t b, ⟨ht, hb⟩, Bool.and_eq_true_iff.mpr ⟨hsame, same_self hb⟩, fun nested he => ?_⟩
  cases nested <;> simp [render, parenthesize, hne] at he

theorem doubled_arrow_right {a b : Ty} (h : Doubled name b) (ha : a.Distinct) :
    Doubled name (arrow a b) := by
  obtain ⟨t, ht, hsame, hne⟩ := h
  refine ⟨arrow a t, ⟨ha, ht⟩, Bool.and_eq_true_iff.mpr ⟨same_self ha, hsame⟩, fun nested he => ?_⟩
  cases nested <;> simp [render, parenthesize, hne] at he

theorem doubled_list {t : Ty} (h : Doubled name t) : Doubled name (list t) := by
  obtain ⟨u, hu, hsame, hne⟩ := h
  exact ⟨list u, hu, hsame, fun nested he => by simp [render, hne] at he⟩

theorem doubled_bind {b : Binder} {n : Nat} {body : Ty} (h : Doubled name body) :
    Doubled name (bind b n body) := by
  obtain ⟨u, hu, hsame, hne⟩ := h
  refine ⟨bind b n u, hu, by simp [same, hsame], fun nested he => ?_⟩
  cases nested <;> simp [render, parenthesize, hne] at he

theorem doubled_tail (h : Doubled name tail) (hd : Row.Distinct fields)
    (hf : ∀ p ∈ fields, p.2.Distinct) (hend : isEnd k tail = false) :
    Doubled name (row k fields tail) := by
  obtain ⟨u, hu, hsame, hne⟩ := h
  have hend' : isEnd k u = false := by rw [← isEnd_eq_of_same hsame, hend]
  refine ⟨row k fields u, distinct_row.mpr ⟨hd, hf, hu⟩,
    same_row_of_lookup rfl (fun p hp => ⟨p.2, hd.lookup_of_mem hp, same_self (hf p hp)⟩) hsame,
    fun nested he => ?_⟩
  rw [render_brackets (by simp [isTuple, hend']), render_brackets (by simp [isTuple, hend])] at he
  simp [hend, hend', hne] at he

/-- A field can be replaced by an equal one that is rendered differently. -/
theorem doubled_field {before after : Row Ty} {l : Label} {t : Ty} (h : Doubled name t)
    (hd : Row.Distinct (before ++ (l, t) :: after)) (hf : ∀ p ∈ before ++ (l, t) :: after,
      p.2.Distinct)
    (htail : tail.Distinct) : Doubled name (row k (before ++ (l, t) :: after) tail) := by
  obtain ⟨u, hu, hsame, hne⟩ := h
  have hlabels : Row.labels (before ++ (l, u) :: after) = Row.labels
    (before ++ (l, t) :: after) := by
    simp [Row.labels]
  have hd' : Row.Distinct (before ++ (l, u) :: after) := by rwa [Row.Distinct, hlabels]
  have hlength : (before ++ (l, t) :: after).length = (before ++ (l, u) :: after).length := by simp
  refine ⟨row k (before ++ (l, u) :: after) tail, distinct_row.mpr ⟨hd', fun p hp => ?_, htail⟩,
    same_row_of_lookup hlength (fun p hp => ?_) (same_self htail), fun nested he => ?_⟩
  · rcases List.mem_append.mp hp with hp | hp
    · exact hf p (List.mem_append_left _ hp)
    · rcases List.mem_cons.mp hp with rfl | hp
      · exact hu
      · exact hf p (List.mem_append_right _ (List.mem_cons_of_mem _ hp))
  · have hself : (p.1, p.2) ∈ before ++ (l, u) :: after →
        ∃ u', List.lookup p.1 (before ++ (l, u) :: after) = some u' ∧ p.2.same u' = true :=
      fun hp' => ⟨p.2, hd'.lookup_of_mem hp', same_self (hf p hp)⟩
    rcases List.mem_append.mp hp with hp | hp
    · exact hself (List.mem_append_left _ hp)
    · rcases List.mem_cons.mp hp with rfl | hp
      · exact ⟨u, hd'.lookup_of_mem (List.mem_append_right _ List.mem_cons_self), hsame⟩
      · exact hself (List.mem_append_right _ (List.mem_cons_of_mem _ hp))
  · obtain ⟨A, B, hsorted⟩ := Row.exists_sorted_around before after l
    have htuple : isTuple k (before ++ (l, u) :: after) tail = isTuple k
      (before ++ (l, t) :: after) tail := by
      rw [isTuple, isTuple, hlength, Row.isPositional_perm (.of_eq hlabels)]
    cases hcase : isTuple k (before ++ (l, t) :: after) tail with
    | true =>
      rw [render_tuple (htuple.trans hcase), render_tuple hcase, hsorted, hsorted, List.cons.injEq,
        List.map_append, List.map_append, List.map_cons, List.map_cons] at he
      exact hne false (commaSeparated_inj he.2)
    | false =>
      rw [render_brackets (htuple.trans hcase), render_brackets hcase, hsorted, hsorted,
        List.cons.injEq, List.map_append, List.map_append, List.map_cons, List.map_cons] at he
      have hlabelled := commaSeparated_inj he.2
      simp only [labelled, List.append_cancel_left_eq, List.cons.injEq, true_and] at hlabelled
      exact hne false hlabelled

/-- A row with two labels of one rank is equal to its reverse and rendered differently. -/
theorem doubled_of_not_settled (h : ¬ Label.Settled (Row.labels fields)) (hd : Row.Distinct fields)
    (hf : ∀ p ∈ fields, p.2.Distinct) (htail : tail.Distinct) :
    Doubled name (row k fields tail) := by
  have hperm : fields.Perm fields.reverse := fields.reverse_perm.symm
  have hd' : Row.Distinct fields.reverse := (hperm.map Prod.fst).nodup_iff.mp hd
  have htuple : ∀ {r : Row Ty}, ¬ Label.Settled (Row.labels r) → isTuple k r tail = false := by
    intro r hr
    refine Bool.eq_false_iff.mpr fun ht => hr ?_
    simp only [isTuple, Bool.and_eq_true] at ht
    exact Row.settled_of_isPositional ht.1.2
  have htexts : ∀ r : Row Ty, (Row.sorted r).map (fun p => labelled (p.1, p.2.render name false)) =
      (Row.sorted (Row.mapValues (render name false) r)).map labelled := fun r => by
    rw [Row.sorted_mapValues, Row.mapValues, List.map_map]
    rfl
  refine ⟨row k fields.reverse tail,
    distinct_row.mpr ⟨hd', fun p hp => hf p (List.mem_reverse.mp hp),
    htail⟩, same_row_of_lookup List.length_reverse.symm (fun p hp => ⟨p.2, ?_, same_self (hf p hp)⟩)
    (same_self htail), fun nested he => ?_⟩
  · exact hd'.lookup_of_mem (List.mem_reverse.mpr hp)
  · rw [render_brackets (htuple h),
      render_brackets (htuple fun h' => h (h'.perm (hperm.map Prod.fst).symm)),
      List.cons.injEq, htexts, htexts] at he
    have hd := hd.mapValues (render name false)
    have hreverse : Row.mapValues (render name false) fields.reverse =
        (Row.mapValues (render name false) fields).reverse := List.map_reverse
    rw [hreverse] at he
    refine Row.sorted_reverse_ne hd (by rwa [Row.labels_mapValues]) ?_
    exact (Row.eq_of_labelled_eq hd.sorted (Row.ascending_sorted _) (Row.ascending_sorted _)
      ((Row.sorted_perm _).trans ((List.reverse_perm _).symm.trans (Row.sorted_perm _).symm))
        he.2.symm).symm

/-- **A type with an order that is not settled is equal to one of another text.** -/
theorem exists_same_render_ne {s : Ty} (hd : s.Distinct) (hs : ¬ s.Settled) : Doubled name s := by
  induction s using Ty.inductOn with
  | number | char | unit | empty | var => exact absurd trivial hs
  | list t ih => exact doubled_list (ih hd hs)
  | bind b n body ih => exact doubled_bind (ih hd hs)
  | arrow a b iha ihb =>
    rcases not_and_or.mp hs with ha | hb
    · exact doubled_arrow_left (iha hd.1 ha) hd.2
    · exact doubled_arrow_right (ihb hd.2 hb) hd.1
  | row k fields tail ihf iht =>
    obtain ⟨hd, hf, ht⟩ := distinct_row.mp hd
    by_cases hsettled : Label.Settled (Row.labels fields)
    case neg => exact doubled_of_not_settled hsettled hd hf ht
    by_cases hfields : ∀ p ∈ fields, p.2.Settled
    case pos =>
      have htail : ¬ tail.Settled := fun htail => hs (settled_row.mpr ⟨hsettled, hfields, htail⟩)
      refine doubled_tail (iht ht htail) hd hf (Bool.eq_false_iff.mpr fun hend => htail ?_)
      rw [isEnd_iff.mp hend]
      cases k <;> trivial
    case neg =>
      push Not at hfields
      obtain ⟨p, hp, hp'⟩ := hfields
      have hdoubled := ihf p hp (hf p hp) hp'
      obtain ⟨before, after, rfl⟩ := List.append_of_mem hp
      exact doubled_field hdoubled hd hf ht

/-! ## What the solver knows types by -/

theorem spelled_eq_ok_iff {t : Ty} {cs : List Char} :
    t.spelled = .ok cs ↔ t.unranked? = none ∧ t.chars = cs := by
  rw [spelled]
  cases t.unranked? <;> simp

/-- Two types have one text, and so have equalities and equations of them. -/
structure KnownAlike (s t : Ty) : Prop where
  spelled : ∃ cs, s.spelled = .ok cs ∧ t.spelled = .ok cs
  equality : ∀ u, Solver.equalityKey s u = Solver.equalityKey t u ∧
    Solver.equalityKey u s = Solver.equalityKey u t
  equation : ∀ n, (Equation.of n s).key = (Equation.of n t).key

/-- **Equal types are known by one text** just if each label has a rank of its own in its row. -/
theorem knownAlike_iff {s : Ty} (hs : s.Distinct) :
    (∀ t : Ty, t.Distinct → s.same t = true → KnownAlike s t) ↔ s.unranked? = none ∧ s.Settled := by
  constructor
  · intro h
    obtain ⟨cs, hcs, -⟩ := (h s hs (same_self hs)).spelled
    refine ⟨(spelled_eq_ok_iff.mp hcs).1, ?_⟩
    by_contra hsettled
    have hdoubled : Doubled ownName s := exists_same_render_ne hs hsettled
    obtain ⟨t, ht, hsame, hne⟩ := hdoubled
    obtain ⟨cs, hcs, hct⟩ := (h t ht hsame).spelled
    exact hne false ((spelled_eq_ok_iff.mp hct).2.trans (spelled_eq_ok_iff.mp hcs).2.symm)
  · rintro ⟨hranked, hsettled⟩ t ht hsame
    have hchars : s.chars = t.chars := render_eq_of_same hsame hs ht hsettled
    have htext : s.text = t.text := by rw [text, text, hchars]
    have hranked' : t.unranked? = none := unranked?_eq_none_iff.mpr
      ((unranked?_eq_none_iff.mp hranked).of_same (fun hp h l hl => h l (hp.mem_iff.mpr hl))
        hs ht hsame)
    refine ⟨⟨s.chars, spelled_eq_ok_iff.mpr ⟨hranked, rfl⟩,
      spelled_eq_ok_iff.mpr ⟨hranked', hchars.symm⟩⟩, fun u => ?_, fun n => ?_⟩
    · rw [Solver.equalityKey, Solver.equalityKey, Solver.equalityKey, Solver.equalityKey, htext]
      exact ⟨rfl, rfl⟩
    · rw [(Equation.of n s).key_eq, (Equation.of n t).key_eq]
      exact congrArg _ htext

/-- Positions and names in any order are printed in one. -/
theorem knownAlike_of_shuffled :
    (closedRecord [("b", number), ("10", list (var 0)), ("9", char)]).Distinct ∧
    KnownAlike (closedRecord [("b", number), ("10", list (var 0)), ("9", char)])
      (closedRecord [("9", char), ("10", list (var 0)), ("b", number)]) :=
  ⟨by decide, (knownAlike_iff (by decide)).mpr ⟨by cbv, by decide⟩ _ (by decide) (by decide)⟩

/-- **Equal types are known by two texts** where labels are two numerals of one number. -/
theorem not_knownAlike_of_zeros : ∃ s t, parse "\x7b0: N, 00: C\x7d".toList = .ok s ∧
    parse "\x7b00: C, 0: N\x7d".toList = .ok t ∧ s.Distinct ∧ t.Distinct ∧ s.same t = true ∧
    ¬ KnownAlike s t := by
  refine ⟨closedRecord [("0", number), ("00", char)], closedRecord [("00", char), ("0", number)],
    by cbv, by cbv, by decide, by decide, by decide, fun h => ?_⟩
  obtain ⟨cs, hs, ht⟩ := h.spelled
  have he := (spelled_eq_ok_iff.mp hs).2.trans (spelled_eq_ok_iff.mp ht).2.symm
  exact absurd he (by decide)

end RowLang.Ty

import RowLang.Proofs.Row.Sorted
import RowLang.Proofs.Text.Word
import RowLang.Proofs.Ty.Tidy

/-!
# Proofs/Ty/Reading — what the text of a type tells

Equalities of types are known by their texts, so one must know what a text leaves open.  It leaves
open the order of fields, which `ordered` settles, and it writes a marker that stands alone like the
empty row that it closes, which `filled` settles.  It leaves open nothing else (`readable`), even
where more text stands behind it.
-/

namespace RowLang

/-! ## Fields in order, empty rows for markers -/

namespace Ty

mutual

/-- The type with all its fields in the order of their labels. -/
@[grind] def ordered : Ty → Ty
  | arrow a b => arrow (ordered a) (ordered b)
  | list t => list (ordered t)
  | row k fields tail => row k (Row.sorted (orderedFields fields)) (ordered tail)
  | bind b n body => bind b n (ordered body)
  | t => t

/-- The fields with theirs in order. -/
def orderedFields : List (Label × Ty) → List (Label × Ty)
  | [] => []
  | (l, t) :: fields => (l, ordered t) :: orderedFields fields

end

mutual

/-- The type with each marker that closes no row replaced by the empty row that it would close. -/
def filled : Ty → Ty
  | unit => row .record [] unit
  | empty => row .variant [] empty
  | arrow a b => arrow (filled a) (filled b)
  | list t => list (filled t)
  | row k fields tail => row k (filledFields fields) (if isEnd k tail then k.end else filled tail)
  | bind b n body => bind b n (filled body)
  | t => t

/-- The fields with their markers replaced. -/
def filledFields : List (Label × Ty) → List (Label × Ty)
  | [] => []
  | (l, t) :: fields => (l, filled t) :: filledFields fields

end

/-- What the text of a type tells of it. -/
def shown (t : Ty) : Ty := t.ordered.filled

theorem orderedFields_eq_map (fields : Row Ty) :
    orderedFields fields = Row.mapValues ordered fields := by
  induction fields with
  | nil => rfl
  | cons p fields ih => simp [orderedFields, ih, Row.mapValues]

theorem filledFields_eq_map (fields : Row Ty) :
    filledFields fields = Row.mapValues filled fields := by
  induction fields with
  | nil => rfl
  | cons p fields ih => simp [filledFields, ih, Row.mapValues]

theorem isEnd_iff {k : RowKind} {t : Ty} : isEnd k t = true ↔ t = k.end := by
  cases k <;> cases t <;> simp [isEnd, RowKind.end]

@[simp] theorem isEnd_ordered (k : RowKind) (t : Ty) : isEnd k t.ordered = isEnd k t := by
  cases k <;> cases t <;> rfl

theorem ordered_row (k : RowKind) (fields : Row Ty) (tail : Ty) : (row k fields tail).ordered
    = row k (Row.mapValues ordered (Row.sorted fields)) tail.ordered := by
  rw [ordered, orderedFields_eq_map, Row.sorted_mapValues]

theorem filled_row (k : RowKind) (fields : Row Ty) (tail : Ty) : (row k fields tail).filled
    = row k (Row.mapValues filled fields) (if isEnd k tail then k.end else tail.filled) := by
  rw [filled, filledFields_eq_map]

theorem shown_row (k : RowKind) (fields : Row Ty) (tail : Ty) : (row k fields tail).shown
    = row k (Row.mapValues shown (Row.sorted fields))
      (if isEnd k tail then k.end else tail.shown) := by
  rw [shown, ordered_row, filled_row, isEnd_ordered, Row.mapValues, Row.mapValues, List.map_map]
  rfl

end Ty

/-! ## A nested type by its brackets -/

namespace Ty

/-- The outermost part of the text of a nested type. -/
inductive View where
  | number
  | char
  | var (n : Nat)
  | list (t : Ty)
  /-- Types in parentheses: one for an arrow or a binder, more for a tuple. -/
  | group (items : List Ty)
  | row (kind : RowKind) (fields : Row Ty) (tail : Option Ty)

/-- What the first character of a view tells. -/
inductive Lead where
  | number
  | char
  | var
  | list
  | group
  | row (kind : RowKind)

/-- What a character tells as the first one. -/
def Lead.of (c : Char) : Lead :=
  if c = 'N' then .number
  else if c = 'C' then .char
  else if c = '[' then .list
  else if c = '(' then .group
  else if c = '{' then .row .record
  else if c = '<' then .row .variant
  else .var

theorem Lead.of_name {c : Char} (h : Text.isLower c = true ∨ Text.isAsciiDigit c = true) :
    Lead.of c = .var := by
  have hne : ∀ d, Text.isLower d = false → Text.isAsciiDigit d = false → c ≠ d := by
    rintro d hd hd' rfl
    rw [hd, hd'] at h
    simp at h
  rw [Lead.of, if_neg (hne _ rfl rfl), if_neg (hne _ rfl rfl), if_neg (hne _ rfl rfl),
    if_neg (hne _ rfl rfl), if_neg (hne _ rfl rfl), if_neg (hne _ rfl rfl)]

variable {name : Nat → List Char}

namespace View

/-- The text of a field. -/
def fieldText (name : Nat → List Char) (p : Label × Ty) : List Char :=
  labelled (p.1, p.2.render name false)

/-- The text of a tail behind the fields. -/
def tailText (name : Nat → List Char) : Option Ty → List Char
  | none => []
  | some t => ' ' :: '|' :: ' ' :: t.render name false

/-- The text of a view, with a name for each variable. -/
def text (name : Nat → List Char) : View → List Char
  | number => ['N']
  | char => ['C']
  | var n => name n
  | list t => '[' :: (t.render name false ++ [']'])
  | group items => '(' :: (commaSeparated (items.map (render name false)) ++ [')'])
  | row k fields tail =>
    k.brackets.1 ::
      (commaSeparated (fields.map (fieldText name)) ++ (tailText name tail ++ [k.brackets.2]))

/-- What the first character of a view tells. -/
def lead : View → Lead
  | number => .number
  | char => .char
  | var _ => .var
  | list _ => .list
  | group _ => .group
  | row k _ _ => .row k

/-- The types that a view consists of. -/
def parts : View → List Ty
  | list t => [t]
  | group items => items
  | row _ fields tail => fields.map (·.2) ++ tail.toList
  | _ => []

/-- What the text of a view tells of it. -/
def seen : View → View
  | number => number
  | char => char
  | var n => var n
  | list t => list t.shown
  | group items => group (items.map shown)
  | row k fields tail => row k (fields.mapValues shown) (tail.map shown)

theorem mem_parts_field {k : RowKind} {fields : Row Ty} {tail : Option Ty} {p : Label × Ty}
    (h : p ∈ fields) : p.2 ∈ (row k fields tail).parts :=
  List.mem_append_left _ (List.mem_map_of_mem h)

theorem mem_parts_tail {k : RowKind} {fields : Row Ty} {tail : Option Ty} {t : Ty} (h : t ∈ tail) :
    t ∈ (row k fields tail).parts :=
  List.mem_append_right _ (Option.mem_toList.mpr h)

/-- The parts are types that can be read. -/
structure Good (v : View) : Prop where
  tidy : ∀ t ∈ v.parts, t.Tidy
  group_ne_nil : ∀ items, v = group items → items ≠ []
  plain : ∀ k fields tail, v = row k fields tail → ∀ l ∈ fields.labels, Label.Plain l

theorem exists_text_eq (hname : Naming name) (v : View) :
    ∃ c w, v.text name = c :: w ∧ Lead.of c = v.lead := by
  cases v with
  | number => exact ⟨_, _, rfl, rfl⟩
  | char => exact ⟨_, _, rfl, rfl⟩
  | list t => exact ⟨_, _, rfl, rfl⟩
  | group items => exact ⟨_, _, rfl, rfl⟩
  | row k fields tail => cases k <;> exact ⟨_, _, rfl, rfl⟩
  | var n =>
    obtain ⟨c, w, he, hc⟩ := hname.exists_cons n
    exact ⟨c, w, he, Lead.of_name hc⟩

/-- The first character tells the kind of a view. -/
theorem lead_eq (hname : Naming name) {v v' : View} {r r' : List Char}
    (h : v.text name ++ r = v'.text name ++ r') : v.lead = v'.lead := by
  obtain ⟨c, w, hc, hl⟩ := exists_text_eq hname v
  obtain ⟨c', w', hc', hl'⟩ := exists_text_eq hname v'
  rw [hc, hc', List.cons_append, List.cons_append, List.cons.injEq] at h
  rw [← hl, ← hl', h.1]

theorem stops_tail (k : RowKind) (tail : Option Ty) (r : List Char) :
    Stops (tailText name tail ++ ([k.brackets.2] ++ r)) := by
  cases tail with
  | none => cases k <;> exact stops_cons rfl (by decide) _
  | some t =>
    refine ⟨Text.noWord_blank rfl _, ?_⟩
    rintro ⟨w, hw⟩
    simp [tailText] at hw

theorem head?_tail_ne_comma (k : RowKind) (tail : Option Ty) (r : List Char) :
    (tailText name tail ++ ([k.brackets.2] ++ r)).head? ≠ some ',' := by
  cases tail <;> cases k <;> simp [tailText, RowKind.brackets]

/-- A type can be read behind its label. -/
theorem readable_field {p : Label × Ty} (hp : Label.Plain p.1)
    (h : Readable (render name false) shown Tidy p.2) :
    Readable (fieldText name) (fun p => (p.1, p.2.shown))
      (fun p => Label.Plain p.1 ∧ p.2.Tidy) p := by
  intro q r r' hq hr hr' he
  have hword : ∀ {l : Label}, Label.Plain l → Text.IsWord l.toList := fun hl c hc => by
    rw [Text.isWordChar, Bool.or_eq_true]
    exact hl.2 c hc
  simp only [fieldText, labelled, List.append_assoc, List.cons_append] at he
  obtain ⟨hl, he⟩ := Text.word_inj (hword hp) (hword hq.1) (Text.closes_cons rfl _)
    (Text.closes_cons rfl _) he
  obtain ⟨ht, hrr⟩ := h q.2 r r' hq.2 hr hr' (List.cons.inj (List.cons.inj he).2).2
  exact ⟨Prod.ext (String.toList_inj.mp hl) ht, hrr⟩

/-- A field does not look like the end of the fields. -/
theorem fields_ne_nil {p : Label × Ty} {ps : Row Ty} (hp : Label.Plain p.1) {r r' : List Char}
    (hr : Text.Closes r) : r ≠ commaSeparated ((p :: ps).map (fieldText name)) ++ r' := by
  rintro rfl
  obtain ⟨c, w, hcw⟩ := List.exists_cons_of_ne_nil hp.1
  have hhead : (commaSeparated ((p :: ps).map (fieldText name)) ++ r').head? = some c := by
    cases ps with
    | nil => simp [commaSeparated_singleton, fieldText, labelled, hcw]
    | cons q ps => simp [commaSeparated_cons_cons, fieldText, labelled, hcw]
  have hc := hp.2 c (by rw [hcw]; exact List.mem_cons_self)
  rw [← Bool.or_eq_true, ← Text.isWordChar, hr c hhead] at hc
  exact absurd hc (by simp)

theorem fields_inj {k : RowKind} {fields fields' : Row Ty} {tail tail' : Option Ty}
    {r r' : List Char} (hread : ∀ p ∈ fields, Readable (render name false) shown Tidy p.2)
    (hl : ∀ l ∈ fields.labels, Label.Plain l) (hl' : ∀ l ∈ fields'.labels, Label.Plain l)
    (htidy : ∀ p ∈ fields', p.2.Tidy)
    (h : commaSeparated (fields.map (fieldText name)) ++
      (tailText name tail ++ ([k.brackets.2] ++ r))
      = commaSeparated (fields'.map (fieldText name)) ++
        (tailText name tail' ++ ([k.brackets.2] ++ r'))) :
    fields.mapValues shown = fields'.mapValues shown ∧
      tailText name tail ++ ([k.brackets.2] ++ r) = tailText name tail' ++
        ([k.brackets.2] ++ r') := by
  cases fields with
  | nil =>
    cases fields' with
    | nil => exact ⟨rfl, h⟩
    | cons q qs => exact absurd h (fields_ne_nil (hl' _ (by simp)) (stops_tail k tail r).closes)
  | cons p ps =>
    cases fields' with
    | nil => exact absurd h.symm (fields_ne_nil (hl _ (by simp)) (stops_tail k tail' r').closes)
    | cons q qs =>
      exact separated_inj
        (fun x hx => readable_field (hl _ (Row.mem_labels_of_mem hx)) (hread x hx))
        (fun y hy => ⟨hl' _ (Row.mem_labels_of_mem hy), htidy y hy⟩) (by simp) (by simp)
        (stops_tail k tail r) (stops_tail k tail' r') (head?_tail_ne_comma k tail r)
        (head?_tail_ne_comma k tail' r') h

theorem tail_inj {k : RowKind} {tail tail' : Option Ty} {r r' : List Char}
    (hread : ∀ t ∈ tail, Readable (render name false) shown Tidy t)
    (htidy : ∀ t ∈ tail', t.Tidy)
    (h : tailText name tail ++ ([k.brackets.2] ++ r) = tailText name tail' ++
      ([k.brackets.2] ++ r')) :
    tail.map shown = tail'.map shown ∧ r = r' := by
  have hstops : ∀ r, Stops (k.brackets.2 :: r) := fun r => by
    cases k <;> exact stops_cons rfl (by decide) _
  cases tail with
  | none =>
    cases tail' with
    | none => exact ⟨rfl, (List.cons.inj h).2⟩
    | some t => cases k <;> simp [tailText, RowKind.brackets] at h
  | some t =>
    cases tail' with
    | none => cases k <;> simp [tailText, RowKind.brackets] at h
    | some t' =>
      simp only [tailText, List.cons_append, List.nil_append, List.cons.injEq, true_and] at h
      obtain ⟨ht, hrr⟩ := hread t rfl t' _ _ (htidy t' rfl) (hstops r) (hstops r') h
      exact ⟨by rw [Option.map_some, ht, Option.map_some], (List.cons.inj hrr).2⟩

/-- **A view can be read if its parts can.** -/
theorem text_inj (hname : Naming name) {v v' : View} {r r' : List Char}
    (hread : ∀ t ∈ v.parts, Readable (render name false) shown Tidy t) (hv : v.Good)
    (hv' : v'.Good) (hr : Text.Closes r) (hr' : Text.Closes r')
    (h : v.text name ++ r = v'.text name ++ r') : v.seen = v'.seen ∧ r = r' := by
  have hlead := lead_eq hname h
  cases v with
  | number =>
    cases v' with
    | number => exact ⟨rfl, (List.cons.inj h).2⟩
    | _ => cases hlead
  | char =>
    cases v' with
    | char => exact ⟨rfl, (List.cons.inj h).2⟩
    | _ => cases hlead
  | var n =>
    cases v' with
    | var n' =>
      obtain ⟨hn, hrr⟩ := Text.word_inj (hname.isWord n) (hname.isWord n') hr hr' h
      exact ⟨by rw [hname.injective hn], hrr⟩
    | _ => cases hlead
  | list t =>
    cases v' with
    | list t' =>
      simp only [text, List.cons_append, List.append_assoc, List.cons.injEq, true_and] at h
      obtain ⟨ht, hrr⟩ := hread t (by simp [parts]) t' _ _ (hv'.tidy t' (by simp [parts]))
        (stops_cons rfl (by decide) _) (stops_cons rfl (by decide) _) h
      exact ⟨by rw [seen, ht, seen], (List.cons.inj hrr).2⟩
    | _ => cases hlead
  | group items =>
    cases v' with
    | group items' =>
      simp only [text, List.cons_append, List.append_assoc, List.cons.injEq, true_and] at h
      obtain ⟨hi, hrr⟩ := separated_inj hread hv'.tidy (hv.group_ne_nil _ rfl)
        (hv'.group_ne_nil _ rfl) (stops_cons rfl (by decide) _) (stops_cons rfl (by decide) _)
        (by simp) (by simp) h
      exact ⟨congrArg group hi, (List.cons.inj hrr).2⟩
    | _ => cases hlead
  | row k fields tail =>
    cases v' with
    | row k' fields' tail' =>
      obtain rfl : k = k' := by cases hlead; rfl
      simp only [text, List.cons_append, List.append_assoc, List.cons.injEq, true_and] at h
      obtain ⟨hf, h⟩ := fields_inj (fun p hp => hread _ (mem_parts_field hp))
        (hv.plain _ _ _ rfl) (hv'.plain _ _ _ rfl)
        (fun p hp => hv'.tidy _ (mem_parts_field hp)) h
      obtain ⟨ht, hrr⟩ := tail_inj (fun t ht => hread t (mem_parts_tail ht))
        (fun t ht => hv'.tidy t (mem_parts_tail ht)) h
      exact ⟨by rw [seen, hf, ht, seen], hrr⟩
    | _ => cases hlead

end View

/-! ## The view of a type -/

/-- Whether a row is written as a tuple. -/
def isTuple (k : RowKind) (fields : Row Ty) (tail : Ty) : Bool :=
  k = .record && 1 < fields.length && Row.isPositional fields && isEnd k tail

/-- The tail that is written behind the fields, if any is. -/
def writtenTail (k : RowKind) (tail : Ty) : Option Ty := if isEnd k tail then none else some tail

/-- A nested type as its text shows it. -/
def view : Ty → View
  | number => .number
  | char => .char
  | unit => .row .record [] none
  | empty => .row .variant [] none
  | var n => .var n
  | arrow a b => .group [arrow a b]
  | list t => .list t
  | row k fields tail =>
    if isTuple k fields tail then .group (Row.sortedValues fields)
    else .row k (Row.sorted fields) (writtenTail k tail)
  | bind b n body => .group [bind b n body]

/-- **The text of a nested type is the text of its view.** -/
theorem text_view (name : Nat → List Char) (t : Ty) : t.view.text name = t.render name true := by
  cases t with
  | number | char | unit | empty | var => simp only [view, View.text, render] <;> rfl
  | list t => simp only [view, View.text, render]; rfl
  | arrow | bind =>
    simp only [view, View.text, render, parenthesize, List.map_cons, List.map_nil,
      commaSeparated_singleton]
    rfl
  | row k fields tail =>
    rw [view, render, isTuple, renderFields_eq_map]
    split
    · rw [View.text, parenthesize, Row.sortedValues, Row.sortedValues, Row.sorted_mapValues,
        Row.mapValues, List.map_map, List.map_map]
      rfl
    · rw [View.text, writtenTail, Row.sorted_mapValues, Row.mapValues, List.map_map]
      cases isEnd k tail <;> simp [View.tailText, Function.comp_def] <;> rfl

/-- The fields of a tidy row are parts of its view, and so is a tail that is written. -/
theorem Tidy.good_view {t : Ty} (h : t.Tidy) : t.view.Good := by
  cases t with
  | number | char | unit | empty | var =>
    exact ⟨by simp [view, View.parts], by simp [view], by simp [view]⟩
  | list t => exact ⟨by simpa [view, View.parts, Tidy] using h, by simp [view], by simp [view]⟩
  | arrow | bind => exact ⟨by simpa [view, View.parts] using h, by simp [view], by simp [view]⟩
  | row k fields tail =>
    obtain ⟨hd, hf, ht⟩ := tidy_row.mp h
    rw [view]
    split
    case isTrue htuple =>
      refine ⟨fun t ht => ?_, ?_, by simp⟩
      · obtain ⟨p, hp, rfl⟩ := List.mem_map.mp ht
        exact hf p (Row.mem_sorted.mp hp)
      · rintro items ⟨rfl⟩ hnil
        rw [Row.sortedValues, List.map_eq_nil_iff, Row.sorted_eq_nil] at hnil
        simp [isTuple, hnil] at htuple
    case isFalse =>
      refine ⟨fun t ht' => ?_, by simp, ?_⟩
      · rcases List.mem_append.mp ht' with hmem | hmem
        · obtain ⟨p, hp, rfl⟩ := List.mem_map.mp hmem
          exact hf p (Row.mem_sorted.mp hp)
        · rw [Option.mem_toList, writtenTail] at hmem
          split at hmem
          · simp at hmem
          · exact Option.some.inj hmem ▸ ht
      · rintro k' fields' tail' ⟨rfl⟩ l hl
        exact hd.plain l ((Row.labels_sorted_perm fields).mem_iff.mp hl)

/-- The type whose view tells this. -/
def View.told : View → Ty
  | number => .number
  | char => .char
  | var n => .var n
  | list t => .list t
  | group [t] => t
  | group ts => closedRecord (Row.positional ts)
  | row k fields none => .row k fields k.end
  | row k fields (some t) => .row k fields t

private theorem told_tuple {fields : Row Ty} (hlen : 1 < fields.length)
    (hpos : fields.isPositional = true) :
    (View.group ((Row.sortedValues fields).map shown)).told
      = closedRecord (Row.mapValues shown (Row.sorted fields)) := by
  have hlen' : ((Row.sortedValues fields).map shown).length = fields.length := by
    rw [List.length_map, Row.sortedValues, List.length_map, (Row.sorted_perm fields).length_eq]
  rw [← Row.positional_sortedValues hpos, ← Row.positional_map]
  match h : (Row.sortedValues fields).map shown with
  | [] => rw [h] at hlen'; simp at hlen'; omega
  | [_] => rw [h] at hlen'; simp at hlen'; omega
  | _ :: _ :: _ => rfl

/-- **A view tells all that the text tells.** -/
theorem told_view (t : Ty) : t.view.seen.told = t.shown := by
  cases t with
  | number | char | unit | empty | var | arrow | list | bind => rfl
  | row k fields tail =>
    rw [shown_row, view]
    split
    case isTrue htuple =>
      simp only [isTuple, Bool.and_eq_true, decide_eq_true_iff] at htuple
      obtain ⟨⟨⟨rfl, hlen⟩, hpos⟩, hend⟩ := htuple
      rw [View.seen, told_tuple hlen hpos, if_pos hend]
      rfl
    case isFalse =>
      rw [View.seen, writtenTail]
      split <;> rfl

/-! ## Reading a type -/

/-- A nested type can be read, whatever stands behind it. -/
def NestedReadable (name : Nat → List Char) (t : Ty) : Prop :=
  ∀ (t' : Ty) r r', t'.Tidy → Text.Closes r → Text.Closes r' →
    t.render name true ++ r = t'.render name true ++ r' → t.shown = t'.shown ∧ r = r'

theorem nestedReadable_of_parts (hname : Naming name) {t : Ty} (h : t.Tidy)
    (hread : ∀ u ∈ t.view.parts, Readable (render name false) shown Tidy u) :
    t.NestedReadable name := by
  intro t' r r' h' hr hr' he
  rw [← text_view, ← text_view] at he
  obtain ⟨hseen, hrr⟩ := View.text_inj hname hread h.good_view h'.good_view hr hr' he
  exact ⟨by rw [← told_view, hseen, told_view], hrr⟩

theorem isWord_word (b : Binder) : Text.IsWord b.word.toList := by
  cases b <;> exact fun c hc => List.all_eq_true.mp (by decide) c hc

/-- A type in front of no further word is no binder, even if its text begins with a name that is the
word of one. -/
theorem nested_ne_binder (hname : Naming name) (t : Ty) (b : Binder) (n : Nat) {r r' : List Char}
    (hr : Text.NoWord r) : t.render name true ++ r ≠ b.word.toList ++ ' ' :: (name n ++ r') := by
  intro he
  rw [← text_view] at he
  obtain ⟨c, w, hw, hc⟩ : ∃ c w, b.word.toList = c :: w ∧ Lead.of c = .var := by
    cases b <;> exact ⟨_, _, rfl, rfl⟩
  obtain ⟨d, v, hv, hd⟩ := View.exists_text_eq hname t.view
  have hlead : t.view.lead = .var := by
    rw [hv, hw, List.cons_append, List.cons_append, List.cons.injEq] at he
    rw [← hd, he.1, hc]
  cases hview : t.view with
  | var m =>
    rw [hview, View.text] at he
    obtain ⟨-, hrest⟩ := Text.word_inj (hname.isWord m) (isWord_word b) hr.closes
      (Text.closes_cons rfl _) he
    obtain ⟨e, x, hx, -⟩ := hname.exists_cons n
    rw [hx] at hrest
    have he := hr.behindBlank e _ hrest
    rw [hname.isWord n e (by rw [hx]; exact List.mem_cons_self)] at he
    cases he
  | _ => rw [hview] at hlead; cases hlead

/-- Only arrows and binders have parentheses of their own. -/
theorem render_cases (name : Nat → List Char) (t : Ty) :
    (∃ a b, t = arrow a b) ∨ (∃ b n body, t = bind b n body) ∨
    t.render name false = t.render name true := by
  cases t with
  | arrow a b => exact Or.inl ⟨a, b, rfl⟩
  | bind b n body => exact Or.inr (Or.inl ⟨b, n, body, rfl⟩)
  | number | char | unit | empty | var | list | row => exact Or.inr (Or.inr (by simp only [render]))

theorem render_arrow (name : Nat → List Char) (a b : Ty)
    (r : List Char) : (arrow a b).render name false ++ r
    = a.render name true ++ (" -> ".toList ++ (b.render name false ++ r)) := by
  simp [render, parenthesize]

theorem render_bind (name : Nat → List Char) (b : Binder) (n : Nat) (body : Ty) (r : List Char) :
    (bind b n body).render name false ++ r
      = b.word.toList ++ ' ' :: (name n ++ '.' :: ' ' :: (body.render name false ++ r)) := by
  simp [render, parenthesize]

theorem closes_arrow (r : List Char) : Text.Closes (" -> ".toList ++ r) :=
  Text.closes_cons (c := ' ') rfl _

theorem noWord_arrow (r : List Char) : Text.NoWord (" -> ".toList ++ r) :=
  Text.noWord_blank (c := '-') rfl _

section Naming

variable (hname : Naming name)

include hname

private theorem readable_of_nested {t : Ty} (ht : t.NestedReadable name)
    (hatom : t.render name false = t.render name true) :
    Readable (render name false) shown Tidy t := by
  intro t' r r' h' hr hr' he
  rw [hatom] at he
  rcases render_cases name t' with ⟨a, b, rfl⟩ | ⟨b, n, body, rfl⟩ | hatom'
  · rw [render_arrow] at he
    obtain ⟨_, hrr⟩ := ht a r _ h'.1 hr.closes (closes_arrow _) he
    exact absurd ⟨_, hrr.symm⟩ hr.noArrow
  · rw [render_bind] at he
    exact absurd he (nested_ne_binder hname t b n hr.toNoWord)
  · rw [hatom'] at he
    exact ht t' r r' h' hr.closes hr'.closes he

private theorem readable_arrow {a b : Ty} (ha : a.NestedReadable name)
    (hb : Readable (render name false) shown Tidy b) :
    Readable (render name false) shown Tidy (arrow a b) := by
  intro t' r r' h' hr hr' he
  rw [render_arrow] at he
  rcases render_cases name t' with ⟨a', b', rfl⟩ | ⟨b', n, body, rfl⟩ | hatom
  · rw [render_arrow] at he
    obtain ⟨hsa, he⟩ := ha a' _ _ h'.1 (closes_arrow _) (closes_arrow _) he
    obtain ⟨hsb, hrr⟩ := hb b' r r' h'.2 hr hr' (List.append_cancel_left he)
    exact ⟨congrArg₂ arrow hsa hsb, hrr⟩
  · rw [render_bind] at he
    exact absurd he (nested_ne_binder hname a b' n (noWord_arrow _))
  · rw [hatom] at he
    obtain ⟨_, hrr⟩ := ha t' _ r' h' (closes_arrow _) hr'.closes he
    exact absurd ⟨_, hrr⟩ hr'.noArrow

private theorem readable_bind {b : Binder} {n : Nat} {body : Ty}
    (hbody : Readable (render name false) shown Tidy body) :
    Readable (render name false) shown Tidy (bind b n body) := by
  intro t' r r' h' hr hr' he
  rw [render_bind] at he
  rcases render_cases name t' with ⟨a, c, rfl⟩ | ⟨b', n', body', rfl⟩ | hatom
  · rw [render_arrow] at he
    exact absurd he.symm (nested_ne_binder hname a b n (noWord_arrow _))
  · rw [render_bind] at he
    obtain ⟨hb, he⟩ := Text.word_inj (isWord_word b) (isWord_word b') (Text.closes_cons rfl _)
      (Text.closes_cons rfl _) he
    obtain ⟨hn, he⟩ := Text.word_inj (hname.isWord n) (hname.isWord n') (Text.closes_cons rfl _)
      (Text.closes_cons rfl _) (List.cons.inj he).2
    obtain ⟨hs, hrr⟩ := hbody body' r r' h' hr hr' (List.cons.inj (List.cons.inj he).2).2
    obtain rfl : b = b' := by cases b <;> cases b' <;> first | rfl | exact absurd hb (by decide)
    obtain rfl := hname.injective hn
    exact ⟨congrArg (bind b n) hs, hrr⟩
  · rw [hatom] at he
    exact absurd he.symm (nested_ne_binder hname t' b n hr'.toNoWord)

private theorem readable_both {t : Ty} (h : t.Tidy) :
    t.NestedReadable name ∧ Readable (render name false) shown Tidy t := by
  have hgroup : ∀ {t : Ty}, t.Tidy → t.view.parts = [t] →
      Readable (render name false) shown Tidy t → t.NestedReadable name := fun h hparts hread =>
    nestedReadable_of_parts hname h fun u hu => by
      rw [hparts, List.mem_singleton] at hu
      exact hu ▸ hread
  have hatom : ∀ {t : Ty}, t.Tidy → t.render name false = t.render name true →
      (∀ u ∈ t.view.parts, Readable (render name false) shown Tidy u) →
      t.NestedReadable name ∧ Readable (render name false) shown Tidy t := fun h he hread =>
    have hnested := nestedReadable_of_parts hname h hread
    ⟨hnested, readable_of_nested hname hnested he⟩
  induction t using inductOn with
  | number | char | unit | empty | var =>
    exact hatom h (by simp only [render]) (by simp [view, View.parts])
  | list t ih =>
    refine hatom h (by simp only [render]) fun u hu => ?_
    obtain rfl := List.mem_singleton.mp hu
    exact (ih h).2
  | arrow a b iha ihb =>
    have hread := readable_arrow hname (iha h.1).1 (ihb h.2).2
    exact ⟨hgroup h rfl hread, hread⟩
  | bind b n body ih =>
    have hread := readable_bind hname (b := b) (n := n) (ih h).2
    exact ⟨hgroup h rfl hread, hread⟩
  | row k fields tail ihf iht =>
    obtain ⟨_, hf, ht⟩ := tidy_row.mp h
    refine hatom h (by simp only [render]) fun u hu => ?_
    have hfield : ∀ p ∈ Row.sorted fields, Readable (render name false) shown Tidy p.2 :=
      fun p hp => (ihf p (Row.mem_sorted.mp hp) (hf p (Row.mem_sorted.mp hp))).2
    rw [view] at hu
    split at hu
    · obtain ⟨p, hp, rfl⟩ := List.mem_map.mp hu
      exact hfield p hp
    · rcases List.mem_append.mp hu with hu | hu
      · obtain ⟨p, hp, rfl⟩ := List.mem_map.mp hu
        exact hfield p hp
      · rw [Option.mem_toList, writtenTail] at hu
        split at hu
        · simp at hu
        · exact Option.some.inj hu ▸ (iht ht).2

/-- **A type can be read**, whatever stands behind it but an arrow. -/
theorem readable {t : Ty} (h : t.Tidy) : Readable (render name false) shown Tidy t :=
  (readable_both hname h).2

/-- **Types of one text show the same**, whatever the names are: they differ at most in the order of
fields and in markers that stand for empty rows. -/
theorem shown_eq_of_render_eq {s t : Ty} (hs : s.Tidy) (ht : t.Tidy)
    (h : s.render name false = t.render name false) : s.shown = t.shown :=
  (readable hname hs t [] [] ht stops_nil stops_nil (by rw [h])).1

end Naming

theorem shown_eq_of_text_eq {s t : Ty} (hs : s.Tidy) (ht : t.Tidy) (h : s.text = t.text) :
    s.shown = t.shown := shown_eq_of_render_eq naming_ownName hs ht (String.ofList_inj.mp h)

end Ty

end RowLang

import RowLang.Proofs.Expr.RoundTrip
import RowLang.Proofs.Ty.Rename
import RowLang.Proofs.Ty.Sameness

/-!
# Proofs/Expr/Stable — printing again gives the same text

What a text shows of an expression need not be the expression, but it is written as the same text
(`Expr.Legible.render_shown`): the order of fields is settled by the first writing, a word that is
an operator is written like the variable it stands for, and no short form comes or goes.  So the
text of an expression that was read is reproduced when it is read and written once more
(`Expr.exists_stable_iff`).
-/

namespace RowLang

namespace Pattern

/-- **What the text of a pattern shows has the same text.** -/
theorem chars_shown (p : Pattern) : p.shown.chars = p.chars := by
  induction p using Pattern.inductOn with
  | name x => rfl
  | wildcard => rfl
  | row fields ih =>
    have hfields : fieldChars (Row.mapValues shown fields) = fieldChars fields := by
      rw [fieldChars_eq, fieldChars_eq, Row.mapValues, Row.mapValues, Row.mapValues, List.map_map]
      exact List.map_congr_left fun p hp => congrArg (Prod.mk p.1) (ih p hp)
    rw [shown, shownFields_eq]
    split
    case isTrue h =>
      have hpositional : Row.isPositional (Row.sorted (Row.mapValues shown fields)) =
        Row.isPositional fields :=
        Row.isPositional_perm (by
          rw [← Row.labels_mapValues shown fields]
          exact Row.labels_sorted_perm _)
      rw [chars, chars, hpositional, (Row.sorted_perm _).length_eq, Row.length_mapValues,
        if_pos h, if_pos h,
        fieldChars_eq, ← Row.sorted_mapValues, ← fieldChars_eq, hfields, Row.sortedValues,
          Row.sorted_sorted]
      rfl
    case isFalse h =>
      have hpositional : Row.isPositional (Row.mapValues shown fields) = Row.isPositional fields :=
        Row.isPositional_perm (by rw [Row.labels_mapValues])
      rw [chars, chars, hpositional, Row.length_mapValues, if_neg h, if_neg h, hfields]

/-- Only a row of one name shows one. -/
theorem shown_eq_single {p : Pattern} {l : Label} {x : String} (h : p.shown = row [(l, name x)]) :
    p = row [(l, name x)] := by
  cases p with
  | name | wildcard => cases h
  | row fields =>
    rw [shown, shownFields_eq] at h
    split at h
    case isTrue htuple =>
      have hlength := congrArg List.length (row.inj h)
      rw [(Row.sorted_perm _).length_eq, Row.length_mapValues] at hlength
      simp [hlength] at htuple
    case isFalse =>
      have hfields : Row.mapValues shown fields = [(l, name x)] := row.inj h
      obtain ⟨⟨k, q⟩, fields, rfl⟩ :=
        List.exists_cons_of_ne_nil (l := fields) (by rintro rfl; cases hfields)
      obtain ⟨hfirst, hnil⟩ := List.cons.inj hfields
      obtain ⟨hlabel, hq⟩ := Prod.mk.inj hfirst
      have hq : q.shown = name x := hq
      rw [List.map_eq_nil_iff.mp hnil, show k = l from hlabel]
      cases q with
      | name y => rw [show y = x from name.inj hq]
      | wildcard => cases hq
      | row others =>
        rw [shown] at hq
        split at hq <;> cases hq

theorem shown_eq_wildcard {p : Pattern} (h : p.shown = wildcard) : p = wildcard := by
  cases p with
  | wildcard => rfl
  | name x => cases h
  | row fields =>
    rw [shown] at h
    split at h <;> cases h

end Pattern

namespace Ty

theorem Written.distinct {t : Ty} (h : t.Written) : t.Distinct := by
  induction t using Ty.inductOn with
  | number | char | unit | empty | var => trivial
  | list t ih => exact ih h
  | arrow a b iha ihb => exact ⟨iha h.1, ihb h.2⟩
  | bind b n body ih => exact ih h.2
  | row k fields tail ihf iht =>
    obtain ⟨hfields, htail⟩ := written_row.mp h
    refine distinct_row.mpr ⟨hfields.1, fun p hp => ihf p hp (hfields.2 p hp).2, ?_⟩
    rcases htail with rfl | htail
    · cases k <;> trivial
    · exact iht htail

/-- **What a written type shows has a text if the type has one.** -/
theorem Written.unranked?_shown {t : Ty} (ht : t.Written) (h : t.unranked? = none) :
    t.shown.unranked? = none :=
  unranked?_eq_none_iff.mpr ((unranked?_eq_none_iff.mp h).of_same
    (fun hp h l hl => h l (hp.mem_iff.mpr hl)) ht.distinct
      (written_of_parse ht.parse_chars).distinct
    ht.same_shown)

end Ty

theorem Operator.spelling_of_ofWord? {w : String} {o : Operator} (h : ofWord? w = some o) :
    o.fixity = .word ∧ o.spelling = w := by
  simpa using List.find?_some h

namespace Expr

/-! ## Short forms stay -/

theorem isNumber_shown (e : Expr) : e.shown.isNumber = e.isNumber := by
  cases e with
  | var x =>
    rw [shown, ofWord]
    split <;> rfl
  | _ => rfl

/-- Only a variable shows one. -/
theorem shown_eq_var {e : Expr} {x : String} (h : e.shown = var x) : e = var x := by
  cases e with
  | var y =>
    rw [shown, ofWord] at h
    split at h <;> cases h
    rfl
  | _ => cases h

/-- A function that is not that of a projection is not shown as one. -/
theorem projectedLabel?_shown {e : Expr} (h : projectedLabel? e = none) :
    projectedLabel? e.shown = none := by
  by_contra hne
  obtain ⟨l, hl⟩ := Option.ne_none_iff_exists'.mp hne
  have hshown := projectedLabel?_eq_some hl
  cases e with
  | lambda p body =>
    obtain ⟨hp, hbody⟩ := lambda.inj hshown
    rw [Pattern.shown_eq_single hp, shown_eq_var hbody, projectedLabel?_projection] at h
    cases h
  | var x =>
    rw [shown, ofWord] at hshown
    split at hshown <;> cases hshown
  | _ => cases hshown

/-- An application that is not infix is not shown as one. -/
theorem infixLevel?_shown {fn arg : Expr} (h : infixLevel? fn arg = none) :
    infixLevel? fn.shown arg.shown = none := by
  by_contra hne
  obtain ⟨⟨o, k⟩, hk⟩ := Option.ne_none_iff_exists'.mp hne
  obtain ⟨hfn, hlevel, a, b, harg⟩ := infixLevel?_eq_some hk
  obtain ⟨items, rfl⟩ : ∃ items, arg = tuple items := by
    cases arg with
    | tuple items => exact ⟨items, rfl⟩
    | var x =>
      rw [shown, ofWord] at harg
      split at harg <;> cases harg
    | _ => cases harg
  have hlength := congrArg List.length (tuple.inj harg)
  rw [shownAll_eq, List.length_map] at hlength
  obtain ⟨a, b, rfl⟩ := List.length_eq_two.mp hlength
  cases fn with
  | op o' =>
    cases hfn
    rw [infixLevel?, hlevel] at h
    cases h
  | var x =>
    -- an operator that is a word stands in front of its argument
    rw [shown, ofWord] at hfn
    split at hfn <;> cases hfn
    rename_i ho
    rw [Operator.level?, (Operator.spelling_of_ofWord? ho).1] at hlevel
    cases hlevel
  | _ => cases hfn

theorem quotedText?_shown (es : List Expr) : quotedText? (es.map shown) = quotedText? es := by
  induction es with
  | nil => rfl
  | cons e es ih =>
    cases e with
    | char c =>
      show (if c = '"' then none else (quotedText? (es.map shown)).map (c :: ·)) = _
      rw [ih]
      rfl
    | var x =>
      rw [List.map_cons, shown, ofWord]
      split <;> rfl
    | _ => rfl

/-! ## The text of what a text shows -/

/-- **What the text of an expression shows has the same text**, at every place. -/
theorem Legible.render_shown {e : Expr} (h : e.Legible) : ∀ l, e.shown.render l = e.render l := by
  have hall : ∀ {es : List Expr}, (∀ e ∈ es, ∀ l, e.shown.render l = e.render l) →
      (es.map shown).map (render Level.anything) = es.map (render Level.anything) := fun ih => by
    rw [List.map_map]
    exact List.map_congr_left fun e he => ih e he _
  have hfields : ∀ {fields : Row Expr}, (∀ p ∈ fields, ∀ l, p.2.shown.render l = p.2.render l) →
      (Row.mapValues shown fields).map fieldText = fields.map fieldText := fun ih => by
    rw [Row.mapValues, List.map_map]
    exact List.map_congr_left fun p hp => by rw [Function.comp_apply, fieldText, ih p hp, fieldText]
  induction h with
  | number | char | op | tag | load => intro l; rfl
  | @var x =>
    intro l
    rw [shown, ofWord]
    split
    case h_1 o ho =>
      obtain ⟨hword, rfl⟩ := Operator.spelling_of_ofWord? ho
      exact render_word hword
    case h_2 => rfl
  | @lambda p body _ _ ih =>
    intro l
    rw [shown, render_lambda, render_lambda, Pattern.chars_shown, ih]
  | @project e k _ _ ih =>
    intro l
    rw [shown_project, render_project, render_project, isNumber_shown, ih]
  | binary ho _ _ iha ihb =>
    intro l
    rw [shown_binary, render_binary ho, render_binary ho, iha, ihb]
  | apply hp hi _ _ ihf iha =>
    intro l
    rw [shown_apply hp, render_apply (projectedLabel?_shown hp) (infixLevel?_shown hi),
      render_apply hp hi,
      ihf, iha]
  | @text cs => intro l; rw [shown_text]
  | @list elts hquote _ ih =>
    intro l
    have hquote' : elts.map shown = [] ∨ quotedText? (elts.map shown) = none :=
      hquote.imp List.map_eq_nil_iff.mpr ((quotedText?_shown elts).trans ·)
    rw [shown, shownAll_eq, render_list hquote', render_list hquote, hall ih]
  | record _ _ _ ih =>
    intro l
    rw [shown, shownFields_eq, render_record, render_record, hfields ih]
  | @tuple items hlength _ ih =>
    intro l
    rw [shown, shownAll_eq, render_tuple (by rwa [List.length_map]), render_tuple hlength, hall ih]
  | dispatch _ _ _ ih =>
    intro l
    rw [shown, shownFields_eq, render_dispatch, render_dispatch, hfields ih]
  | @ascribe t e _ _ ih =>
    intro l
    rw [shown, render_ascribe, render_ascribe, ih, Ty.chars, Ty.render_shown, ← Ty.chars]
  | @andThen bound body _ _ ihb ihe =>
    intro l
    show (Expr.bindIn Pattern.wildcard bound.shown body.shown).render l = _
    rw [render_andThen, render_andThen, ihb, ihe]
  | @bindIn p bound body _ hp _ _ ihb ihe =>
    intro l
    rw [shown, render_bindIn fun h => hp (Pattern.shown_eq_wildcard h), render_bindIn hp,
      Pattern.chars_shown,
      ihb, ihe]

/-- **What the text of an expression shows has a text if the expression has one.** -/
theorem Legible.unranked?_shown {e : Expr} (h : e.Legible) : e.unranked? = none →
    e.shown.unranked? = none := by
  have hall : ∀ {es : List Expr}, (∀ e ∈ es, e.unranked? = none → e.shown.unranked? = none) →
      unrankedAmong es = none → unrankedAmong (es.map shown) = none := by
    intro es ih
    induction es with
    | nil => exact id
    | cons e es ihs =>
      rw [List.map_cons, unrankedAmong, unrankedAmong, Option.or_eq_none_iff, Option.or_eq_none_iff]
      exact And.imp (ih e List.mem_cons_self) (ihs fun e he => ih e (List.mem_cons_of_mem _ he))
  have hfields : ∀ {fields : Row Expr},
    (∀ p ∈ fields, p.2.unranked? = none → p.2.shown.unranked? = none) →
      unrankedInFields fields = none → unrankedInFields (Row.mapValues shown fields) = none := by
    intro fields ih
    induction fields with
    | nil => exact id
    | cons p fields ihs =>
      show unrankedInFields ((p.1, p.2) :: fields) = none →
        unrankedInFields ((p.1, p.2.shown) :: Row.mapValues shown fields) = none
      rw [unrankedInFields, unrankedInFields, Option.or_eq_none_iff, Option.or_eq_none_iff]
      exact And.imp (ih p List.mem_cons_self) (ihs fun q hq => ih q (List.mem_cons_of_mem _ hq))
  have hboth : ∀ {o o' p p' : Option Label.Unranked}, (o = none → o' = none) →
    (p = none → p' = none) →
      o.or p = none → o'.or p' = none := fun ho hp h =>
    Option.or_eq_none_iff.mpr ((Option.or_eq_none_iff.mp h).imp ho hp)
  induction h with
  | number | char | op | tag | load => exact id
  | var =>
    intro _
    rw [shown, ofWord]
    split <;> rfl
  | lambda _ _ ih => exact ih
  | project _ _ ih =>
    rw [shown_project]
    exact ih
  | binary _ _ _ iha ihb => exact hboth id (hboth iha (hboth ihb id))
  | apply hp _ _ _ ihf iha =>
    rw [shown_apply hp]
    exact hboth ihf iha
  | text => rw [shown_text]; exact id
  | list _ _ ih =>
    rw [shown, shownAll_eq]
    exact hall ih
  | record _ _ _ ih =>
    rw [shown, shownFields_eq]
    exact hfields ih
  | tuple _ _ ih =>
    rw [shown, shownAll_eq]
    exact hall ih
  | dispatch _ _ _ ih =>
    rw [shown, shownFields_eq]
    exact hfields ih
  | ascribe ht _ ih => exact hboth ht.unranked?_shown ih
  | andThen _ _ ihb ihe => exact hboth ihb ihe
  | bindIn _ _ _ _ ihb ihe => exact hboth ihb ihe

/-! ## Writing, reading and writing -/

theorem spelled_eq_ok_iff {e : Expr} {cs : List Char} :
    e.spelled = .ok cs ↔ e.unranked? = none ∧ e.chars = cs := by
  rw [spelled]
  cases e.unranked? <;> simp

/-- **The text of an expression that was read is read, and what is read has that very text**, just
if the expression has a text. -/
theorem exists_stable_iff {s : List Char} {e : Expr} (h : parse s = .ok e) (hr : e.Reread) :
    (∃ cs e', e.spelled = .ok cs ∧ parse cs = .ok e' ∧ e'.spelled = .ok cs) ↔
      e.unranked? = none := by
  have hlegible := (written_of_parse h).legible hr
  constructor
  · rintro ⟨cs, -, hcs, -⟩
    exact (spelled_eq_ok_iff.mp hcs).1
  · intro hranked
    exact ⟨e.chars, e.shown, spelled_eq_ok_iff.mpr ⟨hranked, rfl⟩, hlegible.parse_chars,
      spelled_eq_ok_iff.mpr ⟨hlegible.unranked?_shown hranked, hlegible.render_shown _⟩⟩

set_option maxRecDepth 4000 in
/-- A field that is an operator by its name, two numerals of one number and a real are written alike
again. -/
theorem exists_stable_of_record :
    ∃ e, parse "\x7b00: N, 0: C\x7d : \x7bmap, f: 2.50\x7d".toList = .ok e ∧
    ∃ cs e', e.spelled = .ok cs ∧ parse cs = .ok e' ∧ e'.spelled = .ok cs := by
  let e := ascribe (.closedRecord [("00", .number), ("0", .char)])
    (record [("map", var "map"), ("f", number (.real (.finite false 5629499534213120 (-51))))])
  have h : parse "\x7b00: N, 0: C\x7d : \x7bmap, f: 2.50\x7d".toList = .ok e := by rfl
  have hreals : ∀ x ∈ e.reals, Numeral.readAlone? x.chars = some x := by decide +kernel
  exact ⟨e, h, (exists_stable_iff h hreals).mpr (by decide +kernel)⟩

/-- **A type with a label that is too long** is read and has no text, so its expression has none. -/
theorem not_stable_of_longLabel : ∃ s e, parse s = .ok e ∧ e.Reread ∧
    ¬ ∃ cs e', e.spelled = .ok cs ∧ parse cs = .ok e' ∧ e'.spelled = .ok cs := by
  have htype : (Ty.closedRecord [(Ty.longLabel, .number)]).Written := by
    refine Ty.written_closedRecord ⟨List.nodup_singleton _, fun p hp => ?_⟩
    obtain rfl := List.mem_singleton.mp hp
    exact ⟨Ty.written_longLabel, trivial⟩
  have hname : IsName "x" := ⟨by decide, by decide, by decide⟩
  refine ⟨_, ascribe (.closedRecord [(Ty.longLabel, .number)]) (var "x"),
    (Legible.ascribe htype (.var hname)).parse_chars, fun _ hx => absurd hx List.not_mem_nil, ?_⟩
  rintro ⟨cs, -, hcs, -⟩
  have hlong := (spelled_eq_ok_iff.mp hcs).1
  rw [unranked?, Option.or_eq_none_iff, Ty.unranked?_eq_none_iff, Ty.closedRecord,
    Ty.eachRow_row] at hlong
  have hlabel := hlong.1.1 Ty.longLabel List.mem_cons_self
  rw [Ty.unranked?_longLabel] at hlabel
  cases hlabel

end Expr

end RowLang

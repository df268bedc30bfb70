import RowLang.Proofs.Parser.Words
import RowLang.Proofs.Ty.Reading
import RowLang.Proofs.Ty.Written

/-!
# Proofs/Ty/Printed — the text of a type is read as that type

The grammar finds in the text of a written type what the text shows of it, whatever stands behind it
but an arrow (`Ty.finds_render`).  A nested type is found by its brackets, as its view says, if the
types in the brackets are; the text of a part is shorter than the whole, so a grammar that is
unrolled further than the text is long reaches all parts.
-/

namespace RowLang.Ty

open RowLang.Parser RowLang.Grammar

/-! ## What a grammar begins with -/

theorem skips_atomGrammar (self : Parser Ty) : Skips (atomGrammar self) := by
  refine skips_firstOf ?_
  simp only [List.forall_mem_cons, List.not_mem_nil, IsEmpty.forall_iff, implies_true, and_true]
  exact ⟨(skips_token _).map _, (skips_token _).map _, (skips_between _ _ _).map _,
    (skips_between _ _ _).map _,
    (skips_between _ _ _).map _, (skips_between _ _ _).map _, ((skips_token _).map _).map _⟩

theorem skips_step (self : Parser Ty) : Skips (step self) := by
  have hbinder : ∀ b, Skips (binderGrammar self b) := fun b =>
    (((skips_token _).before _).both _).map _
  refine skips_firstOf ?_
  simp only [List.forall_mem_cons, List.not_mem_nil, IsEmpty.forall_iff, implies_true, and_true]
  exact ⟨hbinder .forAll, hbinder .mu, (skips_atomGrammar self).bind _⟩

/-- The grammar of types, unrolled. -/
def unrolled (n : Nat) : Parser Ty := unroll (fun self (_ : Unit) => step (self ())) n ()

theorem skips_unrolled (n : Nat) : Skips (unrolled n) :=
  skips_unroll (fun self _ => skips_step (self ())) n ()

/-- No type goes on with what stands behind it. -/
structure Ends (r : List Char) : Prop where
  closes : Text.Closes r
  noArrow : Refuses (literal "->") r

theorem ends_nil : Ends [] := ⟨Text.closes_nil, refuses_literal solid_nil (by decide)⟩

theorem ends_cons {c : Char} (h : Text.isWordChar c = false) (hb : Text.isBlank c = false)
    (hc : c ≠ '-') (r : List Char) : Ends (c :: r) :=
  ⟨Text.closes_cons h r, refuses_literal (solid_cons hb r) fun h =>
    hc (List.cons_prefix_cons.mp h).1.symm⟩

/-! ## Nested types -/

/-- The parts of a view are found in front of what ends a type. -/
def PartsFound (self : Parser Ty) (v : View) : Prop :=
  ∀ t ∈ v.parts, ∀ r, Ends r → Finds self (t.render ownName false ++ r) t.shown r

/-- The view of a written type. -/
def View.Clear : View → Prop
  | var n => n < 26
  | group items => items ≠ []
  | row _ fields _ => Row.Distinct fields ∧ ∀ l ∈ Row.labels fields, Label.Written l
  | _ => True

variable {self : Parser Ty} {rest : List Char}

/-- What begins each type that needs no parentheses. -/
def leads : List (Char → Bool) :=
  [only 'N', only 'C', only '[', only '(', only '\x7b', only '<', Text.isLower]

theorem begins_variable : Parser.Begins Text.isLower variableToken :=
  Begins.map (begins_token fun c s hc => Lexer.unlessBefore_eq_none (by rw [Lexer.one, hc]; rfl)) _

/-- **The first char tells the kind of a type** that needs no parentheses. -/
theorem finds_atom {p : Parser Ty} {c : Char} {s : List Char} {t : Ty} (i : Nat)
    (hp : [(keyword "N").map fun _ => number, (keyword "C").map fun _ => char,
      (between "[" self "]").map list, (between "(" (commaList self) ")").map ofItems,
      rowGrammar self .record "\x7b" "\x7d", rowGrammar self .variant "<" ">",
      variableToken.map var][i]? = some p)
    (hb : Text.isBlank c = false) (hc : ∀ P ∈ leads.take i, P c = false)
    (h : Finds p (c :: s) t rest) :
    Finds (atomGrammar self) (c :: s) t rest :=
  Finds.firstOf_nth (.cons ((begins_keyword rfl).map _) <| .cons ((begins_keyword rfl).map _) <|
    .cons ((begins_between rfl).map _) <| .cons ((begins_between rfl).map _) <|
    .cons ((begins_between rfl).map _) <| .cons ((begins_between rfl).map _) <|
    .cons (begins_variable.map _) .nil) hb i hp hc h

theorem not_only_of_isLower {c d : Char} (h : Text.isLower c = true) (hd : Text.isLower d = false) :
    only d c = false := decide_eq_false fun he => by
  rw [he, hd] at h
  cases h

theorem isWordChar_of_isLower {c : Char}
    (h : Text.isLower c = true) : Text.isWordChar c = true := by
  rw [Text.isWordChar, Text.isLetter, show (decide ('a' ≤ c) && decide (c ≤ 'z')) = true from h]
  rfl

theorem finds_variable {n : Nat} (hn : n < 26) (hr : Text.Closes rest) :
    Finds variableToken (ownName n ++ rest) n rest := by
  rcases ownName_cases n with ⟨_, c, he, hl, hc⟩ | ⟨hn', _⟩
  case inr => exact absurd hn (Nat.not_lt.mpr hn')
  rw [he]
  have h := (finds_token (solid_cons (Text.isBlank_of_isWordChar (isWordChar_of_isLower hl)) rest)
    (Lexer.unlessBefore_of_some (l := Lexer.one Text.isLower) (by rw [Lexer.one, if_pos hl])
      hr.not_isLetter)).map fun w => (w.headD 'a').toNat - 97
  rwa [List.headD_cons, hc, Nat.add_sub_cancel_left] at h

theorem refuses_comma {c : Char} (hb : Text.isBlank c = false) (hc : c ≠ ',') (s : List Char) :
    Refuses (literal ",") (c :: s) := begins_literal rfl c s hb (decide_eq_false hc)

theorem refuses_field (self : Parser Ty) {c : Char} (hb : Text.isBlank c = false)
    (hc : Text.isWordChar c = false) (s : List Char) : Refuses (field self) (c :: s) :=
  (refuses_label (solid_cons hb s) (Text.closes_cons hc s)).both

theorem told_row (k : RowKind) (fields : Row Ty) (tail : Option Ty) :
    (View.row k fields tail).told = row k fields (tail.getD k.end) := by cases tail <;> rfl

/-- What stands behind the fields of a row belongs to none of them. -/
structure BehindFields (p : Parser Ty) (r : List Char) : Prop where
  ends : Ends r
  noComma : Refuses (literal ",") r
  noField : Refuses (field p) r

theorem behindFields_tail (self : Parser Ty) (k : RowKind) (tail : Option Ty) (rest : List Char) :
    BehindFields self (View.tailText ownName tail ++ ([k.brackets.2] ++ rest)) := by
  cases tail with
  | none =>
    cases k <;> exact ⟨ends_cons (by decide) (by decide) (by decide) _,
      refuses_comma (by decide) (by decide) _, refuses_field self (by decide) (by decide) _⟩
  | some t =>
    refine ⟨⟨Text.closes_cons (by decide) _, ?_⟩, ?_, ?_⟩
    · exact (skips_token _).refuses_behind_blank
        (ends_cons (by decide) (by decide) (by decide) _).noArrow
    · exact (skips_token _).refuses_behind_blank (refuses_comma (by decide) (by decide) _)
    · exact (skips_field self).refuses_behind_blank (refuses_field self (by decide) (by decide) _)

/-- The tail of a row, if it is written. -/
theorem finds_tail {k : RowKind} {fields : Row Ty} {tail : Option Ty}
    (hself : PartsFound self (.row k fields tail)) (hskip : Skips self) :
    Finds (optional ((literal "|").before self) k.end)
      (View.tailText ownName tail ++ ([k.brackets.2] ++ rest))
      ((tail.map shown).getD k.end) ([k.brackets.2] ++ rest) := by
  have hclosing : Ends ([k.brackets.2] ++ rest) := by
    cases k <;> exact ends_cons (by decide) (by decide) (by decide) _
  cases tail with
  | none =>
    refine Refuses.optional (Refuses.before ?_) _
    cases k <;> exact begins_literal rfl _ _ (by decide) (by decide)
  | some t =>
    refine Finds.optional ((skips_token _).behind_blank (finds_literal (w := "|")
      (solid_cons (by decide) _)) |>.before (hskip.behind_blank ?_)) _
    exact hself t (View.mem_parts_tail rfl) _ hclosing

theorem finds_row {k : RowKind} {fields : Row Ty} {tail : Option Ty} {o c : String}
    (hself : PartsFound self (.row k fields tail)) (hskip : Skips self)
    (hv : (View.row k fields tail).Clear) (ho : o.toList = [k.brackets.1])
    (hc : c.toList = [k.brackets.2]) :
    Finds (rowGrammar self k o c) ((View.row k fields tail).text ownName ++ rest)
      (View.row k fields tail).seen.told rest := by
  have hbehind := behindFields_tail self k tail rest
  have hread : ∀ p ∈ fields, Takes Ends (field self) (View.fieldText ownName p) (p.1, p.2.shown) :=
    fun p hp => takes_field (hv.2 p.1 (Row.mem_labels_of_mem hp))
      (hskip.takes (hself p.2 (View.mem_parts_field hp)))
  have hrow := (finds_commaList (E := Ends)
    (fun r => ends_cons (by decide) (by decide) (by decide) r) hbehind.ends hread hbehind.noComma
      fun _ => hbehind.noField).map Row.ofPairs
  rw [show fields.map (fun p => (p.1, p.2.shown)) = Row.mapValues shown fields from rfl,
    Row.ofPairs_eq_self (hv.1.mapValues shown)] at hrow
  have hopen : ∀ r, Solid (o.toList ++ r) := fun r => by
    rw [ho]
    cases k <;> exact solid_cons (by decide) _
  have hclose : Solid (c.toList ++ rest) := by
    rw [hc]
    cases k <;> exact solid_cons (by decide) _
  have h := finds_between (hopen _) (hc.symm ▸ hrow.both (finds_tail hself hskip)) hclose
  rw [View.text, View.seen, told_row]
  simp only [List.cons_append, List.append_assoc]
  rw [ho, hc] at h
  exact h.map _

theorem told_group (ts : List Ty) : (View.group ts).told = ofItems ts := by
  match ts with
  | [] | [_] | _ :: _ :: _ => rfl

/-- **A nested type is found by its view.** -/
theorem finds_view {v : View} (hself : PartsFound self v) (hskip : Skips self) (hv : v.Clear)
    (hr : Text.Closes rest) : Finds (atomGrammar self) (v.text ownName ++ rest)
      v.seen.told rest := by
  cases v with
  | number =>
    exact finds_atom 0 rfl (by decide) (by decide)
      ((finds_keyword (w := "N") (solid_cons (by decide) _) hr.not_isLetter).map _)
  | char =>
    exact finds_atom 1 rfl (by decide) (by decide)
      ((finds_keyword (w := "C") (solid_cons (by decide) _) hr.not_isLetter).map _)
  | var n =>
    have hfound := (finds_variable hv hr).map var
    rcases ownName_cases n with ⟨_, c, he, hl, hc⟩ | ⟨hn, _⟩
    case inr => exact absurd hv (Nat.not_lt.mpr hn)
    rw [he, List.singleton_append] at hfound
    rw [View.text, he, List.singleton_append]
    refine finds_atom 6 rfl (Text.isBlank_of_isWordChar (isWordChar_of_isLower hl)) ?_ hfound
    · simp only [leads, List.take_succ_cons, List.take_zero, List.forall_mem_cons, List.not_mem_nil,
        IsEmpty.forall_iff, implies_true, and_true]
      exact ⟨not_only_of_isLower hl rfl, not_only_of_isLower hl rfl, not_only_of_isLower hl rfl,
        not_only_of_isLower hl rfl, not_only_of_isLower hl rfl, not_only_of_isLower hl rfl⟩
  | list t =>
    rw [View.text, List.cons_append, List.append_assoc]
    exact finds_atom 2 rfl (by decide) (by decide) ((finds_between (o := "[") (c := "]")
      (solid_cons (by decide) _) (hself t List.mem_cons_self _
        (ends_cons (by decide) (by decide) (by decide) _)) (solid_cons (by decide) _)).map list)
  | group items =>
    rw [View.text, List.cons_append, List.append_assoc]
    have hitems := finds_commaList (r := ')' :: rest) (E := Ends)
      (fun r => ends_cons (by decide) (by decide) (by decide) r)
      (ends_cons (by decide) (by decide) (by decide) _) (fun t ht => hskip.takes (hself t ht))
      ((begins_literal rfl) _ _ (by decide) (by decide)) fun h => absurd h hv
    rw [View.seen, told_group]
    exact finds_atom 3 rfl (by decide) (by decide) ((finds_between (o := "(") (c := ")")
      (solid_cons (by decide) _) hitems (solid_cons (by decide) _)).map ofItems)
  | row k fields tail =>
    cases k with
    | record => exact finds_atom 4 rfl (by decide) (by decide) (finds_row hself hskip hv rfl rfl)
    | variant => exact finds_atom 5 rfl (by decide) (by decide) (finds_row hself hskip hv rfl rfl)

/-! ## All types -/

/-- The types in the brackets of a nested type have shorter texts. -/
theorem length_part_lt {v : View} {t : Ty} (h : t ∈ v.parts) :
    (t.render ownName false).length < (v.text ownName).length := by
  cases v with
  | number | char | var => cases h
  | list u =>
    obtain rfl := List.mem_singleton.mp h
    simp only [View.text, List.length_cons, List.length_append]
    omega
  | group items =>
    have : _ ≤ (commaSeparated (items.map (render ownName false))).length :=
      length_le_commaSeparated (List.mem_map_of_mem h)
    simp only [View.text, List.length_cons, List.length_append]
    omega
  | row k fields tail =>
    simp only [View.text, List.length_cons, List.length_append]
    rcases List.mem_append.mp h with h | h
    · obtain ⟨p, hp, rfl⟩ := List.mem_map.mp h
      have := length_le_commaSeparated (List.mem_map_of_mem (f := View.fieldText ownName) hp)
      simp only [View.fieldText, labelled, List.length_append, List.length_cons] at this
      omega
    · cases tail with
      | none => cases h
      | some u =>
        obtain rfl := List.mem_singleton.mp h
        simp only [View.tailText, List.length_cons]
        omega

/-- Behind a nested type, `t` is found in its text. -/
def FoundNested (t : Ty) : Prop :=
  ∀ n, (t.render ownName true).length ≤ n → ∀ rest, Text.Closes rest →
  Finds (atomGrammar (unrolled n)) (t.render ownName true ++ rest) t.shown rest

/-- A type is found in its text, in front of what ends a type. -/
def Found (t : Ty) : Prop := ∀ n, (t.render ownName false).length < n → ∀ rest, Ends rest →
  Finds (unrolled n) (t.render ownName false ++ rest) t.shown rest

theorem Written.clear_view {t : Ty} (ht : t.Written) : t.view.Clear := by
  cases t with
  | number | char | list => trivial
  | unit | empty => exact ht.elim
  | var n => exact ht
  | arrow | bind => exact List.cons_ne_nil _ _
  | row k fields tail =>
    obtain ⟨hfields, -⟩ := written_row.mp ht
    rw [view]
    split
    case isTrue htuple =>
      intro hnil
      rw [Row.sortedValues, List.map_eq_nil_iff, Row.sorted_eq_nil] at hnil
      simp [isTuple, hnil] at htuple
    case isFalse =>
      refine ⟨hfields.1.sorted, fun l hl => ?_⟩
      exact (goodFields_iff.mp hfields).1.2 l ((Row.labels_sorted_perm fields).mem_iff.mp hl)

theorem foundNested_of_parts {t : Ty} (ht : t.Written) (h : ∀ u ∈ t.view.parts, u.Found) :
    t.FoundNested := by
  intro n hn rest hr
  rw [← text_view] at hn ⊢
  rw [← told_view]
  exact finds_view (fun u hu r hr => h u hu n ((length_part_lt hu).trans_le hn) r hr)
    (skips_unrolled n) ht.clear_view hr

/-- No name begins with the word of a binder. -/
theorem not_begins_with_word (t : Ty) (b : Binder) (hr : Text.Closes rest) :
    ¬ b.word.toList <+: t.render ownName true ++ rest := by
  rintro ⟨u, hu⟩
  obtain ⟨c, d, w, hw, hc, hcdigit, hd⟩ : ∃ c d w, b.word.toList = c :: d :: w ∧ Lead.of c = .var ∧
      Text.isAsciiDigit c = false ∧ Text.isWordChar d = true := by
    cases b <;> exact ⟨_, _, _, rfl, rfl, rfl, rfl⟩
  obtain ⟨e, v, hv, he⟩ := View.exists_text_eq naming_ownName t.view
  rw [← text_view, hw] at hu
  have hlead : t.view.lead = .var := by
    rw [hv] at hu
    rw [← he, ← (List.cons.inj hu).1, hc]
  cases hview : t.view with
  | var n =>
    rw [hview, View.text] at hu
    rcases ownName_cases n with ⟨_, f, hf, -, -⟩ | ⟨_, hf⟩
    · rw [hf] at hu
      have hrest : d :: (w ++ u) = rest := (List.cons.inj hu).2
      have := hr d (by rw [← hrest]; rfl)
      rw [hd] at this
      cases this
    · obtain ⟨g, x, hg⟩ := List.exists_cons_of_ne_nil (ownName_ne_nil n)
      have hdigit :=
        Decimal.isDigit_natChars (n := n) g (by rw [← hf, hg]; exact List.mem_cons_self)
      rw [hg] at hu
      rw [← (List.cons.inj hu).1, hcdigit] at hdigit
      cases hdigit
  | _ => rw [hview] at hlead; cases hlead

theorem solid_nested (t : Ty) (rest : List Char) : Solid (t.render ownName true ++ rest) := by
  rw [← text_view]
  cases t.view with
  | var n => exact solid_word (ownName_ne_nil n) (isWord_ownName n) rest
  | row k _ _ => cases k <;> exact solid_cons (by decide) _
  | number | char | list | group => exact solid_cons (by decide) _

/-- A nested type is no binder. -/
theorem refuses_binder (t : Ty) (b : Binder) (hr : Text.Closes rest) :
    Refuses (binderGrammar self b) (t.render ownName true ++ rest) :=
  (refuses_keyword (solid_nested t rest) (not_begins_with_word t b hr)).before.both.map _

theorem found_of_nested {t : Ty} (h : t.FoundNested)
    (hatom : t.render ownName false = t.render ownName true) : t.Found := by
  intro n hn rest hr
  obtain ⟨n, rfl⟩ := Nat.exists_eq_succ_of_ne_zero (Nat.ne_of_gt (Nat.zero_lt_of_lt hn))
  rw [hatom] at hn ⊢
  show Finds (step (unrolled n)) _ _ _
  rw [Finds, step, (refuses_binder t .forAll hr.closes).firstOf,
    (refuses_binder t .mu hr.closes).firstOf]
  exact Finds.firstOf ((h n (Nat.le_of_lt_succ hn) rest hr.closes).bind
    (Refuses.optional ((hr.noArrow).before.map _) _))

theorem found_arrow {a b : Ty} (ha : a.FoundNested) (hb : b.Found) : (arrow a b).Found := by
  intro n hn rest hr
  obtain ⟨n, rfl⟩ := Nat.exists_eq_succ_of_ne_zero (Nat.ne_of_gt (Nat.zero_lt_of_lt hn))
  have hlength := congrArg List.length (render_arrow ownName a b [])
  simp only [List.length_append, List.length_nil, Nat.add_zero] at hlength
  have harrowLength : " -> ".toList.length = 4 := rfl
  have hcloses : ∀ r, Text.Closes (" -> ".toList ++ r) := closes_arrow
  rw [render_arrow]
  show Finds (step (unrolled n)) _ _ _
  rw [Finds, step, (refuses_binder a .forAll (hcloses _)).firstOf,
    (refuses_binder a .mu (hcloses _)).firstOf]
  have harrow : Finds (literal "->") (" -> ".toList ++ (b.render ownName false ++ rest)) "->".toList
      (' ' :: (b.render ownName false ++ rest)) :=
    (skips_token _).behind_blank (finds_literal (w := "->") (solid_cons (by decide) _))
  refine Finds.firstOf ((ha n (by omega) _ (hcloses _)).bind (Finds.optional ?_ _))
  exact (harrow.before ((skips_unrolled n).behind_blank (hb n (by omega) rest hr))).map _

theorem found_bind {b : Binder} {v : Nat} {body : Ty} (hv : v < 26) (h : body.Found) :
    (bind b v body).Found := by
  intro n hn rest hr
  obtain ⟨n, rfl⟩ := Nat.exists_eq_succ_of_ne_zero (Nat.ne_of_gt (Nat.zero_lt_of_lt hn))
  have hlength := congrArg List.length (render_bind ownName b v body [])
  simp only [List.length_append, List.length_cons, List.length_nil, Nat.add_zero] at hlength
  rw [render_bind]
  show Finds (step (unrolled n)) _ _ _
  have hword : Finds (keyword b.word) (b.word.toList ++ ' ' :: (ownName v ++ '.' :: ' ' ::
      (body.render ownName false ++ rest))) b.word.toList (' ' :: (ownName v ++ '.' :: ' ' ::
        (body.render ownName false ++ rest))) := by
    refine finds_keyword ?_ (Text.closes_cons (by decide) _).not_isLetter
    cases b <;> exact solid_cons (by decide) _
  have hname : Finds variableToken
    (' ' :: (ownName v ++ '.' :: ' ' :: (body.render ownName false ++ rest)))
      v ('.' :: ' ' :: (body.render ownName false ++ rest)) :=
    ((skips_token _).map _).behind_blank (finds_variable hv (Text.closes_cons (by decide) _))
  have hbody := (finds_literal (w := ".") (solid_cons (by decide) _)).before
    ((skips_unrolled n).behind_blank (h n (by omega) rest hr))
  have hbinder : Finds (binderGrammar (unrolled n) b) _ _ _ :=
    ((hword.before hname).both hbody).map _
  cases b with
  | forAll => exact Finds.firstOf hbinder
  | mu =>
    have hother : Refuses (binderGrammar (unrolled n) .forAll) (Binder.mu.word.toList ++ ' ' ::
        (ownName v ++ '.' :: ' ' :: (body.render ownName false ++ rest))) :=
      (refuses_keyword (solid_cons (by decide) _)
        (not_prefix_of_head rfl (by decide))).before.both.map _
    rw [Finds, step, hother.firstOf]
    exact Finds.firstOf hbinder

/-- **A type is found in its text.** -/
theorem Written.found {t : Ty} (ht : t.Written) : t.FoundNested ∧ t.Found := by
  have hatom : ∀ {t : Ty}, t.Written → t.render ownName false = t.render ownName true →
      (∀ u ∈ t.view.parts, u.Found) → t.FoundNested ∧ t.Found := fun ht hatom hparts =>
    have hnested := foundNested_of_parts ht hparts
    ⟨hnested, found_of_nested hnested hatom⟩
  have hgroup : ∀ {t : Ty}, t.Written → t.view.parts = [t] → t.Found → t.FoundNested ∧ t.Found :=
    fun ht hparts h => ⟨foundNested_of_parts ht fun u hu => by
      rw [hparts, List.mem_singleton] at hu
      exact hu ▸ h, h⟩
  induction t using Ty.inductOn with
  | number | char | var => exact hatom ht (by simp only [render]) (by simp [view, View.parts])
  | unit | empty => exact ht.elim
  | list t ih =>
    refine hatom ht (by simp only [render]) fun u hu => ?_
    obtain rfl := List.mem_singleton.mp hu
    exact (ih ht).2
  | arrow a b iha ihb => exact hgroup ht rfl (found_arrow (iha ht.1).1 (ihb ht.2).2)
  | bind b n body ih => exact hgroup ht rfl (found_bind ht.1 (ih ht.2).2)
  | row k fields tail ihf iht =>
    obtain ⟨hfields, htail⟩ := written_row.mp ht
    have hfield : ∀ p ∈ Row.sorted fields, p.2.Found := fun p hp =>
      (ihf p (Row.mem_sorted.mp hp) (hfields.2 p (Row.mem_sorted.mp hp)).2).2
    refine hatom ht (by simp only [render]) fun u hu => ?_
    rw [view] at hu
    split at hu
    · obtain ⟨p, hp, rfl⟩ := List.mem_map.mp hu
      exact hfield p hp
    · rcases List.mem_append.mp hu with hu | hu
      · obtain ⟨p, hp, rfl⟩ := List.mem_map.mp hu
        exact hfield p hp
      · rw [Option.mem_toList, writtenTail] at hu
        split at hu
        case isTrue => cases hu
        case isFalse hend =>
          obtain rfl := Option.some.inj hu
          exact (iht (htail.resolve_left fun h => hend (isEnd_iff.mpr h))).2

end RowLang.Ty

import RowLang.Proofs.Expr.Spelling
import RowLang.Proofs.Pattern.Printed
import RowLang.Proofs.Ty.Printed

/-!
# Proofs/Expr/Unmarked — the texts of operands hold no marks

The text of an expression begins with a word, a literal or a bracket (`Opens`), and with the word
`let` only at the loosest place.  The search for marks goes past it (`Passed`): outside of brackets
past the text of an operand, and inside of brackets past any.  So no operand is taken for the type
of an ascription or for the pattern of a lambda.
-/

namespace RowLang

open RowLang.Parser RowLang.Grammar

/-! ## Beginnings -/

/-- How the text of an expression begins at a place of a level. -/
inductive Opens (l : Level) : List Char → Prop where
  | word {w r : List Char} : w ≠ [] → (∀ c ∈ w, Text.isLetter c = true) →
    (1 ≤ l → w ≠ "let".toList) →
    Text.Closes r → Opens l (w ++ r)
  | digit {c : Char} (r : List Char) : Text.isAsciiDigit c = true → Opens l (c :: r)
  | minus {c : Char} (r : List Char) : Text.isAsciiDigit c = true → Opens l ('-' :: c :: r)
  | tag {c : Char} (r : List Char) : Text.isLetter c = true → Opens l ('#' :: c :: r)
  | mark {c : Char} (r : List Char) : c ∈ ['(', '[', '\x7b', '<', '\'', '"', '_'] → Opens l (c :: r)

namespace Opens

variable {l : Level} {cs r : List Char}

theorem append (h : Opens l cs) (hr : Text.Closes r) : Opens l (cs ++ r) := by
  cases h with
  | @word w r' hne hw hlet hr' =>
    rw [List.append_assoc]
    refine .word hne hw hlet ?_
    cases r' with
    | nil => exact hr
    | cons c r' => exact Text.closes_cons (hr' c rfl) _
  | digit r' hc => exact .digit _ hc
  | minus r' hc => exact .minus _ hc
  | tag r' hc => exact .tag _ hc
  | mark r' hc => exact .mark _ hc

/-- What begins no `let` does so at every place. -/
theorem at_any {k : Level} (h : Opens k cs) (hk : 1 ≤ k) : Opens l cs := by
  cases h with
  | word hne hw hlet hr => exact .word hne hw (fun _ => hlet hk) hr
  | digit r' hc => exact .digit _ hc
  | minus r' hc => exact .minus _ hc
  | tag r' hc => exact .tag _ hc
  | mark r' hc => exact .mark _ hc

theorem parenthesize (h : Opens l cs) (needed : Bool) : Opens l (parenthesize needed cs) := by
  cases needed with
  | false => exact h
  | true => exact .mark _ (by decide)

end Opens

theorem opens_name {l : Level} {x : String} (hx : IsName x) : Opens l x.toList := by
  have h : Opens l (x.toList ++ []) := .word hx.1 hx.2.1 (fun _ he => hx.2.2 (by
    rw [String.toList_inj.mp he]
    decide)) Text.closes_nil
  rwa [List.append_nil] at h

theorem Ty.Written.opens {l : Level} {t : Ty} (ht : t.Written) : Opens l t.chars := by
  have hletter : ∀ {c : Char} {r : List Char}, Text.isLetter c = true → Text.Closes r →
      Opens l (c :: r) := fun hc hr =>
    .word (w := [_]) (List.cons_ne_nil _ _) (by simpa using hc) (fun _ => by simp) hr
  have hnested : ∀ {t : Ty}, t.Written → Opens l (t.render ownName true) := by
    intro t ht
    rw [← text_view]
    have hclear := ht.clear_view
    cases hv : t.view with
    | number | char => exact hletter (by decide) Text.closes_nil
    | var n =>
      rw [hv] at hclear
      rcases ownName_cases n with ⟨_, c, he, hc, _⟩ | ⟨hn, _⟩
      case inr => exact absurd hclear (Nat.not_lt.mpr hn)
      rw [View.text, he]
      exact hletter (by rw [Text.isLetter, show (_ && _) = true from hc, Bool.true_or])
        Text.closes_nil
    | list | group => exact .mark _ (by decide)
    | row k => cases k <;> exact .mark _ (by decide)
  rw [Ty.chars]
  rcases render_cases ownName t with ⟨a, b, rfl⟩ | ⟨b, n, body, rfl⟩ | hatom
  · have h := render_arrow ownName a b []
    rw [List.append_nil] at h
    rw [h]
    exact (hnested ht.1).append (closes_arrow _)
  · have h := render_bind ownName b n body []
    rw [List.append_nil] at h
    rw [h]
    cases b <;> exact .word (by decide) (by decide) (fun _ => by
      decide) (Text.closes_cons (by decide) _)
  · rw [hatom]
    exact hnested ht

theorem Pattern.Written.opens {l : Level} {p : Pattern} (hp : p.Written) : Opens l p.chars := by
  cases p with
  | name x => exact opens_name hp
  | wildcard => exact .mark _ (by decide)
  | row fields =>
    rw [Pattern.chars]
    split <;> exact .mark _ (by decide)

namespace Expr

theorem two_le_level {o : Operator} {k : Level} (h : o.level? = some k) : 2 ≤ k := by
  cases o <;> cases h <;> decide

theorem Legible.opens {e : Expr} (h : e.Legible) : ∀ l, Opens l (e.render l) := by
  induction h with
  | @number n hn hr =>
    intro l
    obtain ⟨p, hp, -⟩ := hn.exists_parts hr
    obtain ⟨c, u, hs, hc⟩ := Numeral.exists_chars_eq hp
    show Opens l n.chars
    rw [hs]
    rcases hc with hc | ⟨rfl, d, v, rfl, hd⟩
    exacts [.digit _ hc, .minus _ hd]
  | char => exact fun l => .mark (c := '\'') _ (by decide)
  | var hx => exact fun l => opens_name hx
  | op o =>
    intro l
    by_cases h : o.fixity = .word
    · rw [render_word h]
      exact opens_name (Operator.isName_spelling h)
    · rw [render_symbol h]
      exact .mark _ (by decide)
  | lambda hp _ ih =>
    intro l
    rw [render_lambda]
    exact (hp.opens.append (Text.closes_cons (c := ' ') (by decide) _)).parenthesize _
  | project hk _ ih =>
    intro l
    rw [render_project]
    exact (((ih Level.atom).parenthesize _).append (Text.closes_cons (by decide) _)).at_any
      (by decide)
  | binary ho _ _ iha ihb =>
    intro l
    rw [render_binary ho]
    exact ((iha _).append (Text.closes_cons (by decide) _)).at_any
      (Nat.le_of_succ_le (two_le_level ho))
      |>.parenthesize _
  | apply hp hi _ _ ihf iha =>
    intro l
    rw [render_apply hp hi]
    exact ((ihf _).append (Text.closes_cons (by decide) _)).at_any (by decide) |>.parenthesize _
  | text hne hcs =>
    intro l
    rw [render_text hne hcs]
    exact .mark _ (by decide)
  | list h _ ih =>
    intro l
    rw [render_list h]
    exact .mark _ (by decide)
  | record =>
    intro l
    rw [render_record]
    exact .mark _ (by decide)
  | tuple hlen =>
    intro l
    rw [render_tuple hlen]
    exact .mark _ (by decide)
  | dispatch =>
    intro l
    rw [render_dispatch]
    exact .mark _ (by decide)
  | @tag k hne hk =>
    intro l
    obtain ⟨c, w, hw⟩ := List.exists_cons_of_ne_nil hne
    show Opens l ('#' :: k.toList)
    rw [hw]
    exact .tag _ (hk c (hw ▸ List.mem_cons_self))
  | load =>
    exact fun l => .word (w := "import".toList) (by decide) (by decide) (fun _ => by decide)
      (Text.closes_cons (c := ' ') (by decide) _)
  | ascribe ht _ ih =>
    intro l
    rw [render_ascribe]
    exact (ht.opens.append (Text.closes_cons (c := ' ') (by decide) _)).parenthesize _
  | andThen _ _ ihb ihe =>
    intro l
    rw [render_andThen]
    exact ((ihb _).append (Text.closes_cons (c := ';') (by decide) _)).at_any
      (by decide) |>.parenthesize _
  | bindIn hp hne _ _ ihb ihe =>
    intro l
    rw [render_bindIn hne]
    cases l with
    | zero =>
      exact .word (w := "let".toList) (by decide) (by decide) (fun h => absurd h (by decide))
        (Text.closes_cons (c := ' ') (by decide) _)
    | succ l => exact .mark _ (by decide)

end Expr

/-! ## The search for marks -/

namespace Ty

variable {D : Nat → Prop}

theorem passed_ownName (n : Nat) : Passed D (ownName n) := passed_neutral fun c hc => by
  have h := isWord_ownName n c hc
  rw [Text.isWordChar, Bool.or_eq_true] at h
  exact h.elim neutral_of_isLetter neutral_of_isAsciiDigit

/-- The text of a nested type is passed, if those of its parts are. -/
theorem passed_view {v : View} (hv : v.Clear)
    (h : ∀ t ∈ v.parts, Passed Inside (t.render ownName false)) : Passed D (v.text ownName) := by
  cases v with
  | number | char => exact passed_neutral (by decide)
  | var n => exact passed_ownName n
  | list t => exact passed_brackets (by decide) (by decide) (h t List.mem_cons_self)
  | group items =>
    refine passed_brackets (by decide) (by decide) (passed_commaSeparated fun cs hcs => ?_)
    obtain ⟨t, ht, rfl⟩ := List.mem_map.mp hcs
    exact h t ht
  | row k fields tail =>
    have hfields : Passed Inside (commaSeparated (fields.map (View.fieldText ownName))) :=
      passed_commaSeparated fun cs hcs => by
        obtain ⟨p, hp, rfl⟩ := List.mem_map.mp hcs
        exact passed_labelled (hv.2 p.1 (Row.mem_labels_of_mem hp))
          (h p.2 (View.mem_parts_field hp))
    have htail : Passed Inside (View.tailText ownName tail) := by
      cases tail with
      | none => exact passed_nil
      | some t =>
        exact (((h t (View.mem_parts_tail rfl)).cons (by decide)).cons (by decide)).cons (by decide)
    rw [View.text, ← List.append_assoc]
    exact passed_brackets (by cases k <;> decide) (by cases k <;> decide) (hfields.append htail)

/-- **The search for marks goes past a type.** -/
theorem Written.passed {t : Ty} (ht : t.Written) :
    ∀ nested {D : Nat → Prop}, Passed D (t.render ownName nested) := by
  have hnested : ∀ {t : Ty}, t.Written →
    (∀ u ∈ t.view.parts, Passed Inside (u.render ownName false)) →
      ∀ {D : Nat → Prop}, Passed D (t.render ownName true) := fun ht hparts D => by
    rw [← text_view]
    exact passed_view ht.clear_view hparts
  have hatom : ∀ {t : Ty}, t.Written → t.render ownName false = t.render ownName true →
      (∀ u ∈ t.view.parts, Passed Inside (u.render ownName false)) →
        ∀ nested {D : Nat → Prop}, Passed D (t.render ownName nested) :=
          fun ht hatom hparts nested D => by
    cases nested with
    | true => exact hnested ht hparts
    | false => exact hatom ▸ hnested ht hparts
  have hgroup : ∀ {t : Ty}, t.Written → t.view.parts = [t] →
      (∀ {D : Nat → Prop}, Passed D (t.render ownName false)) →
        ∀ nested {D : Nat → Prop}, Passed D (t.render ownName nested) :=
          fun ht hparts h nested D => by
    cases nested with
    | false => exact h
    | true =>
      refine hnested ht fun u hu => ?_
      rw [hparts, List.mem_singleton] at hu
      exact hu ▸ h
  induction t using Ty.inductOn with
  | number | char | var => exact hatom ht (by simp only [render]) (by simp [view, View.parts])
  | unit | empty => exact ht.elim
  | list t ih =>
    refine hatom ht (by simp only [render]) fun u hu => ?_
    obtain rfl := List.mem_singleton.mp hu
    exact ih ht false
  | arrow a b iha ihb =>
    refine hgroup ht rfl fun {D} => ?_
    have h := render_arrow ownName a b []
    rw [List.append_nil, List.append_nil] at h
    rw [h]
    exact (iha ht.1 true).append
      (((passed_arrow.append (passed_neutral (t := [' ']) (by decide))).cons (by decide)).append
        (ihb ht.2 false))
  | bind b n body ih =>
    refine hgroup ht rfl fun {D} => ?_
    have h := render_bind ownName b n body []
    rw [List.append_nil, List.append_nil] at h
    rw [h]
    exact (passed_neutral (by cases b <;> decide)).append (((passed_ownName n).append
      (((ih ht.2 false).cons (by decide)).cons (by decide))).cons (by decide))
  | row k fields tail ihf iht =>
    obtain ⟨hfields, htail⟩ := written_row.mp ht
    have hfield : ∀ p ∈ Row.sorted fields, Passed Inside (p.2.render ownName false) := fun p hp =>
      ihf p (Row.mem_sorted.mp hp) (hfields.2 p (Row.mem_sorted.mp hp)).2 false
    refine hatom ht (by simp only [render]) fun u hu => ?_
    rw [view] at hu
    split at hu
    · obtain ⟨p, hp, rfl⟩ := List.mem_map.mp hu
      exact hfield p hp
    · rcases List.mem_append.mp hu with hu | hu
      · obtain ⟨p, hp, rfl⟩ := List.mem_map.mp hu
        exact hfield p hp
      · rw [Option.mem_toList, writtenTail] at hu
        split at hu
        case isTrue => cases hu
        case isFalse hend =>
          obtain rfl := Option.some.inj hu
          exact iht (htail.resolve_left fun h => hend (isEnd_iff.mpr h)) false

end Ty

/-- **The search for marks goes past a pattern.** -/
theorem Pattern.Written.passed {p : Pattern} (hp : p.Written) :
    ∀ {D : Nat → Prop}, Passed D p.chars := by
  induction p using Pattern.inductOn with
  | name x => exact fun {D} => passed_neutral fun c hc => neutral_of_isLetter (hp.2.1 c hc)
  | wildcard => exact fun {D} => passed_neutral (by decide)
  | row fields ih =>
    intro D
    have hfields := written_row.mp hp
    rw [chars, fieldChars_eq]
    split
    · refine passed_brackets (by decide) (by decide) (passed_commaSeparated fun cs hcs => ?_)
      rw [Row.sortedValues, Row.sorted_mapValues, Row.mapValues, List.map_map] at hcs
      obtain ⟨q, hq, rfl⟩ := List.mem_map.mp hcs
      exact ih q (Row.mem_sorted.mp hq) (hfields.2 q (Row.mem_sorted.mp hq)).2
    · refine passed_brackets (by decide) (by decide) (passed_commaSeparated fun cs hcs => ?_)
      rw [Row.mapValues, List.map_map] at hcs
      obtain ⟨q, hq, rfl⟩ := List.mem_map.mp hcs
      exact passed_labelled (hfields.2 q hq).1 (ih q hq (hfields.2 q hq).2)

namespace Numeral

variable {D : Nat → Prop}

theorem neutral_of_isDecimal {c : Char} (h : Text.isDecimal c = true) : Neutral c := by
  intro hc
  simp only [List.mem_cons, List.not_mem_nil, or_false] at hc
  rcases hc with rfl | rfl | rfl | rfl | rfl | rfl | rfl | rfl | rfl | rfl | rfl | rfl | rfl | rfl |
    rfl <;> exact absurd h (by decide)

theorem Digits.passed {w : List Char} (h : Digits w) : Passed D w :=
  passed_neutral fun c hc => neutral_of_isDecimal (h.2 c hc)

/-- A sign in front of digits. -/
theorem Digits.passed_signed {w sign r : List Char} (h : Digits w)
    (hsign : sign ∈ [[], ['-'], ['+']]) (hr : Passed D r) : Passed D (sign ++ (w ++ r)) := by
  have hw := h.passed.append hr
  simp only [List.mem_cons, List.not_mem_nil, or_false] at hsign
  rcases hsign with rfl | rfl | rfl
  · exact hw
  · obtain ⟨c, v, rfl⟩ := List.exists_cons_of_ne_nil h.1
    have hc := h.2 c List.mem_cons_self
    exact hw.minus fun he => by
      rw [he] at hc
      exact absurd hc (by decide)
  · exact hw.cons (by decide)

/-- **The search for marks goes past a number.** -/
theorem Written.passed {n : Numeral} (h : n.Written) (hread : n.Reread) : Passed D n.chars := by
  obtain ⟨p, hp, -⟩ := h.exists_parts hread
  obtain ⟨sign, w, f, e, hs, hsign, ⟨hw, -⟩, hf, he⟩ := parts?_eq hp
  rw [hs, List.append_nil]
  have hexponent : Passed D e := by
    cases hpe : p.exponent with
    | none =>
      rw [hpe] at he
      exact (show e = [] from he) ▸ passed_nil
    | some x =>
      rw [hpe] at he
      obtain ⟨c, hc, sign, hsign, rfl, hdigits⟩ := he
      have hcneutral : Neutral c := by
        simp only [List.mem_cons, List.not_mem_nil, or_false] at hc
        rcases hc with rfl | rfl <;> decide
      have := hdigits.passed_signed hsign (passed_nil (D := D))
      rw [List.append_nil] at this
      exact this.cons hcneutral
  have hfraction : Passed D (f ++ e) := by
    cases hpf : p.fraction with
    | none =>
      rw [hpf] at hf
      exact (show f = [] from hf) ▸ hexponent
    | some x =>
      rw [hpf] at hf
      obtain ⟨rfl, hdigits⟩ := hf
      exact (hdigits.passed.append hexponent).cons (by decide)
  exact hw.passed_signed (List.mem_append_left [['+']] hsign) hfraction

end Numeral

namespace Expr

theorem passed_spelling {D : Nat → Prop} (o : Operator) {r : List Char} (hr : Passed D r) :
    Passed D (' ' :: (o.spelling.toList ++ ' ' :: r)) := by
  have hblank : Passed D (' ' :: r) := hr.cons (by decide)
  refine Passed.cons (by decide) ?_
  cases o with
  | minus => exact hblank.minus (by decide)
  | _ => exact (passed_neutral (by decide)).append hblank

/-- What no operand is stands in parentheses there. -/
theorem passed_loose {D : Nat → Prop} {k l : Level} {cs : List Char} (h : Passed Inside cs)
    (hk : k < 2) (hD : 2 ≤ l ∨ ∀ d, D d → Inside d) : Passed D (parenthesize (k < l) cs) := by
  by_cases hl : k < l
  · rw [decide_eq_true hl]
    exact passed_brackets (by decide) (by decide) h
  · rw [decide_eq_false hl]
    exact h.mono (hD.resolve_left fun h2 => hl (Nat.lt_of_lt_of_le hk h2))

theorem passed_fields {D : Nat → Prop} {fields : Row Expr} {o c : Char}
    (ho : o ∈ ['(', '[', '\x7b', '<'])
    (hc : c ∈ [')', ']', '\x7d', '>']) (hlabels : ∀ p ∈ fields, Label.Written p.1)
    (h : ∀ p ∈ fields, Passed Inside (p.2.render Level.anything)) :
    Passed D (o :: (commaSeparated (fields.map fieldText) ++ [c])) :=
  passed_brackets ho hc (passed_commaSeparated fun cs hcs => by
    obtain ⟨p, hp, rfl⟩ := List.mem_map.mp hcs
    exact passed_labelled (hlabels p hp) (h p hp))

theorem passed_items {D : Nat → Prop} {items : List Expr} {o c : Char}
    (ho : o ∈ ['(', '[', '\x7b', '<'])
    (hc : c ∈ [')', ']', '\x7d', '>']) (h : ∀ e ∈ items, Passed Inside (e.render Level.anything)) :
    Passed D (o :: (commaSeparated (items.map (render Level.anything)) ++ [c])) :=
  passed_brackets ho hc (passed_commaSeparated fun cs hcs => by
    obtain ⟨e, he, rfl⟩ := List.mem_map.mp hcs
    exact h e he)

/-- **The search for marks goes past an expression**: past an operand anywhere, and past any
expression inside of brackets. -/
theorem Legible.passed {e : Expr} (h : e.Legible) :
    ∀ l {D : Nat → Prop}, (2 ≤ l ∨ ∀ d, D d → Inside d) → Passed D (e.render l) := by
  have hinside : 2 ≤ Level.anything ∨ ∀ d, Inside d → Inside d := Or.inr fun _ h => h
  have hlambda : 2 ≤ Level.lambda ∨ ∀ d, Inside d → Inside d := Or.inr fun _ h => h
  induction h with
  | number hn hr => exact fun l D _ => hn.passed hr
  | char => exact fun l D _ => passed_quote (Or.inl rfl)
  | var hx => exact fun l D _ => passed_neutral fun c hc => neutral_of_isLetter (hx.2.1 c hc)
  | op o =>
    intro l D _
    by_cases h : o.fixity = .word
    · rw [render_word h]
      exact passed_neutral fun c hc => neutral_of_isLetter ((Operator.isName_spelling h).2.1 c hc)
    · rw [render_symbol h]
      cases o with
      | minus =>
        intro m d s _ hs
        show unmarked m d ('(' :: '-' :: ')' :: s) = true
        rwa [unmarked_open (by decide), unmarked_minus (by decide), unmarked_close (by decide)]
      | plus | append | times | divide | modulo | size | countUp =>
        exact passed_brackets (by decide) (by decide) (passed_neutral (by decide))
      | _ => exact absurd rfl h
  | lambda hp _ ih =>
    intro l D hD
    rw [render_lambda]
    exact passed_loose (hp.passed.append ((passed_halt (c := '=') (Or.inr rfl)).cons (c := ' ')
      (by decide))) (by decide) hD
  | project hk _ ih =>
    intro l D hD
    rw [render_project]
    exact (passed_parenthesize (fun D => ih Level.atom (Or.inl (by decide))) _).append
      ((passed_neutral (Label.Written.neutral hk)).cons (by decide))
  | @binary o k a b ho _ _ iha ihb =>
    intro l D hD
    rw [render_binary ho]
    have hk : 2 ≤ k := two_le_level ho
    exact passed_parenthesize (fun D => (iha k (Or.inl hk)).append
      (passed_spelling o (ihb (k + 1) (Or.inl (Nat.le_succ_of_le hk))))) _
  | apply hp hi _ _ ihf iha =>
    intro l D hD
    rw [render_apply hp hi]
    exact passed_parenthesize (fun D => (ihf Level.application (Or.inl (by decide))).append
      ((iha Level.atom (Or.inl (by decide))).cons (c := ' ') (by decide))) _
  | text hne hcs =>
    intro l D hD
    rw [render_text hne hcs]
    exact passed_quote (Or.inr rfl)
  | list h _ ih =>
    intro l D hD
    rw [render_list h]
    exact passed_items (by decide) (by decide) fun e he => ih e he _ hinside
  | record _ hlabels _ ih =>
    intro l D hD
    rw [render_record]
    exact passed_fields (by decide) (by decide) hlabels fun p hp => ih p hp _ hinside
  | tuple hlen _ ih =>
    intro l D hD
    rw [render_tuple hlen]
    exact passed_items (by decide) (by decide) fun e he => ih e he _ hinside
  | dispatch _ hlabels _ ih =>
    intro l D hD
    rw [render_dispatch]
    exact passed_fields (by decide) (by decide) hlabels fun p hp => ih p hp _ hinside
  | tag hne hk =>
    exact fun l D hD =>
      (passed_neutral fun c hc => neutral_of_isLetter (hk c hc)).cons (c := '#') (by decide)
  | load hx =>
    exact fun l D hD => (passed_neutral (t := "import ".toList) (by decide)).append
      (passed_neutral fun c hc => neutral_of_isLetter (hx.2.1 c hc))
  | ascribe ht _ ih =>
    intro l D hD
    rw [render_ascribe]
    exact passed_loose ((ht.passed false).append ((((ih _ hlambda).cons (c := ' ')
      (by decide)).separator (c := ':') (Or.inr rfl)).cons (c := ' ') (by decide))) (by decide) hD
  | andThen _ _ ihb ihe =>
    intro l D hD
    rw [render_andThen]
    exact passed_loose ((ihb _ hlambda).append (passed_halt (c := ';') (Or.inl rfl))) (by decide) hD
  | bindIn hp hne _ _ ihb ihe =>
    intro l D hD
    rw [render_bindIn hne]
    exact passed_loose ((passed_neutral (t := "let ".toList) (by decide)).append (hp.passed.append
      ((passed_halt (c := '=') (Or.inr rfl)).cons (c := ' ') (by decide)))) (by decide) hD

end Expr

end RowLang

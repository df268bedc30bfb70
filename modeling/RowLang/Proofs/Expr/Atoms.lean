import RowLang.Proofs.Expr.Layers
import RowLang.Proofs.Expr.Shown

/-!
# Proofs/Expr/Atoms — the texts of literals, names and brackets are atoms

Each kind of atom is found by its own alternative of the grammar, since all others refuse its first
char. Three kinds need a closer look: a tag begins like the operator for sizes, an import like a
name, and an operator in parentheses like a tuple.
-/

namespace RowLang

open RowLang.Parser RowLang.Grammar

namespace Expr

variable {self : Place → Parser Expr} {r s cs rest : List Char} {e : Expr}

/-! ## Atoms -/

/-- An atom is found by the one alternative that does not refuse it. -/
theorem finds_plain {c : Char} {p : Parser Expr} (i : Nat) (hb : Text.isBlank c = false)
    (hc : only '(' c = false) (hp : (plainAtoms self)[i]? = some p)
    (hothers : ∀ q ∈ (plainAtoms self).eraseIdx i, Refuses q (c :: s))
    (h : Finds p (c :: s) e rest) : Finds (atomGrammar self) (c :: s) e rest := by
  have hbetween : ∀ {α : Type} {p : Parser α} {t : String}, Refuses (between "(" p t) (c :: s) :=
    fun {_ _ _} => begins_between rfl c s hb hc
  rw [Finds, atomGrammar, (hbetween.map _).firstOf, (hbetween.map _).firstOf]
  exact Finds.firstOf ((choice_nth i hp hothers).trans h)

/-- The first char tells the kind of an atom, if it begins no other. -/
theorem refuses_others {c : Char} (i : Nat) (hb : Text.isBlank c = false)
    (hc : ∀ P ∈ leads.eraseIdx i, P c = false) :
    ∀ q ∈ (plainAtoms self).eraseIdx i, Refuses q (c :: s) :=
  refuses_of_begins (forall₂_eraseIdx i (begins_plainAtoms self)) hb hc

/-- Or if it begins one other, which refuses the text. -/
theorem refuses_others_but_one {c : Char} {p : Parser Expr} (i j : Nat)
    (hb : Text.isBlank c = false)
    (hp : ((plainAtoms self).eraseIdx i)[j]? = some p) (h : Refuses p (c :: s))
    (hc : ∀ P ∈ (leads.eraseIdx i).eraseIdx j, P c = false) :
    ∀ q ∈ (plainAtoms self).eraseIdx i, Refuses q (c :: s) :=
  refuses_of_eraseIdx j hp h (refuses_of_begins
    (forall₂_eraseIdx j (forall₂_eraseIdx i (begins_plainAtoms self))) hb hc)

theorem only_eq_false {P : Char → Bool} {c d : Char} (hc : P c = true) (hd : P d = false) :
    only d c = false := decide_eq_false fun he => by
  rw [he, hd] at hc
  cases hc

/-- A digit begins nothing but a number. -/
theorem leads_digit {c : Char} (hc : Text.isAsciiDigit c = true) :
    ∀ P ∈ leads.eraseIdx 0, P c = false := by
  have honly : ∀ {d : Char}, Text.isAsciiDigit d = false → only d c = false := only_eq_false hc
  simp only [leads, List.eraseIdx_cons_zero, List.forall_mem_cons, List.not_mem_nil,
    IsEmpty.forall_iff, implies_true, and_true, Bool.or_eq_false_iff]
  exact ⟨honly rfl, honly rfl, honly rfl, ⟨honly rfl, honly rfl⟩, honly rfl,
    Text.not_isLetter_of_isAsciiDigit hc, honly rfl, honly rfl, honly rfl⟩

/-- A letter begins nothing but an import or a name. -/
theorem leads_letter {c : Char} (hc : Text.isLetter c = true) :
    ∀ P ∈ (leads.eraseIdx 5).eraseIdx 5, P c = false := by
  have honly : ∀ {d : Char}, Text.isLetter d = false → only d c = false := only_eq_false hc
  have hdigit : Text.isAsciiDigit c = false := by
    by_contra h
    rw [Text.not_isLetter_of_isAsciiDigit (by simpa using h)] at hc
    cases hc
  simp only [leads, List.eraseIdx_cons_succ, List.eraseIdx_cons_zero, List.forall_mem_cons,
    List.not_mem_nil, IsEmpty.forall_iff, implies_true, and_true, Bool.or_eq_false_iff]
  exact ⟨⟨hdigit, honly rfl⟩, honly rfl, honly rfl, honly rfl, ⟨honly rfl, honly rfl⟩, honly rfl,
    honly rfl, honly rfl⟩

/-- Where a tag begins the operator for sizes does not stand. -/
theorem refuses_leading {c : Char} (hc : Text.isLetter c = true) :
    Refuses (leadingGrammar.map op) ('#' :: c :: s) := by
  refine ((refuses_token (solid_cons (by decide) _) ?_).map _).map _
  simp [Lexer.orElse, Lexer.unlessBefore, Lexer.exactly, List.isPrefixOf?, hc]

/-- The word for imports is no name. -/
theorem refuses_import (hr : ∀ c ∈ rest.head?, Text.isLetter c = false) :
    Refuses (identifier.map ofWord) ("import".toList ++ rest) := by
  have hletters : Finds (token (Lexer.run1 Text.isLetter)) ("import".toList ++ rest)
    "import".toList rest :=
    finds_token (solid_cons (by decide) _) (Lexer.run1_append (by decide) (by decide) hr)
  refine Refuses.map (hletters.bind_refuses ?_) _
  rw [if_pos (by decide)]
  rfl

theorem finds_number {n : Numeral} (hn : n.Written) (hr : n.Reread) (hrest : Numeral.Ends rest) :
    Finds (atomGrammar self) (n.chars ++ rest) (number n) rest := by
  obtain ⟨p, hp, -⟩ := hn.exists_parts hr
  obtain ⟨c, u, hs, hc⟩ := Numeral.exists_chars_eq hp
  have hfound := ((hn.takes hr).finds hrest).map number
  rw [hs, List.cons_append] at hfound ⊢
  rcases hc with hc | ⟨rfl, -⟩
  · have hb := Text.isBlank_of_isWordChar (c := c) (by rw [Text.isWordChar, hc, Bool.or_true])
    exact finds_plain 0 hb (only_eq_false hc rfl) rfl (refuses_others 0 hb (leads_digit hc)) hfound
  · exact finds_plain 0 (by decide) (by decide) rfl
      (refuses_others 0 (by decide) (by decide)) hfound

theorem finds_char {c : Char} (hc : c ≠ '\n') :
    Finds (atomGrammar self) ('\'' :: c :: '\'' :: rest) (char c) rest := by
  have hlexeme : Finds (valued charLexeme) ('\'' :: c :: '\'' :: rest) c rest := by
    refine (blanks_of_solid (solid_cons (by decide) _) _).trans ?_
    rw [charLexeme, if_neg hc]
    rfl
  exact finds_plain 1 (by decide) (by decide) rfl (refuses_others 1 (by decide) (by decide))
    (hlexeme.map char)

theorem finds_text (hcs : '"' ∉ cs) :
    Finds (atomGrammar self) ('"' :: (cs ++ '"' :: rest)) (list (cs.map char)) rest := by
  have hall : ∀ c ∈ cs, decide (c ≠ '"') = true := fun c hc => decide_eq_true fun he =>
    hcs (he ▸ hc)
  have hspan : (cs ++ '"' :: rest).span (· ≠ '"') = (cs, '"' :: rest) := by
    rw [List.span_eq_takeWhile_dropWhile, List.takeWhile_append_of_pos hall,
      List.dropWhile_append_of_pos hall]
    simp
  have hlexeme : Finds (valued textLexeme) ('"' :: (cs ++ '"' :: rest)) cs rest := by
    refine (blanks_of_solid (solid_cons (by decide) _) _).trans ?_
    rw [textLexeme, hspan]
    rfl
  exact finds_plain 2 (by decide) (by decide) rfl (refuses_others 2 (by decide) (by decide))
    (hlexeme.map ofChars)

theorem finds_tag {k : Label} (hne : k.toList ≠ []) (hk : ∀ c ∈ k.toList, Text.isLetter c = true)
    (hr : Text.Closes rest) : Finds (atomGrammar self) ('#' :: (k.toList ++ rest))
      (tag k) rest := by
  have hlexer : tagLexer ('#' :: (k.toList ++ rest)) = some ('#' :: k.toList, rest) := by
    have hmark : Lexer.exactly ['#'] ('#' :: (k.toList ++ rest)) = some (['#'], k.toList ++ rest) :=
      Lexer.exactly_append ['#'] _
    simp [tagLexer, Lexer.andThen, hmark, Lexer.run1_append hne hk hr.not_isLetter]
  have htag := (finds_token (solid_cons (by decide) _) hlexer).map fun w =>
    tag (String.ofList (w.drop 1))
  rw [List.drop_succ_cons, List.drop_zero, String.ofList_toList] at htag
  obtain ⟨c, w, hw⟩ := List.exists_cons_of_ne_nil hne
  rw [hw, List.cons_append] at htag ⊢
  exact finds_plain 3 (by decide) (by decide) rfl (refuses_others_but_one 3 3 (by decide) rfl
    (refuses_leading (hk c (hw ▸ List.mem_cons_self))) (by decide)) htag

/-- A name is an operator or a variable. -/
theorem finds_name {x : String} (hx : IsName x) (hr : Text.Closes rest) :
    Finds (atomGrammar self) (x.toList ++ rest) (ofWord x) rest := by
  have himport : x.toList ≠ "import".toList := fun h => hx.2.2 (by
    rw [String.toList_inj.mp h]
    decide)
  have hword : Refuses (((keyword "import").before identifier).map load) (x.toList ++ rest) :=
    (refuses_word (by decide) hx.1 hx.2.1 hr himport).before.map _
  have hfound := (finds_identifier hx hr).map ofWord
  obtain ⟨c, w, hw⟩ := List.exists_cons_of_ne_nil hx.1
  have hc : Text.isLetter c = true := hx.2.1 c (hw ▸ List.mem_cons_self)
  have hb : Text.isBlank c = false :=
    Text.isBlank_of_isWordChar (by rw [Text.isWordChar, hc, Bool.true_or])
  rw [hw, List.cons_append] at hword hfound ⊢
  exact finds_plain 6 hb (only_eq_false hc rfl) rfl
    (refuses_others_but_one 6 5 hb rfl hword (leads_letter hc)) hfound

theorem finds_load {x : String} (hx : IsName x) (hr : Text.Closes rest) :
    Finds (atomGrammar self) ("import ".toList ++ (x.toList ++ rest)) (load x) rest := by
  have hclose : Text.Closes (' ' :: (x.toList ++ rest)) := Text.closes_cons (by decide) _
  have hkeyword : Finds (keyword "import") ("import".toList ++ ' ' :: (x.toList ++ rest))
    "import".toList
      (' ' :: (x.toList ++ rest)) := finds_keyword (solid_cons (by decide) _) hclose.not_isLetter
  have hload := (hkeyword.before (skips_identifier.behind_blank (finds_identifier hx hr))).map load
  exact finds_plain 5 (by decide) (by decide) rfl (refuses_others_but_one 5 5 (by decide) rfl
    (refuses_import hclose.not_isLetter) (by decide)) hload

/-! ## Brackets -/

/-- What ends the text in a pair of brackets. -/
theorem ends_closing {c : Char} (hc : c ∈ [')', ']', '\x7d', '>', ',']) (b : Bool) (r : List Char) :
    Ends b 0 (c :: r) := by
  have hmark : ∀ {c : Char}, c ∈ [')', ']', '\x7d', '>', ','] →
      c ∈ [')', ']', '\x7d', '>', ',', ';'] ∧ c ≠ ';' := by decide
  exact ends_mark (hmark hc).1 (fun _ => (hmark hc).2) r

/-- An expression of which the grammar takes the text inside of brackets. -/
def Bracketed (self : Place → Parser Expr) (e : Expr) : Prop :=
  Takes (Ends false 0) (self .anything) (e.render Level.anything) e.shown

theorem refuses_symbol_of_class {P : Char → Bool} {c : Char} (hb : Text.isBlank c = false)
    (hc : P c = true)
    (hP : Operator.symbols.all (fun o => o.spelling.toList.head?.any fun d => !P d) = true) :
    Refuses (symbolGrammar Operator.symbols) (c :: s) := by
  refine refuses_symbol hb (List.all_eq_true.mpr fun o ho => ?_)
  have hhead := List.all_eq_true.mp hP o ho
  rw [Option.any_eq_true] at hhead ⊢
  obtain ⟨d, hd, hPd⟩ := hhead
  refine ⟨d, hd, decide_eq_true fun he => ?_⟩
  rw [he, hc] at hPd
  cases hPd

/-- No expression in parentheses is an operator symbol. -/
theorem refuses_operator {l : Level} (h : Opens l s) :
    Refuses (between "(" (symbolGrammar Operator.symbols) ")") ('(' :: s) := by
  have hopen : Finds (literal "(") ('(' :: s) "(".toList s :=
    finds_literal (solid_cons (by decide) s)
  have hblank : ∀ {c : Char}, Text.isWordChar c = true → Text.isBlank c = false :=
    Text.isBlank_of_isWordChar
  -- a sign in front of a digit and a mark in front of a letter are operators, but no bracket closes
  -- there
  have hclosing : ∀ {c : Char} {r : List Char}, Text.isWordChar c = true →
    Refuses (literal ")") (c :: r) :=
    fun hc => begins_literal rfl _ _ (hblank hc) (only_eq_false hc (by decide))
  cases h with
  | @word w r hne hw hlet hr =>
    obtain ⟨c, w, rfl⟩ := List.exists_cons_of_ne_nil hne
    have hc := hw c List.mem_cons_self
    exact (hopen.before_refuses (refuses_symbol_of_class
      (hblank (by rw [Text.isWordChar, hc, Bool.true_or])) hc (by decide))).bind
  | digit r hc =>
    exact (hopen.before_refuses (refuses_symbol_of_class
      (hblank (by rw [Text.isWordChar, hc, Bool.or_true])) hc (by decide))).bind
  | @minus c r hc =>
    have hsymbol : Finds (symbolGrammar Operator.symbols) ('-' :: c :: r) .minus (c :: r) := by rfl
    exact (hopen.before hsymbol).bind_refuses
      ((hclosing (by rw [Text.isWordChar, hc, Bool.or_true])).map _)
  | @tag c r hc =>
    have hsymbol : Finds (symbolGrammar Operator.symbols) ('#' :: c :: r) .size (c :: r) := by rfl
    exact (hopen.before hsymbol).bind_refuses
      ((hclosing (by rw [Text.isWordChar, hc, Bool.true_or])).map _)
  | mark r hc =>
    have hall : ∀ {c : Char}, c ∈ ['(', '[', '\x7b', '<', '\'', '"', '_'] → Text.isBlank c = false ∧
        Operator.symbols.all (fun o => o.spelling.toList.head?.any (· ≠ c)) = true := by decide
    exact (hopen.before_refuses (refuses_symbol (hall hc).1 (hall hc).2)).bind

/-- No expression begins with a closing bracket. -/
theorem refuses_closing {c : Char} (hc : c ∈ [')', ']']) : Refuses (anythingGrammar self)
    (c :: s) := by
  have hall : ∀ {c : Char}, c ∈ [')', ']'] → c ∈ [')', ']', '\x7d', '>', ','] ∧
    Text.isBlank c = false ∧
      only 'l' c = false := by decide
  obtain ⟨hmark, hblank, hlet⟩ := hall hc
  have hends := ends_closing hmark false s
  have hatom : Refuses (atomGrammar self) (c :: s) := hends.noAtom (by decide) self
  have hadditive : Refuses (additiveGrammar self) (c :: s) :=
    ((refuses_projection hatom).bind.map _).bind.bind
  have hsimple : Refuses (simpleGrammar self) (c :: s) := by
    refine refuses_firstOf ?_
    simp only [List.forall_mem_cons, List.not_mem_nil, IsEmpty.forall_iff, implies_true, and_true]
    exact ⟨refuses_ascription (hends.unmarked (by decide) .colon),
      refuses_lambda (hends.unmarked (by decide) .arrow), hadditive⟩
  have hbinding : Refuses (letGrammar self) (c :: s) :=
    ((begins_keyword rfl c s hblank hlet).before).both.map _
  refine refuses_firstOf ?_
  simp only [List.forall_mem_cons, List.not_mem_nil, IsEmpty.forall_iff, implies_true, and_true]
  exact ⟨hbinding, hsimple.bind⟩

/-- **Expressions in parentheses are found one by one.** -/
theorem finds_parentheses {items : List Expr} (h : ∀ e ∈ items, Bracketed self e)
    (hopens : ∀ e ∈ items, Opens Level.anything (e.render Level.anything))
    (hself : Refuses (self .anything) (')' :: rest)) :
    Finds (atomGrammar self)
      ('(' :: (commaSeparated (items.map (render Level.anything)) ++ ')' :: rest))
      (ofItems (items.map shown)) rest := by
  have hitems := finds_commaList (r := ')' :: rest) (fun r => ends_closing (by decide) false r)
    (ends_closing (by decide) false rest) h (begins_literal rfl _ _ (by decide) (by decide))
    fun _ => hself
  have hoperator : Refuses (between "(" (symbolGrammar Operator.symbols) ")")
      ('(' :: (commaSeparated (items.map (render Level.anything)) ++ ')' :: rest)) := by
    cases items with
    | nil =>
      exact ((finds_literal (w := "(") (solid_cons (by decide) _)).before_refuses
        (refuses_symbol (by decide) (by decide))).bind
    | cons e es =>
      rw [List.map_cons, commaSeparated_cons, List.append_assoc]
      refine refuses_operator ((hopens e List.mem_cons_self).append ?_)
      cases es with
      | nil => exact Text.closes_cons (by decide) _
      | cons => exact Text.closes_cons (by decide) _
  rw [Finds, atomGrammar, (hoperator.map _).firstOf]
  exact Finds.firstOf ((finds_between (o := "(") (c := ")") (solid_cons (by decide) _) hitems
    (solid_cons (by decide) _)).map ofItems)

/-- One expression in parentheses is that expression. -/
theorem finds_parenthesized (h : Bracketed self e)
    (hopens : Opens Level.anything (e.render Level.anything))
    (hself : Refuses (self .anything) (')' :: rest)) :
    Finds (atomGrammar self) ('(' :: (e.render Level.anything ++ ')' :: rest)) e.shown rest := by
  have hall : ∀ {P : Expr → Prop}, P e → ∀ i ∈ [e], P i :=
    fun hP i hi => List.mem_singleton.mp hi ▸ hP
  have hfound := finds_parentheses (hall h) (hall hopens) hself
  rwa [List.map_singleton, commaSeparated_singleton] at hfound

theorem finds_list {elts : List Expr} (h : ∀ e ∈ elts, Bracketed self e)
    (hself : Refuses (self .anything) (']' :: rest)) :
    Finds (atomGrammar self)
      ('[' :: (commaSeparated (elts.map (render Level.anything)) ++ ']' :: rest))
      (list (elts.map shown)) rest := by
  have helts := finds_commaList (r := ']' :: rest) (fun r => ends_closing (by decide) false r)
    (ends_closing (by decide) false rest) h (begins_literal rfl _ _ (by decide) (by decide))
    fun _ => hself
  exact finds_plain 7 (by decide) (by decide) rfl (refuses_others 7 (by decide) (by decide))
    ((finds_between (o := "[") (c := "]")
    (solid_cons (by decide) _) helts (solid_cons (by decide) _)).map list)

/-- **The fields in a pair of brackets are found one by one.** -/
theorem finds_fields {fields : Row Expr} {item : Parser (Label × Expr)} {c : Char}
    (hc : c ∈ ['\x7d', '>']) (hdistinct : Row.Distinct fields)
    (h : ∀ p ∈ fields, Takes (Ends false 0) item (fieldText p) (p.1, p.2.shown))
    (hitem : Refuses item (c :: rest)) :
    Finds (rowOf item) (commaSeparated (fields.map fieldText) ++ c :: rest)
      (Row.mapValues shown fields) (c :: rest) := by
  have hall : ∀ {c : Char}, c ∈ ['\x7d', '>'] → c ∈ [')', ']', '\x7d', '>', ','] ∧
      Text.isBlank c = false ∧ only ',' c = false := by decide
  obtain ⟨hmark, hblank, hcomma⟩ := hall hc
  have hfields := (finds_commaList (r := c :: rest) (fun r => ends_closing (by decide) false r)
    (ends_closing hmark false rest) h (begins_literal rfl _ _ hblank hcomma) fun _ => hitem).map
      Row.ofPairs
  rwa [show fields.map (fun p => (p.1, p.2.shown)) = Row.mapValues shown fields from rfl,
    Row.ofPairs_eq_self (hdistinct.mapValues shown)] at hfields

theorem finds_record {fields : Row Expr} (hdistinct : Row.Distinct fields)
    (hlabels : ∀ p ∈ fields, Label.Written p.1) (h : ∀ p ∈ fields, Bracketed self p.2) :
    Finds (atomGrammar self) ('\x7b' :: (commaSeparated (fields.map fieldText) ++ '\x7d' :: rest))
      (record (Row.mapValues shown fields)) rest := by
  have hlabel : Refuses label ('\x7d' :: rest) :=
    refuses_label (solid_cons (by decide) _) (Text.closes_cons (by decide) _)
  have hitem : Refuses (punnedField (self .anything) var) ('\x7d' :: rest) := by
    refine refuses_firstOf ?_
    simp only [List.forall_mem_cons, List.not_mem_nil, IsEmpty.forall_iff, implies_true, and_true]
    exact ⟨hlabel.both, (Pattern.begins_identifier _ _ (by decide) (by decide)).map _⟩
  have hfields := finds_fields (by decide) hdistinct (fun p hp bs r hb hr =>
    (takes_field (hlabels p hp) (h p hp) bs r hb hr).firstOf) hitem
  exact finds_plain 8 (by decide) (by decide) rfl (refuses_others 8 (by decide) (by decide))
    ((finds_between (o := "\x7b") (c := "\x7d")
    (solid_cons (by decide) _) hfields (solid_cons (by decide) _)).map record)

theorem finds_dispatch {handlers : Row Expr} (hdistinct : Row.Distinct handlers)
    (hlabels : ∀ p ∈ handlers, Label.Written p.1) (h : ∀ p ∈ handlers, Bracketed self p.2) :
    Finds (atomGrammar self) ('<' :: (commaSeparated (handlers.map fieldText) ++ '>' :: rest))
      (dispatch (Row.mapValues shown handlers)) rest := by
  have hlabel : Refuses label ('>' :: rest) :=
    refuses_label (solid_cons (by decide) _) (Text.closes_cons (by decide) _)
  have hfields :=
    finds_fields (by decide) hdistinct (fun p hp => takes_field (hlabels p hp) (h p hp))
    (Refuses.both hlabel)
  exact finds_plain 9 (by decide) (by decide) rfl (refuses_others 9 (by decide) (by decide))
    ((finds_between (o := "<") (c := ">")
    (solid_cons (by decide) _) hfields (solid_cons (by decide) _)).map dispatch)

end Expr

end RowLang

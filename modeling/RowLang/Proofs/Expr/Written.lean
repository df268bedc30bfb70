import RowLang.Expr.Grammar
import RowLang.Expr.Printer
import RowLang.Proofs.Expr.Numeral
import RowLang.Proofs.Pattern.Printed
import RowLang.Proofs.Ty.Written

/-!
# Proofs/Expr/Written — the expressions that texts denote

What the grammar reads is `Written`: its types and patterns are, names are no reserved words, rows
have no label twice, and no tuple has one item.  Reading stops only at an integer of too many digits
(`Expr.gives_grammar`).
-/

namespace RowLang

open RowLang.Parser RowLang.Grammar

namespace Expr

mutual

/-- An expression that a text denotes.  The function of a projection may have any label for a name.
-/
def Written : Expr → Prop
  | number n => n.Written
  | char c => c ≠ '\n'
  | var x => IsName x
  | op _ => True
  | lambda p body => p.Written ∧ Written body
  | apply fn arg => (match projectedLabel? fn with
      | some l => Label.Written l
      | none => Written fn) ∧ Written arg
  | list elts => (∃ cs : List Char, elts = cs.map char ∧ '"' ∉ cs) ∨ WrittenAll elts
  | record fields => (Row.Distinct fields ∧ ∀ l ∈ Row.labels fields, Label.Written l) ∧
      WrittenFields fields
  | tuple items => items.length ≠ 1 ∧ WrittenAll items
  | dispatch handlers => (Row.Distinct handlers ∧ ∀ l ∈ Row.labels handlers, Label.Written l) ∧
      WrittenFields handlers
  | tag l => l.toList ≠ [] ∧ ∀ c ∈ l.toList, Text.isLetter c = true
  | load name => IsName name
  | ascribe declared e => declared.Written ∧ Written e
  | bindIn p bound body => p.Written ∧ Written bound ∧ Written body

/-- Expressions that texts denote. -/
def WrittenAll : List Expr → Prop
  | [] => True
  | e :: es => Written e ∧ WrittenAll es

/-- Fields whose expressions texts denote. -/
def WrittenFields : List (Label × Expr) → Prop
  | [] => True
  | (_, e) :: fields => Written e ∧ WrittenFields fields

end

/-- Expressions are denoted by texts just if each one is. -/
theorem writtenAll_iff {es : List Expr} : WrittenAll es ↔ ∀ e ∈ es, e.Written := by
  induction es with
  | nil => simp [WrittenAll]
  | cons e es ih => simp [WrittenAll, ih]

/-- Fields are denoted by texts just if the expression of each one is. -/
theorem writtenFields_iff {fields : Row Expr} :
    WrittenFields fields ↔ ∀ p ∈ fields, p.2.Written := by
  induction fields with
  | nil => simp [WrittenFields]
  | cons p fields ih => simp [WrittenFields, ih]

/-- What a record needs to be denoted by a text. -/
theorem written_record {fields : Row Expr} :
    (record fields).Written ↔ GoodFields Written fields := by
  rw [Written, writtenFields_iff, goodFields_iff]

/-- A row of handlers needs the same. -/
theorem written_dispatch {fields : Row Expr} :
    (dispatch fields).Written ↔ GoodFields Written fields := by
  rw [Written, writtenFields_iff, goodFields_iff]

/-- The function of a projection, taken apart. -/
theorem projectedLabel?_eq_some {e : Expr} {l : Label} (h : projectedLabel? e = some l) :
    e = lambda (.row [(l, .name (projectionName l))]) (var (projectionName l)) := by
  unfold projectedLabel? at h
  split at h
  case h_1 k x y =>
    split at h
    case isTrue hxy =>
      rw [Bool.and_eq_true, decide_eq_true_iff, decide_eq_true_iff] at hxy
      cases h
      rw [hxy.1, hxy.2]
    case isFalse => cases h
  case h_2 => cases h

/-- The function of a projection is known for one. -/
theorem projectedLabel?_projection (l : Label) :
    projectedLabel? (lambda (.row [(l, .name (projectionName l))]) (var (projectionName l))) =
      some l := by
  rw [projectedLabel?]
  simp

/-- An application is denoted by a text if its parts are, be it a projection or not. -/
theorem Written.apply {fn arg : Expr} (hfn : fn.Written) (harg : arg.Written) :
    (Expr.apply fn arg).Written := by
  refine ⟨?_, harg⟩
  cases h : projectedLabel? fn with
  | none => exact hfn
  | some l =>
    rw [projectedLabel?_eq_some h] at hfn
    exact hfn.1.1.2 l List.mem_cons_self

/-- A projection needs a written label, whatever the function is called inside. -/
theorem Written.project {e : Expr} {l : Label} (he : e.Written) (hl : Label.Written l) :
    (e.project l).Written := by
  refine ⟨?_, he⟩
  rw [projectedLabel?_projection]
  exact hl

/-- An operation is denoted by a text if its operands are. -/
theorem Written.binary {o : Operator} {a b : Expr} (ha : a.Written) (hb : b.Written) :
    (Expr.binary o a b).Written := Written.apply trivial ⟨by simp, ha, hb, trivial⟩

/-- So is what stands in parentheses: one thing by itself, or a tuple. -/
theorem written_ofItems {es : List Expr} (h : ∀ e ∈ es, e.Written) : (ofItems es).Written := by
  match es, h with
  | [e], h => exact h e List.mem_cons_self
  | [], _ => exact ⟨by simp, trivial⟩
  | _ :: _ :: _, h => exact ⟨by simp, writtenAll_iff.mpr h⟩

/-- So is a word, be it an operator or a name. -/
theorem written_ofWord {w : String} (h : IsName w) : (ofWord w).Written := by
  rw [ofWord]
  split
  exacts [trivial, h]

end Expr

/-! ## Numerals -/

/-- The parse stops at an integer of too many digits. -/
def TooLong (why : Halt) : Prop := ∃ n, Decimal.digitLimit < n ∧ why = .fault (.numeralTooLong n)

/-- Nothing is shown of the marks of a text. -/
def Nowhere (_ : Nat) : Prop := False

/-- Nothing is shown of the marks inside brackets either. -/
theorem inside_nowhere {d : Nat} (h : inside Nowhere d) : Nowhere d := by
  cases d <;> exact h

/-- A text that is shorter lies past all the marks there are to be kept. -/
theorem past_of_length {s t : List Char} (h : t.length < s.length) : Past Nowhere s t :=
  ⟨⟨h.le, fun _ _ h => h.elim⟩, h⟩

/-- A digit stands for nine at most. -/
theorem Text.digitValue?_le {c : Char} : (digitValue? c).getD 0 ≤ 9 := by
  rw [digitValue?]
  cases h : decimalZeros.find? fun z => decide (z ≤ c.toNat) && decide (c.toNat ≤ z + 9) with
  | none => simp
  | some z =>
    have := List.find?_some h
    rw [Bool.and_eq_true, decide_eq_true_iff, decide_eq_true_iff] at this
    simp only [Option.map_some, Option.getD_some]
    omega

/-- More digits make room for greater numbers. -/
theorem Decimal.tenTo_le {m n : Nat} (h : m ≤ n) : tenTo m ≤ tenTo n :=
  Nat.pow_le_pow_right (by decide) h

/-- **Digits denote a number below the power of ten with as many zeros.** -/
theorem Decimal.natOfDigits_lt (cs : List Char) : natOfDigits cs < tenTo cs.length := by
  have hfold : ∀ (cs : List Char) (n k : Nat), n < 10 ^ k →
      cs.foldl (fun n c => 10 * n + (Text.digitValue? c).getD 0) n < 10 ^ (k + cs.length) := by
    intro cs
    induction cs with
    | nil => intro n k h; simpa using h
    | cons c cs ih =>
      intro n k h
      rw [List.foldl_cons, List.length_cons, Nat.add_comm cs.length, ← Nat.add_assoc]
      refine ih _ (k + 1) ?_
      have := Text.digitValue?_le (c := c)
      rw [Nat.pow_succ]
      omega
  have h := hfold cs 0 0 (by simp)
  rwa [Nat.zero_add] at h

namespace Numeral

/-- The parts of a numeral denote a number that can be written, or have too many digits. -/
theorem gives_ofParts (p : Parts) (s : List Char) :
    Gives TooLong (fun n rest => n.Written ∧ rest = s) (ofParts p s) := by
  unfold ofParts
  split
  · split
    case isTrue h => exact ⟨_, h, rfl⟩
    case isFalse h =>
      refine gives_one ⟨?_, rfl⟩
      have hlt : Decimal.natOfDigits p.whole < Decimal.tenTo Decimal.digitLimit :=
        (Decimal.natOfDigits_lt _).trans_le (Decimal.tenTo_le (Nat.le_of_not_lt h))
      show Decimal.writable _ = true
      rw [Decimal.writable, decide_eq_true_iff]
      split
      · rwa [Int.natAbs_neg, Int.natAbs_natCast]
      · rwa [Int.natAbs_natCast]
  · dsimp only
    split
    · exact gives_one ⟨‹_›, rfl⟩
    · exact gives_none

/-- A numeral has a digit. -/
theorem length_parts? {s rest : List Char} {p : Parts} (h : parts? s = some (p, rest)) :
    rest.length < s.length := by
  obtain ⟨sign, w, f, e, rfl, -, ⟨⟨hne, -⟩, -⟩, -⟩ := parts?_eq h
  have := List.length_pos_iff.mpr hne
  simp only [List.length_append]
  omega

/-- **The numbers that texts denote can be written**, and have too many digits if the parse stops.
-/
theorem gives_grammar (s : List Char) :
    Gives TooLong (fun n rest => n.Written ∧ Past Nowhere s rest) (grammar s) := by
  refine Gives.before (gives_blanks (P := fun _ t => t.length ≤ s.length) fun bs t _ hs => by
    rw [hs, List.length_append]
    omega) fun _ t ht => ?_
  cases h : parts? t with
  | none => exact gives_none
  | some r =>
    obtain ⟨p, rest⟩ := r
    exact (gives_ofParts p rest).weaken fun n rest' hn =>
      ⟨hn.1, past_of_length (hn.2 ▸ (length_parts? h).trans_le ht)⟩

end Numeral

/-! ## Lexemes -/

namespace Expr

variable {s : List Char}

/-- An expression is written, and a text is left behind it. -/
def Reads (s : List Char) (e : Expr) (rest : List Char) : Prop := e.Written ∧ Past Nowhere s rest

/-- Behind a lexeme with a value a shorter text is left. -/
theorem gives_valued {α : Type} {l : List Char → Option (α × List Char)} {G : α → Prop}
    (h : ∀ t x rest, l t = some (x, rest) → G x ∧ rest.length < t.length) :
    Gives TooLong (fun x rest => G x ∧ Past Nowhere s rest) (valued l s) := by
  refine Gives.before (gives_blanks (P := fun _ t => t.length ≤ s.length) fun bs t _ hs => by
    rw [hs, List.length_append]
    omega) fun _ t ht => ?_
  cases hl : l t with
  | none => exact gives_none
  | some r =>
    obtain ⟨hx, hlt⟩ := h t r.1 r.2 hl
    exact gives_one ⟨hx, past_of_length (hlt.trans_le ht)⟩

/-- Behind a lexeme a shorter text is left. -/
theorem gives_lexeme {l : Lexer} {G : List Char → Prop}
    (h : ∀ t w rest, l t = some (w, rest) → G w ∧ rest.length < t.length) :
    Gives TooLong (fun w rest => G w ∧ Past Nowhere s rest) (token l s) :=
  gives_token fun bs t w rest _ hs hl => by
    obtain ⟨hw, hlt⟩ := h t w rest hl
    refine ⟨hw, past_of_length (hlt.trans_le ?_)⟩
    rw [hs, List.length_append]
    omega

/-- Behind a word or a sign a shorter text is left. -/
theorem gives_text {w : String} (hne : w.toList ≠ []) :
    Gives TooLong (fun _ rest => Past Nowhere s rest) (literal w s) :=
  (gives_lexeme (G := fun _ => True) fun t v rest hl => by
    obtain ⟨-, rfl⟩ := Lexer.exactly_eq_some hl
    have := List.length_pos_iff.mpr hne
    rw [List.length_append]
    exact ⟨trivial, by omega⟩).weaken fun _ _ h => h.2

/-- Behind an operator a shorter text is left. -/
theorem gives_symbol {os : List Operator} :
    Gives TooLong (fun _ rest => Past Nowhere s rest) (symbolGrammar os s) := by
  refine gives_firstOf fun p hp => ?_
  obtain ⟨o, -, rfl⟩ := List.mem_map.mp hp
  exact Gives.map (gives_text (by cases o <;> decide))

/-- A char literal is of one line. -/
theorem length_charLexeme {t rest : List Char} {c : Char} (h : charLexeme t = some (c, rest)) :
    c ≠ '\n' ∧ rest.length < t.length := by
  unfold charLexeme at h
  split at h
  · split at h <;> cases h
    exact ⟨‹_›, by simp only [List.length_cons]; omega⟩
  · cases h

/-- A text literal holds no quote. -/
theorem length_textLexeme {t rest w : List Char} (h : textLexeme t = some (w, rest)) :
    '"' ∉ w ∧ rest.length < t.length := by
  unfold textLexeme at h
  split at h
  case h_2 => cases h
  case h_1 u =>
    rw [List.span_eq_takeWhile_dropWhile] at h
    split at h
    case h_2 => cases h
    case h_1 v c rest' heq =>
      cases h
      obtain ⟨rfl, hdrop⟩ := Prod.mk.inj heq
      have hlen := (List.dropWhile_suffix (l := u) (· ≠ '"')).length_le
      rw [hdrop] at hlen
      exact ⟨fun hmem => by simpa using List.mem_takeWhile_imp hmem, by
        simp only [List.length_cons] at hlen ⊢
        omega⟩

/-- A tag has a label of letters. -/
theorem gives_tag : Gives TooLong (Reads s)
    (((token tagLexer).map fun w => tag (String.ofList (w.drop 1))) s) := by
  refine Gives.map (gives_lexeme (G := fun w => (tag (String.ofList (w.drop 1))).Written)
    fun t w rest hl => ?_)
  unfold tagLexer Lexer.andThen at hl
  rw [Option.bind_eq_bind, Option.bind_eq_some_iff] at hl
  obtain ⟨⟨v, t'⟩, hv, hl⟩ := hl
  dsimp only at hl
  rw [Option.bind_eq_some_iff] at hl
  obtain ⟨⟨u, t''⟩, hu, hl⟩ := hl
  obtain ⟨rfl, rfl⟩ := Lexer.exactly_eq_some hv
  obtain ⟨rfl, hne, hu⟩ := Lexer.run1_eq_some hu
  cases hl
  refine ⟨?_, by simp only [List.length_append, List.length_cons]; omega⟩
  rw [Written, String.toList_ofList]
  exact ⟨hne, hu⟩

/-- Behind a leading operator a shorter text is left. -/
theorem gives_leading : Gives TooLong (fun _ rest => Past Nowhere s rest) (leadingGrammar s) := by
  refine Gives.map ((gives_lexeme (G := fun _ => True) fun t w rest hl => ⟨trivial, ?_⟩).weaken
    fun _ _ h => h.2)
  rcases Lexer.orElse_eq_some hl with hl | hl
  · obtain ⟨-, rfl⟩ := Lexer.exactly_eq_some (Lexer.unlessBefore_eq_some hl)
    simp
  · obtain ⟨-, rfl⟩ := Lexer.exactly_eq_some hl
    simp

/-! ## Expressions -/

variable {self : Place → Parser Expr}
  (hself : ∀ (j : Place) (t : List Char), t.length < s.length → Gives TooLong (Reads t) (self j t))
include hself

/-- What is read in brackets is written too. -/
theorem gives_inside {t : List Char} (ht : t.length < s.length) (j : Place) :
    Gives TooLong (fun e rest => e.Written ∧ Past (inside Nowhere) t rest) (self j t) :=
  (hself j t ht).weaken fun _ _ h => ⟨h.1, h.2.mono fun _ => inside_nowhere⟩

/-- The items between brackets are written. -/
theorem gives_items {opening closing : String} {o c : Char}
    (ho : opening.toList = [o] ∧ o ∈ ['(', '[', '\x7b', '<'])
    (hc : closing.toList = [c] ∧ c ∈ [')', ']', '\x7d', '>']) :
    Gives TooLong (fun es rest => (∀ e ∈ es, e.Written) ∧ Past Nowhere s rest)
      (between opening (commaList (self .anything)) closing s) :=
  gives_brackets (G := fun es : List Expr => ∀ e ∈ es, e.Written) ho hc fun _ ht =>
    gives_commaList fun _ hu => gives_inside hself (hu.trans_lt ht) .anything

/-- What needs no parentheses is written. -/
theorem gives_atom : Gives TooLong (Reads s) (atomGrammar self s) := by
  have hname : ∀ {t : List Char}, Gives TooLong (fun x rest => IsName x ∧ Past Nowhere t rest)
      (identifier t) := gives_name
  refine gives_firstOf ?_
  simp only [List.forall_mem_cons, List.not_mem_nil, IsEmpty.forall_iff, implies_true, and_true]
  refine ⟨?_, ?_, gives_choice ?_⟩
  · refine Gives.map ((gives_brackets (G := fun _ : Operator => True) ⟨rfl, by decide⟩
      ⟨rfl, by decide⟩ fun t _ => ?_).weaken fun _ _ h => ⟨trivial, h.2⟩)
    exact gives_symbol.weaken fun _ _ h => ⟨trivial, h.behind.mono fun _ => inside_nowhere⟩
  · exact Gives.map ((gives_items hself ⟨rfl, by decide⟩ ⟨rfl, by decide⟩).weaken
      fun _ _ h => ⟨written_ofItems h.1, h.2⟩)
  simp only [List.forall_mem_cons, List.not_mem_nil, IsEmpty.forall_iff, implies_true, and_true]
  refine ⟨?_, ?_, ?_, gives_tag, ?_, ?_, ?_, ?_, ?_, ?_⟩
  · exact Gives.map (Numeral.gives_grammar s)
  · exact Gives.map (gives_valued fun _ _ _ h => length_charLexeme h)
  · exact Gives.map ((gives_valued fun _ _ _ h => length_textLexeme h).weaken
      fun cs _ h => ⟨Or.inl ⟨cs, rfl, h.1⟩, h.2⟩)
  · exact Gives.map (gives_leading.weaken fun _ _ h => ⟨trivial, h⟩)
  · refine Gives.map (Gives.before (gives_neutral_keyword (D := Nowhere) (by decide) (by decide))
      fun _ t ht => hname.weaken fun x rest h => ⟨h.1, ht.trans h.2.behind⟩)
  · exact Gives.map (hname.weaken fun x _ h => ⟨written_ofWord h.1, h.2⟩)
  · exact Gives.map ((gives_items hself ⟨rfl, by decide⟩ ⟨rfl, by decide⟩).weaken
      fun _ _ h => ⟨Or.inr (writtenAll_iff.mpr h.1), h.2⟩)
  · refine Gives.map ((gives_brackets (G := GoodFields Written) ⟨rfl, by decide⟩ ⟨rfl, by decide⟩
      fun t ht => gives_fields fun u hu => gives_punnedField (fun v hv =>
        gives_inside hself (hv.trans_le (hu.trans ht.le)) .anything)
          fun x hx => show (var x).Written from hx).weaken fun _ _ h =>
            ⟨written_record.mpr h.1, h.2⟩)
  · refine Gives.map ((gives_brackets (G := GoodFields Written) ⟨rfl, by decide⟩ ⟨rfl, by decide⟩
      fun t ht => gives_fields fun u hu => gives_field fun v hv =>
        gives_inside hself (hv.trans_le (hu.trans ht.le)) .anything).weaken
          fun _ _ h => ⟨written_dispatch.mpr h.1, h.2⟩)

/-- A projection is written, with all the labels behind its points. -/
theorem gives_projection : Gives TooLong (Reads s) (projectionGrammar self s) := by
  refine (gives_atom hself).bind fun e t ⟨he, ht⟩ => Gives.map ?_
  refine (gives_many (I := Behind Nowhere t) (G := Label.Written) (keeps_behind fun u _ =>
    (gives_text (by decide)).before fun _ v hv => gives_written_label.weaken fun l rest h =>
      ⟨h.1, hv.trans h.2.behind⟩) (.refl _ t)).weaken fun ls rest h => ⟨?_, ht.trans h.2.1⟩
  have hfold : ∀ (ls : List Label) {e : Expr}, e.Written → (∀ l ∈ ls, Label.Written l) →
      (ls.foldl project e).Written := by
    intro ls
    induction ls with
    | nil => exact fun he _ => he
    | cons l ls ih =>
      exact fun he h => ih (he.project (h l List.mem_cons_self)) fun k hk =>
        h k (List.mem_cons_of_mem _ hk)
  exact hfold ls he h.1

omit hself in
/-- A function that is applied to one thing after another is written if they all are. -/
theorem written_foldl_apply {es : List Expr} {e : Expr} (he : e.Written) (h : ∀ f ∈ es, f.Written) :
    (es.foldl Expr.apply e).Written := by
  induction es generalizing e with
  | nil => exact he
  | cons f es ih =>
    exact ih (he.apply (h f List.mem_cons_self)) fun g hg => h g (List.mem_cons_of_mem _ hg)

omit hself in
/-- What is read on a text may be read on any text that is no longer. -/
theorem self_of_le {t : List Char} (ht : t.length ≤ s.length)
    (h : ∀ (j : Place) (t : List Char), t.length < s.length → Gives TooLong (Reads t) (self j t)) :
    ∀ (j : Place) (u : List Char), u.length < t.length → Gives TooLong (Reads u) (self j u) :=
  fun j u hu => h j u (hu.trans_le ht)

/-- An application is written. -/
theorem gives_application : Gives TooLong (Reads s) (applicationGrammar self s) := by
  refine Gives.map ((gives_many1 (I := Behind Nowhere s) (G := Written)
    (keeps_behind fun t ht => gives_projection (self_of_le ht hself)) (.refl _ s)).weaken
      fun es rest h => ?_)
  have hpast : Past Nowhere s rest := past_of_length h.2.2
  match es, h with
  | [], _ => exact ⟨⟨by simp, trivial⟩, hpast⟩
  | e :: es, h =>
    exact ⟨written_foldl_apply (h.1 e List.mem_cons_self) fun f hf => h.1 f
      (List.mem_cons_of_mem _ hf),
      hpast⟩

omit hself in
/-- Operations of one strength are written if their operands are. -/
theorem gives_infix {operand : Parser Expr} {os : List Operator}
    (h : ∀ {t : List Char}, t.length ≤ s.length → Gives TooLong (Reads t) (operand t)) :
    Gives TooLong (Reads s) (infixGrammar operand os s) := by
  refine (h le_rfl).bind fun first t ⟨hfirst, ht⟩ => Gives.map ?_
  refine (gives_many (I := Behind Nowhere t) (G := fun step : Operator × Expr => step.2.Written)
    (keeps_behind fun u hu => gives_symbol.both fun o v hv =>
      (h (hv.length_lt.le.trans (hu.trans ht.length_lt.le))).weaken fun e rest he =>
        ⟨he.1, hv.trans he.2.behind⟩) (.refl _ t)).weaken fun steps rest hsteps =>
          ⟨?_, ht.trans hsteps.2.1⟩
  have hfold : ∀ (steps : List (Operator × Expr)) {e : Expr}, e.Written →
      (∀ step ∈ steps, step.2.Written) →
        (steps.foldl (fun lhs step => Expr.binary step.1 lhs step.2) e).Written := by
    intro steps
    induction steps with
    | nil => exact fun he _ => he
    | cons step steps ih =>
      exact fun he h => ih (he.binary (h step List.mem_cons_self))
        fun k hk => h k (List.mem_cons_of_mem _ hk)
  exact hfold steps hfirst hsteps.1

/-- A sum is written. -/
theorem gives_additive : Gives TooLong (Reads s) (additiveGrammar self s) :=
  gives_infix fun ht => gives_infix fun hu => gives_application (self_of_le (hu.trans ht) hself)

omit hself in
/-- A pattern is written, and no number can stop its parse. -/
theorem gives_pattern : Gives TooLong (fun p rest => p.Written ∧ Past Nowhere s rest)
    (Pattern.grammar s) :=
  ((Pattern.gives_grammar s).halting fun _ h => h.elim).weaken
    fun _ _ h => ⟨h.1, h.2.mono fun _ _ => trivial⟩

/-- An expression behind a bound pattern is written. -/
theorem gives_let : Gives TooLong (Reads s) (letGrammar self s) := by
  refine Gives.map (Gives.both (P := fun p rest => p.Written ∧ Past Nowhere s rest)
    ((gives_neutral_keyword (D := Nowhere) (by decide) (by decide)).before fun _ t ht =>
      gives_pattern.weaken fun p rest h => ⟨h.1, ht.trans h.2.behind⟩) fun p t ⟨hp, ht⟩ => ?_)
  have hequals : Gives TooLong (fun _ rest => Past Nowhere t rest)
      (token ((Lexer.exactly ['=']).unlessBefore (· = '>')) t) :=
    (gives_lexeme (G := fun _ => True) fun u w rest hl => ⟨trivial, by
      obtain ⟨-, rfl⟩ := Lexer.exactly_eq_some (Lexer.unlessBefore_eq_some hl)
      simp⟩).weaken fun _ _ h => h.2
  refine Gives.both (P := fun e rest => e.Written ∧ Past Nowhere t rest)
    (hequals.before fun _ u hu =>
    (hself .simple u (hu.length_lt.trans ht.length_lt)).weaken fun e rest h =>
      ⟨h.1, hu.trans h.2.behind⟩) fun bound u ⟨hbound, hu⟩ => ?_
  refine (gives_text (by decide)).before fun _ v hv => ?_
  have hlt := hv.length_lt.trans (hu.length_lt.trans ht.length_lt)
  exact (hself .anything v hlt).weaken fun body rest h =>
    ⟨⟨hp, hbound, h.1⟩, ((ht.trans hu.behind).trans hv.behind).trans h.2.behind⟩

/-- What stands behind `=>` and `:` is written. -/
theorem gives_body {t : List Char} (ht : t.length < s.length) :
    Gives TooLong (Reads t) (bodyGrammar self t) := by
  refine gives_firstOf ?_
  simp only [List.forall_mem_cons, List.not_mem_nil, IsEmpty.forall_iff, implies_true, and_true]
  exact ⟨gives_let (self_of_le ht.le hself), hself .simple t ht⟩

/-- An ascription is written. -/
theorem gives_ascription : Gives TooLong (Reads s) (ascriptionGrammar self s) := by
  refine Gives.map ((((Ty.gives_grammar s).halting fun _ h => h.elim).weaken
    fun t _ h => (⟨h.1, h.2.mono fun _ _ => trivial⟩ : t.Written ∧ Past Nowhere s _)).both
      fun t u ⟨ht, hu⟩ => ?_)
  exact (gives_text (by decide)).before fun _ v hv =>
    (gives_body hself (hv.length_lt.trans hu.length_lt)).weaken fun e rest h =>
      ⟨⟨ht, h.1⟩, (hu.trans hv.behind).trans h.2.behind⟩

/-- A function is written. -/
theorem gives_lambda : Gives TooLong (Reads s) (lambdaGrammar self s) := by
  refine Gives.map (gives_pattern.both fun p u ⟨hp, hu⟩ => ?_)
  exact (gives_text (by decide)).before fun _ v hv =>
    (gives_body hself (hv.length_lt.trans hu.length_lt)).weaken fun e rest h =>
      ⟨⟨hp, h.1⟩, (hu.trans hv.behind).trans h.2.behind⟩

/-- What is no sequence is written. -/
theorem gives_simple : Gives TooLong (Reads s) (simpleGrammar self s) := by
  refine gives_firstOf ?_
  simp only [List.forall_mem_cons, List.not_mem_nil, IsEmpty.forall_iff, implies_true, and_true]
  exact ⟨gives_ascription hself, gives_lambda hself, gives_additive hself⟩

/-- **One step of the grammar keeps to what is written**, if it does on shorter texts. -/
theorem gives_anything : Gives TooLong (Reads s) (anythingGrammar self s) := by
  refine gives_firstOf ?_
  simp only [List.forall_mem_cons, List.not_mem_nil, IsEmpty.forall_iff, implies_true, and_true]
  refine ⟨gives_let hself, (gives_simple hself).bind fun first t ⟨hfirst, ht⟩ =>
    Gives.optional (Gives.map ((gives_text (by decide)).before fun _ u hu => ?_)) ⟨hfirst, ht⟩⟩
  exact (hself .anything u (hu.length_lt.trans ht.length_lt)).weaken fun e rest h =>
    ⟨⟨trivial, hfirst, h.1⟩, (ht.trans hu.behind).trans h.2.behind⟩

omit hself in
/-- **What the grammar reads is written**, and reading stops only at an integer of too many digits.
-/
theorem gives_grammar (s : List Char) : Gives TooLong (Reads s) (grammar s) := by
  refine gives_knot (P := fun _ => Reads) (fun self j s h => ?_) Place.anything s
  cases j with
  | anything => exact gives_anything h
  | simple => exact gives_simple h

omit hself in
/-- **What a text denotes is written.** -/
theorem written_of_parse {e : Expr} (h : parse s = .ok e) : e.Written :=
  (((gives_grammar s).of_whole h).choose_spec).1

omit hself in
/-- **The reading of a program stops only at an integer of too many digits.** -/
theorem tooLong_of_parse {why : Halt} (h : parse s = .error (.halted why)) : TooLong why :=
  (gives_grammar s).of_whole_halted h

end Expr

end RowLang

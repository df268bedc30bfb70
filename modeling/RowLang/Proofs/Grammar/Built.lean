import RowLang.Proofs.Expr.Forms
import RowLang.Proofs.Parser.Built

/-!
# Proofs/Grammar/Built — the grammars are built from the kit

The grammars of types, patterns and expressions are built from nothing but lexemes and the
combinators (`Expr.fromKit_grammar`).  Of all that is so built it is shown where a text is stuck
(`Parser.remainder_located`).
-/

namespace RowLang

open RowLang.Parser Grammar

/-! ## Words and fields -/

namespace Grammar

variable {R : ∀ β, Parser β → Prop} {α : Type} {p : Parser α}

/-- Identifiers are built from the kit. -/
theorem built_identifier : Built R identifier := (Built.token Lexer.Onward.run1).bind fun w => by
  split
  exacts [.fail, .pure _]

/-- So are labels. -/
theorem built_label : Built R label :=
  (Built.token (Lexer.Onward.run1.orElse Lexer.Onward.run1)).map _

/-- So are lists, if their items are. -/
theorem built_commaList (h : Built R p) : Built R (commaList p) := h.sepBy (.literal ",")

/-- So are fields, if their values are. -/
theorem built_field (h : Built R p) : Built R (field p) :=
  built_label.both ((Built.literal ":").before h)

/-- So are fields that may stand for themselves. -/
theorem built_punnedField (h : Built R p) (pun : String → α) : Built R (punnedField p pun) :=
  (built_field h).firstOf_cons (List.forall_mem_singleton.mpr (built_identifier.map _))

/-- So are rows, if their fields are. -/
theorem built_rowOf {item : Parser (Label × α)} (h : Built R item) : Built R (rowOf item) :=
  (built_commaList h).map _

end Grammar

/-! ## Types -/

namespace Ty

variable {R : ∀ β, Parser β → Prop} {self : Parser Ty}

/-- Type variables are built from the kit. -/
theorem built_variableToken : Built R variableToken :=
  (Built.token Lexer.Onward.one.unlessBefore).map _

/-- Records and variants are built from the kit and types. -/
theorem built_rowGrammar (h : Built R self) (k : RowKind) (opening closing : String) :
    Built R (rowGrammar self k opening closing) :=
  (((built_rowOf (built_field h)).both
    (((Built.literal "|").before h).optional _)).between _ _).map _

/-- Types are built from the kit and types. -/
theorem built_step (h : Built R self) : Built R (step self) := by
  have hatom : Built R (atomGrammar self) := by
    refine .firstOf ?_
    simp only [List.forall_mem_cons, List.not_mem_nil, IsEmpty.forall_iff, implies_true, and_true]
    exact ⟨(Built.keyword "N").map _, (Built.keyword "C").map _, (h.between _ _).map _,
      ((built_commaList h).between _ _).map _, built_rowGrammar h .., built_rowGrammar h ..,
      built_variableToken.map _⟩
  have hbinder (b : Binder) : Built R (binderGrammar self b) :=
    (((Built.keyword b.word).before built_variableToken).both ((Built.literal ".").before h)).map _
  refine .firstOf ?_
  simp only [List.forall_mem_cons, List.not_mem_nil, IsEmpty.forall_iff, implies_true, and_true]
  exact ⟨hbinder .forAll, hbinder .mu, hatom.bind fun arg =>
    (((Built.literal "->").before h).map _).optional arg⟩

/-- **The grammar of types is built from the kit.** -/
theorem built_grammar : Built R grammar := .knot (fun _ _ => built_step (.known (.itself ()))) ()

end Ty

/-! ## Patterns -/

namespace Pattern

variable {R : ∀ β, Parser β → Prop} {self : Parser Pattern}

/-- Patterns are built from the kit and patterns. -/
theorem built_step (h : Built R self) : Built R (step self) := by
  refine .firstOf ?_
  simp only [List.forall_mem_cons, List.not_mem_nil, IsEmpty.forall_iff, implies_true, and_true]
  exact ⟨(Built.token (Lexer.Onward.exactly _).unlessBefore).map _, built_identifier.map _,
    ((built_commaList h).between _ _).map _,
      ((built_rowOf (built_punnedField h _)).between _ _).map _⟩

/-- **The grammar of patterns is built from the kit.** -/
theorem built_grammar : Built R grammar := .knot (fun _ _ => built_step (.known (.itself ()))) ()

end Pattern

/-! ## Numbers -/

namespace Numeral

variable {R : ∀ β, Parser β → Prop}

/-- A numeral is a beginning of the text. -/
theorem splits_parts? : Splits parts? := fun s p rest h => by
  obtain ⟨sign, w, f, e, hs, -⟩ := parts?_eq h
  exact ⟨sign ++ (w ++ (f ++ e)), by simp only [hs, List.append_assoc]⟩

/-- The value of a numeral is a value, a failure or a stop. -/
theorem built_ofParts (p : Parts) : Built R (ofParts p) := by
  rw [ofParts]
  split
  · split
    exacts [.halt _, .pure _]
  · dsimp only
    split
    exacts [.pure _, .fail]

/-- A literal is its parts, and the number that they denote. -/
theorem grammar_eq :
    grammar = blanks.before (Parser.bind (fun s => .ok (parts? s).toList) ofParts) := by
  refine congrArg blanks.before (funext fun t => ?_)
  have hlist : Parser.bind (fun s => .ok (parts? s).toList) ofParts t = readOn ofParts
    (parts? t).toList := rfl
  rw [hlist]
  cases parts? t with
  | none => rfl
  | some r => exact (readOn_singleton ofParts r.1 r.2).symm

/-- Numbers are built from the kit. -/
theorem built_grammar : Built R grammar := by
  rw [grammar_eq]
  exact Built.blanks.before ((Built.lexeme splits_parts?).bind built_ofParts)

end Numeral

/-! ## Expressions -/

namespace Expr

variable {R : ∀ β, Parser β → Prop} {self : Place → Parser Expr}

/-- A choice of operators is built from the kit. -/
theorem built_symbolGrammar (os : List Operator) : Built R (symbolGrammar os) :=
  .firstOf fun p hp => by
  obtain ⟨o, -, rfl⟩ := List.mem_map.mp hp
  exact (Built.literal _).map _

/-- Operations of one strength are, if their operands are. -/
theorem built_infixGrammar {operand : Parser Expr} (h : Built R operand) (os : List Operator) :
    Built R (infixGrammar operand os) :=
  h.bind fun _ => ((built_symbolGrammar os).both h).many.map _

/-- What needs no parentheses is built from the kit and expressions. -/
theorem built_atomGrammar (h : ∀ i, Built R (self i)) : Built R (atomGrammar self) := by
  have hchoice {ps : List (Parser Expr)} (hps : ∀ p ∈ ps, Built R p) : Built R (choice ps) :=
    .choice hps
  refine .firstOf ?_
  simp only [List.forall_mem_cons, List.not_mem_nil, IsEmpty.forall_iff, implies_true, and_true]
  refine ⟨((built_symbolGrammar _).between _ _).map _,
    ((built_commaList (h _)).between _ _).map _, hchoice ?_⟩
  simp only [List.forall_mem_cons, List.not_mem_nil, IsEmpty.forall_iff, implies_true, and_true]
  exact ⟨Numeral.built_grammar.map _,
    (Built.blanks.before (.lexeme fun s c rest hl => (charLexeme_suffix s c rest hl).1)).map _,
    (Built.blanks.before (.lexeme fun s w rest hl => (textLexeme_suffix s w rest hl).1)).map _,
    (Built.token ((Lexer.Onward.exactly _).andThen Lexer.Onward.run1)).map _,
    ((Built.token ((Lexer.Onward.exactly _).unlessBefore.orElse (Lexer.Onward.exactly _))).map
      _).map _,
    ((Built.keyword "import").before built_identifier).map _, built_identifier.map _,
    ((built_commaList (h _)).between _ _).map _,
      ((built_rowOf (built_punnedField (h _) _)).between _ _).map _,
    ((built_rowOf (built_field (h _))).between _ _).map _⟩

/-- Sums are built from the kit and expressions. -/
theorem built_additiveGrammar (h : ∀ i, Built R (self i)) : Built R (additiveGrammar self) := by
  have hprojection : Built R (projectionGrammar self) :=
    (built_atomGrammar h).bind fun _ => ((Built.literal ".").before built_label).many.map _
  exact built_infixGrammar (built_infixGrammar (hprojection.many1.map _) _) _

/-- Expressions are built from the kit and expressions, at either place. -/
theorem built_step (h : ∀ i, Built R (self i)) (i : Place) : Built R (step self i) := by
  have hlet : Built R (letGrammar self) :=
    (((Built.keyword "let").before Pattern.built_grammar).both
      (((Built.token (Lexer.Onward.exactly _).unlessBefore).before (h .simple)).both
        ((Built.literal ";").before (h .anything)))).map _
  have hbody : Built R (bodyGrammar self) :=
    hlet.firstOf_cons (List.forall_mem_singleton.mpr (h .simple))
  have hsimple : Built R (simpleGrammar self) := by
    refine .firstOf ?_
    simp only [List.forall_mem_cons, List.not_mem_nil, IsEmpty.forall_iff, implies_true, and_true]
    exact ⟨(Ty.built_grammar.both ((Built.literal ":").before hbody)).map _,
      (Pattern.built_grammar.both ((Built.literal "=>").before hbody)).map _,
        built_additiveGrammar h⟩
  cases i with
  | simple => exact hsimple
  | anything =>
    exact hlet.firstOf_cons (List.forall_mem_singleton.mpr (hsimple.bind fun first =>
      (((Built.literal ";").before (h .anything)).map _).optional first))

theorem built_grammar : Built R grammar :=
  .knot (fun _ => built_step fun i => .known (.itself i)) .anything

/-- **The grammar of expressions is built from the kit.** -/
theorem fromKit_grammar : grammar.FromKit := built_grammar

end Expr

/-! ## Where a whole text is stuck -/

namespace Parser

variable {α : Type}

/-- **Where a text is stuck**: no parser of the kit leaves anything but ends of a text.  If none of
its readings is complete, the remainder is what one of them leaves behind its blanks, and none
leaves less; it stands at the offset, which lies in the text, and begins with no blank. -/
theorem remainder_located {p : Parser α} (hp : p.FromKit) (s : List Char) :
    (∀ readings, p s = .ok readings → ∀ r ∈ readings, r.2 <:+ s) ∧
    ∀ remainder offset, whole p s = .error (.stuck remainder offset) →
      offset < s.length ∧ s.drop offset = remainder ∧
      (∃ c, remainder.head? = some c ∧ Text.isBlank c = false) ∧
      ∃ readings, p s = .ok readings ∧ (∃ r ∈ readings, Text.dropBlanks r.2 = remainder) ∧
        ∀ r ∈ readings, remainder.length ≤ (Text.dropBlanks r.2).length := by
  refine ⟨fun readings hreadings r hr => ?_, fun remainder offset hstuck => ?_⟩
  · have hends := hp.onward s
    rw [hreadings] at hends
    exact hends r hr
  · obtain ⟨hlt, hdrop, hhead, hleast⟩ := hp.onward.stuck hstuck
    obtain ⟨readings, hreadings, hreading⟩ := exists_reading_of_stuck hstuck
    exact ⟨hlt, hdrop, hhead, readings, hreadings, hreading, hleast readings hreadings⟩

/-- Words that begin alike. -/
def overlapping : Parser (List (List Char)) := many (choice [literal "a", literal "ab"])

/-- Of two readings the one that gets further is blamed, and a program is stuck at a bracket too
many. -/
theorem remainder_located_of_bracket :
    overlapping.FromKit ∧ whole overlapping "ab a  c".toList = .error (.stuck ['c'] 6) ∧
      (∀ r ∈ [([['a']], "b a  c".toList), ([['a', 'b'], ['a']], "  c".toList)],
        r.2 <:+ "ab a  c".toList) ∧
    Expr.grammar.FromKit ∧ whole Expr.grammar "f (x, y)  ) z".toList = .error
      (.stuck ") z".toList 10) ∧
      "f (x, y)  ) z".toList.drop 10 = ") z".toList := by
  have hkit : overlapping.FromKit := Built.many <| .choice <| by
    simp only [List.forall_mem_cons, List.not_mem_nil, IsEmpty.forall_iff, implies_true, and_true]
    exact ⟨.literal "a", .literal "ab"⟩
  have hwords : whole overlapping "ab a  c".toList = .error (.stuck ['c'] 6) := by rfl
  have hprogram : whole Expr.grammar "f (x, y)  ) z".toList = .error (.stuck ") z".toList 10) := by
    rfl
  exact ⟨hkit, hwords, (remainder_located hkit _).1 _ (by rfl), Expr.fromKit_grammar, hprogram,
    ((remainder_located Expr.fromKit_grammar _).2 _ _ hprogram).2.1⟩

end Parser

end RowLang

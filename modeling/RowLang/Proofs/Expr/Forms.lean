import RowLang.Proofs.Expr.Layers
import RowLang.Proofs.Parser.Form

/-!
# Proofs/Expr/Forms — the grammars as data, and that reading ends

The grammars of types, patterns and expressions have forms (`Ty.form`, `Pattern.form`, `Expr.form`),
and these are descending.  So what is left of a text is an end of it (`Expr.onward_grammar`), and
every reading ends (`every_reading_ends`): each grammar is entered again on shorter texts only, and
nothing is repeated that may consume nothing.
-/

namespace RowLang

open RowLang.Parser (Form Onward Gives Consuming Descends)
open RowLang.Parser.Form

/-! ## Names, labels and fields -/

namespace Grammar

variable {ι α β : Type} {f : Form ι α β}

/-- What is left behind an identifier is an end of the text. -/
theorem onward_identifier : identifier.Onward :=
  ((Onward.toList Lexer.Onward.run).bind fun _ => Onward.toList Lexer.Onward.run1).bind fun w => by
    split
    exacts [Onward.fail, Onward.pure _]

/-- Identifiers, which ask for no grammar. -/
def identifierForm : Form ι α String := apart identifier onward_identifier fun s hs => by
  have hgives : Gives Parser.Never (fun _ _ => True) (identifier s) :=
    gives_identifier fun _ _ _ _ _ _ => trivial
  rw [hs] at hgives
  exact hgives

/-- The form of labels. -/
def labelForm : Form ι α Label :=
  (token ((Lexer.run1 Text.isLetter).orElse (Lexer.run1 Text.isAsciiDigit))
    (Lexer.Onward.run1.orElse Lexer.Onward.run1)).map String.ofList

/-- Things with commas between them, as a form. -/
def commaForm (f : Form ι α β) : Form ι α (List β) := (literal ",").sepBy f

/-- A label and a value, as a form. -/
def fieldForm (f : Form ι α β) : Form ι α (Label × β) := labelForm.both ((literal ":").before f)

/-- A field, or a name that stands for a field of its own. -/
def punnedForm (f : Form ι α β) (pun : String → β) : Form ι α (Label × β) :=
  firstOf [fieldForm f, identifierForm.map fun x => (x, pun x)]

/-- The fields of a row, as a form. -/
def fieldsForm (f : Form ι α (Label × β)) : Form ι α (Row β) := (commaForm f).map Row.ofPairs

/-- An identifier takes something of the text away. -/
theorem descending_identifier : (identifierForm : Form ι α _).Descending := by
  refine ⟨fun s readings hs r hr => ?_, trivial, trivial⟩
  have hgives : Gives Parser.Never (fun _ rest => rest.length < s.length) (identifier s) :=
    gives_identifier fun bs x rest _ hs hx => by
      have := List.length_pos_iff.mpr hx.1
      rw [hs, List.length_append, List.length_append]
      omega
  rw [hs] at hgives
  exact hgives r hr

/-- So does a label. -/
theorem descending_label : (labelForm : Form ι α _).Descending :=
  (descending_token _ (Lexer.Consuming.run1.orElse Lexer.Consuming.run1)).map _

/-- A list may be tried wherever its items may: a comma takes something away. -/
theorem repeats_comma (h : f.Repeats) : (commaForm f).Repeats :=
  h.sepBy (descending_literal (by decide))

/-- A field takes its label away before it asks for a value. -/
theorem descending_field (h : f.Repeats) : (fieldForm f).Descending :=
  descending_label.both ((descending_literal (by decide)).before h).repeats

/-- A field that may stand for itself does so too. -/
theorem descending_punned (h : f.Repeats) (pun : String → β) : (punnedForm f pun).Descending := by
  refine descending_firstOf ?_
  simp only [List.forall_mem_cons, List.not_mem_nil, IsEmpty.forall_iff, implies_true, and_true]
  exact ⟨descending_field h, descending_identifier.map _⟩

end Grammar

open Grammar

/-! ## Types -/

namespace Ty

/-- The form of type variables. -/
def variableForm : Form Unit Ty Nat :=
  (token ((Lexer.one Text.isLower).unlessBefore Text.isLetter) Lexer.Onward.one.unlessBefore).map
    fun w => (w.headD 'a').toNat - 97

/-- The form of records and of variants: fields, and perhaps a tail. -/
def rowForm (k : RowKind) (opening closing : String) : Form Unit Ty Ty :=
  (between opening
    (both (fieldsForm (fieldForm (call ()))) (optional ((literal "|").before (call ())) k.end))
      closing).map
    fun (fields, tail) => row k fields tail

/-- The form of the types that need no parentheses. -/
def atomForm : Form Unit Ty Ty :=
  firstOf [
    (keyword "N").map fun _ => number,
    (keyword "C").map fun _ => char,
    (between "[" (call ()) "]").map list,
    (between "(" (commaForm (call ())) ")").map ofItems,
    rowForm .record "\x7b" "\x7d",
    rowForm .variant "<" ">",
    variableForm.map var]

/-- The form of quantified and recursive types. -/
def binderForm (b : Binder) : Form Unit Ty Ty :=
  (both ((keyword b.word).before variableForm) ((literal ".").before (call ()))).map
    fun (n, body) => bind b n body

/-- The grammar of types. -/
def form : Form Unit Ty Ty :=
  firstOf [
    binderForm .forAll,
    binderForm .mu,
    atomForm.bind fun arg =>
      optional (((literal "->").before (call ())).map fun res => arrow arg res) arg]

/-- A row takes its opening bracket away before it asks for a type. -/
theorem descending_row (k : RowKind) {opening closing : String} (hopening : opening.toList ≠ [])
    (hclosing : closing.toList ≠ []) : (rowForm k opening closing).Descending := by
  have hfields : (fieldsForm (fieldForm (call ())) : Form Unit Ty (Row Ty)).Repeats :=
    repeats_comma (descending_field (repeats_call _)).repeats
  have htail : (optional ((literal "|").before (call ())) k.end : Form Unit Ty Ty).Repeats :=
    ((descending_literal (by decide)).before (repeats_call _)).repeats.optional _
  exact (descending_between hopening hclosing (hfields.both htail)).map _

/-- No type that needs no parentheses asks for a type where it begins. -/
theorem descending_atom : atomForm.Descending := by
  refine descending_firstOf ?_
  simp only [List.forall_mem_cons, List.not_mem_nil, IsEmpty.forall_iff, implies_true, and_true]
  exact ⟨(descending_keyword (by decide)).map _, (descending_keyword (by decide)).map _,
    (descending_between (by decide) (by decide) (repeats_call _)).map _,
    (descending_between (by decide) (by decide) (repeats_comma (repeats_call _))).map _,
    descending_row _ (by decide) (by decide), descending_row _ (by decide) (by decide),
    (descending_token _ Lexer.Consuming.one.unlessBefore).map _ |>.map _⟩

/-- **The grammar of types is that of its form**, and asks for types only on shorter texts. -/
theorem descends : Descends (fun self (_ : Unit) => step (self ())) fun _ => form := by
  refine ⟨fun _ _ => rfl, fun _ => ?_⟩
  have hvariable : variableForm.Descending :=
    (descending_token _ Lexer.Consuming.one.unlessBefore).map _
  have hpoint : ((literal ".").before (call ()) : Form Unit Ty Ty).Repeats :=
    ((descending_literal (by decide)).before (repeats_call _)).repeats
  have hbinder (b : Binder) : (binderForm b).Descending :=
    (((descending_keyword (by cases b <;> decide)).before hvariable.repeats).both hpoint).map _
  refine descending_firstOf ?_
  simp only [List.forall_mem_cons, List.not_mem_nil, IsEmpty.forall_iff, implies_true, and_true]
  exact ⟨hbinder .forAll, hbinder .mu, descending_atom.bind fun arg =>
    ((((descending_literal (by decide)).before (repeats_call _)).map _).repeats).optional arg⟩

/-- **A type leaves an end of the text.** -/
theorem onward_grammar : Onward grammar := descends.onward_knot ()

end Ty

/-! ## Patterns -/

namespace Pattern

/-- The grammar of patterns. -/
def form : Form Unit Pattern Pattern :=
  firstOf [
    (token ((Lexer.exactly ['_']).unlessBefore Text.isLetter)
      (Lexer.Onward.exactly _).unlessBefore).map
      fun _ => wildcard,
    identifierForm.map name,
    (between "(" (commaForm (call ())) ")").map ofItems,
    (between "\x7b" (fieldsForm (punnedForm (call ()) name)) "\x7d").map row]

/-- **The grammar of patterns is that of its form**, and asks for patterns only on shorter texts. -/
theorem descends : Descends (fun self (_ : Unit) => step (self ())) fun _ => form := by
  refine ⟨fun _ _ => rfl, fun _ => descending_firstOf ?_⟩
  have hfields : (fieldsForm (punnedForm (call ()) name) : Form Unit Pattern _).Repeats :=
    repeats_comma (descending_punned (repeats_call _) _).repeats
  simp only [List.forall_mem_cons, List.not_mem_nil, IsEmpty.forall_iff, implies_true, and_true]
  exact ⟨(descending_token _ (Lexer.Consuming.exactly (by decide)).unlessBefore).map _,
    descending_identifier.map _,
      (descending_between (by decide) (by decide) (repeats_comma (repeats_call _))).map _,
    (descending_between (by decide) (by decide) hfields).map _⟩

/-- **A pattern leaves an end of the text.** -/
theorem onward_grammar : Onward grammar := descends.onward_knot ()

end Pattern

/-! ## Numbers -/

namespace Numeral

/-- The value of a numeral takes nothing away. -/
theorem onward_ofParts (p : Parts) : (ofParts p).Onward := by
  rw [ofParts]
  split
  · split
    exacts [Onward.halt _, Onward.pure _]
  · dsimp only
    split
    exacts [Onward.pure _, Onward.fail]

/-- **A number leaves an end of the text.** -/
theorem onward_grammar : grammar.Onward := by
  refine (Onward.toList Lexer.Onward.run).bind fun _ s => ?_
  cases h : parts? s with
  | none => exact Parser.gives_none
  | some r =>
    obtain ⟨sign, w, f, e, hs, -⟩ := parts?_eq h
    refine (onward_ofParts r.1 r.2).weaken fun _ _ hrest =>
      hrest.trans ⟨sign ++ (w ++ (f ++ e)), ?_⟩
    simp only [hs, List.append_assoc]

end Numeral

/-! ## Expressions -/

namespace Expr

/-- A grammar that ends. -/
def apartForm {α : Type} {P : List Char → α → List Char → Prop} {E : Halt → Prop} (p : Parser α)
    (h : p.Onward) (hgives : ∀ s, Gives E (P s) (p s)) (hE : ¬ E .endless) : Form Place Expr α :=
  apart p h fun s hs => hE <| by
    have hends := hgives s
    rw [hs] at hends
    exact hends

/-- A char literal takes its quotes away. -/
theorem charLexeme_suffix (s : List Char) (c : Char) (rest : List Char)
    (h : charLexeme s = some (c, rest)) : rest <:+ s ∧ rest.length < s.length := by
  unfold charLexeme at h
  split at h
  · split at h <;> cases h
    exact ⟨⟨['\'', c, '\''], rfl⟩, by simp; omega⟩
  · cases h

/-- A text literal does so too. -/
theorem textLexeme_suffix (s w rest : List Char) (h : textLexeme s = some (w, rest)) :
    rest <:+ s ∧ rest.length < s.length := by
  unfold textLexeme at h
  split at h
  case h_1 s =>
    split at h <;> cases h
    case h_1 c hspan =>
      rw [List.span_eq_takeWhile_dropWhile, Prod.mk.injEq] at hspan
      have hsuffix : c :: rest <:+ s := hspan.2 ▸ List.dropWhile_suffix _
      exact ⟨((List.suffix_cons c rest).trans hsuffix).trans (List.suffix_cons _ _), by
        have := hsuffix.length_le
        simp only [List.length_cons] at this ⊢
        omega⟩
  case h_2 => cases h

/-- The form of a choice of operators. -/
def symbolForm (os : List Operator) : Form Place Expr Operator :=
  firstOf (os.map fun o => (literal o.spelling).map fun _ => o)

/-- The form of lexemes with a value. -/
def valuedForm {α : Type} (l : List Char → Option (α × List Char))
    (h : ∀ s x rest, l s = some (x, rest) → rest <:+ s) : Form Place Expr α :=
  blanks.before (lexeme l h)

/-- Numbers, which ask for no grammar. -/
def numeralForm : Form Place Expr Numeral :=
  apartForm Numeral.grammar Numeral.onward_grammar Numeral.gives_grammar
    (by rintro ⟨_, _, h⟩; cases h)

/-- Types, which ask for no expression. -/
def typeForm : Form Place Expr Ty := apartForm Ty.grammar Ty.onward_grammar Ty.gives_grammar id

/-- Patterns, which ask for no expression. -/
def patternForm : Form Place Expr Pattern :=
  apartForm Pattern.grammar Pattern.onward_grammar Pattern.gives_grammar id

/-- The form of the expressions that need no parentheses. -/
def atomForm : Form Place Expr Expr :=
  firstOf [
    (between "(" (symbolForm Operator.symbols) ")").map op,
    (between "(" (commaForm (call .anything)) ")").map ofItems,
    choice [
      numeralForm.map number,
      (valuedForm charLexeme fun s c rest h => (charLexeme_suffix s c rest h).1).map char,
      (valuedForm textLexeme fun s w rest h => (textLexeme_suffix s w rest h).1).map ofChars,
      (token tagLexer ((Lexer.Onward.exactly _).andThen Lexer.Onward.run1)).map
        fun w => tag (String.ofList (w.drop 1)),
      ((token (((Lexer.exactly ['#']).unlessBefore Text.isLetter).orElse (Lexer.exactly ['&']))
        ((Lexer.Onward.exactly _).unlessBefore.orElse (Lexer.Onward.exactly _))).map
          fun w => if w = ['&'] then Operator.countUp else .size).map op,
      ((keyword "import").before identifierForm).map load,
      identifierForm.map ofWord,
      (between "[" (commaForm (call .anything)) "]").map list,
      (between "\x7b" (fieldsForm (punnedForm (call .anything) var)) "\x7d").map record,
      (between "<" (fieldsForm (fieldForm (call .anything))) ">").map dispatch]]

/-- The form of projections: labels are read as long as points follow. -/
def projectionForm : Form Place Expr Expr :=
  atomForm.bind fun subject =>
    (many ((literal ".").before labelForm)).map fun labels => labels.foldl project subject

/-- The form of applications, which are grouped to the left. -/
def applicationForm : Form Place Expr Expr :=
  (many1 projectionForm).map fun
    | [] => tuple []
    | e :: es => es.foldl apply e

/-- The form of operators of one strength, which are grouped to the left. -/
def infixForm (operand : Form Place Expr Expr) (os : List Operator) : Form Place Expr Expr :=
  operand.bind fun first =>
    (many (both (symbolForm os) operand)).map fun steps =>
      steps.foldl (fun lhs step => binary step.1 lhs step.2) first

/-- The form of sums of products of applications. -/
def additiveForm : Form Place Expr Expr :=
  infixForm (infixForm applicationForm Operator.multiplicatives) Operator.additives

/-- The form of a name or pattern bound in front of an expression. -/
def letForm : Form Place Expr Expr :=
  (both ((keyword "let").before patternForm)
    (both ((token ((Lexer.exactly ['=']).unlessBefore (· = '>'))
      (Lexer.Onward.exactly _).unlessBefore).before
        (call .simple))
      ((literal ";").before (call .anything)))).map
    fun (p, bound, body) => bindIn p bound body

/-- The form of what may stand behind `=>` and `:`. -/
def bodyForm : Form Place Expr Expr := firstOf [letForm, call .simple]

/-- The form of a declared type in front of an expression. -/
def ascriptionForm : Form Place Expr Expr :=
  (both typeForm ((literal ":").before bodyForm)).map fun (t, e) => ascribe t e

/-- The form of functions. -/
def lambdaForm : Form Place Expr Expr :=
  (both patternForm ((literal "=>").before bodyForm)).map fun (p, e) => lambda p e

/-- The form of expressions without a sequence. -/
def simpleForm : Form Place Expr Expr := firstOf [ascriptionForm, lambdaForm, additiveForm]

/-- The grammar of expressions. -/
def form : Place → Form Place Expr Expr
  | .anything => firstOf [letForm, simpleForm.bind fun first =>
      optional (((literal ";").before (call .anything)).map (andThen first)) first]
  | .simple => simpleForm

/-- The form of a choice of operators denotes its grammar. -/
theorem denote_symbol (self : Place → Parser Expr) (os : List Operator) :
    (symbolForm os).denote self = symbolGrammar os := by
  induction os with
  | nil => rfl
  | cons o os ih => exact congrArg (Parser.orElse _) ih

/-- The form of operators of one strength denotes their grammar. -/
theorem denote_infix (self : Place → Parser Expr) (operand : Form Place Expr Expr)
    (os : List Operator) :
    (infixForm operand os).denote self = infixGrammar (operand.denote self) os := by
  rw [infixGrammar, ← denote_symbol self os]
  rfl

/-- The form of sums denotes their grammar. -/
theorem denote_additive
    (self : Place → Parser Expr) : additiveForm.denote self = additiveGrammar self := by
  rw [additiveForm, denote_infix, denote_infix]
  rfl

/-- The form of expressions without a sequence denotes their grammar. -/
theorem denote_simple
    (self : Place → Parser Expr) : simpleForm.denote self = simpleGrammar self := by
  rw [simpleGrammar, ← denote_additive]
  rfl

/-- **The form of expressions denotes their grammar**, at either place. -/
theorem denote_form (self : Place → Parser Expr)
    (i : Place) : (form i).denote self = step self i := by
  cases i with
  | simple => exact denote_simple self
  | anything =>
    rw [step, anythingGrammar, ← denote_simple]
    rfl

/-- An operator takes its spelling away. -/
theorem descending_symbol (os : List Operator) : (symbolForm os).Descending := by
  refine descending_firstOf fun f hf => ?_
  obtain ⟨o, -, rfl⟩ := List.mem_map.mp hf
  exact (descending_literal (by cases o <;> decide)).map _

/-- A lexeme that takes something away does so with its value as well. -/
theorem descending_valued {α : Type} {l : List Char → Option (α × List Char)}
    (h : ∀ s x rest, l s = some (x, rest) → rest <:+ s ∧ rest.length < s.length) :
    (valuedForm l fun s x rest hl => (h s x rest hl).1).Descending :=
  ⟨Or.inr fun _ s x rest hl => (h s x rest hl).2, ⟨trivial, Or.inr fun _ => trivial⟩, trivial,
    fun _ => trivial⟩

/-- A grammar that ends may be tried wherever it takes something away. -/
theorem descending_apart {α : Type} {P : List Char → α → List Char → Prop} {E : Halt → Prop}
    {p : Parser α} (h : p.Onward) (hgives : ∀ s, Gives E (P s) (p s)) (hE : ¬ E .endless)
    (hP : ∀ s x rest, P s x rest → rest.length < s.length) :
    (apartForm p h hgives hE).Descending := by
  refine ⟨fun s readings hs r hr => ?_, trivial, trivial⟩
  have hreadings := hgives s
  rw [hs] at hreadings
  exact hP s r.1 r.2 (hreadings r hr)

/-- A number takes its digits away. -/
theorem descending_numeral : numeralForm.Descending := descending_apart _ _ _ fun _ _ _ h =>
    h.2.length_lt

/-- A type takes something away. -/
theorem descending_type : typeForm.Descending := descending_apart _ _ _ fun _ _ _ h => h.2.length_lt

/-- A pattern takes something away. -/
theorem descending_pattern : patternForm.Descending := descending_apart _ _ _ fun _ _ _ h =>
    h.2.length_lt

/-- What needs no parentheses asks for expressions only behind an opening bracket. -/
theorem descending_atom : atomForm.Descending := by
  have hcomma : (commaForm (call .anything) : Form Place Expr _).Repeats :=
    repeats_comma (repeats_call _)
  have hpunned : (fieldsForm (punnedForm (call .anything) var) : Form Place Expr _).Repeats :=
    repeats_comma (descending_punned (repeats_call _) _).repeats
  have hfields : (fieldsForm (fieldForm (call .anything)) : Form Place Expr (Row Expr)).Repeats :=
    repeats_comma (descending_field (repeats_call _)).repeats
  refine descending_firstOf ?_
  simp only [List.forall_mem_cons, List.not_mem_nil, IsEmpty.forall_iff, implies_true, and_true]
  refine ⟨(descending_between (by decide) (by decide) (descending_symbol _).repeats).map _,
    (descending_between (by decide) (by decide) hcomma).map _, descending_choice ?_⟩
  simp only [List.forall_mem_cons, List.not_mem_nil, IsEmpty.forall_iff, implies_true, and_true]
  exact ⟨descending_numeral.map _, (descending_valued charLexeme_suffix).map _,
    (descending_valued textLexeme_suffix).map _,
    (descending_token _ ((Lexer.Consuming.exactly (by decide)).andThen Lexer.Onward.run1)).map _,
    ((descending_token _ ((Lexer.Consuming.exactly (by decide)).unlessBefore.orElse
      (Lexer.Consuming.exactly (by decide)))).map _).map _,
    ((descending_keyword (by decide)).before descending_identifier.repeats).map _,
    descending_identifier.map _, (descending_between (by decide) (by decide) hcomma).map _,
    (descending_between (by decide) (by decide) hpunned).map _,
    (descending_between (by decide) (by decide) hfields).map _⟩

/-- What is behind an operand is an operator and an operand. -/
theorem descending_operands {operand : Form Place Expr Expr} (h : operand.Descending)
    (os : List Operator) :
    (infixForm operand os).Descending :=
  h.bind fun _ => ((descending_symbol os).both h.repeats).repeats_many

/-- A sum asks for expressions only on shorter texts, since its operands do. -/
theorem descending_additive : additiveForm.Descending := by
  have hlabel : ((literal ".").before labelForm : Form Place Expr Label).Descending :=
    (descending_literal (by decide)).before descending_label.repeats
  have hprojection : projectionForm.Descending := descending_atom.bind fun _ => hlabel.repeats_many
  exact descending_operands (descending_operands (hprojection.many1.map _) _) _

/-- A bound pattern asks for expressions only behind `let`. -/
theorem descending_let : letForm.Descending := by
  have hbound : ((token ((Lexer.exactly ['=']).unlessBefore (· = '>'))
      (Lexer.Onward.exactly _).unlessBefore).before (call .simple) :
        Form Place Expr Expr).Repeats :=
    ((descending_token _ (Lexer.Consuming.exactly (by decide)).unlessBefore).before
      (repeats_call _)).repeats
  have hbody : ((literal ";").before (call .anything) : Form Place Expr Expr).Repeats :=
    ((descending_literal (by decide)).before (repeats_call _)).repeats
  exact (((descending_keyword (by decide)).before descending_pattern.repeats).both
    (hbound.both hbody)).map _

/-- What is no sequence asks for expressions behind a type, a pattern or an operand. -/
theorem descending_simple : simpleForm.Descending := by
  have hplain : bodyForm.Repeats := ⟨descending_let.repeats, trivial, trivial⟩
  have hbody (w : String) (hw : w.toList ≠ []) : ((literal w).before bodyForm).Repeats :=
    ((descending_literal hw).before hplain).repeats
  refine descending_firstOf ?_
  simp only [List.forall_mem_cons, List.not_mem_nil, IsEmpty.forall_iff, implies_true, and_true]
  exact ⟨(descending_type.both (hbody ":" (by decide))).map _,
    (descending_pattern.both (hbody "=>" (by decide))).map _, descending_additive⟩

/-- **The grammar of expressions is that of its form**, and asks for expressions only on shorter
texts. -/
theorem descends : Descends step form := by
  refine ⟨denote_form, fun i => ?_⟩
  cases i with
  | simple => exact descending_simple
  | anything =>
    have hsequence (first : Expr) :
        (((literal ";").before (call .anything)).map (andThen first) :
          Form Place Expr Expr).Repeats :=
      (((descending_literal (by decide)).before (repeats_call _)).map _).repeats
    refine descending_firstOf ?_
    simp only [List.forall_mem_cons, List.not_mem_nil, IsEmpty.forall_iff, implies_true, and_true]
    exact ⟨descending_let, descending_simple.bind fun first => (hsequence first).optional first⟩

/-- **An expression leaves an end of the text.** -/
theorem onward_grammar : Onward grammar := descends.onward_knot .anything

end Expr

/-! ## Every reading ends -/

/-- **Reading ends**, with each of the grammars and at each place of it, and no whole text is read
for ever. -/
theorem every_reading_ends : Parser.Ends Expr.step Expr.form ∧
    Parser.Ends (fun self (_ : Unit) => Ty.step (self ())) (fun _ => Ty.form) ∧
    Parser.Ends (fun self (_ : Unit) => Pattern.step (self ())) (fun _ => Pattern.form) ∧
    ∀ s, Expr.parse s ≠ .error (.halted .endless) ∧ Ty.parse s ≠ .error (.halted .endless) ∧
      Pattern.parse s ≠ .error (.halted .endless) :=
  ⟨Expr.descends.ends, Ty.descends.ends, Pattern.descends.ends, fun s =>
    ⟨fun h => (Expr.descends.gives_knot .anything s).of_whole_halted h rfl,
      fun h => (Ty.descends.gives_knot () s).of_whole_halted h rfl,
      fun h => (Pattern.descends.gives_knot () s).of_whole_halted h rfl⟩⟩

end RowLang

import RowLang.Expr.Numeral
import RowLang.Pattern.Grammar
import RowLang.Ty.Grammar

/-!
# Expr/Grammar — expressions from text

From the loosest form to the tightest: `let` and sequences; lambdas and ascriptions; the additive
operators, then the multiplicative ones; application by juxtaposition; atoms with projections behind
them.  The body of a lambda may be a `let`, which extends as far as it can, but a bare sequence
after a lambda belongs to the expression around it; hence the two nonterminals.
-/

namespace RowLang.Expr

open RowLang.Parser RowLang.Grammar

/-- The two places that an expression is read for. -/
inductive Place where
  /-- Any expression. -/
  | anything
  /-- Any expression but a `let` or a sequence. -/
  | simple
  deriving DecidableEq, Repr

/-! ## Lexemes -/

/-- A character between single quotes; it may not be a line break. -/
def charLexeme : List Char → Option (Char × List Char)
  | '\'' :: c :: '\'' :: rest => if c = '\n' then none else some (c, rest)
  | _ => none

/-- Characters between double quotes. -/
def textLexeme : List Char → Option (List Char × List Char)
  | '"' :: s =>
    match s.span (· ≠ '"') with
    | (w, _ :: rest) => some (w, rest)
    | (_, []) => none
  | _ => none

/-- A lexeme with a value, after any blanks. -/
def valued {α : Type} (l : List Char → Option (α × List Char)) : Parser α :=
  blanks.before fun s => .ok (l s).toList

/-- A mark with letters right behind it. -/
def tagLexer : Lexer := (Lexer.exactly ['#']).andThen (Lexer.run1 Text.isLetter)

/-- One of some operator symbols, the first that fits. -/
def symbolGrammar (os : List Operator) : Parser Operator :=
  firstOf (os.map fun o => (literal o.spelling).map fun _ => o)

/-- A leading operator symbol. -/
def leadingGrammar : Parser Operator :=
  (token (((Lexer.exactly ['#']).unlessBefore Text.isLetter).orElse (Lexer.exactly ['&']))).map
    fun w => if w = ['&'] then .countUp else .size

/-! ## Atoms and applications -/

variable (self : Place → Parser Expr)

/-- An expression that needs no parentheses. -/
def atomGrammar : Parser Expr :=
  firstOf [
    (between "(" (symbolGrammar Operator.symbols) ")").map op,
    (between "(" (commaList (self .anything)) ")").map ofItems,
    choice [
      Numeral.grammar.map number,
      (valued charLexeme).map char,
      (valued textLexeme).map ofChars,
      (token tagLexer).map fun w => tag (String.ofList (w.drop 1)),
      leadingGrammar.map op,
      ((keyword "import").before identifier).map load,
      identifier.map ofWord,
      (between "[" (commaList (self .anything)) "]").map list,
      (between "\x7b" (rowOf (punnedField (self .anything) var)) "\x7d").map record,
      (between "<" (rowOf (field (self .anything))) ">").map dispatch]]

/-- An atom with any number of projections behind it. -/
def projectionGrammar : Parser Expr :=
  (atomGrammar self).bind fun subject =>
    (many ((literal ".").before label)).map fun labels => labels.foldl project subject

/-- One or more expressions side by side, each applied to the next. -/
def applicationGrammar : Parser Expr :=
  (many1 (projectionGrammar self)).map fun
    | [] => tuple []
    | e :: es => es.foldl apply e

/-! ## Operators -/

/-- Operands with infix operators between them, grouped to the left. -/
def infixGrammar (operand : Parser Expr) (os : List Operator) : Parser Expr :=
  operand.bind fun first =>
    (many (both (symbolGrammar os) operand)).map fun steps =>
      steps.foldl (fun lhs step => binary step.1 lhs step.2) first

/-- Operands with multiplicative operators. -/
def multiplicativeGrammar : Parser Expr :=
  infixGrammar (applicationGrammar self) Operator.multiplicatives

/-- Operands with additive operators. -/
def additiveGrammar : Parser Expr :=
  infixGrammar (multiplicativeGrammar self) Operator.additives

/-! ## Bindings -/

/-- `let p = e; f`. -/
def letGrammar : Parser Expr :=
  (both ((keyword "let").before Pattern.grammar)
    (both ((token ((Lexer.exactly ['=']).unlessBefore (· = '>'))).before (self .simple))
      ((literal ";").before (self .anything)))).map
    fun (p, bound, body) => bindIn p bound body

/-- The body of a lambda or an ascription. -/
def bodyGrammar : Parser Expr := firstOf [letGrammar self, self .simple]

/-- `T : e`. -/
def ascriptionGrammar : Parser Expr :=
  (both Ty.grammar ((literal ":").before (bodyGrammar self))).map fun (t, e) => ascribe t e

/-- `p => e`. -/
def lambdaGrammar : Parser Expr :=
  (both Pattern.grammar ((literal "=>").before (bodyGrammar self))).map fun (p, e) => lambda p e

/-- An expression that is no `let` and no sequence. -/
def simpleGrammar : Parser Expr :=
  firstOf [ascriptionGrammar self, lambdaGrammar self, additiveGrammar self]

/-- Any expression. -/
def anythingGrammar : Parser Expr :=
  firstOf [
    letGrammar self,
    (simpleGrammar self).bind fun first =>
      optional (((literal ";").before (self .anything)).map (andThen first)) first]

/-- The grammar with its parts read by `self`. -/
def step : Place → Parser Expr
  | .anything => anythingGrammar self
  | .simple => simpleGrammar self

/-- The grammar of expressions. -/
def grammar : Parser Expr := knot step .anything

/-- The expression that a whole text denotes. -/
def parse (s : List Char) : Except ParseError Expr := whole grammar s

end RowLang.Expr

import RowLang.Grammar.Word
import RowLang.Parser.Basic
import RowLang.Parser.Whole
import RowLang.Ty.Printer

/-!
# Ty/Grammar — types from text

Binders extend as far as they can, arrows associate to the right, a list in parentheses is a tuple
unless it holds one type, and rows may end in `|` and a tail.  Variables are single lower-case
letters with the numbers 0 to 25.
-/

namespace RowLang.Ty

open RowLang.Parser RowLang.Grammar

/-- A variable: a lower-case letter with no letter behind it. -/
def variableToken : Parser Nat :=
  (token ((Lexer.one Text.isLower).unlessBefore Text.isLetter)).map fun w =>
    (w.headD 'a').toNat - 97

/-- One type in parentheses is that type; otherwise they are a tuple. -/
def ofItems : List Ty → Ty
  | [t] => t
  | ts => closedRecord (Row.positional ts)

/-- A row of fields between brackets, with an optional tail. -/
def rowGrammar (self : Parser Ty) (k : RowKind) (opening closing : String) : Parser Ty :=
  (between opening
    (both (rowOf (field self)) (optional ((literal "|").before self) k.end)) closing).map
    fun (fields, tail) => row k fields tail

/-- A type that needs no parentheses. -/
def atomGrammar (self : Parser Ty) : Parser Ty :=
  firstOf [
    (keyword "N").map fun _ => number,
    (keyword "C").map fun _ => char,
    (between "[" self "]").map list,
    (between "(" (commaList self) ")").map ofItems,
    rowGrammar self .record "\x7b" "\x7d",
    rowGrammar self .variant "<" ">",
    variableToken.map var]

/-- A binder, its variable, a point and its body. -/
def binderGrammar (self : Parser Ty) (b : Binder) : Parser Ty :=
  (both ((keyword b.word).before variableToken) ((literal ".").before self)).map
    fun (n, body) => bind b n body

/-- A type whose parts are read by `self`. -/
def step (self : Parser Ty) : Parser Ty :=
  firstOf [
    binderGrammar self .forAll,
    binderGrammar self .mu,
    (atomGrammar self).bind fun arg =>
      optional (((literal "->").before self).map fun res => arrow arg res) arg]

/-- The grammar of types. -/
def grammar : Parser Ty := knot (fun self (_ : Unit) => step (self ())) ()

/-- The type that a whole text denotes. -/
def parse (s : List Char) : Except ParseError Ty := whole grammar s

end RowLang.Ty

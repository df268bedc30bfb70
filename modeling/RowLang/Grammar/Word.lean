import RowLang.Parser.Basic
import RowLang.Parser.Token
import RowLang.Row.Basic

/-!
# Grammar/Word — names, labels and lists of fields

The pieces that the grammars of types, patterns and expressions share.  Identifiers are ASCII
letters and not reserved; labels are letters or ASCII digits.
-/

namespace RowLang.Grammar

open RowLang.Parser

/-- The words that are no identifiers. -/
def reserved : List String := ["let", "import", "forall", "mu"]

/-- A name. -/
def identifier : Parser String :=
  (token (Lexer.run1 Text.isLetter)).bind fun w =>
    if reserved.contains (String.ofList w) then fail else Parser.pure (String.ofList w)

/-- The label of a field. -/
def label : Parser Label :=
  (token ((Lexer.run1 Text.isLetter).orElse (Lexer.run1 Text.isAsciiDigit))).map String.ofList

/-- Any number of `p`, with commas between them. -/
def commaList {α : Type} (p : Parser α) : Parser (List α) := sepBy (literal ",") p

/-- A label, a colon and a value. -/
def field {α : Type} (value : Parser α) : Parser (Label × α) :=
  both label ((literal ":").before value)

/-- A field; a name alone stands for the field of that name with the value `pun` makes of it. -/
def punnedField {α : Type} (value : Parser α) (pun : String → α) : Parser (Label × α) :=
  firstOf [field value, identifier.map fun x => (x, pun x)]

/-- Fields with commas between them, as a row. -/
def rowOf {α : Type} (item : Parser (Label × α)) : Parser (Row α) :=
  (commaList item).map Row.ofPairs

end RowLang.Grammar

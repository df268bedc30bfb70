import RowLang.Grammar.Word
import RowLang.Parser.Basic
import RowLang.Parser.Whole
import RowLang.Pattern.Basic

/-!
# Pattern/Grammar — patterns from text

A name, `_`, patterns in parentheses (a tuple, unless it is one), or fields in braces, where a name
alone stands for the field of that name bound to it.
-/

namespace RowLang.Pattern

open RowLang.Parser RowLang.Grammar

/-- One pattern in parentheses is that pattern; otherwise they are a tuple. -/
def ofItems : List Pattern → Pattern
  | [p] => p
  | ps => row (Row.positional ps)

/-- A pattern whose parts are read by `self`. -/
def step (self : Parser Pattern) : Parser Pattern :=
  firstOf [
    (token ((Lexer.exactly ['_']).unlessBefore Text.isLetter)).map fun _ => wildcard,
    identifier.map name,
    (between "(" (commaList self) ")").map ofItems,
    (between "\x7b" (rowOf (punnedField self name)) "\x7d").map row]

/-- The grammar of patterns. -/
def grammar : Parser Pattern := knot (fun self (_ : Unit) => step (self ())) ()

/-- The pattern that a whole text denotes. -/
def parse (s : List Char) : Except ParseError Pattern := whole grammar s

end RowLang.Pattern

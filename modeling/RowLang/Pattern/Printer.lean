import RowLang.Pattern.Basic
import RowLang.Row.Order
import RowLang.Ty.Printer

/-!
# Pattern/Printer — patterns as text

Rows of positions are written as tuples, unless there is exactly one; all others in braces.
-/

namespace RowLang.Pattern

mutual

/-- A pattern as text. -/
def chars : Pattern → List Char
  | name x => x.toList
  | wildcard => ['_']
  | row fields =>
    let texts := fieldChars fields
    if Row.isPositional fields && fields.length ≠ 1 then
      parenthesize true (commaSeparated (Row.sortedValues texts))
    else '{' :: commaSeparated (texts.map labelled) ++ ['}']

/-- The fields as texts, in the order of the row. -/
def fieldChars : List (Label × Pattern) → Row (List Char)
  | [] => []
  | (l, p) :: fields => (l, chars p) :: fieldChars fields

end

/-- A pattern as a string. -/
def text (p : Pattern) : String := String.ofList p.chars

end RowLang.Pattern

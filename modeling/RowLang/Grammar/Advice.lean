import RowLang.Text.Class

/-!
# Grammar/Advice — what to tell about text that cannot be read

The advice depends on what the reader got stuck at.  The first rule that fits the remainder speaks.
-/

namespace RowLang.Grammar

/-- A trouble that a reader gets stuck at. -/
inductive Trouble where
  | closingParenthesis
  | closingBracket
  | fatArrow
  | equals
  | lastSemicolon
  | arrow
  | operator
  | colon
  deriving DecidableEq, Repr

/-- What is advised. -/
def Trouble.advice : Trouble → String
  | closingParenthesis => "There seems to be a closing parenthesis without a matching opener."
  | closingBracket =>
    "A bracket closes here that was not opened, or was opened as a different kind."
  | fatArrow =>
    "The left side of `=>` must be a pattern: a name, `_`, a tuple, or a record of patterns."
  | equals => "Only `let` binds a name with `=`. Write `let x = value; body`."
  | lastSemicolon => "Sequencing needs an expression after the semicolon."
  | arrow => "Arrows belong in types. Functions are written `pattern => body`."
  | operator => "An infix operator needs an operand on each side."
  | colon => "A type ascription reads `type : expression`, and the type must come first."

/-- The trouble that a remainder begins with. -/
def trouble? : List Char → Option Trouble
  | [] => none
  | ')' :: _ => some .closingParenthesis
  | '=' :: '>' :: _ => some .fatArrow
  | '=' :: _ => some .equals
  | '-' :: '>' :: _ => some .arrow
  | ';' :: s => if s.all Text.isBlank then some .lastSemicolon else none
  | ':' :: _ => some .colon
  | c :: _ =>
    if [']', '}', '>'].contains c then some .closingBracket
    else if ['-', '+', '*', '/', '%'].contains c then some .operator
    else none

/-- The hint for a remainder, if there is one. -/
def hint? (remainder : List Char) : Option String :=
  (trouble? remainder).map fun t => "Here's my best guess:\n\t" ++ t.advice

end RowLang.Grammar

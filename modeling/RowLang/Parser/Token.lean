import RowLang.Parser.Basic
import RowLang.Text.Class

/-!
# Parser/Token — lexemes

A lexeme is recognised at the very start of the text (`sat`), or after any blanks (`token`).  A
`Lexer` splits the lexeme off, if there is one.
-/

namespace RowLang

/-- Splits a lexeme off the front of a text. -/
abbrev Lexer := List Char → Option (List Char × List Char)

namespace Lexer

/-- The longest run of characters of a class, which may be empty. -/
def run (p : Char → Bool) : Lexer := fun s => some (s.span p)

/-- The longest run of characters of a class that is not empty. -/
def run1 (p : Char → Bool) : Lexer
  | [] => none
  | c :: s => if p c then some ((c :: s).span p) else none

/-- One character of a class. -/
def one (p : Char → Bool) : Lexer
  | [] => none
  | c :: s => if p c then some ([c], s) else none

/-- A given text. -/
def exactly (w : List Char) : Lexer := fun s => (w.isPrefixOf? s).map fun rest => (w, rest)

/-- A lexeme, unless a character of a class follows. -/
def unlessBefore (l : Lexer) (p : Char → Bool) : Lexer := fun s => do
  let (w, rest) ← l s
  if rest.head?.any p then none else some (w, rest)

/-- The first of two lexemes that is there. -/
def orElse (l m : Lexer) : Lexer := fun s => (l s).orElse fun _ => m s

/-- Two lexemes side by side. -/
def andThen (l m : Lexer) : Lexer := fun s => do
  let (v, s) ← l s
  let (w, s) ← m s
  return (v ++ w, s)

/-- A lexeme, or nothing. -/
def optional (l : Lexer) : Lexer := fun s => some ((l s).getD ([], s))

end Lexer

namespace Parser

variable {α : Type}

/-- A lexeme at the very start of the text. -/
def sat (l : Lexer) : Parser (List Char) := fun s => .ok (l s).toList

/-- Any blanks. -/
def blanks : Parser (List Char) := sat (Lexer.run Text.isBlank)

/-- A lexeme after any blanks. -/
def token (l : Lexer) : Parser (List Char) := blanks.before (sat l)

/-- A given text after any blanks. -/
def literal (w : String) : Parser (List Char) := token (Lexer.exactly w.toList)

/-- A given word after any blanks; no letter follows it. -/
def keyword (w : String) : Parser (List Char) :=
  token ((Lexer.exactly w.toList).unlessBefore Text.isLetter)

/-- `p` between an opening and a closing text. -/
def between (opening : String) (p : Parser α) (closing : String) : Parser α :=
  ((literal opening).before p).endedBy (literal closing)

end Parser

end RowLang

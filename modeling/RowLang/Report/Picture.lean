import RowLang.Decimal.Integer
import RowLang.Text.Class

/-!
# Report/Picture — a line of source with the trouble underlined

A picture says what to show: a text, where in it the trouble begins, how wide it is, and a caption.
It is drawn by an illustrator, which finds the line of an offset and underlines a part of it.  The
illustrator at hand (`Illustrator.byLines`) ends lines at a return, a line feed, or both together.
-/

namespace RowLang

namespace Text

/-- The lines of a text, each with its line break. -/
def linesFrom : List Char → List Char → List (List Char)
  | acc, [] => if acc.isEmpty then [] else [acc.reverse]
  | acc, '\r' :: '\n' :: s => ('\n' :: '\r' :: acc).reverse :: linesFrom [] s
  | acc, '\r' :: s => ('\r' :: acc).reverse :: linesFrom [] s
  | acc, '\n' :: s => ('\n' :: acc).reverse :: linesFrom [] s
  | acc, c :: s => linesFrom (c :: acc) s

/-- The lines of a text, each with its line break. -/
def lines (s : List Char) : List (List Char) := linesFrom [] s

end Text

/-- What draws pictures. -/
structure Illustrator where
  /-- The row and the column of an offset in a text. -/
  findRowCol (source : List Char) (offset : Nat) : Nat × Nat
  /-- A row of a text. -/
  lineOfText (source : List Char) (row : Nat) : List Char
  /-- A line behind a front, with `width` of it underlined from a column on, over a caption. -/
  illustration (line : List Char) (column width : Nat) (front caption : List Char) : List Char

namespace Illustrator

/-- The number of the line that holds an offset, and the column in it, counting lines from `row`. -/
def locate : Nat → List (List Char) → Nat → Nat × Nat
  | row, [], offset => (row, offset)
  | row, line :: lines, offset =>
    if offset < line.length then (row, offset) else locate (row + 1) lines (offset - line.length)

/-- What stands under a character before the trouble: a tab under a tab, else a space. -/
def under (c : Char) : Char := if c = '\t' then '\t' else ' '

/-- The number of carets: no more than the line has characters left, but at least one. -/
def carets (line : List Char) (column width : Nat) : Nat := max 1 (min width (line.length - column))

/-- The line, and below it the carets and the caption. -/
def underlined (line : List Char) (column width : Nat) (front caption : List Char) : List Char :=
  front ++ Text.dropBlanksRight line ++ '\n' ::
    (front ++ line.take column).map under ++ List.replicate (carets line column width) '^' ++
      ' ' :: caption

/-- **The illustrator at hand.** -/
def byLines : Illustrator where
  findRowCol source offset := locate 1 (Text.lines source) offset
  lineOfText source row := (Text.lines source)[row - 1]?.getD []
  illustration := underlined

end Illustrator

/-- A part of a source text that is in trouble. -/
structure Picture where
  source : List Char
  offset : Nat
  width : Nat
  caption : List Char
  deriving DecidableEq, Repr, Inhabited

namespace Picture

/-- How far to underline: up to the next blank, but at least one character. -/
def underline (s : List Char) (offset : Nat) : Nat :=
  max 1 ((s.drop offset).takeWhile fun c => !Text.isBlank c).length

/-- The picture of an offset in a text. -/
def ofOffset (s : List Char) (offset : Nat) : Picture :=
  ⟨s, offset, underline s offset, "Stuck here".toList⟩

/-- The number of a row behind a blank, with room for five digits, before the margin. -/
def margin (row : Nat) : List Char :=
  let cs := Decimal.natChars row
  ' ' :: List.replicate (5 - cs.length) ' ' ++ cs ++ [' ', '|']

/-- The picture as it is drawn. -/
def chars (draw : Illustrator) (p : Picture) : List Char :=
  let place := draw.findRowCol p.source p.offset
  draw.illustration (draw.lineOfText p.source place.1) place.2 p.width (margin place.1) p.caption

end Picture

end RowLang

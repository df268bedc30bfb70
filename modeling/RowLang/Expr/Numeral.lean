import RowLang.Expr.Basic
import RowLang.Parser.Token

/-!
# Expr/Numeral — number literals

An optional minus sign, a whole part without idle zeros, then perhaps a fraction and an exponent.
After the first digit the digits may be those of any script.  With a fraction or an exponent the
literal is a real, and one beyond the greatest real is not read at all; otherwise it is an integer,
and one of too many digits stops the parse.
-/

namespace RowLang.Numeral

open RowLang.Parser

/-- The parts of a number literal. -/
structure Parts where
  negative : Bool
  whole : List Char
  fraction : Option (List Char)
  exponent : Option (Bool × List Char)

/-- A run of digits of any script. -/
def digits1 : Lexer := Lexer.run1 Text.isDecimal

/-- A lone zero, or digits of which the first is an ASCII digit other than zero. -/
def wholePart : Lexer
  | [] => none
  | c :: s =>
    if c = '0' then some (['0'], s)
    else if '1' ≤ c && c ≤ '9' then
      let (w, rest) := s.span Text.isDecimal
      some (c :: w, rest)
    else none

/-- A point and digits, if they are there. -/
def fractionPart : List Char → Option (List Char) × List Char
  | '.' :: s =>
    match digits1 s with
    | some (w, rest) => (some w, rest)
    | none => (none, '.' :: s)
  | s => (none, s)

/-- An exponent, if it is there: `e` or `E`, perhaps a sign, and digits. -/
def exponentPart (s : List Char) : Option (Bool × List Char) × List Char :=
  match s with
  | c :: after =>
    if c = 'e' || c = 'E' then
      let (negative, unsigned) := match after with
        | '-' :: t => (true, t)
        | '+' :: t => (false, t)
        | t => (false, t)
      match digits1 unsigned with
      | some (w, rest) => (some (negative, w), rest)
      | none => (none, s)
    else (none, s)
  | [] => (none, [])

/-- The parts of the literal at the start of a text, and what is left. -/
def parts? (s : List Char) : Option (Parts × List Char) := do
  let (negative, unsigned) := match s with
    | '-' :: t => (true, t)
    | t => (false, t)
  let (whole, s) ← wholePart unsigned
  let (fraction, s) := fractionPart s
  let (exponent, s) := exponentPart s
  return (⟨negative, whole, fraction, exponent⟩, s)

/-- The real that a literal with a fraction or an exponent denotes. -/
def realOfParts (p : Parts) : Binary64 :=
  let fraction := p.fraction.getD []
  let exponent : Int := match p.exponent with
    | none => 0
    | some (negative, w) =>
      if negative then -(Decimal.natOfDigits w : Int) else Decimal.natOfDigits w
  Binary64.ofDecimal p.negative (Decimal.natOfDigits (p.whole ++ fraction))
    (exponent - fraction.length)

/-- The number that the parts denote. -/
def ofParts (p : Parts) : Parser Numeral :=
  if p.fraction.isNone && p.exponent.isNone then
    if Decimal.digitLimit < p.whole.length then halt (.fault (.numeralTooLong p.whole.length))
    else
      let n : Int := Decimal.natOfDigits p.whole
      Parser.pure (int (if p.negative then -n else n))
  else
    let x := realOfParts p
    if x.isFinite then Parser.pure (real x) else fail

/-- A number literal after any blanks. -/
def grammar : Parser Numeral :=
  blanks.before fun s =>
    match parts? s with
    | none => .ok []
    | some (p, rest) => ofParts p rest

end RowLang.Numeral

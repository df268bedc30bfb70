import RowLang.Text.Printable

/-!
# Text/Quoted — a text between quotes

Single quotes are used unless the text holds single quotes and no double ones.  The quote in use and
the backslash are escaped, tab, newline and return have letters of their own, and every other
character that is not printable is written by its number.  Texts are given by their code points,
since a text may hold lone surrogates; their quoted form never does.
-/

namespace RowLang.Text

/-- A hexadecimal digit. -/
def hexDigit (n : Nat) : Char := Nat.digitChar n

/-- The last `width` hexadecimal digits of a number. -/
def hexChars : Nat → Nat → List Char
  | 0, _ => []
  | width + 1, n => hexChars width (n / 16) ++ [hexDigit (n % 16)]

/-- One code point between quotes of a kind. -/
def quotedChar (quote : Char) (n : Nat) : List Char :=
  if n = quote.toNat then ['\\', quote]
  else if n = 0x5c then ['\\', '\\']
  else if n = 9 then ['\\', 't']
  else if n = 10 then ['\\', 'n']
  else if n = 13 then ['\\', 'r']
  else if isPrintable n then [Char.ofNat n]
  else if n < 0x100 then '\\' :: 'x' :: hexChars 2 n
  else if n < 0x10000 then '\\' :: 'u' :: hexChars 4 n
  else '\\' :: 'U' :: hexChars 8 n

/-- A text between quotes. -/
def quotedCodes (codes : List Nat) : List Char :=
  let quote := if codes.contains 0x27 && !codes.contains 0x22 then '"' else '\''
  quote :: codes.flatMap (quotedChar quote) ++ [quote]

/-- The first 200 characters of a text between quotes. -/
def quotedBriefly (codes : List Nat) : String := String.ofList ((quotedCodes codes).take 200)

/-- A text of characters between quotes. -/
def quoted (s : String) : String := String.ofList (quotedCodes (s.toList.map Char.toNat))

end RowLang.Text

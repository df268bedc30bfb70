/-!
# Text/Class — classes of characters

The classes of characters that the grammars and the printers tell apart: blanks, and digits of every
script.
-/

namespace RowLang.Text

/-!
## Sets of code points given as intervals

A character class of a standard is a list of closed intervals in increasing order; `Range.covers`
asks whether a code point lies in one of them.
-/

/-- A class of code points, as closed intervals. -/
abbrev Ranges := List (Nat × Nat)

/-- A code point belongs to a class when one of its intervals holds it. -/
def Ranges.covers (rs : Ranges) (n : Nat) : Bool :=
  rs.any fun r => r.1 ≤ n && n ≤ r.2

theorem Ranges.covers_iff {rs : Ranges} {n : Nat} :
    rs.covers n = true ↔ ∃ r ∈ rs, r.1 ≤ n ∧ n ≤ r.2 := by
  simp [Ranges.covers]

/-!
## The characters that separate words

`isBlank` holds of the 29 characters of Unicode white space and of the four information separators
U+001C to U+001F.  It is the class that a parser skips and that an underline stops at.  Zero-width
characters (U+200B, U+FEFF) are not blank.
-/

/-- The blank characters, in order. -/
def blanks : Ranges :=
  [(0x9, 0xd), (0x1c, 0x20), (0x85, 0x85), (0xa0, 0xa0), (0x1680, 0x1680), (0x2000, 0x200a),
   (0x2028, 0x2029), (0x202f, 0x202f), (0x205f, 0x205f), (0x3000, 0x3000)]

/-- White space and the information separators. -/
def isBlank (c : Char) : Bool := blanks.covers c.toNat

/-- The text from its first character that is not blank. -/
def dropBlanks (s : List Char) : List Char := s.dropWhile isBlank

/-- The text without the blanks at its end. -/
def dropBlanksRight (s : List Char) : List Char := (s.reverse.dropWhile isBlank).reverse

theorem dropBlanks_suffix (s : List Char) : dropBlanks s <:+ s := List.dropWhile_suffix _

theorem dropBlanks_length_le (s : List Char) : (dropBlanks s).length ≤ s.length :=
  (dropBlanks_suffix s).length_le

/-!
## Decimal digits of every script

The decimal digits of a script are ten consecutive code points, so the class is given by its zeros;
`digitValue?` reads one.  `isDigitLike` holds moreover of the digits that stand in no decimal system
(superscripts, circled digits): they look like a number but denote none.
-/

/-- The code points of the zeros of the decimal scripts. -/
def decimalZeros : List Nat :=
  [0x30, 0x660, 0x6f0, 0x7c0, 0x966, 0x9e6, 0xa66, 0xae6, 0xb66, 0xbe6, 0xc66, 0xce6, 0xd66,
   0xde6, 0xe50, 0xed0, 0xf20, 0x1040, 0x1090, 0x17e0, 0x1810, 0x1946, 0x19d0, 0x1a80, 0x1a90,
   0x1b50, 0x1bb0, 0x1c40, 0x1c50, 0xa620, 0xa8d0, 0xa900, 0xa9d0, 0xa9f0, 0xaa50, 0xabf0,
   0xff10, 0x104a0, 0x10d30, 0x11066, 0x110f0, 0x11136, 0x111d0, 0x112f0, 0x11450, 0x114d0,
   0x11650, 0x116c0, 0x11730, 0x118e0, 0x11950, 0x11c50, 0x11d50, 0x11da0, 0x16a60, 0x16ac0,
   0x16b50, 0x1d7ce, 0x1d7d8, 0x1d7e2, 0x1d7ec, 0x1d7f6, 0x1e140, 0x1e2f0, 0x1e950, 0x1fbf0]

/-- The value of a decimal digit. -/
def digitValue? (c : Char) : Option Nat :=
  (decimalZeros.find? fun z => z ≤ c.toNat && c.toNat ≤ z + 9).map (c.toNat - ·)

/-- A decimal digit of some script. -/
def isDecimal (c : Char) : Bool := (digitValue? c).isSome

/-- The digits outside any decimal system. -/
def strayDigits : Ranges :=
  [(0xb2, 0xb3), (0xb9, 0xb9), (0x1369, 0x1371), (0x19da, 0x19da), (0x2070, 0x2070),
   (0x2074, 0x2079), (0x2080, 0x2089), (0x2460, 0x2468), (0x2474, 0x247c), (0x2488, 0x2490),
   (0x24ea, 0x24ea), (0x24f5, 0x24fd), (0x24ff, 0x24ff), (0x2776, 0x277e), (0x2780, 0x2788),
   (0x278a, 0x2792), (0x10a40, 0x10a43), (0x10e60, 0x10e68), (0x11052, 0x1105a),
   (0x1f100, 0x1f10a)]

/-- A digit, whether it has a decimal value or not. -/
def isDigitLike (c : Char) : Bool := isDecimal c || strayDigits.covers c.toNat

/-- An ASCII digit. -/
def isAsciiDigit (c : Char) : Bool := '0' ≤ c && c ≤ '9'

/-- An ASCII letter. -/
def isLetter (c : Char) : Bool := ('a' ≤ c && c ≤ 'z') || ('A' ≤ c && c ≤ 'Z')

/-- A lower-case ASCII letter. -/
def isLower (c : Char) : Bool := 'a' ≤ c && c ≤ 'z'

end RowLang.Text

/-!
# Text/Directive — places to fill in

A format text is read up to its next directive: a percent sign, perhaps a key in parentheses, flags,
a width, a precision, a length mark without meaning, and the conversion.  Texts are lists of code
points.
-/

namespace RowLang.Text

/-- A width or a precision. -/
inductive Extent where
  | unset
  /-- It is taken from the arguments. -/
  | star
  | size (n : Nat)
  | excessive
  deriving DecidableEq, Repr, Inhabited

/-- A key in parentheses. -/
inductive Key where
  | none
  | unfinished
  | named (codes : List Nat)
  deriving DecidableEq, Repr, Inhabited

/-- A place to fill in; without a conversion it is unfinished. -/
structure Directive where
  key : Key
  leftAligned : Bool
  signed : Bool
  spaced : Bool
  alternate : Bool
  zeroPadded : Bool
  width : Extent
  precision : Extent
  conversion : Option Nat
  deriving DecidableEq, Repr, Inhabited

namespace Directive

/-- The text up to the parenthesis that closes `depth` open ones, and what is behind it. -/
def closeKey : Nat → List Nat → Option (List Nat × List Nat)
  | _, [] => none
  | depth, c :: s =>
    if c = 0x29 then
      if depth ≤ 1 then some ([], s)
      else (closeKey (depth - 1) s).map fun r => (c :: r.1, r.2)
    else if c = 0x28 then (closeKey (depth + 1) s).map fun r => (c :: r.1, r.2)
    else (closeKey depth s).map fun r => (c :: r.1, r.2)

/-- The key at the start of a text. -/
def readKey : List Nat → Key × List Nat
  | 0x28 :: s =>
    match closeKey 1 s with
    | some (codes, rest) => (.named codes, rest)
    | none => (.unfinished, [])
  | s => (.none, s)

/-- A flag character. -/
def isFlag (c : Nat) : Bool := [0x2d, 0x2b, 0x20, 0x23, 0x30].contains c

/-- A decimal digit. -/
def isDigit (c : Nat) : Bool := 0x30 ≤ c && c ≤ 0x39

/-- Digits as a size, up to a greatest one; `none` when it is exceeded. -/
def readDigits (bound : Nat) : Nat → List Nat → Option Nat
  | n, [] => some n
  | n, c :: s =>
    let n := 10 * n + (c - 0x30)
    if bound < n then none else readDigits bound n s

/-- A star or digits, if they are there. -/
def readExtent (bound : Nat) : List Nat → Option Extent × List Nat
  | 0x2a :: s => (some .star, s)
  | s =>
    let digits := s.takeWhile isDigit
    if digits.isEmpty then (none, s)
    else
      (some (match readDigits bound 0 digits with
        | some n => .size n
        | none => .excessive), s.dropWhile isDigit)

/-- A precision behind a point, if it is there; a point alone means none at all. -/
def readPrecision : List Nat → Extent × List Nat
  | 0x2e :: s =>
    let (e, rest) := readExtent 0x7fffffff s
    (e.getD (.size 0), rest)
  | s => (.unset, s)

/-- One length mark without meaning. -/
def skipLength : List Nat → List Nat
  | c :: s => if [0x68, 0x6c, 0x4c].contains c then s else c :: s
  | [] => []

/-- The directive behind a percent sign, and what is behind it. -/
def read (s : List Nat) : Directive × List Nat :=
  let (key, s) := readKey s
  let flags := s.takeWhile isFlag
  let s := s.dropWhile isFlag
  let (width, s) := readExtent 0x7fffffffffffffff s
  let (precision, s) := readPrecision s
  let s := skipLength s
  ({ key := key
     leftAligned := flags.contains 0x2d
     signed := flags.contains 0x2b
     spaced := flags.contains 0x20
     alternate := flags.contains 0x23
     zeroPadded := flags.contains 0x30
     width := width.getD .unset
     precision := precision
     conversion := s.head? }, s.drop 1)

end Directive

end RowLang.Text

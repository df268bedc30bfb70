import RowLang.Binary64.Decimal

/-!
# Binary64/Places — reals with a given number of digits

Three ways to write a finite real with a chosen precision: a number of places behind the point, an
exponent with a number of places in its mantissa, or a number of significant digits in the shorter
of the two.  The exact value is rounded, a half to the even digit.
-/

namespace RowLang.Binary64

open RowLang.Decimal (tenTo)

/-- The size of a finite real as a quotient. -/
def magnitude : Binary64 → Nat × Nat
  | .finite _ m e => scale m 1 (-e)
  | _ => (0, 1)

/-- Digits with a point before the last `places`; `pointed` keeps the point before none. -/
def withPoint (pointed : Bool) (places n : Nat) : List Char :=
  let cs := padZeros (places + 1) (Decimal.natChars n)
  let whole := cs.take (cs.length - places)
  let fraction := cs.drop (cs.length - places)
  if fraction.isEmpty && !pointed then whole else whole ++ '.' :: fraction

/-- `places` digits behind the point. -/
def fixedChars (pointed : Bool) (places : Nat) (x : Binary64) : List Char :=
  let (num, den) := x.magnitude
  withPoint pointed places (Decimal.roundHalfEven (num * tenTo places) den)

/-- The first `count` digits of a quotient that is not zero, and the exponent of the first of them.
-/
def leadingDigits (count num den : Nat) : Nat × Int :=
  let e := decimalPoint num den - 1
  let k := e - (count - 1 : Nat)
  let n := if 0 ≤ k then Decimal.roundHalfEven num (den * tenTo k.toNat)
    else Decimal.roundHalfEven (num * tenTo (-k).toNat) den
  if n = tenTo count then (tenTo (count - 1), e + 1) else (n, e)

/-- An exponent with its sign and at least two digits. -/
def exponentChars (e : Int) : List Char :=
  (if e < 0 then '-' else '+') :: padZeros 2 (Decimal.natChars e.natAbs)

/-- The digits and the exponent of a real with `places + 1` significant digits. -/
def leading (places : Nat) (x : Binary64) : Nat × Int :=
  let (num, den) := x.magnitude
  if num = 0 then (0, 0) else leadingDigits (places + 1) num den

/-- A mantissa with `places` digits behind the point, and an exponent. -/
def scientificChars (pointed : Bool) (places : Nat) (x : Binary64) : List Char :=
  let (n, e) := leading places x
  withPoint pointed places n ++ 'e' :: exponentChars e

/-- A fraction without idle zeros, nor a point before nothing. -/
def trimFraction (cs : List Char) : List Char :=
  if cs.contains '.' then
    ((cs.reverse.dropWhile (· = '0')).dropWhile (· = '.')).reverse
  else cs

/-- `count` significant digits: an exponent when it is below -4 or reaches `count`, else positional.
`full` keeps idle zeros and the point. -/
def generalChars (full : Bool) (count : Nat) (x : Binary64) : List Char :=
  let count := max 1 count
  let (n, e) := leading (count - 1) x
  let trim (cs : List Char) := if full then cs else trimFraction cs
  if -4 ≤ e && e < count then trim (fixedChars full ((count : Int) - 1 - e).toNat x)
  else trim (withPoint full (count - 1) n) ++ 'e' :: exponentChars e

end RowLang.Binary64
